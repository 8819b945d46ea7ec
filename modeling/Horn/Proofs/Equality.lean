/-
Equality as programs test it.  Numbers in statements are compared as numbers, and
one that is none differs from itself; no compiled program holds such a number, so
what is read from one equals what was written.  Substitutions are compared by the
texts of their values, name by name.
-/
import Mathlib.Data.Finset.Card
import Horn.Proofs.CompiledProgram

namespace Horn

/-- Only what is no number differs from itself. -/
theorem beq_self (value : Float) : (value == value) = !value.isNaN := by
  change value.toModel.unpack.beq value.toModel.unpack = !value.toModel.unpack.isNaN
  cases value.toModel.unpack with
  | infinity sign => cases sign <;> rfl
  | notANumber => rfl
  | zero sign => cases sign <;> rfl
  | finite sign mantissa exponent hpos =>
      have hexponent : compare exponent exponent = .eq := Std.ReflCmp.compare_self
      have hmantissa : compare mantissa mantissa = .eq := Std.ReflCmp.compare_self
      cases sign with
      | positive =>
          change (some ((compare exponent exponent).then (compare mantissa mantissa)) ==
            some Ordering.eq) = true
          rw [hexponent, hmantissa]
          rfl
      | negative =>
          change (some ((compare exponent exponent).then (compare mantissa mantissa)).swap ==
            some Ordering.eq) = true
          rw [hexponent, hmantissa]
          rfl

section Patterns

open Float.Model

/-- A pattern that stands for no number has all bits of its exponent and some of its
mantissa. -/
theorem unpack_of_isNaN {pattern : BitVec Format.binary64.numBits}
    (hnan : (UnpackedFloat.unpack Format.binary64 pattern).isNaN = true) :
    @UnpackedFloat.unpackExponent Format.binary64 pattern = -1#11 ∧
      @UnpackedFloat.unpackMantissa Format.binary64 pattern ≠ 0#52 := by
  by_cases hones : @UnpackedFloat.unpackExponent Format.binary64 pattern = -1#11
  · refine ⟨hones, fun hnone => ?_⟩
    rw [show UnpackedFloat.unpack Format.binary64 pattern = .infinity _ from
      (if_pos hones).trans (if_pos hnone)] at hnan
    cases hnan
  · by_cases hzero : @UnpackedFloat.unpackExponent Format.binary64 pattern = 0#11
    · by_cases hnone : @UnpackedFloat.unpackMantissa Format.binary64 pattern = 0#52
      · rw [show UnpackedFloat.unpack Format.binary64 pattern = .zero _ from
          (if_neg hones).trans ((if_pos hzero).trans (dif_pos hnone))] at hnan
        cases hnan
      · rw [show UnpackedFloat.unpack Format.binary64 pattern = .finite _ _ _ _ from
          (if_neg hones).trans ((if_pos hzero).trans (dif_neg hnone))] at hnan
        cases hnan
    · rw [show UnpackedFloat.unpack Format.binary64 pattern = .finite _ _ _ _ from
        (if_neg hones).trans (if_neg hzero)] at hnan
      cases hnan

theorem magnitude_of_isNaN {value : Float} (hnan : value.isNaN = true) :
    magnitude value = .notANumber := by
  obtain ⟨hones, hsome⟩ := @unpack_of_isNaN value.toBits.toBitVec hnan
  have hpower : value.toBits.toNat / Nat.pow 2 52 % Nat.pow 2 11 = 2047 := by
    have hexponent := congrArg BitVec.toNat hones
    simpa [UnpackedFloat.unpackExponent, BitVec.extractLsb_toNat,
      Nat.shiftRight_eq_div_pow] using hexponent
  have hfraction : value.toBits.toNat % Nat.pow 2 52 ≠ 0 := by
    intro hnone
    apply hsome
    apply BitVec.eq_of_toNat_eq
    simpa [UnpackedFloat.unpackMantissa, BitVec.extractLsb_toNat,
      Nat.shiftRight_eq_div_pow] using hnone
  unfold magnitude
  dsimp only
  rw [if_pos hpower, if_neg hfraction]

end Patterns

/-- What is no number is written as null, which is not read as a number. -/
theorem Json.ReadsBack.isNaN {value : Float} (hback : (Json.real value).ReadsBack) :
    value.isNaN = false := by
  rw [Bool.eq_false_iff]
  intro hnan
  have hnull : (Json.real value).render = "null" := by
    rw [render, Layout.write]
    simp only [magnitude_of_isNaN hnan]
    rfl
  rw [ReadsBack, hnull] at hback
  cases hback

/-- Numbers that are all numbers. -/
def Proper (numbers : List Float) : Prop :=
  ∀ value ∈ numbers, value.isNaN = false

theorem proper_append {left right : List Float} :
    Proper (left ++ right) ↔ Proper left ∧ Proper right :=
  List.forall_mem_append

mutual

theorem Term.equal_self (term : Term) : term.equal term = true ↔ Proper term.numbers := by
  cases term with
  | num value => simp [Term.equal, Term.numbers, Proper, beq_self]
  | fact functor args => simpa [Term.equal, Term.numbers] using Term.equalAll_self args
  | _ => simp [Term.equal, Term.numbers, Proper]

theorem Term.equalAll_self (terms : List Term) :
    Term.equalAll terms terms = true ↔ Proper (Term.numbersAll terms) := by
  cases terms with
  | nil => simp [Term.equalAll, Term.numbersAll, Proper]
  | cons term rest =>
      rw [Term.equalAll, Bool.and_eq_true, Term.equal_self term, Term.equalAll_self rest,
        Term.numbersAll, proper_append]

end

mutual

theorem Factor.equal_self (factor : Factor) :
    factor.equal factor = true ↔ Proper factor.numbers := by
  cases factor with
  | num value => simp [Factor.equal, Factor.numbers, Proper, beq_self]
  | var name => simp [Factor.equal, Factor.numbers, Proper]
  | paren expr => exact Expr.equal_self expr

theorem Product.equal_self (product : Product) :
    product.equal product = true ↔ Proper product.numbers := by
  obtain ⟨left, op, right⟩ := product
  cases right with
  | none => simpa [Product.equal, Product.numbers] using Factor.equal_self left
  | some right =>
      rw [Product.numbers, proper_append, ← Factor.equal_self left, ← Factor.equal_self right]
      simp [Product.equal]

theorem Expr.equal_self (expr : Expr) : expr.equal expr = true ↔ Proper expr.numbers := by
  obtain ⟨left, op, right⟩ := expr
  cases right with
  | none => simpa [Expr.equal, Expr.numbers] using Product.equal_self left
  | some right =>
      rw [Expr.numbers, proper_append, ← Product.equal_self left, ← Product.equal_self right]
      simp [Expr.equal]

end

theorem Fact.beq_self (fact : Fact) :
    (fact == fact) = true ↔ Proper (Term.numbersAll fact.args) := by
  rw [← Term.equalAll_self]
  change (decide (fact.functor = fact.functor) && Term.equalAll fact.args fact.args) = true ↔ _
  simp

theorem Goal.beq_self (goal : Goal) : (goal == goal) = true ↔ Proper goal.numbers := by
  cases goal with
  | fact goal => exact goal.beq_self
  | assign target value =>
      rw [numbers, ← value.equal_self]
      change (decide (target = target) && value.equal value) = true ↔ _
      simp

theorem Query.beq_self (goals : Query) :
    (goals == goals) = true ↔ Proper (Query.numbers goals) := by
  induction goals with
  | nil => simp [Query.numbers, Proper]
  | cons goal rest ih =>
      rw [List.cons_beq_cons, Bool.and_eq_true, goal.beq_self, ih, Query.numbers, Query.numbers,
        List.flatMap_cons, proper_append]

/-- A statement equals itself unless there is something in it that is no number. -/
theorem Statement.beq_self (statement : Statement) :
    (statement == statement) = true ↔ Proper statement.numbers := by
  rcases statement with (head | ⟨head, body⟩) | goals
  · exact head.beq_self
  · rw [numbers, Clause.numbers, proper_append, ← head.beq_self, ← Query.beq_self,
      ← Bool.and_eq_true]
    rfl
  · exact Query.beq_self goals

/-- What is decoded from a compiled program equals what was encoded. -/
theorem Statement.Storable.beq_self {statement : Statement} (hstatement : statement.Storable) :
    (statement == statement) = true :=
  statement.beq_self.mpr fun value hvalue => (hstatement.numbers value hvalue).isNaN

/-- The statements that a compiled program decodes to equal those it was made of. -/
theorem Compiled.decodeAll_encode_beq {statements : List Statement}
    (hstatements : ∀ statement ∈ statements, statement.Storable) :
    ∃ decoded, decodeAll (encode statements).toUTF8.toList = .ok decoded ∧
      (decoded == statements) = true := by
  refine ⟨statements, decodeAll_encode hstatements, ?_⟩
  induction statements with
  | nil => rfl
  | cons statement rest ih =>
      rw [List.cons_beq_cons, (hstatements statement List.mem_cons_self).beq_self,
        ih fun other hother => hstatements other (List.mem_cons_of_mem statement hother)]
      rfl

namespace Bindings

/-- Substitutions with the same names, where each name has terms of the same text. -/
def Alike (left right : Bindings) : Prop :=
  ∀ name, Option.Rel (fun first second => Term.sameText first second = true)
    (left.get? name) (right.get? name)

theorem mem_toList {bindings : Bindings} {name : Var} {term : Term} :
    (name, term) ∈ bindings.toList ↔ bindings.get? name = some term :=
  Std.ExtTreeMap.mem_toList_iff_getElem?_eq_some

theorem mem_keys_iff {bindings : Bindings} {name : Var} :
    name ∈ bindings.entries.keys ↔ (bindings.get? name).isSome = true := by
  rw [Std.ExtTreeMap.mem_keys, Std.ExtTreeMap.mem_iff_isSome_getElem?]
  rfl

theorem nodup_keys {bindings : Bindings} : bindings.entries.keys.Nodup :=
  Std.ExtTreeMap.distinct_keys.imp fun hne heq => hne (by simp [heq])

/-- With as many names on both sides, it is enough that those of one side are among
those of the other. -/
theorem keys_perm {left right : Bindings} (hsize : left.size = right.size)
    (hnames : ∀ name ∈ left.entries.keys, name ∈ right.entries.keys) :
    left.entries.keys.Perm right.entries.keys := by
  apply (List.subperm_of_subset nodup_keys hnames).perm_of_length_le
  rw [Std.ExtTreeMap.length_keys, Std.ExtTreeMap.length_keys]
  exact hsize.symm.le

theorem sameText_eq_true {left right : Bindings} :
    left.sameText right = true ↔ left.size = right.size ∧
      ∀ name term, left.get? name = some term →
        ∃ other, right.get? name = some other ∧ term.sameText other = true := by
  rw [sameText, Bool.and_eq_true, decide_eq_true_eq, List.all_eq_true]
  refine and_congr_right fun _ => ⟨fun hall name term hterm => ?_, fun hall entry hentry => ?_⟩
  · have hsame := hall (name, term) (mem_toList.mpr hterm)
    dsimp only at hsame
    split at hsame
    · next other hother => exact ⟨other, hother, hsame⟩
    · cases hsame
  · obtain ⟨other, hother, hsame⟩ := hall entry.1 entry.2 (mem_toList.mp hentry)
    rw [hother]
    exact hsame

theorem Alike.mem_keys {left right : Bindings} (halike : left.Alike right) (name : Var) :
    name ∈ left.entries.keys ↔ name ∈ right.entries.keys := by
  have hname := halike name
  rw [mem_keys_iff, mem_keys_iff]
  generalize left.get? name = first, right.get? name = second at hname
  cases hname <;> simp

theorem Alike.symm {left right : Bindings} (halike : left.Alike right) : right.Alike left := by
  intro name
  have hname := halike name
  generalize left.get? name = first, right.get? name = second at hname
  cases hname with
  | none => exact .none
  | some hsame =>
      obtain ⟨hkind, hrender⟩ := Term.sameText_iff.mp hsame
      exact .some (Term.sameText_iff.mpr ⟨hkind.symm, hrender.symm⟩)

/-- Counting names and looking up those of the left side is comparing the two sides
name by name. -/
theorem sameText_iff {left right : Bindings} :
    left.sameText right = true ↔ left.Alike right := by
  rw [sameText_eq_true]
  constructor
  · rintro ⟨hsize, hall⟩ name
    have hnames : ∀ name ∈ left.entries.keys, name ∈ right.entries.keys := by
      intro name hname
      obtain ⟨term, hterm⟩ := Option.isSome_iff_exists.mp (mem_keys_iff.mp hname)
      obtain ⟨other, hother, _⟩ := hall name term hterm
      exact mem_keys_iff.mpr (Option.isSome_iff_exists.mpr ⟨other, hother⟩)
    cases hleft : left.get? name with
    | some term =>
        obtain ⟨other, hother, hsame⟩ := hall name term hleft
        rw [hother]
        exact .some hsame
    | none =>
        have hmissing : name ∉ right.entries.keys := by
          rw [← (keys_perm hsize hnames).mem_iff, mem_keys_iff, hleft]
          exact Bool.false_ne_true
        rw [mem_keys_iff, Option.not_isSome_iff_eq_none] at hmissing
        rw [hmissing]
        exact .none
  · intro halike
    have hperm := (List.perm_ext_iff_of_nodup nodup_keys nodup_keys).mpr halike.mem_keys
    refine ⟨?_, fun name term hterm => ?_⟩
    · rw [size, size, ← Std.ExtTreeMap.length_keys, ← Std.ExtTreeMap.length_keys]
      exact hperm.length_eq
    · have hname := halike name
      rw [hterm] at hname
      generalize right.get? name = second at hname
      cases hname with
      | some hsame => exact ⟨_, rfl, hsame⟩

theorem sameText_comm (left right : Bindings) : left.sameText right = right.sameText left := by
  rw [Bool.eq_iff_iff, sameText_iff, sameText_iff]
  exact ⟨Alike.symm, Alike.symm⟩

end Bindings

end Horn
