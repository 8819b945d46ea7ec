/-
The store of clauses.  Clauses are renamed apart when they are stored, and
found by signature in the order in which they came.
-/
import Std.Data.ExtTreeMap
import Std.Data.String.ToNat
import Horn.Renaming

namespace Horn

namespace Signature

/-- Signatures are ordered by functor, then by arity. -/
def order : Signature → Signature → Ordering :=
  compareLex (compareOn Signature.functor) (compareOn Signature.arity)

instance : Std.TransCmp order :=
  inferInstanceAs (Std.TransCmp (compareLex _ _))

instance : Std.LawfulEqCmp order where
  eq_of_compare {left right} hequal := by
    simp only [order, compareLex, compareOn, Ordering.then_eq_eq,
      Std.compare_eq_iff_eq] at hequal
    cases left
    cases right
    simp_all

/-- The text by which the clauses of a signature are found. -/
def key (signature : Signature) : String :=
  signature.functor ++ "/" ++ toString signature.arity

theorem toList_key (signature : Signature) :
    signature.key.toList =
      signature.functor.toList ++ '/' :: Nat.toDigits 10 signature.arity := by
  simp [key]

theorem ne_slash_of_mem_digits {number : Nat} {c : Char} (hc : c ∈ Nat.toDigits 10 number) :
    c ≠ '/' := by
  rintro rfl
  exact absurd (Nat.isDigit_of_mem_toDigits (by decide) (by decide) hc) (by decide)

/-- Read from its end, a key is digits up to the first slash: the functor may hold
slashes and digits of its own. -/
theorem reverse_key (signature : Signature) :
    signature.key.toList.reverse.takeWhile (· ≠ '/') =
        (Nat.toDigits 10 signature.arity).reverse ∧
      signature.key.toList.reverse.dropWhile (· ≠ '/') =
        '/' :: signature.functor.toList.reverse := by
  have hdigits : ∀ c ∈ (Nat.toDigits 10 signature.arity).reverse, decide (c ≠ '/') = true := by
    intro c hc
    exact decide_eq_true (ne_slash_of_mem_digits (List.mem_reverse.mp hc))
  rw [toList_key, List.reverse_append, List.reverse_cons, List.append_assoc,
    List.takeWhile_append_of_pos hdigits, List.dropWhile_append_of_pos hdigits]
  simp

/-- No two signatures have the same key. -/
theorem key_injective {left right : Signature} (hkey : left.key = right.key) : left = right := by
  obtain ⟨harity, hfunctor⟩ := left.reverse_key
  obtain ⟨harity', hfunctor'⟩ := right.reverse_key
  rw [hkey, harity'] at harity
  rw [hkey, hfunctor'] at hfunctor
  have hdigits := List.reverse_inj.mp harity
  have hchars := List.reverse_inj.mp (List.cons.inj hfunctor).2
  obtain ⟨functor, arity⟩ := left
  obtain ⟨functor', arity'⟩ := right
  obtain rfl : functor' = functor := String.toList_inj.mp hchars
  obtain rfl : arity' = arity := Nat.repr_injective (congrArg String.ofList hdigits)
  rfl

@[simp] theorem key_inj {left right : Signature} : left.key = right.key ↔ left = right :=
  ⟨key_injective, congrArg key⟩

end Signature

/-- What the names of variables in the store start with. -/
def storeStem : String := "_h"

/-- The stored clauses under the keys of their signatures, the next number for
the name of a variable, and the number of clauses. -/
structure Theory where
  buckets : Std.ExtTreeMap String (List Clause)
  nextVar : Nat
  size : Nat

namespace Theory

def empty : Theory := ⟨∅, 0, 0⟩

/-- The clauses of a signature, oldest first. -/
def lookup (theory : Theory) (signature : Signature) : List Clause :=
  theory.buckets[signature.key]?.getD []

/-- Store a clause after renaming its variables to names not used before. -/
def insert (theory : Theory) (clause : Clause) : Theory :=
  let stored := clause.renameApart storeStem theory.nextVar
  { buckets := theory.buckets.insert clause.signature.key
      (theory.lookup clause.signature ++ [stored.1])
    nextVar := theory.nextVar + stored.2.used
    size := theory.size + 1 }

/-- Store a statement, unless it is a query. -/
def insertStatement (theory : Theory) : Statement → Theory
  | .clause clause => theory.insert clause
  | .query _ => theory

def insertAll (theory : Theory) (statements : List Statement) : Theory :=
  statements.foldl insertStatement theory

def ofStatements (statements : List Statement) : Theory :=
  empty.insertAll statements

/-- The signature of a bucket is that of its first clause. -/
def bucketSignature? (entry : String × List Clause) : Option Signature :=
  entry.2.head?.map Clause.signature

/-- The signatures with a clause, in order. -/
def signatures (theory : Theory) : List Signature :=
  (theory.buckets.toList.filterMap bucketSignature?).mergeSort
    fun left right => (left.order right).isLE

/-- All clauses, grouped by signature. -/
def toList (theory : Theory) : List Clause :=
  theory.signatures.flatMap theory.lookup

@[simp] theorem lookup_empty (signature : Signature) : empty.lookup signature = [] := by
  simp [empty, lookup]

theorem lookup_insert (theory : Theory) (clause : Clause) (signature : Signature) :
    (theory.insert clause).lookup signature =
      if clause.signature = signature then
        theory.lookup signature ++ [(clause.renameApart storeStem theory.nextVar).1]
      else theory.lookup signature := by
  by_cases hsignature : clause.signature = signature
  · subst hsignature
    simp [insert, lookup]
  · simp [insert, lookup, Std.ExtTreeMap.getElem?_insert, hsignature]

@[simp] theorem size_insert (theory : Theory) (clause : Clause) :
    (theory.insert clause).size = theory.size + 1 := rfl

/-- A statement goes behind the clauses of its own signature and of no other; a
query has none. -/
theorem lookup_insertStatement (theory : Theory) (statement : Statement) (signature : Signature) :
    ∃ stored, (theory.insertStatement statement).lookup signature =
        theory.lookup signature ++ stored ∧
      (stored = [] ↔ statement.signature? ≠ some signature) := by
  cases statement with
  | query goals =>
      refine ⟨[], (List.append_nil _).symm, ?_⟩
      simp [Statement.signature?]
  | clause clause =>
      rw [insertStatement, lookup_insert, Statement.signature?]
      split
      · next hsame => exact ⟨_, rfl, by simp [hsame]⟩
      · next hother => exact ⟨[], (List.append_nil _).symm, by simp [hother]⟩

end Theory

end Horn
