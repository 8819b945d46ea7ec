/-
Renaming apart.  The new names of a clause carry numbers that are used for the
first time, so they can be given values without regard to any older name.
-/
import Std.Data.String.ToNat
import Horn.Proofs.Projection

namespace Horn

/-- Fresh names with numbers from `fresh` on are not this one. -/
def Older (fresh : Nat) (name : Var) : Prop :=
  ∀ number : Nat, name = freshStem ++ toString number → number < fresh

theorem Older.mono {fresh later : Nat} {name : Var} (hname : Older fresh name)
    (hlater : fresh ≤ later) : Older later name :=
  fun number heq => Nat.lt_of_lt_of_le (hname number heq) hlater

theorem append_number_injective (stem : String) {left right : Nat}
    (heq : stem ++ toString left = stem ++ toString right) : left = right := by
  have hchars := congrArg String.toList heq
  rw [String.toList_append, String.toList_append] at hchars
  exact Nat.repr_injective (String.toList_inj.mp (List.append_cancel_left hchars))

theorem freshName_injective {left right : Nat}
    (heq : freshStem ++ toString left = freshStem ++ toString right) : left = right :=
  append_number_injective freshStem heq

/-- Fresh names start with an underscore. -/
theorem ne_freshName {name : Var} (hname : name.toList.head? ≠ some '_') (number : Nat) :
    name ≠ freshStem ++ toString number := by
  rintro rfl
  rw [String.toList_append] at hname
  exact hname rfl

theorem older_freshName {number fresh : Nat} (hlt : number < fresh) :
    Older fresh (freshStem ++ toString number) := by
  intro other heq
  rw [← freshName_injective heq]
  exact hlt

theorem Clause.seen_renameApart (clause : Clause) (stem : String) (start : Nat) :
    (clause.renameApart stem start).2.seen = clause.occurrences.eraseDups := by
  simp [Clause.renameApart, Clause.renameAll, Renaming.note, Renaming.fresh]

/-- The place of a variable in its clause gives its new name, whatever the first
number is. -/
theorem Clause.exists_place (clause : Clause) (stem : String) {name : Var}
    (hname : name ∈ clause.occurrences) :
    ∃ place, clause.occurrences.eraseDups[place]? = some name ∧ ∀ start,
      (clause.renameApart stem start).2.image name = stem ++ toString (start + place) := by
  have hseen : name ∈ clause.occurrences.eraseDups := List.mem_eraseDups.mpr hname
  obtain ⟨place, hplace⟩ := Option.isSome_iff_exists.mp (List.isSome_idxOf?.mpr hseen)
  obtain ⟨hlt, heq, _⟩ := List.idxOf?_eq_some_iff.mp hplace
  refine ⟨place, List.getElem?_eq_some_iff.mpr ⟨hlt, heq⟩, fun start => ?_⟩
  rw [Renaming.image, clause.seen_renameApart, hplace]
  rfl

theorem Clause.image_renameApart (clause : Clause) (stem : String) (start : Nat) {name : Var}
    (hname : name ∈ clause.occurrences) :
    ∃ place, (clause.renameApart stem start).2.seen[place]? = some name ∧
      (clause.renameApart stem start).2.image name = stem ++ toString (start + place) := by
  obtain ⟨place, hplace, himage⟩ := clause.exists_place stem hname
  exact ⟨place, clause.seen_renameApart stem start ▸ hplace, himage start⟩

theorem Clause.image_injective (clause : Clause) (stem : String) (start : Nat) {left right : Var}
    (hleft : left ∈ clause.occurrences) (hright : right ∈ clause.occurrences)
    (hsame : (clause.renameApart stem start).2.image left =
      (clause.renameApart stem start).2.image right) : left = right := by
  obtain ⟨place, hplace, himage⟩ := clause.image_renameApart stem start hleft
  obtain ⟨place', hplace', himage'⟩ := clause.image_renameApart stem start hright
  have hnumber := append_number_injective stem (himage.symm.trans (hsame.trans himage'))
  obtain rfl : place = place' := by omega
  exact Option.some.inj (hplace.symm.trans hplace')

/-- New names are no older names. -/
theorem Clause.not_older_image (clause : Clause) (start : Nat) {name : Var}
    (hname : name ∈ clause.occurrences) :
    ¬ Older start ((clause.renameApart freshStem start).2.image name) := by
  obtain ⟨place, _, himage⟩ := clause.image_renameApart freshStem start hname
  intro holder
  have hlt := holder _ himage
  omega

/-- The names handed out are older than all that are handed out later. -/
theorem Clause.older_image (clause : Clause) (start : Nat) {name : Var}
    (hname : name ∈ clause.occurrences) :
    Older (start + (clause.renameApart freshStem start).2.used)
      ((clause.renameApart freshStem start).2.image name) := by
  obtain ⟨place, hplace, himage⟩ := clause.image_renameApart freshStem start hname
  obtain ⟨hlt, _⟩ := List.getElem?_eq_some_iff.mp hplace
  rw [himage]
  refine older_freshName ?_
  rw [Renaming.used]
  omega

/-- Under new names that are told apart, variables can be given the values of the
old ones, and all other names any values. -/
theorem exists_valuation_image {names : List Var} {image : Var → Var}
    (hinjective : ∀ left ∈ names, ∀ right ∈ names, image left = image right → left = right)
    (inner outer : Valuation) :
    ∃ valuation : Valuation, (∀ name ∈ names, valuation (image name) = inner name) ∧
      ∀ name, (∀ source ∈ names, image source ≠ name) → valuation name = outer name := by
  refine ⟨fun name =>
    match names.find? fun source => image source = name with
    | some source => inner source
    | none => outer name, ?_, ?_⟩
  · intro name hname
    simp only
    split
    · next source hsource =>
        have himage := List.find?_some hsource
        rw [decide_eq_true_eq] at himage
        rw [hinjective source (List.mem_of_find?_eq_some hsource) name hname himage]
    · next hnone =>
        have hdiffer := List.find?_eq_none.mp hnone name hname
        simp at hdiffer
  · intro name hother
    simp only
    split
    · next source hsource =>
        have himage := List.find?_some hsource
        rw [decide_eq_true_eq] at himage
        exact absurd himage (hother source (List.mem_of_find?_eq_some hsource))
    · rfl

/-- The variables of a renamed clause can be given the values of the clause's
own variables, and all older variables any values. -/
theorem Clause.exists_valuation (clause : Clause) (start : Nat) (inner outer : Valuation) :
    ∃ valuation : Valuation,
      (∀ name ∈ clause.occurrences,
        valuation ((clause.renameApart freshStem start).2.image name) = inner name) ∧
      ∀ name, Older start name → valuation name = outer name := by
  obtain ⟨valuation, hinner, houter⟩ := exists_valuation_image
    (fun left hleft right hright => clause.image_injective freshStem start hleft hright)
    inner outer
  refine ⟨valuation, hinner, fun name holder => houter name fun source hsource himage => ?_⟩
  exact clause.not_older_image start hsource (himage ▸ holder)

/-- A plain term whose variables are all older. -/
def Below (fresh : Nat) (term : Term) : Prop :=
  term.Plain ∧ ∀ name ∈ term.occurrences, Older fresh name

theorem Below.mono {fresh later : Nat} {term : Term} (hterm : Below fresh term)
    (hlater : fresh ≤ later) : Below later term :=
  ⟨hterm.1, fun name hname => (hterm.2 name hname).mono hlater⟩

theorem stable_below (fresh : Nat) : Stable (Below fresh) where
  arg functor args hfact arg harg :=
    ⟨hfact.1.of_mem arg harg, fun name hname =>
      hfact.2 name (Term.mem_occurrences_fact.mpr ⟨arg, harg, hname⟩)⟩
  subst hterm himage :=
    ⟨hterm.1.subst fun name hname => (himage name hname).1, fun name hname => by
      obtain ⟨source, hsource, hname⟩ := Term.mem_occurrences_subst.mp hname
      exact (himage source hsource).2 name hname⟩

theorem Clause.below_rename (clause : Clause) (start : Nat) {term : Term} (hplain : term.Plain)
    (hnames : term.occurrences ⊆ clause.occurrences) :
    Below (start + (clause.renameApart freshStem start).2.used)
      (term.rename (clause.renameApart freshStem start).2.image) := by
  refine ⟨hplain.subst fun name _ => .var _, fun name hname => ?_⟩
  obtain ⟨source, hsource, rfl⟩ := Term.mem_occurrences_rename.mp hname
  exact clause.older_image start (hnames hsource)

end Horn
