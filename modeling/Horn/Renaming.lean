/-
Consistent renaming of variables to numbered names.  The k-th variable met,
counted from zero, becomes the stem followed by the k-th number: `start + k`, or
what that is in words of 64 bits.
-/
import Horn.Statement

namespace Horn

/-- The numbers of new names by place, and the variables met so far, in order of
first occurrence. -/
structure Renaming where
  stem : String
  number : Nat → Nat
  seen : List Var

def Renaming.fresh (stem : String) (start : Nat) : Renaming :=
  ⟨stem, (start + ·), []⟩

/-- A renaming with numbers of 64 bits: zero comes after the largest. -/
def Renaming.ofWord (stem : String) (start : UInt64) : Renaming :=
  ⟨stem, fun place => (start + UInt64.ofNat place).toNat, []⟩

/-- Below the largest word the two ways of numbering agree. -/
theorem Renaming.number_ofWord (stem : String) (start : UInt64) {place : Nat}
    (hbound : start.toNat + place < UInt64.size) :
    (Renaming.ofWord stem start).number place = (Renaming.fresh stem start.toNat).number place := by
  have hplace : (UInt64.ofNat place).toNat = place := by
    rw [UInt64.toNat_ofNat', Nat.mod_eq_of_lt (Nat.lt_of_le_of_lt (Nat.le_add_left _ _) hbound)]
  change (start + UInt64.ofNat place).toNat = start.toNat + place
  rw [UInt64.toNat_add, hplace, Nat.mod_eq_of_lt hbound]

/-- Meet more variables; those met before keep their place. -/
def Renaming.note (names : Renaming) (more : List Var) : Renaming :=
  { names with seen := (names.seen ++ more).eraseDups }

/-- The new name of a variable; one never met is left alone. -/
def Renaming.image (names : Renaming) (name : Var) : Var :=
  match names.seen.idxOf? name with
  | some place => names.stem ++ toString (names.number place)
  | none => name

def Renaming.used (names : Renaming) : Nat :=
  names.seen.length

/-- Old and new names, in order of first occurrence. -/
def Renaming.pairs (names : Renaming) : List (Var × Var) :=
  names.seen.map fun name => (name, names.image name)

/-- Rename one more term, after the ones renamed before. -/
def Renaming.rename (names : Renaming) (term : Term) : Renaming × Term :=
  let extended := names.note term.occurrences
  (extended, term.rename extended.image)

/-- Rename every variable of a clause after the ones renamed before, and give
the renaming with all of them. -/
def Clause.renameAll (clause : Clause) (names : Renaming) : Clause × Renaming :=
  let extended := names.note clause.occurrences
  (clause.rename extended.image, extended)

def Statement.renameAll (statement : Statement) (names : Renaming) : Statement × Renaming :=
  let extended := names.note statement.occurrences
  (statement.rename extended.image, extended)

/-- Rename every variable of a clause to names with a stem and numbers that are
not used yet, of which there is no end. -/
def Clause.renameApart (clause : Clause) (stem : String) (start : Nat) : Clause × Renaming :=
  clause.renameAll (.fresh stem start)

def Clause.anonymize (clause : Clause) (stem : String) (start : UInt64) : Clause × Renaming :=
  clause.renameAll (.ofWord stem start)

def Statement.anonymize (statement : Statement) (stem : String) (start : UInt64) :
    Statement × Renaming :=
  statement.renameAll (.ofWord stem start)

theorem Statement.anonymize_clause (clause : Clause) (stem : String) (start : UInt64) :
    (Statement.clause clause).anonymize stem start =
      (.clause (clause.anonymize stem start).1, (clause.anonymize stem start).2) := rfl

end Horn
