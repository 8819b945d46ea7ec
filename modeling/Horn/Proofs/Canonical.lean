/-
Canonical names.  With its variables numbered in order of first occurrence, a
statement stands for all statements that differ from it in the names of their
variables alone.
-/
import Horn.Proofs.Apart
import Horn.Proofs.Walks

namespace Horn

/-- The new name of the variable at a place. -/
def wordName (stem : String) (start : UInt64) (place : Nat) : Var :=
  stem ++ toString (start + UInt64.ofNat place)

section Names

variable (stem : String) (start : UInt64)

/-- Below the largest word the number is the sum. -/
theorem wordName_of_lt {place : Nat} (hlt : start.toNat + place < UInt64.size) :
    wordName stem start place = stem ++ toString (start.toNat + place) :=
  congrArg (stem ++ toString ·) (Renaming.number_ofWord stem start hlt)

/-- As many places as there are words have names of their own. -/
theorem wordName_injective {left right : Nat} (hleft : left < UInt64.size)
    (hright : right < UInt64.size) (heq : wordName stem start left = wordName stem start right) :
    left = right := by
  have hnumber : (start + UInt64.ofNat left).toNat = (start + UInt64.ofNat right).toNat :=
    append_number_injective stem heq
  have hword : UInt64.ofNat left = UInt64.ofNat right :=
    (UInt64.add_right_inj start).mp (UInt64.toNat_inj.mp hnumber)
  have hplace := congrArg UInt64.toNat hword
  rwa [UInt64.toNat_ofNat', UInt64.toNat_ofNat', Nat.mod_eq_of_lt hleft,
    Nat.mod_eq_of_lt hright] at hplace

end Names

namespace Statement

section Anonymize

variable (statement : Statement) (stem : String) (start : UInt64)

theorem seen_anonymize :
    (statement.anonymize stem start).2.seen = statement.variables := by
  rw [statement.variables_eq]
  exact Renaming.seen_note rfl statement.occurrences

theorem nodup_variables : statement.variables.Nodup := by
  rw [statement.variables_eq]
  exact nodup_eraseDups statement.occurrences

theorem mem_variables {name : Var} :
    name ∈ statement.variables ↔ name ∈ statement.occurrences := by
  rw [statement.variables_eq, List.mem_eraseDups]

theorem image_anonymize {place : Nat} {name : Var}
    (hplace : statement.variables[place]? = some name) :
    (statement.anonymize stem start).2.image name = wordName stem start place := by
  have hnodup : (statement.anonymize stem start).2.seen.Nodup := by
    rw [seen_anonymize]
    exact statement.nodup_variables
  rw [← seen_anonymize statement stem start] at hplace
  exact Renaming.image_of_place hnodup hplace

/-- Taking the variables one at a time comes to the same statement and to the same
mapping. -/
theorem run_renameWith :
    ((statement.renameWith (wordName stem start)).run []).run =
      ((statement.anonymize stem start).1, (statement.anonymize stem start).2.pairs) :=
  Renames.run_nil (Renaming.ofWord stem start) rfl statement.renames

variable {statement}

theorem injOn_anonymize (hcount : statement.variables.length ≤ UInt64.size) :
    Set.InjOn (statement.anonymize stem start).2.image {name | name ∈ statement.variables} := by
  intro left hleft right hright hsame
  obtain ⟨place, hplace⟩ := List.mem_iff_getElem?.mp hleft
  obtain ⟨place', hplace'⟩ := List.mem_iff_getElem?.mp hright
  rw [image_anonymize statement stem start hplace, image_anonymize statement stem start hplace']
    at hsame
  have hlt := (List.getElem?_eq_some_iff.mp hplace).1.trans_le hcount
  have hlt' := (List.getElem?_eq_some_iff.mp hplace').1.trans_le hcount
  obtain rfl := wordName_injective stem start hlt hlt' hsame
  exact Option.some.inj (hplace.symm.trans hplace')

end Anonymize

section Variants

variable {statement other : Statement} {image : Var → Var}

/-- Each variable once commutes with a renaming that tells variables apart. -/
theorem variables_rename (hinjective : Set.InjOn image {name | name ∈ statement.variables}) :
    (statement.rename image).variables = statement.variables.map image := by
  rw [Statement.variables_eq, Statement.variables_eq, statement.occurrences_rename]
  refine eraseDups_map image fun left hleft right hright hsame => ?_
  exact hinjective (statement.mem_variables.mpr hleft) (statement.mem_variables.mpr hright) hsame

/-- Numbering the variables absorbs a renaming before it. -/
theorem anonymize_rename (stem : String) (start : UInt64)
    (hinjective : Set.InjOn image {name | name ∈ statement.variables}) :
    ((statement.rename image).anonymize stem start).1 = (statement.anonymize stem start).1 := by
  refine rename_rename fun name hname => ?_
  obtain ⟨place, hplace⟩ := List.mem_iff_getElem?.mp (statement.mem_variables.mpr hname)
  have hrenamed : (statement.rename image).variables[place]? = some (image name) := by
    rw [variables_rename hinjective, List.getElem?_map, hplace, Option.map_some]
  exact (image_anonymize _ stem start hrenamed).trans
    (image_anonymize statement stem start hplace).symm

/-- Statements that two renamings make alike are renamings of each other: go along
the one and back along the other. -/
theorem exists_rename_of_eq {first second : Var → Var}
    (hfirst : Set.InjOn first {name | name ∈ statement.variables})
    (hsecond : Set.InjOn second {name | name ∈ other.variables})
    (hsame : statement.rename first = other.rename second) :
    ∃ image, Set.InjOn image {name | name ∈ statement.variables} ∧
      other = statement.rename image := by
  let back := Function.invFunOn second {name | name ∈ other.variables}
  have hback : ∀ name ∈ other.variables, back (second name) = name :=
    fun _ hname => hsecond.leftInvOn_invFunOn hname
  have hoccurrences : statement.occurrences.map first = other.occurrences.map second := by
    rw [← statement.occurrences_rename, ← other.occurrences_rename, hsame]
  refine ⟨back ∘ first, ?_, ?_⟩
  · intro left hleft right hright heq
    have hreached : ∀ name ∈ statement.variables,
        ∃ source ∈ other.variables, second source = first name := by
      intro name hname
      have hmem := List.mem_map_of_mem (f := first) (statement.mem_variables.mp hname)
      rw [hoccurrences] at hmem
      obtain ⟨source, hsource, himage⟩ := List.mem_map.mp hmem
      exact ⟨source, other.mem_variables.mpr hsource, himage⟩
    obtain ⟨source, hsource, himage⟩ := hreached left hleft
    obtain ⟨source', hsource', himage'⟩ := hreached right hright
    rw [Function.comp_apply, Function.comp_apply, ← himage, ← himage', hback source hsource,
      hback source' hsource'] at heq
    exact hfirst hleft hright (himage.symm.trans ((congrArg second heq).trans himage'))
  · calc other = other.rename id := other.rename_id.symm
      _ = (other.rename second).rename back :=
          (rename_rename fun name hname => hback name (other.mem_variables.mpr hname)).symm
      _ = (statement.rename first).rename back := by rw [hsame]
      _ = statement.rename (back ∘ first) := rename_rename fun _ _ => rfl

end Variants

end Statement

theorem Clause.run_renameWith (clause : Clause) (stem : String) (start : UInt64) :
    ((clause.renameWith (wordName stem start)).run []).run =
      ((clause.anonymize stem start).1, (clause.anonymize stem start).2.pairs) :=
  Renames.run_nil (Renaming.ofWord stem start) rfl clause.renames

/-- A statement with its variables numbered.  The k-th in order of first occurrence
has become the stem followed by `start + k`, in words of 64 bits, at each of its
occurrences, and no other has become the same; where all names are made alike no
difference is left. -/
structure Statement.Numbered (stem : String) (start : UInt64) (statement : Statement)
    (result : Statement × Renaming) : Prop where
  image : ∀ place name, statement.variables[place]? = some name →
    result.2.image name = stem ++ toString (start + UInt64.ofNat place)
  image_of_lt : ∀ place name, statement.variables[place]? = some name →
    start.toNat + place < UInt64.size →
    result.2.image name = stem ++ toString (start.toNat + place)
  injective : Set.InjOn result.2.image {name | name ∈ statement.variables}
  used : result.2.used = statement.variables.length
  occurrences : result.1.occurrences = statement.occurrences.map result.2.image
  rest : ∀ name, result.1.rename (fun _ => name) = statement.rename fun _ => name

theorem Statement.numbered_anonymize (stem : String) (start : UInt64) {statement : Statement}
    (hcount : statement.variables.length ≤ UInt64.size) :
    statement.Numbered stem start (statement.anonymize stem start) where
  image _ _ hplace := statement.image_anonymize stem start hplace
  image_of_lt _ _ hplace hlt :=
    (statement.image_anonymize stem start hplace).trans (wordName_of_lt stem start hlt)
  injective := injOn_anonymize stem start hcount
  used := congrArg List.length (statement.seen_anonymize stem start)
  occurrences := statement.occurrences_rename _
  rest _ := rename_rename fun _ _ => rfl

/-- Numbering makes a canonical form, whatever names a statement had before: two
statements have the same one if and only if one is the other with its variables
renamed and still told apart.  The walk that collects the variables one at a time
finds the same ones, and the walk that renames them makes the same statement and
mapping.  Clauses by themselves are numbered as statements are.

Variables are counted in words of 64 bits; no statement in memory has more of them
than there are words. -/
theorem numbering_is_canonical_form (stem : String) (start : UInt64) (statement other : Statement)
    (hstatement : statement.variables.length ≤ UInt64.size)
    (hother : other.variables.length ≤ UInt64.size) :
    statement.Numbered stem start (statement.anonymize stem start) ∧
    ((statement.anonymize stem start).1 = (other.anonymize stem start).1 ↔
      ∃ image, Set.InjOn image {name | name ∈ statement.variables} ∧
        other = statement.rename image) ∧
    statement.collected = statement.variables ∧
    ((statement.renameWith (wordName stem start)).run []).run =
      ((statement.anonymize stem start).1, (statement.anonymize stem start).2.pairs) ∧
    ∀ clause : Clause,
      (Statement.clause clause).anonymize stem start =
        (.clause (clause.anonymize stem start).1, (clause.anonymize stem start).2) ∧
      ((clause.renameWith (wordName stem start)).run []).run =
        ((clause.anonymize stem start).1, (clause.anonymize stem start).2.pairs) := by
  have hcanonical : (statement.anonymize stem start).1 = (other.anonymize stem start).1 ↔
      ∃ image, Set.InjOn image {name | name ∈ statement.variables} ∧
        other = statement.rename image := by
    constructor
    · exact Statement.exists_rename_of_eq (Statement.injOn_anonymize stem start hstatement)
        (Statement.injOn_anonymize stem start hother)
    · rintro ⟨image, hinjective, rfl⟩
      exact (Statement.anonymize_rename stem start hinjective).symm
  exact ⟨Statement.numbered_anonymize stem start hstatement, hcanonical,
    statement.collected_eq_variables, statement.run_renameWith stem start,
    fun clause => ⟨Statement.anonymize_clause clause stem start,
      clause.run_renameWith stem start⟩⟩

/-- The rule `p(_sf1,X) :- q(X,_sf0), Y is X + _sf1` has the form of the rule
`p(A,B) :- q(B,_sf1), _sf0 is B + A`, though both have names that are given out. -/
theorem given_names_are_numbered_anew :
    let sum (left right : Var) : Expr :=
      ⟨.single (.var left), some .add, some (.single (.var right))⟩
    let rule (first second third last : Var) : Statement :=
      .clause (.rule ⟨"p", [.var first, .var second]⟩
        [.fact ⟨"q", [.var second, .var third]⟩, .assign last (sum second first)])
    let statement := rule "_sf1" "X" "_sf0" "Y"
    let other := rule "A" "B" "_sf1" "_sf0"
    statement.variables.length ≤ UInt64.size ∧ other.variables.length ≤ UInt64.size ∧
    (statement.anonymize "_sf" 0).1 = (other.anonymize "_sf" 0).1 ∧
    (statement.anonymize "_sf" 0).2.image "_sf0" = "_sf2" := by
  intro sum rule statement other
  have hvariables : statement.variables = ["_sf1", "X", "_sf0", "Y"] := by decide +kernel
  have hothers : other.variables = ["A", "B", "_sf1", "_sf0"] := by decide +kernel
  have hcount : statement.variables.length ≤ UInt64.size := by rw [hvariables]; decide
  have hcount' : other.variables.length ≤ UInt64.size := by rw [hothers]; decide
  obtain ⟨hnumbered, hcanonical, _⟩ :=
    numbering_is_canonical_form "_sf" 0 statement other hcount hcount'
  let image : Var → Var := fun name =>
    if name = "_sf1" then "A" else if name = "X" then "B" else if name = "_sf0" then "_sf1"
    else "_sf0"
  have hinjective : Set.InjOn image {name | name ∈ statement.variables} := by
    have hall : ∀ left ∈ statement.variables, ∀ right ∈ statement.variables,
        image left = image right → left = right := by
      rw [hvariables]
      decide
    exact fun left hleft right hright => hall left hleft right hright
  refine ⟨hcount, hcount', hcanonical.mpr ⟨image, hinjective, rfl⟩, ?_⟩
  have hplace : statement.variables[2]? = some "_sf0" := by rw [hvariables]; rfl
  exact (hnumbered.image 2 "_sf0" hplace).trans (by decide +kernel)

end Horn
