/-
Walks over a statement that take its variables one at a time.  One kind collects
each variable at its first occurrence; another renames every occurrence, and
gives a variable that it meets for the first time the next new name.  Both meet
the occurrences from left to right, and so they come to the same variables in
the same order.
-/
import Mathlib.Data.List.Induction
import Mathlib.Data.List.Nodup
import Horn.Proofs.Renamed

namespace Horn

/-- Take a variable up after those that were met, unless it is one of them. -/
def collectVar (out : List Var) (name : Var) : List Var :=
  if name ∈ out then out else out ++ [name]

mutual

def Term.collect : Term → List Var → List Var
  | .var name, out => collectVar out name
  | .atom _, out => out
  | .str _, out => out
  | .num _, out => out
  | .fact _ args, out => Term.collectAll args out

def Term.collectAll : List Term → List Var → List Var
  | [], out => out
  | term :: rest, out => Term.collectAll rest (term.collect out)

end

mutual

def Factor.collect : Factor → List Var → List Var
  | .num _, out => out
  | .var name, out => collectVar out name
  | .paren expr, out => expr.collect out

/-- The right operand, where there is one, counts whatever the operator is. -/
def Product.collect : Product → List Var → List Var
  | ⟨left, _, none⟩, out => left.collect out
  | ⟨left, _, some right⟩, out => right.collect (left.collect out)

/-- The right operand, where there is one, counts whatever the operator is. -/
def Expr.collect : Expr → List Var → List Var
  | ⟨left, _, none⟩, out => left.collect out
  | ⟨left, _, some right⟩, out => right.collect (left.collect out)

end

def Fact.collected (fact : Fact) : List Var :=
  Term.collectAll fact.args []

/-- The assigned variable comes first. -/
def Goal.collected : Goal → List Var
  | .fact goal => goal.collected
  | .assign target value => value.collect [target]

/-- The variables of each goal by itself, merged. -/
def Query.collected (goals : Query) : List Var :=
  goals.foldl (fun out goal => goal.collected.foldl collectVar out) []

/-- The variables of the body by itself, merged into those of the head. -/
def Clause.collected : Clause → List Var
  | .fact head => head.collected
  | .rule head body => (Query.collected body).foldl collectVar head.collected

def Statement.collected : Statement → List Var
  | .clause entry => entry.collected
  | .query goals => Query.collected goals

section Collecting

theorem mem_collectVar {out : List Var} {name other : Var} :
    other ∈ collectVar out name ↔ other ∈ out ∨ other = name := by
  rw [collectVar]
  split
  · next hmem => exact ⟨Or.inl, fun hother => hother.elim id fun heq => heq ▸ hmem⟩
  · rw [List.mem_append, List.mem_singleton]

theorem mem_foldl_collectVar {names out : List Var} {name : Var} :
    name ∈ names.foldl collectVar out ↔ name ∈ out ∨ name ∈ names := by
  induction names generalizing out with
  | nil => simp
  | cons first rest ih => rw [List.foldl_cons, ih, mem_collectVar, List.mem_cons, or_assoc]

theorem collectVar_of_mem {out : List Var} {name : Var} (hmem : name ∈ out) :
    collectVar out name = out :=
  if_pos hmem

/-- Variables that were collected by themselves are merged as if they were met one
by one. -/
theorem foldl_collectVar_collected (names out : List Var) :
    (names.foldl collectVar []).foldl collectVar out = names.foldl collectVar out := by
  induction names using List.reverseRecOn with
  | nil => rfl
  | append_singleton names name ih =>
      rw [List.foldl_concat, List.foldl_concat, ← ih]
      by_cases hmem : name ∈ names.foldl collectVar []
      · rw [collectVar_of_mem hmem, collectVar_of_mem (mem_foldl_collectVar.mpr (Or.inr hmem))]
      · rw [collectVar, if_neg hmem, List.foldl_concat]

theorem eraseDups_concat (names : List Var) (name : Var) :
    (names ++ [name]).eraseDups = collectVar names.eraseDups name := by
  rw [List.eraseDups_append, collectVar]
  by_cases hmem : name ∈ names
  · rw [if_pos (List.mem_eraseDups.mpr hmem)]
    simp [List.removeAll, hmem]
  · rw [if_neg fun hdups => hmem (List.mem_eraseDups.mp hdups)]
    simp [List.removeAll, hmem, List.eraseDups_cons]

theorem foldl_collectVar_eq_eraseDups (names : List Var) :
    names.foldl collectVar [] = names.eraseDups := by
  induction names using List.reverseRecOn with
  | nil => rfl
  | append_singleton names name ih => rw [List.foldl_concat, ih, eraseDups_concat]

theorem nodup_eraseDups (names : List Var) : names.eraseDups.Nodup := by
  induction names using List.reverseRecOn with
  | nil => exact List.nodup_nil
  | append_singleton names name ih =>
      rw [eraseDups_concat, collectVar]
      split
      · exact ih
      · next hnew => exact List.concat_eq_append ▸ ih.concat hnew

mutual

theorem Term.collect_eq (term : Term) (out : List Var) :
    term.collect out = term.occurrences.foldl collectVar out := by
  cases term with
  | fact functor args => exact Term.collectAll_eq args out
  | _ => rfl

theorem Term.collectAll_eq (terms : List Term) (out : List Var) :
    Term.collectAll terms out = (Term.occurrencesAll terms).foldl collectVar out := by
  cases terms with
  | nil => rfl
  | cons term rest =>
      rw [Term.collectAll, Term.occurrencesAll, List.foldl_append, term.collect_eq,
        Term.collectAll_eq rest]

end

mutual

theorem Factor.collect_eq (factor : Factor) (out : List Var) :
    factor.collect out = factor.occurrences.foldl collectVar out := by
  cases factor with
  | paren expr => exact Expr.collect_eq expr out
  | _ => rfl

theorem Product.collect_eq (product : Product) (out : List Var) :
    product.collect out = product.occurrences.foldl collectVar out := by
  obtain ⟨left, op, right⟩ := product
  cases right with
  | none => exact Factor.collect_eq left out
  | some right =>
      rw [Product.collect, Product.occurrences, List.foldl_append, Factor.collect_eq left,
        Factor.collect_eq right]

theorem Expr.collect_eq (expr : Expr) (out : List Var) :
    expr.collect out = expr.occurrences.foldl collectVar out := by
  obtain ⟨left, op, right⟩ := expr
  cases right with
  | none => exact Product.collect_eq left out
  | some right =>
      rw [Expr.collect, Expr.occurrences, List.foldl_append, Product.collect_eq left,
        Product.collect_eq right]

end

/-- Variables collected by themselves are those of a part, each once; merged, they
are those of the whole. -/
theorem foldl_collectVar_eraseDups (names out : List Var) :
    names.eraseDups.foldl collectVar out = names.foldl collectVar out := by
  rw [← foldl_collectVar_eq_eraseDups, foldl_collectVar_collected]

theorem Term.collect_nil (term : Term) : term.collect [] = term.variables := by
  rw [term.collect_eq, foldl_collectVar_eq_eraseDups, Term.variables]

theorem Expr.collect_nil (expr : Expr) : expr.collect [] = expr.variables := by
  rw [expr.collect_eq, foldl_collectVar_eq_eraseDups, Expr.variables]

theorem Fact.collected_eq_variables (fact : Fact) : fact.collected = fact.variables := by
  rw [collected, Term.collectAll_eq, foldl_collectVar_eq_eraseDups, Fact.variables, occurrences]

theorem Goal.collected_eq_variables (goal : Goal) : goal.collected = goal.variables := by
  cases goal with
  | fact goal => exact goal.collected_eq_variables
  | assign target value =>
      rw [collected, value.collect_eq, Goal.variables, ← foldl_collectVar_eq_eraseDups]
      rfl

theorem Query.collected_eq_variables (goals : Query) :
    Query.collected goals = Query.variables goals := by
  rw [Query.variables, ← foldl_collectVar_eq_eraseDups, Query.collected, Query.occurrences,
    List.foldl_flatMap]
  refine List.foldl_ext _ _ _ fun out goal _ => ?_
  rw [goal.collected_eq_variables, Goal.variables, foldl_collectVar_eraseDups]

theorem Clause.collected_eq_variables (clause : Clause) :
    clause.collected = clause.variables := by
  cases clause with
  | fact head => exact head.collected_eq_variables
  | rule head body =>
      rw [collected, head.collected_eq_variables, Query.collected_eq_variables, Query.variables,
        foldl_collectVar_eraseDups, Fact.variables, ← foldl_collectVar_eq_eraseDups,
        ← List.foldl_append, foldl_collectVar_eq_eraseDups, Clause.variables, occurrences]

/-- The variables collected are those that occur, each once. -/
theorem Statement.collected_eq_variables (statement : Statement) :
    statement.collected = statement.variables := by
  cases statement with
  | clause entry => exact entry.collected_eq_variables
  | query goals => exact Query.collected_eq_variables goals

end Collecting

/-- Old names and their new ones, in the order in which they were met. -/
abbrev Mapping := List (Var × Var)

/-- What has become of a name; one that was never met is left alone. -/
def Mapping.image (mapping : Mapping) (name : Var) : Var :=
  (mapping.lookup name).getD name

/-- A mapping after one more name: one without a new name gets the next. -/
def Mapping.meet (fresh : Nat → Var) (mapping : Mapping) (name : Var) : Mapping :=
  match mapping.lookup name with
  | none => mapping ++ [(name, fresh mapping.length)]
  | some _ => mapping

def Mapping.meetAll (fresh : Nat → Var) (mapping : Mapping) (names : List Var) : Mapping :=
  names.foldl (Mapping.meet fresh) mapping

section Walks

variable (fresh : Nat → Var)

/-- Rename one occurrence of a variable. -/
def renameVar (name : Var) : StateM Mapping Var := do
  let mapping ← get
  match mapping.lookup name with
  | none =>
      set (mapping ++ [(name, fresh mapping.length)])
      return fresh mapping.length
  | some known => return known

mutual

def Term.renameWith : Term → StateM Mapping Term
  | .var name => .var <$> renameVar fresh name
  | .atom text => pure (.atom text)
  | .str text => pure (.str text)
  | .num value => pure (.num value)
  | .fact functor args => .fact functor <$> Term.renameAllWith args

def Term.renameAllWith : List Term → StateM Mapping (List Term)
  | [] => pure []
  | term :: rest => List.cons <$> term.renameWith <*> Term.renameAllWith rest

end

mutual

def Factor.renameWith : Factor → StateM Mapping Factor
  | .num value => pure (.num value)
  | .var name => .var <$> renameVar fresh name
  | .paren expr => .paren <$> expr.renameWith

def Product.renameWith : Product → StateM Mapping Product
  | ⟨left, op, none⟩ => (⟨·, op, none⟩) <$> left.renameWith
  | ⟨left, op, some right⟩ => (⟨·, op, some ·⟩) <$> left.renameWith <*> right.renameWith

def Expr.renameWith : Expr → StateM Mapping Expr
  | ⟨left, op, none⟩ => (⟨·, op, none⟩) <$> left.renameWith
  | ⟨left, op, some right⟩ => (⟨·, op, some ·⟩) <$> left.renameWith <*> right.renameWith

end

def Fact.renameWith (fact : Fact) : StateM Mapping Fact :=
  (⟨fact.functor, ·⟩) <$> Term.renameAllWith fresh fact.args

/-- The assigned variable comes first. -/
def Goal.renameWith : Goal → StateM Mapping Goal
  | .fact goal => .fact <$> goal.renameWith fresh
  | .assign target value => .assign <$> renameVar fresh target <*> value.renameWith fresh

def Query.renameWith : Query → StateM Mapping Query
  | [] => pure []
  | goal :: rest => List.cons <$> goal.renameWith fresh <*> Query.renameWith rest

/-- The head comes before the body. -/
def Clause.renameWith : Clause → StateM Mapping Clause
  | .fact head => .fact <$> head.renameWith fresh
  | .rule head body => .rule <$> head.renameWith fresh <*> Query.renameWith fresh body

def Statement.renameWith : Statement → StateM Mapping Statement
  | .clause entry => .clause <$> entry.renameWith fresh
  | .query goals => .query <$> Query.renameWith fresh goals

/-- A walk meets the given occurrences one after another, and makes of them what
the mapping says in the end. -/
structure Renames {α : Type} (walk : StateM Mapping α) (occurrences : List Var)
    (renamed : (Var → Var) → α) : Prop where
  run (mapping : Mapping) : walk.run mapping =
    pure (renamed (mapping.meetAll fresh occurrences).image, mapping.meetAll fresh occurrences)
  congr {first second : Var → Var} (hsame : ∀ name ∈ occurrences, first name = second name) :
    renamed first = renamed second

end Walks

section Meeting

variable {fresh : Nat → Var} {mapping : Mapping} {name other known : Var}

theorem lookup_meet (hknown : mapping.lookup name = some known) :
    (mapping.meet fresh other).lookup name = some known := by
  rw [Mapping.meet]
  split
  · rw [List.lookup_append, hknown, Option.some_or]
  · exact hknown

theorem lookup_meetAll {names : List Var} (hknown : mapping.lookup name = some known) :
    (mapping.meetAll fresh names).lookup name = some known := by
  induction names generalizing mapping with
  | nil => exact hknown
  | cons first rest ih => exact ih (lookup_meet hknown)

theorem exists_lookup_meet (fresh : Nat → Var) (mapping : Mapping) (name : Var) :
    ∃ known, (mapping.meet fresh name).lookup name = some known := by
  rw [Mapping.meet]
  split
  · next hnone =>
      refine ⟨fresh mapping.length, ?_⟩
      rw [List.lookup_append, hnone, Option.none_or, List.lookup_cons_self]
  · next known hknown => exact ⟨known, hknown⟩

theorem exists_lookup_meetAll (fresh : Nat → Var) (mapping : Mapping) {names : List Var}
    (hmem : name ∈ names) : ∃ known, (mapping.meetAll fresh names).lookup name = some known := by
  induction names generalizing mapping with
  | nil => cases hmem
  | cons first rest ih =>
      rcases List.mem_cons.mp hmem with rfl | hmem
      · obtain ⟨known, hknown⟩ := exists_lookup_meet fresh mapping name
        have hkept : ((mapping.meet fresh name).meetAll fresh rest).lookup name = some known :=
          lookup_meetAll hknown
        exact ⟨known, hkept⟩
      · exact ih _ hmem

theorem meetAll_append (names more : List Var) :
    mapping.meetAll fresh (names ++ more) = (mapping.meetAll fresh names).meetAll fresh more :=
  List.foldl_append

/-- What was met keeps its new name. -/
theorem image_meetAll_append {names more : List Var} (hmem : name ∈ names) :
    (mapping.meetAll fresh (names ++ more)).image name =
      (mapping.meetAll fresh names).image name := by
  obtain ⟨known, hknown⟩ := exists_lookup_meetAll fresh mapping hmem
  rw [meetAll_append, Mapping.image, Mapping.image, hknown, lookup_meetAll hknown]

end Meeting

namespace Renames

variable {fresh : Nat → Var} {α β : Type}

theorem pure (value : α) : Renames fresh (pure value) [] fun _ => value where
  run _ := rfl
  congr _ := rfl

theorem var (name : Var) : Renames fresh (renameVar fresh name) [name] fun image => image name where
  run mapping := by
    cases hlookup : mapping.lookup name with
    | some known =>
        have hmet : mapping.meetAll fresh [name] = mapping := by
          simp [Mapping.meetAll, Mapping.meet, hlookup]
        simp [renameVar, hmet, Mapping.image, hlookup]
    | none =>
        have hmet : mapping.meetAll fresh [name] = mapping ++ [(name, fresh mapping.length)] := by
          simp [Mapping.meetAll, Mapping.meet, hlookup]
        simp [renameVar, hmet, Mapping.image, hlookup, List.lookup_append]
  congr hsame := hsame name List.mem_cons_self

variable {occurrences more : List Var}

theorem map {walk : StateM Mapping α} {renamed : (Var → Var) → α}
    (hwalk : Renames fresh walk occurrences renamed) (make : α → β) :
    Renames fresh (make <$> walk) occurrences fun image => make (renamed image) where
  run mapping := by
    rw [StateT.run_map, hwalk.run, map_pure]
  congr hsame := congrArg make (hwalk.congr hsame)

/-- One walk after another: what the first one met has kept its new name. -/
theorem seq {first : StateM Mapping (α → β)} {second : StateM Mapping α}
    {renamedFirst : (Var → Var) → α → β} {renamedSecond : (Var → Var) → α}
    (hfirst : Renames fresh first occurrences renamedFirst)
    (hsecond : Renames fresh second more renamedSecond) :
    Renames fresh (first <*> second) (occurrences ++ more)
      fun image => renamedFirst image (renamedSecond image) where
  run mapping := by
    have hkept : renamedFirst (mapping.meetAll fresh (occurrences ++ more)).image =
        renamedFirst (mapping.meetAll fresh occurrences).image :=
      hfirst.congr fun name hname => image_meetAll_append hname
    rw [StateT.run_seq, hfirst.run, pure_bind, hsecond.run, map_pure, hkept, meetAll_append]
  congr hsame := by
    rw [hfirst.congr fun name hname => hsame name (List.mem_append_left _ hname),
      hsecond.congr fun name hname => hsame name (List.mem_append_right _ hname)]

end Renames

section Renaming

variable {fresh : Nat → Var}

mutual

theorem Term.renames (term : Term) :
    Renames fresh (term.renameWith fresh) term.occurrences term.rename := by
  cases term with
  | var name => exact (Renames.var name).map Term.var
  | fact functor args => exact (Term.renames_all args).map (Term.fact functor)
  | _ => exact Renames.pure _

theorem Term.renames_all (terms : List Term) :
    Renames fresh (Term.renameAllWith fresh terms) (Term.occurrencesAll terms)
      fun image => Term.substAll (fun name => .var (image name)) terms := by
  cases terms with
  | nil => exact Renames.pure []
  | cons term rest => exact ((Term.renames term).map List.cons).seq (Term.renames_all rest)

end

mutual

theorem Factor.renames (factor : Factor) :
    Renames fresh (factor.renameWith fresh) factor.occurrences factor.rename := by
  cases factor with
  | num value => exact Renames.pure _
  | var name => exact (Renames.var name).map Factor.var
  | paren expr => exact (Expr.renames expr).map Factor.paren

theorem Product.renames (product : Product) :
    Renames fresh (product.renameWith fresh) product.occurrences product.rename := by
  obtain ⟨left, op, right⟩ := product
  cases right with
  | none => exact (Factor.renames left).map _
  | some right => exact ((Factor.renames left).map _).seq (Factor.renames right)

theorem Expr.renames (expr : Expr) :
    Renames fresh (expr.renameWith fresh) expr.occurrences expr.rename := by
  obtain ⟨left, op, right⟩ := expr
  cases right with
  | none => exact (Product.renames left).map _
  | some right => exact ((Product.renames left).map _).seq (Product.renames right)

end

theorem Fact.renames (fact : Fact) :
    Renames fresh (fact.renameWith fresh) fact.occurrences fact.rename :=
  (Term.renames_all fact.args).map (Fact.mk fact.functor)

theorem Goal.renames (goal : Goal) :
    Renames fresh (goal.renameWith fresh) goal.occurrences goal.rename := by
  cases goal with
  | fact goal => exact goal.renames.map Goal.fact
  | assign target value => exact ((Renames.var target).map Goal.assign).seq value.renames

theorem Query.renames (goals : Query) :
    Renames fresh (Query.renameWith fresh goals) (Query.occurrences goals)
      fun image => Query.rename image goals := by
  induction goals with
  | nil => exact Renames.pure []
  | cons goal rest ih => exact (goal.renames.map List.cons).seq ih

theorem Clause.renames (clause : Clause) :
    Renames fresh (clause.renameWith fresh) clause.occurrences clause.rename := by
  cases clause with
  | fact head => exact head.renames.map Clause.fact
  | rule head body => exact (head.renames.map Clause.rule).seq (Query.renames body)

theorem Statement.renames (statement : Statement) :
    Renames fresh (statement.renameWith fresh) statement.occurrences statement.rename := by
  cases statement with
  | clause entry => exact entry.renames.map Statement.clause
  | query goals => exact (Query.renames goals).map Statement.query

end Renaming

/-- The new name that goes with a place. -/
def Renaming.name (names : Renaming) (place : Nat) : Var :=
  names.stem ++ toString (names.number place)

/-- Names by place, with their new names. -/
def numbered (fresh : Nat → Var) (seen : List Var) : Mapping :=
  seen.mapIdx fun place name => (name, fresh place)

theorem lookup_numbered (fresh : Nat → Var) (seen : List Var) (name : Var) :
    (numbered fresh seen).lookup name = (seen.idxOf? name).map fresh := by
  induction seen generalizing fresh with
  | nil => rfl
  | cons first rest ih =>
      rw [numbered, List.mapIdx_cons, List.lookup_cons, List.idxOf?_cons]
      have hrest := ih fun place => fresh (place + 1)
      rw [numbered] at hrest
      by_cases heq : name = first
      · simp [heq]
      · have hfalse : (name == first) = false := by simpa using heq
        have hfalse' : (first == name) = false := by simpa using Ne.symm heq
        simp [hfalse, hfalse', hrest, Function.comp_def]

theorem meet_numbered (fresh : Nat → Var) (seen : List Var) (name : Var) :
    (numbered fresh seen).meet fresh name = numbered fresh (collectVar seen name) := by
  rw [Mapping.meet, collectVar]
  by_cases hmem : name ∈ seen
  · obtain ⟨place, hplace⟩ := Option.isSome_iff_exists.mp (List.isSome_idxOf?.mpr hmem)
    rw [if_pos hmem, lookup_numbered, hplace, Option.map_some]
  · have hplace : seen.idxOf? name = none := List.idxOf?_eq_none_iff.mpr hmem
    rw [if_neg hmem, lookup_numbered, hplace, Option.map_none]
    simp [numbered]

/-- Meeting names one by one numbers them in order of first occurrence. -/
theorem meetAll_nil (fresh : Nat → Var) (names : List Var) :
    Mapping.meetAll fresh [] names = numbered fresh names.eraseDups := by
  induction names using List.reverseRecOn with
  | nil => rfl
  | append_singleton names name ih =>
      rw [meetAll_append, ih, eraseDups_concat]
      exact meet_numbered fresh names.eraseDups name

namespace Renaming

variable {names : Renaming}

theorem image_eq : names.image = (numbered names.name names.seen).image := by
  funext name
  rw [image, Mapping.image, lookup_numbered]
  cases names.seen.idxOf? name <;> rfl

theorem image_of_place (hnodup : names.seen.Nodup) {place : Nat} {name : Var}
    (hplace : names.seen[place]? = some name) : names.image name = names.name place := by
  obtain ⟨hlt, rfl⟩ := List.getElem?_eq_some_iff.mp hplace
  have hidx : names.seen.idxOf? names.seen[place] = some place :=
    List.idxOf?_eq_some_iff.mpr ⟨hlt, rfl, fun earlier hearlier heq =>
      absurd (hnodup.getElem_inj_iff.mp heq) (Nat.ne_of_lt hearlier)⟩
  rw [image, hidx]
  rfl

theorem pairs_eq (hnodup : names.seen.Nodup) : names.pairs = numbered names.name names.seen := by
  refine List.ext_getElem (by simp [pairs, numbered]) fun place hleft hright => ?_
  have hlt : place < names.seen.length := by simpa [pairs] using hleft
  have himage := image_of_place hnodup (List.getElem?_eq_getElem hlt)
  simp [pairs, numbered, himage]

theorem seen_note (hseen : names.seen = []) (more : List Var) :
    (names.note more).seen = more.eraseDups := by
  rw [note, hseen, List.nil_append]

end Renaming

/-- A walk that starts with no names does what renaming all at once does. -/
theorem Renames.run_nil {α : Type} (names : Renaming) (hseen : names.seen = [])
    {walk : StateM Mapping α} {occurrences : List Var} {renamed : (Var → Var) → α}
    (hwalk : Renames names.name walk occurrences renamed) :
    (walk.run []).run =
      (renamed (names.note occurrences).image, (names.note occurrences).pairs) := by
  have hnodup : (names.note occurrences).seen.Nodup := nodup_eraseDups _
  have hmet : Mapping.meetAll names.name [] occurrences =
      numbered (names.note occurrences).name (names.note occurrences).seen := by
    rw [meetAll_nil, Renaming.seen_note hseen]
    rfl
  rw [hwalk.run, hmet, Renaming.pairs_eq hnodup, Renaming.image_eq]
  rfl

end Horn
