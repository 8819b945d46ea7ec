/-
A store as a log.  The clauses of a program are kept in the order in which they
came, each under names of its own, and all that a store tells is read off this
log.
-/
import Mathlib.Data.List.Forall2
import Mathlib.Data.Set.Function
import Horn.Proofs.Names

namespace Horn

/-- The copies that a store takes of some clauses, with numbers from `start` on. -/
def storedFrom : Nat → List Clause → List Clause
  | _, [] => []
  | start, clause :: rest =>
      let copy := clause.renameApart storeStem start
      copy.1 :: storedFrom (start + copy.2.used) rest

/-- The clauses in a store of some statements, oldest first. -/
def storedLog (statements : List Statement) : List Clause :=
  storedFrom 0 (clausesOf statements)

/-- A clause with other names for its variables, one for one. -/
def Clause.IsCopy (source copy : Clause) : Prop :=
  ∃ image : Var → Var, Set.InjOn image { name | name ∈ source.occurrences } ∧
    copy = source.rename image

theorem Clause.isCopy_renameApart (clause : Clause) (stem : String) (start : Nat) :
    clause.IsCopy (clause.renameApart stem start).1 := by
  refine ⟨(clause.renameApart stem start).2.image, ?_, rfl⟩
  intro left hleft right hright
  exact clause.image_injective stem start hleft hright

/-- A copy is found under the same signature. -/
theorem Clause.signature_rename (image : Var → Var) (clause : Clause) :
    (clause.rename image).signature = clause.signature := by
  cases clause with
  | fact head => exact head.signature_rename image
  | rule head body => exact head.signature_rename image

theorem forall₂_storedFrom (start : Nat) (clauses : List Clause) :
    clauses.Forall₂ Clause.IsCopy (storedFrom start clauses) := by
  induction clauses generalizing start with
  | nil => exact .nil
  | cons clause rest ih => exact .cons (clause.isCopy_renameApart storeStem start) (ih _)

/-- The names in a copy carry the numbers that it uses up. -/
theorem Clause.mem_renameApart {clause : Clause} {stem : String} {start : Nat} {name : Var}
    (hname : name ∈ (clause.renameApart stem start).1.occurrences) :
    ∃ number, start ≤ number ∧ number < start + (clause.renameApart stem start).2.used ∧
      name = stem ++ toString number := by
  rw [renameApart, renameAll, occurrences_rename] at hname
  obtain ⟨source, hsource, rfl⟩ := List.mem_map.mp hname
  exact clause.image_lt start stem hsource

theorem exists_number_of_mem_storedFrom {start : Nat} {clauses : List Clause} {stored : Clause}
    (hstored : stored ∈ storedFrom start clauses) {name : Var}
    (hname : name ∈ stored.occurrences) :
    ∃ number, start ≤ number ∧ name = storeStem ++ toString number := by
  induction clauses generalizing start with
  | nil => simp [storedFrom] at hstored
  | cons clause rest ih =>
      rcases List.mem_cons.mp hstored with rfl | hstored
      · obtain ⟨number, hle, _, heq⟩ := Clause.mem_renameApart hname
        exact ⟨number, hle, heq⟩
      · obtain ⟨number, hle, heq⟩ := ih hstored
        exact ⟨number, by omega, heq⟩

/-- Later copies have later numbers. -/
theorem pairwise_storedFrom (start : Nat) (clauses : List Clause) :
    (storedFrom start clauses).Pairwise fun left right =>
      left.occurrences.Disjoint right.occurrences := by
  induction clauses generalizing start with
  | nil => exact .nil
  | cons clause rest ih =>
      apply List.Pairwise.cons _ (ih _)
      intro stored hstored name hname hlater
      obtain ⟨number, _, hlt, heq⟩ := Clause.mem_renameApart hname
      obtain ⟨number', hle, heq'⟩ := exists_number_of_mem_storedFrom hstored hlater
      have hsame := append_number_injective storeStem (heq.symm.trans heq')
      omega

theorem storedFrom_append (start : Nat) (first second : List Clause) :
    ∃ next, storedFrom start (first ++ second) =
      storedFrom start first ++ storedFrom next second := by
  induction first generalizing start with
  | nil => exact ⟨start, rfl⟩
  | cons clause rest ih =>
      obtain ⟨next, hnext⟩ := ih (start + (clause.renameApart storeStem start).2.used)
      exact ⟨next, congrArg _ hnext⟩

/-- Clauses that are stored later leave those stored before as they are. -/
theorem storedLog_prefix (statements more : List Statement) :
    storedLog statements <+: storedLog (statements ++ more) := by
  have hclauses : clausesOf (statements ++ more) = clausesOf statements ++ clausesOf more :=
    List.filterMap_append
  obtain ⟨next, hnext⟩ := storedFrom_append 0 (clausesOf statements) (clausesOf more)
  rw [storedLog, storedLog, hclauses, hnext]
  exact List.prefix_append _ _

/-- The clauses of a log that have a signature. -/
def underSignature (log : List Clause) (signature : Signature) : List Clause :=
  log.filter fun clause => clause.signature = signature

theorem mem_underSignature {log : List Clause} {signature : Signature} {clause : Clause} :
    clause ∈ underSignature log signature ↔ clause ∈ log ∧ clause.signature = signature := by
  simp [underSignature]

/-- Grouping a log by signatures keeps each of its clauses once. -/
theorem perm_flatMap_underSignature {signatures : List Signature} {log : List Clause}
    (hnodup : signatures.Nodup) (hcover : ∀ clause ∈ log, clause.signature ∈ signatures) :
    (signatures.flatMap (underSignature log)).Perm log := by
  induction signatures generalizing log with
  | nil =>
      obtain rfl : log = [] := List.eq_nil_iff_forall_not_mem.mpr fun clause hclause =>
        absurd (hcover clause hclause) List.not_mem_nil
      exact .nil
  | cons signature signatures ih =>
      obtain ⟨hnew, hnodup⟩ := List.nodup_cons.mp hnodup
      let others := log.filter fun clause => !decide (clause.signature = signature)
      have hsame : signatures.flatMap (underSignature log) =
          signatures.flatMap (underSignature others) := by
        apply List.flatMap_congr
        intro other hother
        have hne : other ≠ signature := fun heq => hnew (heq ▸ hother)
        rw [underSignature, underSignature, List.filter_filter]
        apply List.filter_congr
        intro clause _
        by_cases hclause : clause.signature = other <;> simp [hclause, hne]
      have hcovered : ∀ clause ∈ others, clause.signature ∈ signatures := by
        intro clause hclause
        obtain ⟨hmem, hne⟩ := List.mem_filter.mp hclause
        rcases List.mem_cons.mp (hcover clause hmem) with heq | hlater
        · simp [heq] at hne
        · exact hlater
      rw [List.flatMap_cons, hsame]
      exact ((ih hnodup hcovered).append_left _).trans (List.filter_append_perm _ log)

namespace Theory

/-- A store has the clauses of a log, and no bucket without a clause. -/
structure Tracks (theory : Theory) (log : List Clause) : Prop where
  lookup : ∀ signature, theory.lookup signature = underSignature log signature
  size : theory.size = log.length
  filled : ∀ key bucket, theory.buckets[key]? = some bucket →
    ∃ signature : Signature, signature.key = key ∧ bucket ≠ []

theorem tracks_empty : empty.Tracks [] where
  lookup := lookup_empty
  size := rfl
  filled key bucket hbucket := by simp [empty] at hbucket

/-- A clause that is stored goes to the end of the log. -/
theorem Tracks.insert {theory : Theory} {log : List Clause} (htracks : theory.Tracks log)
    (clause : Clause) :
    (theory.insert clause).Tracks
      (log ++ [(clause.renameApart storeStem theory.nextVar).1]) where
  lookup signature := by
    have hcopy : (clause.renameApart storeStem theory.nextVar).1.signature = clause.signature :=
      Clause.signature_rename _ clause
    rw [lookup_insert, htracks.lookup, underSignature, underSignature, List.filter_append]
    by_cases hsignature : clause.signature = signature <;> simp [hsignature, hcopy]
  size := by simp [htracks.size]
  filled key bucket hbucket := by
    rw [Theory.insert, Std.ExtTreeMap.getElem?_insert] at hbucket
    split at hbucket
    · next hkey =>
        refine ⟨clause.signature, Std.LawfulEqCmp.eq_of_compare hkey, ?_⟩
        rw [← Option.some.inj hbucket]
        simp
    · exact htracks.filled key bucket hbucket

theorem Tracks.insertAll {theory : Theory} {log : List Clause} (htracks : theory.Tracks log)
    (statements : List Statement) :
    (theory.insertAll statements).Tracks
      (log ++ storedFrom theory.nextVar (clausesOf statements)) := by
  induction statements generalizing theory log with
  | nil =>
      rw [clausesOf, List.filterMap_nil, storedFrom, List.append_nil]
      exact htracks
  | cons statement statements ih =>
      cases statement with
      | query goals => exact ih htracks
      | clause clause =>
          have hlater := ih (htracks.insert clause)
          rw [List.append_assoc] at hlater
          exact hlater

theorem tracks_ofStatements (statements : List Statement) :
    (ofStatements statements).Tracks (storedLog statements) :=
  tracks_empty.insertAll statements

theorem Tracks.bucketSignature?_eq {theory : Theory} {log : List Clause}
    (htracks : theory.Tracks log) {entry : String × List Clause}
    (hentry : entry ∈ theory.buckets.toList) :
    ∃ signature : Signature, signature.key = entry.1 ∧
      bucketSignature? entry = some signature := by
  obtain ⟨key, bucket⟩ := entry
  have hbucket : theory.buckets[key]? = some bucket :=
    Std.ExtTreeMap.mem_toList_iff_getElem?_eq_some.mp hentry
  obtain ⟨signature, rfl, hne⟩ := htracks.filled key bucket hbucket
  have hclauses : bucket = underSignature log signature := by
    rw [← htracks.lookup, Theory.lookup, hbucket]
    rfl
  refine ⟨signature, rfl, ?_⟩
  cases bucket with
  | nil => exact absurd rfl hne
  | cons first rest =>
      have hfirst : first ∈ underSignature log signature := hclauses ▸ List.mem_cons_self
      exact congrArg some (mem_underSignature.mp hfirst).2

theorem Tracks.mem_signatures {theory : Theory} {log : List Clause}
    (htracks : theory.Tracks log) (signature : Signature) :
    signature ∈ theory.signatures ↔ ∃ clause ∈ log, clause.signature = signature := by
  have hlookup := htracks.lookup signature
  rw [signatures, List.mem_mergeSort, List.mem_filterMap]
  constructor
  · rintro ⟨entry, hentry, hsignature⟩
    obtain ⟨same, hkey, hsame⟩ := htracks.bucketSignature?_eq hentry
    obtain rfl := Option.some.inj (hsignature.symm.trans hsame)
    obtain ⟨clause, hclause, hfound⟩ := Option.map_eq_some_iff.mp hsignature
    have hbucket : theory.buckets[signature.key]? = some entry.2 := by
      rw [hkey]
      exact Std.ExtTreeMap.mem_toList_iff_getElem?_eq_some.mp hentry
    have hmem : clause ∈ theory.lookup signature := by
      rw [Theory.lookup, hbucket]
      exact List.mem_of_head? hclause
    rw [hlookup] at hmem
    exact ⟨clause, mem_underSignature.mp hmem⟩
  · rintro ⟨clause, hclause⟩
    have hmem : clause ∈ theory.lookup signature := hlookup ▸ mem_underSignature.mpr hclause
    rw [Theory.lookup] at hmem
    cases hbucket : theory.buckets[signature.key]? with
    | none => simp [hbucket] at hmem
    | some bucket =>
        have hentry := Std.ExtTreeMap.mem_toList_iff_getElem?_eq_some.mpr hbucket
        obtain ⟨same, hkey, hsame⟩ := htracks.bucketSignature?_eq hentry
        rw [Signature.key_injective hkey] at hsame
        exact ⟨_, hentry, hsame⟩

/-- Keys tell buckets apart, and so signatures. -/
theorem Tracks.nodup_signatures {theory : Theory} {log : List Clause}
    (htracks : theory.Tracks log) : theory.signatures.Nodup := by
  have hdistinct : (theory.buckets.toList.filterMap bucketSignature?).Nodup := by
    apply List.Pairwise.filterMap bucketSignature? _
      (List.Pairwise.and_mem.mp Std.ExtTreeMap.distinct_keys_toList)
    rintro left right ⟨hleft, hright, hne⟩ signature hsignature signature' hsignature' rfl
    obtain ⟨first, hkey, hfirst⟩ := htracks.bucketSignature?_eq hleft
    obtain ⟨second, hkey', hsecond⟩ := htracks.bucketSignature?_eq hright
    have hsame : first = second :=
      Option.some.inj ((hfirst.symm.trans hsignature).trans (hsignature'.symm.trans hsecond))
    rw [← hkey, ← hkey', hsame] at hne
    exact hne Std.ReflCmp.compare_self
  exact (List.mergeSort_perm _ _).nodup_iff.mpr hdistinct

theorem Tracks.increasing {theory : Theory} {log : List Clause} (htracks : theory.Tracks log) :
    theory.signatures.Pairwise fun left right => left.order right = .lt := by
  have hordered : theory.signatures.Pairwise fun left right => (left.order right).isLE = true := by
    apply List.pairwise_mergeSort
    · exact fun _ _ _ => Std.TransCmp.isLE_trans
    · intro left right
      have hswap : left.order right = (right.order left).swap := Std.OrientedCmp.eq_swap
      cases hback : right.order left <;> simp [hswap, hback]
  refine (hordered.and htracks.nodup_signatures).imp ?_
  rintro left right ⟨hle, hne⟩
  cases horder : left.order right with
  | lt => rfl
  | eq => exact absurd (Std.LawfulEqCmp.eq_of_compare horder) hne
  | gt => simp [horder] at hle

/-- What a store shows is read off a log: lookups in the order of the log, its
length, its signatures in increasing order, and its clauses grouped by them. -/
structure Presents (theory : Theory) (log : List Clause) : Prop where
  lookup : ∀ signature, theory.lookup signature = underSignature log signature
  size : theory.size = log.length
  length_toList : theory.toList.length = theory.size
  increasing : theory.signatures.Pairwise fun left right => left.order right = .lt
  mem_signatures : ∀ signature,
    signature ∈ theory.signatures ↔ ∃ clause ∈ log, clause.signature = signature
  toList : theory.toList = theory.signatures.flatMap (underSignature log)

theorem Tracks.presents {theory : Theory} {log : List Clause} (htracks : theory.Tracks log) :
    theory.Presents log := by
  have htoList : theory.toList = theory.signatures.flatMap (underSignature log) := by
    rw [Theory.toList, funext htracks.lookup]
  have hcover : ∀ clause ∈ log, clause.signature ∈ theory.signatures := fun clause hclause =>
    (htracks.mem_signatures _).mpr ⟨clause, hclause, rfl⟩
  have hlength : theory.toList.length = theory.size := by
    rw [htoList, htracks.size]
    exact (perm_flatMap_underSignature htracks.nodup_signatures hcover).length_eq
  exact ⟨htracks.lookup, htracks.size, hlength, htracks.increasing, htracks.mem_signatures,
    htoList⟩

end Theory

/-- Queries leave no trace in a store. -/
theorem ofStatements_clausesOf (statements : List Statement) :
    Theory.ofStatements ((clausesOf statements).map .clause) = Theory.ofStatements statements := by
  have hinserted : ∀ theory : Theory, theory.insertAll ((clausesOf statements).map .clause) =
      theory.insertAll statements := by
    induction statements with
    | nil => exact fun _ => rfl
    | cons statement statements ih =>
        intro theory
        cases statement with
        | query goals => exact ih theory
        | clause clause => exact ih (theory.insert clause)
  exact hinserted .empty

/-- A store is an append-only log of the clauses that it was given, whatever their
functors are: each is there once, in its turn, with its variables under names that
no other has; queries leave no trace; and all that the store shows is read off the
log. -/
theorem store_is_append_only_log (statements more : List Statement) :
    let theory := Theory.ofStatements statements
    let log := storedLog statements
    (clausesOf statements).Forall₂ Clause.IsCopy log ∧
      log.Pairwise (fun left right => left.occurrences.Disjoint right.occurrences) ∧
      log <+: storedLog (statements ++ more) ∧
      Theory.ofStatements ((clausesOf statements).map .clause) = theory ∧
      theory.Presents log :=
  ⟨forall₂_storedFrom 0 _, pairwise_storedFrom 0 _, storedLog_prefix statements more,
    ofStatements_clausesOf statements, (Theory.tracks_ofStatements statements).presents⟩

end Horn
