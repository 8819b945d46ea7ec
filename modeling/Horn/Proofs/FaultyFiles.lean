/-
Files with a fault.  A file is read and decoded to its end before anything of it is
used, so a fault in the last part of a long file is met while nothing has happened yet.
What is asserted is the whole of a file, in its order, or nothing.
-/
import Horn.Proofs.CompiledProgram
import Horn.Proofs.StoredLog
import Horn.Search.Machine

namespace Horn

namespace Compiled

theorem convertAll_ok_cons (statement : Statement)
    (items : List (Except CompiledError Statement)) :
    convertAll id (.ok statement :: items) = (convertAll id items).map (statement :: ·) := by
  rw [convertAll]
  cases convertAll id items <;> rfl

/-- The parts of a program are statements, or there is a first one that is none. -/
theorem convertAll_parts (items : List (Except CompiledError Statement)) :
    (∃ statements, items = statements.map .ok ∧ convertAll id items = .ok statements) ∨
      ∃ (good : List Statement) (cause : CompiledError)
        (rest : List (Except CompiledError Statement)),
        items = good.map .ok ++ .error cause :: rest ∧ convertAll id items = .error cause := by
  induction items with
  | nil => exact .inl ⟨[], rfl, rfl⟩
  | cons item items ih =>
      cases item with
      | error cause => exact .inr ⟨[], cause, items, rfl, rfl⟩
      | ok first =>
          rw [convertAll_ok_cons]
          obtain ⟨statements, rfl, hconvert⟩ | ⟨good, cause, rest, rfl, hconvert⟩ := ih
          · exact .inl ⟨first :: statements, rfl, congrArg _ hconvert⟩
          · exact .inr ⟨first :: good, cause, rest, rfl, congrArg _ hconvert⟩

/-- A program is decoded only if each of its parts gives a statement. -/
theorem decodeAll_eq_ok_iff {bytes : Bytes} {statements : List Statement} :
    decodeAll bytes = .ok statements ↔ decode bytes = statements.map .ok := by
  rw [decodeAll]
  constructor
  · intro hconvert
    obtain ⟨same, hparts, hsame⟩ | ⟨_, _, _, _, hcause⟩ := convertAll_parts (decode bytes)
    · rwa [Except.ok.inj (hconvert.symm.trans hsame)]
    · cases hconvert.symm.trans hcause
  · intro hparts
    rw [hparts, convertAll_ok]

/-- It is given up for the first part that gives none, after any number of good ones. -/
theorem decodeAll_eq_error_iff {bytes : Bytes} {cause : CompiledError} :
    decodeAll bytes = .error cause ↔
      ∃ (good : List Statement) (rest : List (Except CompiledError Statement)),
        decode bytes = good.map .ok ++ .error cause :: rest := by
  rw [decodeAll]
  constructor
  · intro hconvert
    obtain ⟨_, _, hstatements⟩ | ⟨good, same, rest, hparts, hsame⟩ :=
      convertAll_parts (decode bytes)
    · cases hconvert.symm.trans hstatements
    · rw [Except.error.inj (hconvert.symm.trans hsame)]
      exact ⟨good, rest, hparts⟩
  · rintro ⟨good, rest, hparts⟩
    rw [hparts]
    clear hparts
    induction good with
    | nil => rfl
    | cons first good ih =>
        rw [List.map_cons, List.cons_append, convertAll_ok_cons, ih]
        rfl

end Compiled

/-- The first part that is no statement is the error, but where reading breaks off a
missing end, or none at all, counts as an error in reading. -/
theorem Contents.decodeAll_eq_error_iff {contents : Contents} {cause : CompiledError} :
    contents.decodeAll = .error cause ↔
      (∃ (good : List Statement) (rest : List (Except CompiledError Statement)),
          Compiled.decode contents.bytes.toList = good.map .ok ++ .error cause :: rest) ∧
        (contents.fault = none ∨ cause ≠ .json .truncated) ∨
      cause = .json .unreadable ∧ ∃ error, contents.fault = some error ∧
        ((∃ good : List Statement, Compiled.decode contents.bytes.toList = good.map .ok) ∨
          ∃ (good : List Statement) (rest : List (Except CompiledError Statement)),
            Compiled.decode contents.bytes.toList =
              good.map .ok ++ .error (.json .truncated) :: rest) := by
  simp only [← Compiled.decodeAll_eq_ok_iff, ← Compiled.decodeAll_eq_error_iff]
  obtain ⟨bytes, fault⟩ := contents
  rw [decodeAll]
  cases fault with
  | none => simp
  | some fault =>
      cases Compiled.decodeAll bytes.toList with
      | ok statements => simp [eq_comm]
      | error seen =>
          by_cases htruncated : seen = .json .truncated
          · -- A missing end is no error of its own here.
            simp [htruncated, eq_comm]
          · simp only [if_neg htruncated]
            simpa [htruncated] using fun hsame : seen = cause => hsame ▸ htruncated

namespace Files

/-- What stands in the way of the statements of a file that is loaded. -/
inductive Unloadable (files : Files) (path : String) : SessionError → Prop
  | unreadable {cause : SystemError} (hread : files.read path = .error cause) :
      Unloadable files path (.read path cause)
  | noText {contents : ByteArray} (hread : files.read path = .ok contents)
      (htext : String.fromUTF8? contents = none) : Unloadable files path (.read path .notText)
  | unparsable {text : String} {error : ParseError} (hread : files.readText path = .ok text)
      (hsource : (dropBlanks text.toList).head? ≠ some '\x7b')
      (hparse : parseProgram text = .error error) : Unloadable files path (.parse error)
  | undecodable {text : String} {good : List Statement} {cause : CompiledError}
      {rest : List (Except CompiledError Statement)} (hread : files.readText path = .ok text)
      (hcompiled : (dropBlanks text.toList).head? = some '\x7b')
      (hdecode : Compiled.decode text.toUTF8.toList = good.map .ok ++ .error cause :: rest) :
      Unloadable files path (.load path cause)

/-- What stands in the way of the statements of a file that is asserted.  An error in
reading it is met where all that comes before it are statements, the last of them
perhaps without its end. -/
inductive Unassertable (files : Files) (path : String) : LoadError → Prop
  | unopened {error : SystemError} (hopen : files.contents path = .error error) :
      Unassertable files path (.system error)
  | undecodable {contents : Contents} {good : List Statement} {cause : CompiledError}
      {rest : List (Except CompiledError Statement)} (hopen : files.contents path = .ok contents)
      (hdecode : Compiled.decode contents.bytes.toList = good.map .ok ++ .error cause :: rest)
      (hseen : contents.fault = none ∨ cause ≠ .json .truncated) :
      Unassertable files path (.content cause)
  | unreadable {contents : Contents} {error : SystemError}
      (hopen : files.contents path = .ok contents) (hfault : contents.fault = some error)
      (hbefore : (∃ good : List Statement,
          Compiled.decode contents.bytes.toList = good.map .ok) ∨
        ∃ (good : List Statement) (rest : List (Except CompiledError Statement)),
          Compiled.decode contents.bytes.toList =
            good.map .ok ++ .error (.json .truncated) :: rest) :
      Unassertable files path (.content (.json .unreadable))

theorem readText_eq_error_iff {files : Files} {path : String} {cause : SystemError} :
    files.readText path = .error cause ↔
      files.read path = .error cause ∨
        cause = .notText ∧
          ∃ contents, files.read path = .ok contents ∧ String.fromUTF8? contents = none := by
  rw [readText]
  cases hread : files.read path with
  | error error => simp [bind, Except.bind]
  | ok contents =>
      cases htext : String.fromUTF8? contents <;> simp [bind, Except.bind, eq_comm, htext]

/-- Files are refused for these faults and for no others. -/
theorem readFile_eq_error_iff {files : Files} {path : String} {error : SessionError} :
    Session.readFile files path = .error error ↔ files.Unloadable path error := by
  constructor
  · intro hrefused
    rw [Session.readFile] at hrefused
    cases hread : files.readText path with
    | error cause =>
        rw [hread] at hrefused
        cases hrefused
        obtain hread | ⟨rfl, contents, hread, htext⟩ := readText_eq_error_iff.mp hread
        · exact .unreadable hread
        · exact .noText hread htext
    | ok text =>
        simp only [hread] at hrefused
        split at hrefused
        · next hcompiled =>
            cases hdecode : Compiled.decodeAll text.toUTF8.toList with
            | ok statements =>
                rw [hdecode] at hrefused
                cases hrefused
            | error cause =>
                rw [hdecode] at hrefused
                cases hrefused
                obtain ⟨good, rest, hdecode⟩ := Compiled.decodeAll_eq_error_iff.mp hdecode
                exact .undecodable hread hcompiled hdecode
        · next hsource =>
            cases hparse : parseProgram text with
            | ok statements =>
                rw [hparse] at hrefused
                cases hrefused
            | error error =>
                rw [hparse] at hrefused
                cases hrefused
                exact .unparsable hread hsource hparse
  · intro hfault
    rw [Session.readFile]
    cases hfault with
    | unreadable hread => rw [readText_eq_error_iff.mpr (.inl hread)]
    | noText hread htext =>
        rw [readText_eq_error_iff.mpr (.inr ⟨rfl, _, hread, htext⟩)]
    | unparsable hread hsource hparse =>
        simp only [hread, if_neg hsource, hparse]
    | undecodable hread hcompiled hdecode =>
        simp only [hread, if_pos hcompiled,
          Compiled.decodeAll_eq_error_iff.mpr ⟨_, _, hdecode⟩]

theorem loadCompiled_eq_ok_iff {files : Files} {path : String} {statements : List Statement} :
    files.loadCompiled path = .ok statements ↔
      ∃ contents, files.read path = .ok contents ∧
        Compiled.decode contents.toList = statements.map .ok := by
  simp only [read_eq_ok_iff, ← Compiled.decodeAll_eq_ok_iff]
  rw [loadCompiled]
  rcases files.contents path with error | ⟨bytes, _ | fault⟩
  · simp
  · simp only [Contents.decodeAll, Except.ok.injEq, Contents.mk.injEq, and_true, exists_eq_left']
    cases Compiled.decodeAll bytes.toList <;> simp
  · simp only [Contents.decodeAll, Except.ok.injEq, Contents.mk.injEq]
    cases Compiled.decodeAll bytes.toList <;> simp

theorem loadCompiled_eq_error_iff {files : Files} {path : String} {cause : LoadError} :
    files.loadCompiled path = .error cause ↔ files.Unassertable path cause := by
  constructor
  · intro hrefused
    rw [loadCompiled] at hrefused
    cases hopen : files.contents path with
    | error error =>
        rw [hopen] at hrefused
        cases hrefused
        exact .unopened hopen
    | ok contents =>
        simp only [hopen] at hrefused
        cases hdecode : contents.decodeAll with
        | ok statements =>
            rw [hdecode] at hrefused
            cases hrefused
        | error error =>
            rw [hdecode] at hrefused
            cases hrefused
            obtain ⟨⟨good, rest, hparts⟩, hseen⟩ | ⟨rfl, fault, hfault, hbefore⟩ :=
              Contents.decodeAll_eq_error_iff.mp hdecode
            · exact .undecodable hopen hparts hseen
            · exact .unreadable hopen hfault hbefore
  · intro hfault
    rw [loadCompiled]
    cases hfault with
    | unopened hopen => rw [hopen]
    | undecodable hopen hparts hseen =>
        simp only [hopen, Contents.decodeAll_eq_error_iff.mpr (.inl ⟨⟨_, _, hparts⟩, hseen⟩)]
    | unreadable hopen hfault hbefore =>
        simp only [hopen, Contents.decodeAll_eq_error_iff.mpr (.inr ⟨rfl, _, hfault, hbefore⟩)]

end Files

/-- A store got the clauses of some statements behind its own, in their order, as
copies with new names. -/
structure Theory.Appended (theory : Theory) (statements : List Statement) (after : Theory) :
    Prop where
  copies : (clausesOf statements).Forall₂ Clause.IsCopy
    (storedFrom theory.nextVar (clausesOf statements))
  lookup : ∀ signature, after.lookup signature = theory.lookup signature ++
    underSignature (storedFrom theory.nextVar (clausesOf statements)) signature
  size : after.size = theory.size + (clausesOf statements).length

theorem Theory.appended_insertAll (theory : Theory) (statements : List Statement) :
    theory.Appended statements (theory.insertAll statements) := by
  refine ⟨forall₂_storedFrom _ _, ?_, ?_⟩
  · intro signature
    induction statements generalizing theory with
    | nil => exact (List.append_nil _).symm
    | cons statement statements ih =>
        cases statement with
        | query goals => exact ih theory
        | clause clause =>
            have hcopy :
                (clause.renameApart storeStem theory.nextVar).1.signature = clause.signature :=
              Clause.signature_rename _ clause
            refine (ih (theory.insert clause)).trans ?_
            change _ = _ ++ underSignature
              ((clause.renameApart storeStem theory.nextVar).1 ::
                storedFrom (theory.insert clause).nextVar (clausesOf statements)) signature
            rw [lookup_insert, underSignature, underSignature, List.filter_cons, hcopy]
            by_cases hsignature : clause.signature = signature <;> simp [hsignature]
  · induction statements generalizing theory with
    | nil => rfl
    | cons statement statements ih =>
        cases statement with
        | query goals => exact ih theory
        | clause clause =>
            refine (ih (theory.insert clause)).trans ?_
            change theory.size + 1 + (clausesOf statements).length =
              theory.size + ((clausesOf statements).length + 1)
            omega

theorem Environment.recordAll_stored (env : Environment) (statements : List Statement) :
    env.recordAll ((clausesOf statements).map .stored) =
      { env with theory := env.theory.insertAll statements } := by
  induction statements generalizing env with
  | nil => rfl
  | cons statement statements ih =>
      cases statement with
      | query goals => exact ih env
      | clause clause => exact ih _

theorem firstReport?_stored (clauses : List Clause) :
    firstReport? (clauses.map .stored) = none := by
  induction clauses with
  | nil => rfl
  | cons clause clauses ih => exact ih

namespace Search

/-- The next goal of a search asserts the file at a path, and a branch is what is left
behind it. -/
def AssertsFile (search : Search) (path : String) (resumed : Branch) : Prop :=
  ∃ (added : Term) (pending : Query) (depth : Nat) (rest : List Frame),
    resumed.bindings.ground added = .str path ∧
    resumed.frames = pushGoals pending depth rest ∧
    search.machine.current =
      some ⟨resumed.bindings, .goals (.fact ⟨"assert", [added]⟩ :: pending) depth :: rest⟩

/-- Asserting a file takes one step, and stores all of its statements or none. -/
theorem step_of_assertsFile {search : Search} {path : String} {resumed : Branch}
    (hasserts : search.AssertsFile path resumed) (limit : Option Nat) :
    search.machine.step search.env limit search.nextFresh =
      match search.env.files.loadCompiled path with
      | .ok statements =>
          ⟨(clausesOf statements).map .stored, search.nextFresh,
            .running ⟨some resumed, search.machine.choices⟩⟩
      | .error cause =>
          ⟨[.reported (.load path cause)], search.nextFresh,
            .running ⟨none, search.machine.choices⟩⟩ := by
  obtain ⟨added, pending, depth, rest, hpath, hframes, hcurrent⟩ := hasserts
  simp only [Machine.step, hcurrent, Machine.advance, Machine.select, Builtin.ofFact?,
    Builtin.prove, assertTerm, hpath, ← hframes]
  cases search.env.files.loadCompiled path <;> rfl

/-- A search takes a file that is asserted as a whole: one with a fault adds nothing to
the store and ends the branch with a report, and the clauses of any other are stored in
their order before the branch goes on. -/
structure AssertsWhole (limit : Option Nat) (search : Search) : Prop where
  settled : ∀ path : String, (∃ cause, search.env.files.Unassertable path cause) ∨
    ∃ (contents : ByteArray) (statements : List Statement),
      search.env.files.read path = .ok contents ∧
        Compiled.decode contents.toList = statements.map .ok
  faulty : ∀ (path : String) (resumed : Branch) (cause : LoadError) (fuel : Nat),
    search.AssertsFile path resumed → search.env.files.Unassertable path cause →
      search.pullUpTo limit (fuel + 1) =
        Search.pullUpTo limit fuel { search with
          machine := ⟨none, search.machine.choices⟩
          failure := search.failure.or (some (.load path cause)) }
  intact : ∀ (path : String) (resumed : Branch) (contents : ByteArray)
    (statements : List Statement) (fuel : Nat),
    search.AssertsFile path resumed → search.env.files.read path = .ok contents →
      Compiled.decode contents.toList = statements.map .ok →
      let after := search.env.theory.insertAll statements
      search.env.theory.Appended statements after ∧
        search.pullUpTo limit (fuel + 1) =
          Search.pullUpTo limit fuel { search with
            env := { search.env with theory := after }
            machine := ⟨some resumed, search.machine.choices⟩ }

theorem assertsWhole (limit : Option Nat) (search : Search) : search.AssertsWhole limit where
  settled path := by
    cases hload : search.env.files.loadCompiled path with
    | error cause => exact .inl ⟨cause, Files.loadCompiled_eq_error_iff.mp hload⟩
    | ok statements =>
        obtain ⟨contents, hfile⟩ := Files.loadCompiled_eq_ok_iff.mp hload
        exact .inr ⟨contents, statements, hfile⟩
  faulty path resumed cause fuel hasserts hfault := by
    have hload := Files.loadCompiled_eq_error_iff.mpr hfault
    have hstep := step_of_assertsFile hasserts limit
    rw [hload] at hstep
    rw [pullUpTo]
    simp only [hstep]
    rfl
  intact path resumed contents statements fuel hasserts hread hdecode := by
    have hload := Files.loadCompiled_eq_ok_iff.mpr ⟨contents, hread, hdecode⟩
    have hstep := step_of_assertsFile hasserts limit
    rw [hload] at hstep
    refine ⟨Theory.appended_insertAll _ statements, ?_⟩
    rw [pullUpTo]
    simp only [hstep, after, Environment.recordAll_stored, firstReport?_stored, Option.or_none]

end Search

end Horn
