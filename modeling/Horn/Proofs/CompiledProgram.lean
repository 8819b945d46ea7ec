/-
What a compiled program holds.  The lines of storable statements decode to
these statements, one line after another and one program after another.
-/
import Horn.Proofs.NodeForm
import Horn.Session

namespace Horn

namespace Compiled

open Json

theorem readTag_name (tag : Tag) (rest : Bytes) :
    readTag (bytesOf (renderString tag.name) ++ rest) = .ok (tag, rest) := by
  rw [bytesOf_renderString, List.cons_append, List.append_assoc, readTag]
  change (readString (escaped tag.name.toList ++ byte '"' :: rest)).bind _ = _
  rw [readString_escaped]
  dsimp only [Except.bind]
  rw [Tag.ofName?_name]

/-- The tag of a written node is taken first. -/
theorem readTaggedMember_tag (tag : Tag) (rest : Bytes) :
    readTaggedMember (none, []) tagName
      (byte ':' :: (bytesOf (Json.string tag.name).render ++ rest)) =
        .ok ((some tag, []), rest) := by
  rw [readTaggedMember, if_pos rfl, readColon_colon, render]
  dsimp only [bind, Except.bind]
  rw [readTag_name]

/-- Every other member is read as a value. -/
theorem takesMember_readTaggedMember {member : String × Json} (hname : member.1 ≠ tagName)
    (hvalue : member.2.IsReadBack (maxNesting - 1)) :
    TakesMember readTaggedMember (fun state member => (state.1, member :: state.2)) member := by
  intro state rest hrest
  rw [readTaggedMember, if_neg hname, readColon_colon]
  dsimp only [bind, Except.bind]
  rw [hvalue rest hrest]

theorem foldl_tagged (tag : Option Tag) (members taken : List (String × Json)) :
    members.foldl (fun (state : TaggedMembers) member => (state.1, member :: state.2))
      (tag, taken) = (tag, members.reverse ++ taken) := by
  induction members generalizing taken with
  | nil => rfl
  | cons member members ih => simp [ih]

/-- A written node is read back, with what follows it. -/
theorem readNode_toJson {node : Node} (hfaithful : node.toJson.Faithful)
    (hnesting : node.toJson.nesting ≤ maxNesting) (rest : Bytes) :
    readNode (bytesOf node.toJson.render ++ rest) = .ok (node, rest) := by
  rw [node.toJson_eq] at hfaithful hnesting
  have hback : ∀ member ∈ node.members, member.2.IsReadBack (maxNesting - 1) := by
    intro member hmember
    have hmember := List.mem_cons_of_mem (tagName, Json.string node.tag.name) hmember
    have hle := nesting_le_of_mem_members hmember
    apply (hfaithful.member hmember).isReadBack
    rw [Tag.wrap, nesting] at hnesting
    omega
  have hmore : ∀ member ∈ node.members,
      TakesMember readTaggedMember (fun state member => (state.1, member :: state.2)) member :=
    fun member hmember =>
      takesMember_readTaggedMember (Node.name_ne_tagName hmember) (hback member hmember)
  have htag : ∀ rest, Ends rest → readTaggedMember (none, [])
      (tagName, Json.string node.tag.name).1
      (byte ':' :: (bytesOf (tagName, Json.string node.tag.name).2.render ++ rest)) =
        .ok ((some node.tag, []), rest) :=
    fun rest _ => readTaggedMember_tag node.tag rest
  have hread := readMembers_render htag hmore
    (Nat.lt_succ_self (memberBytes (tagName, .string node.tag.name) ++
      (bytesOf (renderMembers node.members) ++ byte '\x7d' :: rest)).length)
  rw [node.toJson_eq, Tag.wrap, bytesOf_render_object]
  simp only [List.cons_append, List.append_assoc, List.nil_append]
  rw [readNode, if_pos rfl]
  dsimp only [bind, Except.bind]
  rw [hread]
  dsimp only
  rw [foldl_tagged, finish, Option.bind_some, List.append_nil, List.reverse_reverse,
    node.build_members]

end Compiled

/-- A statement that a compiled program can hold: its numbers are read back
from their texts, and its value nests no deeper than the reader goes. -/
structure Statement.Storable (statement : Statement) : Prop where
  numbers : ReadBack statement.numbers
  nesting : statement.toNode.toJson.nesting ≤ Compiled.maxNesting

instance (statement : Statement) : Decidable statement.Storable :=
  decidable_of_iff
    (ReadBack statement.numbers ∧ statement.toNode.toJson.nesting ≤ Compiled.maxNesting)
    ⟨fun ⟨hnumbers, hnesting⟩ => ⟨hnumbers, hnesting⟩,
      fun hstatement => ⟨hstatement.numbers, hstatement.nesting⟩⟩

namespace Compiled

open Json

theorem decodeUpTo_newline (fuel : Nat) (rest : Bytes) :
    decodeUpTo fuel (byte '\n' :: rest) = decodeUpTo fuel rest := by
  cases fuel <;> rfl

/-- A line decodes to its statement, whatever follows it. -/
theorem decodeUpTo_line {statement : Statement} (hstatement : statement.Storable) (fuel : Nat)
    (rest : Bytes) :
    decodeUpTo (fuel + 1) (bytesOf (encodeLine statement) ++ rest) =
      .ok statement :: decodeUpTo fuel rest := by
  have hfaithful := statement.faithful hstatement.numbers
  have hread := readNode_toJson hfaithful hstatement.nesting (byte '\n' :: rest)
  have hbegins := hfaithful.begins.append (byte '\n' :: rest)
  have hskip := hbegins.skipSpace
  have hline : bytesOf (encodeLine statement) ++ rest =
      bytesOf statement.toNode.toJson.render ++ byte '\n' :: rest := by
    rw [encodeLine, bytesOf_append, List.append_assoc]
    rfl
  obtain ⟨b, more, hbytes, _⟩ := hbegins
  rw [hbytes] at hread hskip
  rw [hline, hbytes, decodeUpTo, hskip]
  dsimp only
  rw [hread]
  dsimp only
  rw [toStatement_toNode, decodeUpTo_newline]

theorem encode_cons (statement : Statement) (statements : List Statement) :
    encode (statement :: statements) = encodeLine statement ++ encode statements := by
  rw [encode, List.map_cons, String.join_cons]
  rfl

theorem encode_append (first second : List Statement) :
    encode (first ++ second) = encode first ++ encode second := by
  induction first with
  | nil => simp [encode]
  | cons statement first ih =>
      rw [List.cons_append, encode_cons, encode_cons, ih, String.append_assoc]

theorem decodeUpTo_encode {statements : List Statement}
    (hstatements : ∀ statement ∈ statements, statement.Storable) {fuel : Nat}
    (hfuel : statements.length < fuel) :
    decodeUpTo fuel (bytesOf (encode statements)) = statements.map .ok := by
  induction statements generalizing fuel with
  | nil =>
      obtain ⟨fuel, rfl⟩ : ∃ left, fuel = left + 1 := Nat.exists_eq_add_one_of_ne_zero (by omega)
      rfl
  | cons statement statements ih =>
      obtain ⟨fuel, rfl⟩ : ∃ left, fuel = left + 1 := Nat.exists_eq_add_one_of_ne_zero (by omega)
      have hmore := fun other hother => hstatements other (List.mem_cons_of_mem statement hother)
      have hfirst := hstatements statement List.mem_cons_self
      rw [encode_cons, bytesOf_append, decodeUpTo_line hfirst, ih hmore (by simpa using hfuel)]
      rfl

/-- Each statement has a line of its own. -/
theorem length_le_encode (statements : List Statement) :
    statements.length ≤ (bytesOf (encode statements)).length := by
  induction statements with
  | nil => exact Nat.zero_le _
  | cons statement statements ih =>
      have hnewline : (bytesOf "\n").length = 1 := by decide +kernel
      rw [encode_cons, encodeLine]
      simp only [bytesOf_append, List.length_append, List.length_cons]
      omega

/-- Storable statements are decoded as they were encoded. -/
theorem decode_bytesOf_encode {statements : List Statement}
    (hstatements : ∀ statement ∈ statements, statement.Storable) :
    decode (bytesOf (encode statements)) = statements.map .ok :=
  decodeUpTo_encode hstatements (Nat.lt_succ_of_le (length_le_encode statements))

/-- A compiled program decodes to its statements in order, and two of them one
after the other decode to the statements of both. -/
theorem decode_encode {first : List Statement}
    (hfirst : ∀ statement ∈ first, statement.Storable) :
    decode (encode first).toUTF8.toList = first.map .ok ∧
      ∀ second : List Statement, (∀ statement ∈ second, statement.Storable) →
        decode ((encode first).toUTF8.toList ++ (encode second).toUTF8.toList) =
          (first ++ second).map .ok := by
  constructor
  · rw [toList_toUTF8]
    exact decode_bytesOf_encode hfirst
  · intro second hsecond
    rw [toList_toUTF8, toList_toUTF8, ← bytesOf_append, ← encode_append]
    apply decode_bytesOf_encode
    exact List.forall_mem_append.mpr ⟨hfirst, hsecond⟩

/-- Statements that no parser gives: functors and names of any text, a rule
without a body, an operator without an operand. -/
theorem decode_encode_unparsable :
    let first : List Statement := [.clause (.rule ⟨"\"\n", [.num (-0.5), .str "é"]⟩ [])]
    let second : List Statement :=
      [.query [.assign "" ⟨⟨.num 4, some .multiply, none⟩, none, some (.single (.var "|"))⟩]]
    decode (encode first).toUTF8.toList = first.map .ok ∧
      decode ((encode first).toUTF8.toList ++ (encode second).toUTF8.toList) =
        (first ++ second).map .ok := by
  intro first second
  have hfirst : ∀ statement ∈ first, statement.Storable := by decide +kernel
  have hsecond : ∀ statement ∈ second, statement.Storable := by decide +kernel
  obtain ⟨hone, hboth⟩ := decode_encode hfirst
  exact ⟨hone, hboth second hsecond⟩

theorem convertAll_ok (statements : List Statement) :
    convertAll id (statements.map (Except.ok (ε := CompiledError))) = .ok statements := by
  induction statements with
  | nil => rfl
  | cons statement statements ih =>
      rw [List.map_cons, convertAll, ih]
      rfl

theorem decodeAll_encode {statements : List Statement}
    (hstatements : ∀ statement ∈ statements, statement.Storable) :
    decodeAll (encode statements).toUTF8.toList = .ok statements := by
  rw [decodeAll, toList_toUTF8, decode_bytesOf_encode hstatements, convertAll_ok]

end Compiled

theorem skipLayout_brace {text rest : List Char} (htext : dropBlanks text = '\x7b' :: rest)
    (position : Position) :
    (skipLayout false position text).rest = '\x7b' :: rest := by
  induction text generalizing position with
  | nil => cases htext
  | cons c text ih =>
      unfold skipLayout
      rw [if_neg Bool.false_ne_true]
      by_cases hblank : isBlank c = true
      · rw [if_pos hblank]
        rw [dropBlanks, List.dropWhile_cons_of_pos hblank] at htext
        exact ih htext _
      · rw [dropBlanks, List.dropWhile_cons_of_neg hblank] at htext
        obtain ⟨rfl, rfl⟩ := List.cons.inj htext
        rw [if_neg hblank, if_neg (by simp)]

/-- A text that starts like a compiled program is no program text. -/
theorem parseProgram_brace {text : String} {statements : List Statement}
    (hparse : parseProgram text = .ok statements) :
    (dropBlanks text.toList).head? ≠ some '\x7b' := by
  intro hhead
  obtain ⟨rest, hrest⟩ : ∃ rest, dropBlanks text.toList = '\x7b' :: rest := by
    cases hdrop : dropBlanks text.toList with
    | nil =>
        rw [hdrop] at hhead
        cases hhead
    | cons c rest =>
        rw [hdrop] at hhead
        cases hhead
        exact ⟨rest, rfl⟩
  have hskip := skipLayout_brace hrest Position.start
  obtain ⟨error, hbroken⟩ : ∃ error, Tokens.ofString text = .broken error := by
    rw [Tokens.ofString, Tokens.scan_eq, hskip]
    exact ⟨_, rfl⟩
  rw [parseProgram, readText, hbroken] at hparse
  cases hparse

theorem parseProgram_empty : parseProgram "" = .ok [] := by
  rw [parseProgram, readText, Tokens.ofString, Tokens.scan_eq]
  rfl

/-- A compiled program with a statement in it starts with a brace. -/
theorem head_encode (statement : Statement) (statements : List Statement) :
    (dropBlanks (Compiled.encode (statement :: statements)).toList).head? = some '\x7b' := by
  obtain ⟨rest, hrest⟩ : ∃ rest,
      Compiled.encode (statement :: statements) = "\x7b" ++ rest := by
    rw [Compiled.encode_cons, Compiled.encodeLine, Node.toJson_eq, Tag.wrap, Json.render]
    simp only [String.append_assoc]
    exact ⟨_, rfl⟩
  rw [hrest, String.toList_append]
  rfl

theorem readText_eq {files : Files} {path text : String}
    (hread : files.read path = .ok text.toUTF8) : files.readText path = .ok text := by
  rw [Files.readText, hread]
  simp only [bind, Except.bind, fromUTF8?_toUTF8]

namespace Session

theorem readFile_source {files : Files} {path text : String} {statements : List Statement}
    (hread : files.readText path = .ok text) (hparse : parseProgram text = .ok statements) :
    readFile files path = .ok statements := by
  rw [readFile, hread]
  dsimp only
  rw [if_neg (parseProgram_brace hparse), hparse]

/-- An empty compiled program is read as program text. -/
theorem readFile_compiled {files : Files} {path : String} {statements : List Statement}
    (hread : files.read path = .ok (Compiled.encode statements).toUTF8)
    (hstatements : ∀ statement ∈ statements, statement.Storable) :
    readFile files path = .ok statements := by
  cases statements with
  | nil => exact readFile_source (readText_eq hread) parseProgram_empty
  | cons statement statements =>
      rw [readFile, readText_eq hread]
      dsimp only
      rw [if_pos (head_encode statement statements), Compiled.decodeAll_encode hstatements]

/-- What a file does depends on its statements only. -/
theorem load_of_readFile {session : Session} {path : String} {statements : List Statement}
    (hread : readFile session.engine.env.files path = .ok statements) :
    let ran := runAll session.engine statements
    (session.load path).1 = { session with engine := ran.1 } ∧
      (∀ error, (session.load path).2 = .error error ↔ ran.2 = some error) ∧
      ∀ count, (session.load path).2 = .ok (.loaded path count) ↔
        ran.2 = none ∧ statements.length = count := by
  intro ran
  rw [load, hread]
  apply And.intro rfl
  cases hran : ran.2 <;> simp [ran, hran]

end Session

/-- Compiling keeps a program whose statements are storable: its compiled form
holds its statements, and loading either form into a session stores the same
clauses, runs the same queries and ends in the same way. -/
theorem compiled_form_loads_alike {text : String} {statements : List Statement}
    (hparse : parseProgram text = .ok statements)
    (hstorable : ∀ statement ∈ statements, statement.Storable) :
    Compiled.decodeAll (Compiled.encode statements).toUTF8.toList = .ok statements ∧
      ∀ (session : Session) (source compiled : String),
        session.engine.env.files.readText source = .ok text →
        session.engine.env.files.read compiled = .ok (Compiled.encode statements).toUTF8 →
          session.engine.env.files.loadCompiled compiled = .ok statements ∧
          (session.load compiled).1 = (session.load source).1 ∧
          (∀ error, (session.load compiled).2 = .error error ↔
            (session.load source).2 = .error error) ∧
          ∀ count, (session.load compiled).2 = .ok (.loaded compiled count) ↔
            (session.load source).2 = .ok (.loaded source count) := by
  have hdecode := Compiled.decodeAll_encode hstorable
  apply And.intro hdecode
  intro session source compiled hsource hcompiled
  obtain ⟨hafter, herror, hloaded⟩ :=
    Session.load_of_readFile (Session.readFile_source hsource hparse)
  obtain ⟨hafter', herror', hloaded'⟩ :=
    Session.load_of_readFile (Session.readFile_compiled hcompiled hstorable)
  refine ⟨?_, hafter'.trans hafter.symm, ?_, ?_⟩
  · simp only [Files.loadCompiled, Files.read_eq_ok_iff.mp hcompiled, Contents.decodeAll, hdecode]
  · intro error
    rw [herror, herror']
  · intro count
    rw [hloaded, hloaded']

/-- A text that can be parsed, with the statements that it gives. -/
theorem parseProgram_getD {text : String} (hsome : (parseProgram text).toOption.isSome = true) :
    parseProgram text = .ok ((parseProgram text).toOption.getD []) := by
  cases hparse : parseProgram text with
  | error error =>
      rw [hparse] at hsome
      cases hsome
  | ok statements => rfl

/-- A number as text and compiled. -/
theorem number_loads_alike :
    let statements := (parseProgram "p(1.5).").toOption.getD []
    let files := Files.ofEntries .bare
      [("p", "p(1.5).".toUTF8), ("q", (Compiled.encode statements).toUTF8)]
    let session := Session.fresh none (Sink.fresh none) files
    statements.map Statement.render = ["p(1.5)."] ∧
      Compiled.decodeAll (Compiled.encode statements).toUTF8.toList = .ok statements ∧
      (session.load "q").1 = (session.load "p").1 := by
  intro statements files session
  have hsome : (parseProgram "p(1.5).").toOption.isSome = true := by decide +kernel
  have hparse := parseProgram_getD hsome
  have hstorable : ∀ statement ∈ statements, statement.Storable := by decide +kernel
  obtain ⟨hdecode, hload⟩ := compiled_form_loads_alike hparse hstorable
  obtain ⟨_, hsession, _⟩ := hload session "p" "q" (by decide +kernel) (by decide +kernel)
  exact ⟨by decide +kernel, hdecode, hsession⟩

/-- A whole number below the limit of floats that is read back as another one. -/
theorem number_changes_when_compiled :
    ∃ text statements, parseProgram text = .ok statements ∧
      statements.map Statement.render = ["f(2054089564200945.0)."] ∧
      (Compiled.decodeAll (Compiled.encode statements).toUTF8.toList).toOption.map
        (·.map Statement.render) = some ["f(2054089564200944.8)."] ∧
      Compiled.decodeAll (Compiled.encode statements).toUTF8.toList ≠ .ok statements := by
  have hsome : (parseProgram "f(2054089564200945).").toOption.isSome = true := by decide +kernel
  have hparse := parseProgram_getD hsome
  have hsource : ((parseProgram "f(2054089564200945).").toOption.getD []).map Statement.render =
      ["f(2054089564200945.0)."] := by decide +kernel
  have hcompiled : (Compiled.decodeAll (Compiled.encode
      ((parseProgram "f(2054089564200945).").toOption.getD [])).toUTF8.toList).toOption.map
        (·.map Statement.render) = some ["f(2054089564200944.8)."] := by decide +kernel
  refine ⟨_, _, hparse, hsource, hcompiled, ?_⟩
  intro hsame
  rw [hsame, Except.toOption, Option.map_some, hsource] at hcompiled
  revert hcompiled
  decide +kernel

end Horn
