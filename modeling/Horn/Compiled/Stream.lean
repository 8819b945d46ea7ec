/-
Compiled programs: one statement after another, each as a JSON value on a line
of its own.  Reading accepts any white space between values and stops at the
first fault of the JSON, while a value that is no statement is only passed over.
-/
import Horn.Compiled.Form

namespace Horn

inductive CompiledError
  | json (fault : JsonFault)
  | node (error : NodeError)
deriving Repr, DecidableEq

namespace Compiled

def encodeLine (statement : Statement) : String :=
  statement.toNode.toJson.render ++ "\n"

def encode (statements : List Statement) : String :=
  String.join (statements.map encodeLine)

/-- How many containers may stand inside each other. -/
def maxNesting : Nat := 127

/-- The tag of an outermost value, which is judged as soon as it is read. -/
def readTag (bytes : Bytes) : Except JsonFault (Tag × Bytes) :=
  match Json.skipSpace bytes with
  | [] => .error .truncated
  | b :: rest =>
      if b = Json.byte '"' then do
        let (name, rest) ← Json.readString rest
        match Tag.ofName? name with
        | some tag => .ok (tag, rest)
        | none => .error .misshapen
      else if b = Json.byte '[' ∨ b = Json.byte '\x7b' then .error .misshapen
      else do
        let _ ← Json.readScalar (b :: rest)
        .error .misshapen

/-- The tag and the other members of an object, the latest first. -/
abbrev TaggedMembers := Option Tag × List (String × Json)

/-- One member of an outermost object, from the colon after its name on.  A
second tag is refused at its name. -/
def readTaggedMember (state : TaggedMembers) (name : String) (bytes : Bytes) :
    Except JsonFault (TaggedMembers × Bytes) :=
  if name = tagName then
    match state.1 with
    | some _ => .error .misshapen
    | none => do
        let (tag, rest) ← readTag (← Json.readColon bytes)
        .ok ((some tag, state.2), rest)
  else do
    let (value, rest) ← Json.readValue (maxNesting - 1) (← Json.readColon bytes)
    .ok ((state.1, (name, value) :: state.2), rest)

abbrev TaggedItems := Option Tag × List Json

/-- One item of an outermost array, the tag being the first. -/
def readTaggedItem (state : TaggedItems) (bytes : Bytes) :
    Except JsonFault (TaggedItems × Bytes) :=
  match state.1 with
  | none => do
      let (tag, rest) ← readTag bytes
      .ok ((some tag, []), rest)
  | some tag => do
      let (item, rest) ← Json.readValue (maxNesting - 1) bytes
      .ok ((some tag, item :: state.2), rest)

def finish (tag : Option Tag) (build : Tag → Option Node) (rest : Bytes) :
    Except JsonFault (Node × Bytes) :=
  match tag.bind build with
  | some node => .ok (node, rest)
  | none => .error .misshapen

/-- The node at the start of the bytes, whose first is no white space. -/
def readNode (bytes : Bytes) : Except JsonFault (Node × Bytes) :=
  match bytes with
  | [] => .error .truncated
  | b :: rest =>
      if b = Json.byte '\x7b' then do
        let ((tag, members), rest) ←
          Json.readMembers readTaggedMember (rest.length + 1) true (none, []) rest
        finish tag (fun tag => tag.build (Json.interpretMembers members.reverse)) rest
      else if b = Json.byte '[' then do
        let ((tag, items), rest) ←
          Json.readItems readTaggedItem (rest.length + 1) true (none, []) rest
        finish tag (fun tag => tag.buildPlaced (Json.interpretAll items.reverse)) rest
      else do
        let _ ← Json.readValue maxNesting bytes
        .error .misshapen

/-- The parts of a stream, up to the first fault of the JSON.  The fuel is the
number of bytes at hand. -/
def decodeUpTo : Nat → Bytes → List (Except CompiledError Statement)
  | 0, _ => []
  | fuel + 1, bytes =>
      match Json.skipSpace bytes with
      | [] => []
      | b :: rest =>
          match readNode (b :: rest) with
          | .error fault => [.error (.json fault)]
          | .ok (node, rest) =>
              (match node.toStatement with
                | .ok statement => .ok statement
                | .error error => .error (.node error)) :: decodeUpTo fuel rest

/-- The statements of a compiled program, and the errors of parts that give
none. -/
def decode (bytes : Bytes) : List (Except CompiledError Statement) :=
  decodeUpTo (bytes.length + 1) bytes

def decodeAll (bytes : Bytes) : Except CompiledError (List Statement) :=
  convertAll id (decode bytes)

end Compiled

example : Compiled.encode [.clause (.fact ⟨"p", [.str "\t", .num 2]⟩)] =
    "\x7b\"t\":\"fact\",\"f\":\"p\",\"a\":[\x7b\"t\":\"str\",\"v\":\"\\t\"\x7d," ++
      "\x7b\"t\":\"num\",\"v\":2.0\x7d]\x7d\n" := by
  decide +kernel

example :
    (Compiled.decodeAll "[\"rule\", [\"fact\", \"p\"], [\"query\"]]".toUTF8.toList).toOption.map
      (·.map Statement.render) = some ["p :- ."] := by decide +kernel

end Horn
