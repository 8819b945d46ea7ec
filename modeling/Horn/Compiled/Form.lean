/-
Nodes as JSON.  A node is an object whose member `t` holds its tag, with one
member for each field; or an array of the tag and the fields in their order.
-/
import Horn.Compiled.Node
import Horn.Json.Reader

namespace Horn

/-- The fields of each node, in the order in which they are written. -/
def Tag.fields : Tag → List String
  | .fact => ["f", "a"]
  | .rule => ["h", "b"]
  | .query => ["b"]
  | .var => ["v"]
  | .atom => ["v"]
  | .str => ["v"]
  | .num => ["v"]
  | .assign => ["v", "e"]
  | .sum => ["l", "o", "r"]
  | .product => ["l", "o", "r"]
  | .factor => ["v", "n", "e"]

def tagName : String := "t"

def Tag.wrap (tag : Tag) (fields : List (String × Json)) : Json :=
  .object ((tagName, .string tag.name) :: fields)

/-- The member of a payload that is there, and nothing for one that is not. -/
def optionalField (name : String) : Option Json → List (String × Json)
  | none => []
  | some value => [(name, value)]

mutual

/-- A missing right operand or payload has no member. -/
def Node.toJson : Node → Json
  | .fact functor args =>
      Tag.fact.wrap [("f", .string functor), ("a", .array (Node.toJsons args))]
  | .rule head body => Tag.rule.wrap [("h", head.toJson), ("b", body.toJson)]
  | .query goals => Tag.query.wrap [("b", .array (Node.toJsons goals))]
  | .var name => Tag.var.wrap [("v", .string name)]
  | .atom text => Tag.atom.wrap [("v", .string text)]
  | .str text => Tag.str.wrap [("v", .string text)]
  | .num value => Tag.num.wrap [("v", .real value)]
  | .assign target value => Tag.assign.wrap [("v", target.toJson), ("e", value.toJson)]
  | .sum left op right =>
      Tag.sum.wrap
        ([("l", left.toJson), ("o", .whole op.toNat)] ++ optionalField "r" (Node.toJson? right))
  | .product left op right =>
      Tag.product.wrap
        ([("l", left.toJson), ("o", .whole op.toNat)] ++ optionalField "r" (Node.toJson? right))
  | .factor name number inner =>
      Tag.factor.wrap
        (optionalField "v" (Node.toJson? name) ++ optionalField "n" (Node.toJson? number) ++
          optionalField "e" (Node.toJson? inner))

def Node.toJsons : List Node → List Json
  | [] => []
  | node :: rest => node.toJson :: Node.toJsons rest

def Node.toJson? : Option Node → Option Json
  | none => none
  | some node => some node.toJson

end

/-- All that a JSON value can stand for inside a node. -/
structure Reading where
  isNull : Bool
  text : Option String
  number : Option Float
  code : Option Nat
  node : Option Node
  nodes : Option (List Node)

def Reading.nothing : Reading :=
  ⟨false, none, none, none, none, none⟩

/-- The tag of a node inside another may also be given by its number. -/
def Reading.tag? (reading : Reading) : Option Tag :=
  match reading.text with
  | some name => Tag.ofName? name
  | none =>
      match reading.code with
      | some place => Tag.all[place]?
      | none => none

/-- The fields of a node under their names; a name may occur more than once. -/
abbrev Fields := List (String × Reading)

def Fields.required (fields : Fields) (name : String) : Option Reading :=
  fields.lookup name

/-- A list of nodes; a missing one is empty. -/
def Fields.nodes (fields : Fields) (name : String) : Option (List Node) :=
  match fields.lookup name with
  | none => some []
  | some reading => reading.nodes

/-- A payload that may be missing or null. -/
def Fields.payload (fields : Fields) (name : String) : Option (Option Node) :=
  match fields.lookup name with
  | none => some none
  | some reading => if reading.isNull then some none else reading.node.map some

/-- An operator code, which is a byte. -/
def Fields.code (fields : Fields) (name : String) : Option UInt8 := do
  let code ← (← fields.required name).code
  if code < 256 then some (UInt8.ofNat code) else none

/-- No field of the tag is given twice.  Other members are not looked at. -/
def Tag.admits (tag : Tag) (fields : Fields) : Bool :=
  tag.fields.all fun name => (fields.filter fun field => field.1 = name).length ≤ 1

/-- The node of a tag and its fields, if they have the right shapes. -/
def Tag.build (tag : Tag) (fields : Fields) : Option Node :=
  if !tag.admits fields then none
  else match tag with
    | .fact => do
        return .fact (← (← fields.required "f").text) (← fields.nodes "a")
    | .rule => do
        return .rule (← (← fields.required "h").node) (← (← fields.required "b").node)
    | .query => do return .query (← fields.nodes "b")
    | .var => do return .var (← (← fields.required "v").text)
    | .atom => do return .atom (← (← fields.required "v").text)
    | .str => do return .str (← (← fields.required "v").text)
    | .num => do return .num (← (← fields.required "v").number)
    | .assign => do
        return .assign (← (← fields.required "v").node) (← (← fields.required "e").node)
    | .sum => do
        return .sum (← (← fields.required "l").node) (← fields.code "o") (← fields.payload "r")
    | .product => do
        return .product (← (← fields.required "l").node) (← fields.code "o") (← fields.payload "r")
    | .factor => do
        return .factor (← fields.payload "v") (← fields.payload "n") (← fields.payload "e")

/-- The node of a tag and its fields in their order, none too many. -/
def Tag.buildPlaced (tag : Tag) (fields : List Reading) : Option Node :=
  if fields.length ≤ tag.fields.length then tag.build (tag.fields.zip fields) else none

/-- The node of an object: its tag stands once among its members. -/
def Fields.node? (members : Fields) : Option Node :=
  match members.filter fun member => member.1 = tagName with
  | [(_, reading)] => do
      (← reading.tag?).build (members.filter fun member => member.1 ≠ tagName)
  | _ => none

/-- The node of an array that starts with the tag. -/
def placedNode? : List Reading → Option Node
  | [] => none
  | reading :: fields => do (← reading.tag?).buildPlaced fields

mutual

/-- Read a value in all ways at once, from the inside out. -/
def Json.interpret : Json → Reading
  | .null => { Reading.nothing with isNull := true }
  | .bool _ => .nothing
  | .whole value =>
      { Reading.nothing with
        number := some (Float.ofInt value)
        code := if 0 ≤ value then some value.toNat else none }
  | .real value => { Reading.nothing with number := some value }
  | .string text => { Reading.nothing with text := some text }
  | .array items =>
      let readings := Json.interpretAll items
      { Reading.nothing with
        node := placedNode? readings
        nodes := readings.mapM Reading.node }
  | .object members =>
      { Reading.nothing with node := Fields.node? (Json.interpretMembers members) }

def Json.interpretAll : List Json → List Reading
  | [] => []
  | item :: rest => item.interpret :: Json.interpretAll rest

def Json.interpretMembers : List (String × Json) → Fields
  | [] => []
  | (name, value) :: rest => (name, value.interpret) :: Json.interpretMembers rest

end

end Horn
