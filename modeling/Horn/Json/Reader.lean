/-
JSON values from bytes.  Readers give the value and the bytes after it, or the
first fault that is met: the text ends inside a value, or it is no JSON at all.
-/
import Horn.Json.Value

namespace Horn

/-- Why bytes give no value of the wanted shape. -/
inductive JsonFault
  | truncated
  | malformed
  | misshapen
  | unreadable
deriving Repr, DecidableEq

/-- Text before it is decoded. -/
abbrev Bytes := List UInt8

namespace Json

def byte (c : Char) : UInt8 :=
  c.toUInt8

def isSpace (b : UInt8) : Bool :=
  b = byte ' ' || b = byte '\n' || b = byte '\t' || b = byte '\r'

def isDigit (b : UInt8) : Bool :=
  byte '0' ≤ b && b ≤ byte '9'

/-- The bytes from the next one that is no white space. -/
def skipSpace (bytes : Bytes) : Bytes :=
  bytes.dropWhile isSpace

def hexValue? (b : UInt8) : Option Nat :=
  if isDigit b then some (b.toNat - 0x30)
  else if byte 'a' ≤ b && b ≤ byte 'f' then some (b.toNat - 0x61 + 10)
  else if byte 'A' ≤ b && b ≤ byte 'F' then some (b.toNat - 0x41 + 10)
  else none

/-- Four hexadecimal digits.  All four have to be there before any is judged. -/
def readFourDigits : Bytes → Except JsonFault (Nat × Bytes)
  | a :: b :: c :: d :: rest =>
      match hexValue? a, hexValue? b, hexValue? c, hexValue? d with
      | some a, some b, some c, some d => .ok (((a * 16 + b) * 16 + c) * 16 + d, rest)
      | _, _, _, _ => .error .malformed
  | _ => .error .truncated

/-- The character of a `\u` escape.  A number for the first half of a pair
needs an escape for the second half right after it. -/
def readCodePoint (bytes : Bytes) : Except JsonFault (Char × Bytes) := do
  let (high, rest) ← readFourDigits bytes
  if 0xDC00 ≤ high ∧ high ≤ 0xDFFF then .error .malformed
  else if high < 0xD800 ∨ 0xDBFF < high then .ok (Char.ofNat high, rest)
  else match rest with
    | [] => .error .truncated
    | first :: rest =>
        if first ≠ byte '\\' then .error .malformed
        else match rest with
          | [] => .error .truncated
          | second :: rest =>
              if second ≠ byte 'u' then .error .malformed
              else do
                let (low, rest) ← readFourDigits rest
                if low < 0xDC00 ∨ 0xDFFF < low then .error .malformed
                else .ok (Char.ofNat (0x10000 + (high - 0xD800) * 0x400 + (low - 0xDC00)), rest)

/-- The character of an escape, after its backslash. -/
def readEscape : Bytes → Except JsonFault (Char × Bytes)
  | [] => .error .truncated
  | b :: rest =>
      if b = byte '"' then .ok ('"', rest)
      else if b = byte '\\' then .ok ('\\', rest)
      else if b = byte '/' then .ok ('/', rest)
      else if b = byte 'b' then .ok ('\x08', rest)
      else if b = byte 'f' then .ok ('\x0c', rest)
      else if b = byte 'n' then .ok ('\n', rest)
      else if b = byte 'r' then .ok ('\r', rest)
      else if b = byte 't' then .ok ('\t', rest)
      else if b = byte 'u' then readCodePoint rest
      else .error .malformed

/-- The bytes of a string up to its closing quote, after the opening one.  The
fuel is the number of bytes at hand. -/
def readStringBytes : Nat → ByteArray → Bytes → Except JsonFault (ByteArray × Bytes)
  | 0, _, _ => .error .truncated
  | _ + 1, _, [] => .error .truncated
  | fuel + 1, taken, b :: rest =>
      if b = byte '"' then .ok (taken, rest)
      else if b = byte '\\' then do
        let (c, rest) ← readEscape rest
        readStringBytes fuel (taken ++ c.toString.toUTF8) rest
      else if b.toNat < 0x20 then .error .malformed
      else readStringBytes fuel (taken.push b) rest

/-- A string after its opening quote.  Whether its bytes are text is judged
when the closing quote has been found. -/
def readString (bytes : Bytes) : Except JsonFault (String × Bytes) := do
  let (taken, rest) ← readStringBytes (bytes.length + 1) ByteArray.empty bytes
  match String.fromUTF8? taken with
  | some text => .ok (text, rest)
  | none => .error .malformed

def digitValue (b : UInt8) : Nat :=
  b.toNat - 0x30

/-- Extend a significand by digits for as long as it fits into 64 bits, and
give what is left of the digits. -/
def extendSignificand (significand : Nat) : Bytes → Nat × Bytes
  | [] => (significand, [])
  | b :: rest =>
      if significand * 10 + digitValue b < UInt64.size then
        extendSignificand (significand * 10 + digitValue b) rest
      else (significand, b :: rest)

/-- Divide by a power of ten in steps that floats can hold. -/
def divideByPower (value : Float) (power : Nat) : Float :=
  if _hsmall : power ≤ 308 then value / Float.ofScientific 1 false power
  else if value == 0 then value
  else divideByPower (value / Float.ofScientific 1 false 308) (power - 308)
termination_by power

/-- The float of a significand and a power of ten, as one product or as
quotients.  A result too large for a float is refused. -/
def scaledFloat (significand : Nat) (power : Int) : Except JsonFault Float :=
  let value := Float.ofNat significand
  if power < 0 then .ok (divideByPower value (-power).toNat)
  else if 308 < power then if value == 0 then .ok value else .error .malformed
  else
    let product := value * Float.ofScientific 1 false power.toNat
    if product.isInf then .error .malformed else .ok product

/-- The parts of a number after its sign; decimal places and exponent are
missing where there is no mark for them. -/
structure NumberParts where
  digits : Bytes
  places : Option Bytes
  exponent : Option Int

def readDigits (bytes : Bytes) : Except JsonFault (Bytes × Bytes) :=
  let digits := bytes.takeWhile isDigit
  if digits.isEmpty then
    if bytes.isEmpty then .error .truncated else .error .malformed
  else .ok (digits, bytes.drop digits.length)

def readExponent (bytes : Bytes) : Except JsonFault (Int × Bytes) := do
  let (negative, bytes) := match bytes with
    | b :: rest => if b = byte '+' then (false, rest) else if b = byte '-' then (true, rest)
        else (false, bytes)
    | [] => (false, bytes)
  let (digits, rest) ← readDigits bytes
  let size : Int := digits.foldl (fun total b => total * 10 + digitValue b) 0
  .ok (if negative then -size else size, rest)

/-- The parts of a number.  A leading zero stands alone before the point. -/
def readNumberParts (bytes : Bytes) : Except JsonFault (NumberParts × Bytes) := do
  let (digits, rest) ← readDigits bytes
  if digits.head? = some (byte '0') ∧ 1 < digits.length then .error .malformed
  else do
    let (places, rest) ← match rest with
      | b :: rest' =>
          if b = byte '.' then (readDigits rest').map fun (digits, rest) => (some digits, rest)
          else .ok (none, rest)
      | [] => .ok (none, rest)
    let (exponent, rest) ← match rest with
      | b :: rest' =>
          if b = byte 'e' ∨ b = byte 'E' then
            (readExponent rest').map fun (exponent, rest) => (some exponent, rest)
          else .ok (none, rest)
      | [] => .ok (none, rest)
    .ok (⟨digits, places, exponent⟩, rest)

/-- The value of a number.  Without decimal places and exponent it stays whole
if it fits into 64 bits; negative zero is a float. -/
def NumberParts.value (parts : NumberParts) (negative : Bool) : Except JsonFault Json := do
  let (significand, dropped) := extendSignificand 0 parts.digits
  let signed (value : Float) : Json := .real (if negative then -value else value)
  if parts.places.isNone ∧ parts.exponent.isNone ∧ dropped.isEmpty then
    if !negative then .ok (.whole significand)
    else if 0 < significand ∧ significand ≤ Nat.pow 2 63 then .ok (.whole (-significand))
    else .ok (signed (Float.ofNat significand))
  else
    let places := parts.places.getD []
    let (extended, left) := extendSignificand significand places
    let taken : Int := places.length - left.length
    let value ← scaledFloat extended (dropped.length - taken + parts.exponent.getD 0)
    .ok (signed value)

def readNumber (bytes : Bytes) : Except JsonFault (Json × Bytes) := do
  let (negative, bytes) := match bytes with
    | b :: rest => if b = byte '-' then (true, rest) else (false, bytes)
    | [] => (false, bytes)
  let (parts, rest) ← readNumberParts bytes
  let value ← parts.value negative
  .ok (value, rest)

def readWord (value : Json) : List Char → Bytes → Except JsonFault (Json × Bytes)
  | [], bytes => .ok (value, bytes)
  | _ :: _, [] => .error .truncated
  | c :: more, b :: rest =>
      if b = byte c then readWord value more rest else .error .malformed

/-- A value that is no string and no container, from its first byte on. -/
def readScalar (bytes : Bytes) : Except JsonFault (Json × Bytes) :=
  match bytes with
  | [] => .error .truncated
  | b :: rest =>
      if b = byte 'n' then readWord .null ['u', 'l', 'l'] rest
      else if b = byte 't' then readWord (.bool true) ['r', 'u', 'e'] rest
      else if b = byte 'f' then readWord (.bool false) ['a', 'l', 's', 'e'] rest
      else if b = byte '-' ∨ isDigit b then readNumber bytes
      else .error .malformed

/-- The items of an array after its opening bracket, each read by `step`, which
carries a state along.  The fuel is the number of bytes at hand. -/
def readItems {σ : Type} (step : σ → Bytes → Except JsonFault (σ × Bytes)) :
    Nat → Bool → σ → Bytes → Except JsonFault (σ × Bytes)
  | 0, _, _, _ => .error .truncated
  | fuel + 1, first, state, bytes =>
      match skipSpace bytes with
      | [] => .error .truncated
      | b :: rest =>
          if b = byte ']' then .ok (state, rest)
          else if first then do
            let (state, rest) ← step state (b :: rest)
            readItems step fuel false state rest
          else if b = byte ',' then
            match skipSpace rest with
            | [] => .error .truncated
            | b :: rest =>
                if b = byte ']' then .error .malformed
                else do
                  let (state, rest) ← step state (b :: rest)
                  readItems step fuel false state rest
          else .error .malformed

/-- The name of a member, from the opening quote on. -/
def readName : Bytes → Except JsonFault (String × Bytes)
  | [] => .error .truncated
  | b :: rest => if b = byte '"' then readString rest else .error .malformed

def readColon (bytes : Bytes) : Except JsonFault Bytes :=
  match skipSpace bytes with
  | [] => .error .truncated
  | b :: rest => if b = byte ':' then .ok rest else .error .malformed

/-- The members of an object after its opening brace.  Each is read by `step`
from its colon on, so that a name can be judged before anything after it; a
state is carried along.  The fuel is the number of bytes at hand. -/
def readMembers {σ : Type} (step : σ → String → Bytes → Except JsonFault (σ × Bytes)) :
    Nat → Bool → σ → Bytes → Except JsonFault (σ × Bytes)
  | 0, _, _, _ => .error .truncated
  | fuel + 1, first, state, bytes =>
      match skipSpace bytes with
      | [] => .error .truncated
      | b :: rest =>
          if b = byte '\x7d' then .ok (state, rest)
          else if first then do
            let (name, rest) ← readName (b :: rest)
            let (state, rest) ← step state name rest
            readMembers step fuel false state rest
          else if b = byte ',' then do
            let (name, rest) ← readName (skipSpace rest)
            let (state, rest) ← step state name rest
            readMembers step fuel false state rest
          else .error .malformed

/-- A value whose containers nest at most `depth` deep. -/
def readValue (depth : Nat) (bytes : Bytes) : Except JsonFault (Json × Bytes) :=
  match skipSpace bytes with
  | [] => .error .truncated
  | b :: rest =>
      if b = byte '"' then (readString rest).map fun (text, rest) => (.string text, rest)
      else if b = byte '[' then
        match depth with
        | 0 => .error .malformed
        | depth + 1 => do
            let (items, rest) ← readItems
              (fun items bytes => (readValue depth bytes).map
                fun (item, rest) => (item :: items, rest))
              (rest.length + 1) true [] rest
            .ok (.array items.reverse, rest)
      else if b = byte '\x7b' then
        match depth with
        | 0 => .error .malformed
        | depth + 1 => do
            let (members, rest) ← readMembers
              (fun members name bytes => do
                let (value, rest) ← readValue depth (← readColon bytes)
                .ok ((name, value) :: members, rest))
              (rest.length + 1) true [] rest
            .ok (.object members.reverse, rest)
      else readScalar (b :: rest)

end Json

end Horn
