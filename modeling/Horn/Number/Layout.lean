/-
Written forms of floats: positional digits between two powers of ten and
exponent notation outside, each choice a field of a `Layout`.
-/
import Horn.Number.Shortest

namespace Horn

/-- One way to write floats.  A number whose leading digit stands for a power
of ten from `lowest` to `highest` is written positionally. -/
structure Layout where
  lowest : Int
  highest : Int
  /-- Whether whole numbers keep a `.0`. -/
  pointZero : Bool
  /-- What stands before an exponent that is not negative. -/
  plus : String
  tie : Tie
  infinity : String
  notANumber : String

/-- Numbers inside terms keep a decimal place, and use exponents below `1e-4`
and from `1e16` on. -/
def Layout.term : Layout := ⟨-4, 15, true, "", .upward, "inf", "NaN"⟩

/-- Settings show a number in full, without exponent and without a needless
decimal place. -/
def Layout.plain : Layout := ⟨-400, 400, false, "", .upward, "inf", "NaN"⟩

/-- Compiled files write numbers as JSON does; a number without a JSON form
becomes null. -/
def Layout.json : Layout := ⟨-5, 15, true, "+", .toEven, "null", "null"⟩

def zeros (count : Nat) : String :=
  String.ofList (List.replicate count '0')

def Decimal.positional (layout : Layout) (decimal : Decimal) : String :=
  let digits := Nat.toDigits 10 decimal.digits
  if 0 ≤ decimal.exponent then
    String.ofList digits ++ zeros decimal.exponent.toNat ++
      (if layout.pointZero then ".0" else "")
  else
    let places := (-decimal.exponent).toNat
    if places < digits.length then
      String.ofList (digits.take (digits.length - places)) ++ "." ++
        String.ofList (digits.drop (digits.length - places))
    else "0." ++ zeros (places - digits.length) ++ String.ofList digits

/-- One digit before the point, then the exponent of that digit. -/
def Decimal.scientific (layout : Layout) (decimal : Decimal) : String :=
  let digits := Nat.toDigits 10 decimal.digits
  let leading := decimal.exponent + digits.length - 1
  let places := digits.drop 1
  String.ofList (digits.take 1) ++
    (if places.isEmpty then "" else "." ++ String.ofList places) ++
    "e" ++ (if leading < 0 then "" else layout.plus) ++ toString leading

/-- Positional digits inside the layout's range, and an exponent outside. -/
def Decimal.render (layout : Layout) (decimal : Decimal) : String :=
  let leading := decimal.exponent + digitCount decimal.digits - 1
  if layout.lowest ≤ leading ∧ leading ≤ layout.highest then decimal.positional layout
  else decimal.scientific layout

/-- The text of a float; a number that is not one has no sign. -/
def Layout.write (layout : Layout) (number : Float) : String :=
  let sign := if isNegative number then "-" else ""
  match magnitude number with
  | .notANumber => layout.notANumber
  | .infinite =>
      if layout.infinity = layout.notANumber then layout.infinity else sign ++ layout.infinity
  | .zero => sign ++ (if layout.pointZero then "0.0" else "0")
  | .finite value => sign ++ (value.shortest layout.tie).render layout

def numberText (number : Float) : String :=
  Layout.term.write number

def digitsValue (digits : List Char) : Nat :=
  digits.foldl (fun value digit => 10 * value + (digit.toNat - '0'.toNat)) 0

/-- The float nearest to a number written as whole digits and decimal places. -/
def readNumber (whole places : List Char) : Float :=
  Float.ofScientific (digitsValue (whole ++ places)) true places.length

example : numberText 1e15 = "1000000000000000.0" := by decide +kernel

example : numberText 1e16 = "1e16" := by decide +kernel

example : Layout.json.write 1e16 = "1e+16" := by decide +kernel

example : Layout.plain.write 1e16 = "10000000000000000" := by decide +kernel

example : numberText 0.00001 = "1e-5" := by decide +kernel

example : Layout.json.write 0.00001 = "0.00001" := by decide +kernel

example : numberText (0.1 + 0.2) = "0.30000000000000004" := by decide +kernel

example : numberText (-0.0) = "-0.0" := by decide +kernel

end Horn
