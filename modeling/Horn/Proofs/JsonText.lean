/-
JSON values and the bytes of their text.  A value whose numbers are read back
from their own text is read back as a whole, whatever follows it, as long as
its containers nest no deeper than the reader goes.
-/
import Mathlib.Tactic.Common
import Horn.Json.Reader

namespace Horn

/-- The bytes of a text. -/
def bytesOf (text : String) : Bytes :=
  text.toList.flatMap String.utf8EncodeChar

@[simp] theorem bytesOf_append (left right : String) :
    bytesOf (left ++ right) = bytesOf left ++ bytesOf right := by
  simp [bytesOf]

theorem bytesOf_join (texts : List String) :
    bytesOf (String.join texts) = texts.flatMap bytesOf := by
  induction texts with
  | nil => rfl
  | cons text texts ih => simp [String.join_cons, ih]

theorem toByteArray_bytesOf (text : String) : (bytesOf text).toByteArray = text.toUTF8 := by
  rw [bytesOf, ← List.utf8Encode, String.utf8Encode_toList]
  rfl

/-- A byte array's list is built from its end, by a loop from its start. -/
theorem toList_loop (bytes : ByteArray) (place : Nat) (taken : List UInt8) :
    ByteArray.toList.loop bytes place taken = taken.reverse ++ bytes.data.toList.drop place := by
  fun_induction ByteArray.toList.loop bytes place taken with
  | case1 place taken hlt ih =>
      have hget : bytes.get! place = bytes.data.toList[place] := by
        simp [ByteArray.get!, hlt]
      have hdrop : bytes.data.toList.drop place =
          bytes.get! place :: bytes.data.toList.drop (place + 1) := by
        rw [hget]
        apply List.drop_eq_getElem_cons
      rw [ih, hdrop]
      simp
  | case2 place taken hge =>
      have hend : bytes.data.toList.drop place = [] := by
        apply List.drop_of_length_le
        simpa using hge
      rw [hend, List.append_nil]

theorem toList_toUTF8 (text : String) : text.toUTF8.toList = bytesOf text := by
  rw [ByteArray.toList, toList_loop, ← toByteArray_bytesOf]
  simp

theorem fromUTF8?_toUTF8 (text : String) : String.fromUTF8? text.toUTF8 = some text := by
  exact dif_pos text.isValidUTF8

namespace Json

/-- The marks that are written between values. -/
theorem bytesOf_marks :
    bytesOf "," = [byte ','] ∧ bytesOf ":" = [byte ':'] ∧
      bytesOf "[" = [byte '['] ∧ bytesOf "]" = [byte ']'] ∧
      bytesOf "\x7b" = [byte '\x7b'] ∧ bytesOf "\x7d" = [byte '\x7d'] ∧
      bytesOf "\\u" = [byte '\\', byte 'u'] := by
  decide +kernel

/-- A byte of a string that stands for itself. -/
structure PlainByte (b : UInt8) : Prop where
  quote : b ≠ byte '"'
  backslash : b ≠ byte '\\'
  control : ¬ b.toNat < 0x20

theorem plainByte_of_toNat {b : UInt8} (hquote : b.toNat ≠ 0x22) (hbackslash : b.toNat ≠ 0x5C)
    (hcontrol : 0x20 ≤ b.toNat) : PlainByte b := by
  constructor
  · rintro rfl
    exact hquote rfl
  · rintro rfl
    exact hbackslash rfl
  · exact Nat.not_lt.mpr hcontrol

/-- The bytes of a character beyond ASCII are all beyond ASCII. -/
theorem plainByte_of_mem {c : Char} (hquote : c ≠ '"') (hbackslash : c ≠ '\\')
    (hcontrol : 0x20 ≤ c.toNat) : ∀ b ∈ String.utf8EncodeChar c, PlainByte b := by
  have hne : ∀ other : Char, c ≠ other → c.val.toNat ≠ other.val.toNat := fun other hother heq =>
    hother (Char.ext (UInt32.toNat_inj.mp heq))
  have hquote : c.val.toNat ≠ 0x22 := hne _ hquote
  have hbackslash : c.val.toNat ≠ 0x5C := hne _ hbackslash
  have hcontrol : 0x20 ≤ c.val.toNat := hcontrol
  intro b hb
  unfold String.utf8EncodeChar at hb
  dsimp only at hb
  split at hb
  · obtain rfl := List.mem_singleton.mp hb
    apply plainByte_of_toNat <;> rw [UInt8.toNat_ofNat'] <;> omega
  · have hhigh : 0x80 ≤ b.toNat := by
      split at hb
      · simp only [List.mem_cons, List.not_mem_nil, or_false] at hb
        rcases hb with rfl | rfl <;> rw [UInt8.toNat_ofNat'] <;> omega
      · split at hb
        · simp only [List.mem_cons, List.not_mem_nil, or_false] at hb
          rcases hb with rfl | rfl | rfl <;> rw [UInt8.toNat_ofNat'] <;> omega
        · simp only [List.mem_cons, List.not_mem_nil, or_false] at hb
          rcases hb with rfl | rfl | rfl | rfl <;> rw [UInt8.toNat_ofNat'] <;> omega
    apply plainByte_of_toNat <;> omega

/-- Plain bytes are taken as they are. -/
theorem readStringBytes_plain {plain : Bytes} (hplain : ∀ b ∈ plain, PlainByte b) (fuel : Nat)
    (taken : ByteArray) (rest : Bytes) :
    readStringBytes (fuel + plain.length) taken (plain ++ rest) =
      readStringBytes fuel (taken ++ plain.toByteArray) rest := by
  induction plain generalizing taken with
  | nil => simp
  | cons b plain ih =>
      obtain ⟨hquote, hbackslash, hcontrol⟩ := hplain b List.mem_cons_self
      have hmore := fun other hother => hplain other (List.mem_cons_of_mem b hother)
      have htaken : taken ++ (b :: plain).toByteArray = taken.push b ++ plain.toByteArray := by
        rw [← ByteArray.append_toByteArray_singleton, ByteArray.append_assoc,
          ← List.toByteArray_append, List.singleton_append]
      rw [List.length_cons, ← Nat.add_assoc, List.cons_append, readStringBytes, if_neg hquote,
        if_neg hbackslash, if_neg hcontrol, ih hmore, htaken]

theorem readFourDigits_append {bytes left : Bytes} {n : Nat}
    (hread : readFourDigits bytes = .ok (n, left)) (rest : Bytes) :
    readFourDigits (bytes ++ rest) = .ok (n, left ++ rest) := by
  unfold readFourDigits at hread ⊢
  split at hread
  · split at hread
    · cases hread
      simp only [List.cons_append, *]
    · cases hread
  · cases hread

theorem readFourDigits_fourDigits :
    ∀ n < 0x20, readFourDigits (bytesOf (fourDigits n)) = .ok (n, []) := by
  decide +kernel

/-- A control character without a letter of its own is written by its number. -/
theorem readEscape_number {c : Char} (hcontrol : c.toNat < 0x20) (rest : Bytes) :
    readEscape (byte 'u' :: bytesOf (fourDigits c.toNat) ++ rest) = .ok (c, rest) := by
  have hdigits := readFourDigits_append (readFourDigits_fourDigits c.toNat hcontrol) rest
  have hlow : ¬ (0xDC00 ≤ c.toNat ∧ c.toNat ≤ 0xDFFF) := by omega
  have hsingle : c.toNat < 0xD800 ∨ 0xDBFF < c.toNat := by omega
  change readCodePoint (bytesOf (fourDigits c.toNat) ++ rest) = _
  rw [readCodePoint, hdigits]
  simp [bind, Except.bind, hlow, hsingle]

/-- A written character is an escape that is read back, or stands for itself. -/
theorem escapeChar_cases (c : Char) :
    (∃ escape, bytesOf (escapeChar c) = byte '\\' :: escape ∧
      ∀ rest, readEscape (escape ++ rest) = .ok (c, rest)) ∨
    (bytesOf (escapeChar c) = String.utf8EncodeChar c ∧
      ∀ b ∈ String.utf8EncodeChar c, PlainByte b) := by
  unfold escapeChar
  split
  · exact .inl ⟨[byte '"'], by decide +kernel, fun rest => rfl⟩
  · exact .inl ⟨[byte '\\'], by decide +kernel, fun rest => rfl⟩
  · exact .inl ⟨[byte 'b'], by decide +kernel, fun rest => rfl⟩
  · exact .inl ⟨[byte 't'], by decide +kernel, fun rest => rfl⟩
  · exact .inl ⟨[byte 'n'], by decide +kernel, fun rest => rfl⟩
  · exact .inl ⟨[byte 'f'], by decide +kernel, fun rest => rfl⟩
  · exact .inl ⟨[byte 'r'], by decide +kernel, fun rest => rfl⟩
  · split
    · next hcontrol =>
        refine .inl ⟨byte 'u' :: bytesOf (fourDigits c.toNat), ?_, readEscape_number hcontrol⟩
        simp only [bytesOf_append, bytesOf_marks, List.cons_append, List.nil_append]
    · next hquote hbackslash _ _ _ _ _ hcontrol =>
        refine .inr ⟨by simp [bytesOf, Char.toString], ?_⟩
        exact plainByte_of_mem hquote hbackslash (Nat.not_lt.mp hcontrol)

/-- A written character is taken, and what follows it can still be read. -/
theorem readStringBytes_char (c : Char) {fuel : Nat} {rest : Bytes}
    (hfuel : (bytesOf (escapeChar c) ++ rest).length < fuel) (taken : ByteArray) :
    ∃ left, rest.length < left ∧
      readStringBytes fuel taken (bytesOf (escapeChar c) ++ rest) =
        readStringBytes left (taken ++ c.toString.toUTF8) rest := by
  have hchar : c.toString.toUTF8 = (String.utf8EncodeChar c).toByteArray := by
    rw [← toByteArray_bytesOf]
    simp [bytesOf, Char.toString]
  rcases escapeChar_cases c with ⟨escape, hbytes, hescape⟩ | ⟨hbytes, hplain⟩
  · rw [hbytes, List.cons_append] at hfuel ⊢
    obtain ⟨left, rfl⟩ : ∃ left, fuel = left + 1 := Nat.exists_eq_add_one_of_ne_zero (by omega)
    refine ⟨left, ?_, ?_⟩
    · simp only [List.length_cons, List.length_append] at hfuel
      omega
    · rw [readStringBytes, if_neg (by decide), if_pos rfl, hescape]
      rfl
  · rw [hbytes, List.length_append] at hfuel
    obtain ⟨left, rfl⟩ := Nat.exists_eq_add_of_lt hfuel
    refine ⟨rest.length + left + 1, by omega, ?_⟩
    rw [hbytes, hchar, ← readStringBytes_plain hplain]
    congr 1
    omega

/-- The bytes between the quotes of a written string. -/
def escaped (text : List Char) : Bytes :=
  text.flatMap fun c => bytesOf (escapeChar c)

theorem bytesOf_renderString (text : String) :
    bytesOf (renderString text) = byte '"' :: (escaped text.toList ++ [byte '"']) := by
  rw [renderString, bytesOf_append, bytesOf_append, bytesOf_join, List.flatMap_map]
  rfl

theorem readStringBytes_escaped (text : List Char) {fuel : Nat} {rest : Bytes}
    (hfuel : (escaped text ++ byte '"' :: rest).length < fuel) (taken : ByteArray) :
    readStringBytes fuel taken (escaped text ++ byte '"' :: rest) =
      .ok (taken ++ (String.ofList text).toUTF8, rest) := by
  induction text generalizing fuel taken with
  | nil =>
      obtain ⟨left, rfl⟩ : ∃ left, fuel = left + 1 := Nat.exists_eq_add_one_of_ne_zero (by omega)
      have hempty : (String.ofList []).toUTF8 = ByteArray.empty := rfl
      rw [escaped, List.flatMap_nil, List.nil_append, readStringBytes, if_pos rfl, hempty,
        ByteArray.append_empty]
  | cons c text ih =>
      have htext : (String.ofList (c :: text)).toUTF8 =
          c.toString.toUTF8 ++ (String.ofList text).toUTF8 := by
        simp only [← toByteArray_bytesOf, ← List.toByteArray_append, bytesOf, Char.toString]
        simp
      rw [escaped, List.flatMap_cons, List.append_assoc] at hfuel ⊢
      obtain ⟨left, hleft, hchar⟩ := readStringBytes_char c hfuel taken
      rw [hchar, htext, ← ByteArray.append_assoc]
      exact ih hleft _

/-- A written string is read back. -/
theorem readString_escaped (text : String) (rest : Bytes) :
    readString (escaped text.toList ++ byte '"' :: rest) = .ok (text, rest) := by
  have hread := readStringBytes_escaped text.toList
    (Nat.lt_succ_self (escaped text.toList ++ byte '"' :: rest).length) ByteArray.empty
  rw [String.ofList_toList, ByteArray.empty_append] at hread
  rw [readString, hread]
  simp only [bind, Except.bind, fromUTF8?_toUTF8]

/-- What follows a number and is no part of it. -/
def Ends (rest : Bytes) : Prop :=
  ∀ b ∈ rest.head?, isDigit b = false ∧ b ≠ byte '.' ∧ b ≠ byte 'e' ∧ b ≠ byte 'E'

/-- A reader that does not look at what follows. -/
def Local {α : Type} (rest : Bytes) (read : Bytes → Except JsonFault (α × Bytes)) : Prop :=
  ∀ ⦃bytes value left⦄, read bytes = .ok (value, left) →
    read (bytes ++ rest) = .ok (value, left ++ rest)

theorem Local.bind {α β : Type} {rest : Bytes} {read : Bytes → Except JsonFault (α × Bytes)}
    {next : α × Bytes → Except JsonFault (β × Bytes)} (hread : Local rest read)
    (hnext : ∀ value, Local rest fun bytes => next (value, bytes)) :
    Local rest fun bytes => (read bytes).bind next := by
  intro bytes value left hresult
  dsimp only at hresult ⊢
  cases hfirst : read bytes with
  | error fault =>
      rw [hfirst] at hresult
      cases hresult
  | ok result =>
      rw [hfirst] at hresult
      rw [hread hfirst]
      exact hnext _ hresult

theorem Local.ok {α : Type} {rest : Bytes} (value : α) :
    Local rest fun bytes => .ok (value, bytes) := by
  intro bytes found left hresult
  cases hresult
  rfl

/-- The exponent of a number from its sign and its digits. -/
def exponentOf (negative : Bool) (digits : Bytes) : Int :=
  let size : Int := digits.foldl (fun total b => total * 10 + digitValue b) 0
  if negative then -size else size

/-- A part of a number that may be missing, after its mark. -/
def readPart {α : Type} (marks : UInt8 → Prop) [DecidablePred marks]
    (read : Bytes → Except JsonFault (α × Bytes)) (bytes : Bytes) :
    Except JsonFault (Option α × Bytes) :=
  match bytes with
  | b :: rest =>
      if marks b then (read rest).map fun (part, rest) => (some part, rest)
      else .ok (none, bytes)
  | [] => .ok (none, bytes)

theorem readPart_bind {α β : Type} (marks : UInt8 → Prop) [DecidablePred marks]
    (read : Bytes → Except JsonFault (α × Bytes)) (bytes : Bytes)
    (next : Option α × Bytes → Except JsonFault β) :
    (readPart marks read bytes).bind next =
      match bytes with
      | b :: rest =>
          if marks b then ((read rest).map fun (part, rest) => (some part, rest)).bind next
          else (Except.ok (none, bytes)).bind next
      | [] => (Except.ok (none, bytes)).bind next := by
  cases bytes with
  | nil => rfl
  | cons b rest =>
      unfold readPart
      by_cases hmark : marks b
      · simp only [if_pos hmark]
      · simp only [if_neg hmark]

/-- The decimal places of a number, then its exponent. -/
theorem readNumberParts_eq (bytes : Bytes) :
    readNumberParts bytes = (readDigits bytes).bind fun result =>
      if result.1.head? = some (byte '0') ∧ 1 < result.1.length then .error .malformed
      else (readPart (· = byte '.') readDigits result.2).bind fun places =>
        (readPart (fun b => b = byte 'e' ∨ b = byte 'E') readExponent places.2).bind
          fun exponent => .ok (⟨result.1, places.1, exponent.1⟩, exponent.2) := by
  simp only [readPart_bind]
  rfl

section Numbers

variable {rest : Bytes} (hrest : Ends rest)
include hrest

theorem takeWhile_append (bytes : Bytes) :
    (bytes ++ rest).takeWhile isDigit = bytes.takeWhile isDigit := by
  have hnone : rest.takeWhile isDigit = [] := by
    cases rest with
    | nil => rfl
    | cons b rest => exact List.takeWhile_cons_of_neg (by simp [(hrest b rfl).1])
  by_cases hall : (bytes.takeWhile isDigit).length = bytes.length
  · have hsame : bytes.takeWhile isDigit = bytes :=
      (List.takeWhile_prefix isDigit).eq_of_length hall
    rw [List.takeWhile_append, if_pos hall, hnone, List.append_nil, hsame]
  · rw [List.takeWhile_append, if_neg hall]

theorem local_readDigits : Local rest readDigits := by
  intro bytes digits left hread
  unfold readDigits at hread ⊢
  rw [takeWhile_append hrest]
  dsimp only at hread ⊢
  by_cases hempty : (bytes.takeWhile isDigit).isEmpty = true
  · rw [if_pos hempty] at hread
    split at hread <;> cases hread
  · rw [if_neg hempty] at hread ⊢
    cases hread
    rw [List.drop_append_of_le_length (List.takeWhile_prefix isDigit).length_le]

theorem local_readExponent : Local rest readExponent := by
  have hsize (negative : Bool) : Local rest fun bytes =>
      (readDigits bytes).bind fun result =>
        .ok (exponentOf negative result.1, result.2) :=
    (local_readDigits hrest).bind fun digits => .ok (exponentOf negative digits)
  intro bytes exponent left hread
  cases bytes with
  | nil => cases hread
  | cons b bytes =>
      unfold readExponent at hread ⊢
      rw [List.cons_append]
      dsimp only at hread ⊢
      by_cases hplus : b = byte '+'
      · rw [if_pos hplus] at hread ⊢
        exact hsize false hread
      · by_cases hminus : b = byte '-'
        · rw [if_neg hplus, if_pos hminus] at hread ⊢
          exact hsize true hread
        · rw [if_neg hplus, if_neg hminus] at hread ⊢
          exact hsize false hread

theorem local_readPart {α : Type} {marks : UInt8 → Prop} [DecidablePred marks]
    {read : Bytes → Except JsonFault (α × Bytes)} (hread : Local rest read)
    (hmarks : ∀ b ∈ rest.head?, ¬ marks b) : Local rest (readPart marks read) := by
  intro bytes part left hpart
  cases bytes with
  | nil =>
      cases hpart
      cases rest with
      | nil => rfl
      | cons b rest => simp [readPart, hmarks b rfl]
  | cons b bytes =>
      rw [List.cons_append]
      unfold readPart at hpart ⊢
      dsimp only at hpart ⊢
      by_cases hmark : marks b
      · rw [if_pos hmark] at hpart ⊢
        cases hfirst : read bytes with
        | error fault =>
            rw [hfirst] at hpart
            cases hpart
        | ok result =>
            rw [hfirst] at hpart
            cases hpart
            rw [hread hfirst]
            rfl
      · rw [if_neg hmark] at hpart ⊢
        cases hpart
        rfl

theorem local_readNumberParts : Local rest readNumberParts := by
  have hpoint : ∀ b ∈ rest.head?, ¬ b = byte '.' := fun b hb => (hrest b hb).2.1
  have hmark : ∀ b ∈ rest.head?, ¬ (b = byte 'e' ∨ b = byte 'E') :=
    fun b hb => not_or.mpr (hrest b hb).2.2
  have hparts (digits : Bytes) : Local rest fun bytes =>
      if digits.head? = some (byte '0') ∧ 1 < digits.length then .error .malformed
      else (readPart (· = byte '.') readDigits bytes).bind fun places =>
        (readPart (fun b => b = byte 'e' ∨ b = byte 'E') readExponent places.2).bind
          fun exponent => .ok (NumberParts.mk digits places.1 exponent.1, exponent.2) := by
    by_cases hzero : digits.head? = some (byte '0') ∧ 1 < digits.length
    · simp only [if_pos hzero]
      intro bytes parts left hread
      cases hread
    · simp only [if_neg hzero]
      apply (local_readPart hrest (local_readDigits hrest) hpoint).bind
      intro places
      dsimp only
      apply (local_readPart hrest (local_readExponent hrest) hmark).bind
      exact fun exponent => .ok (NumberParts.mk digits places exponent)
  intro bytes parts left hread
  rw [readNumberParts_eq] at hread ⊢
  exact (local_readDigits hrest).bind hparts hread

/-- A number ends before what is no part of it. -/
theorem local_readNumber : Local rest readNumber := by
  have hvalue (negative : Bool) : Local rest fun bytes =>
      (readNumberParts bytes).bind fun result =>
        (result.1.value negative).bind fun value => .ok (value, result.2) := by
    apply (local_readNumberParts hrest).bind
    intro parts
    dsimp only
    cases parts.value negative with
    | error fault =>
        intro bytes value left hread
        cases hread
    | ok value => exact .ok value
  intro bytes value left hread
  cases bytes with
  | nil => cases hread
  | cons b bytes =>
      unfold readNumber at hread ⊢
      rw [List.cons_append]
      dsimp only at hread ⊢
      by_cases hminus : b = byte '-'
      · rw [if_pos hminus] at hread ⊢
        exact hvalue true hread
      · rw [if_neg hminus] at hread ⊢
        exact hvalue false hread

end Numbers

/-- The first byte of a number. -/
theorem exists_cons_of_readNumber {bytes left : Bytes} {value : Json}
    (hread : readNumber bytes = .ok (value, left)) :
    ∃ b rest, bytes = b :: rest ∧ (b = byte '-' ∨ isDigit b = true) := by
  cases bytes with
  | nil => cases hread
  | cons b rest =>
      refine ⟨b, rest, rfl, ?_⟩
      by_contra hother
      obtain ⟨hminus, hdigit⟩ := not_or.mp hother
      have hnone : (b :: rest).takeWhile isDigit = [] := List.takeWhile_cons_of_neg hdigit
      unfold readNumber at hread
      dsimp only at hread
      rw [if_neg hminus] at hread
      simp only [readNumberParts, readDigits, hnone, bind, Except.bind] at hread
      cases hread

mutual

/-- How many arrays and objects stand inside each other. -/
def nesting : Json → Nat
  | .null => 0
  | .bool _ => 0
  | .whole _ => 0
  | .real _ => 0
  | .string _ => 0
  | .array items => 1 + nestingOfItems items
  | .object members => 1 + nestingOfMembers members

def nestingOfItems : List Json → Nat
  | [] => 0
  | item :: rest => max item.nesting (nestingOfItems rest)

def nestingOfMembers : List (String × Json) → Nat
  | [] => 0
  | (_, value) :: rest => max value.nesting (nestingOfMembers rest)

end

theorem nesting_le_of_mem_items {item : Json} {items : List Json} (hitem : item ∈ items) :
    item.nesting ≤ nestingOfItems items := by
  induction items with
  | nil => cases hitem
  | cons first items ih =>
      rw [nestingOfItems]
      rcases List.mem_cons.mp hitem with rfl | hitem
      · exact Nat.le_max_left _ _
      · exact Nat.le_trans (ih hitem) (Nat.le_max_right _ _)

theorem nesting_le_of_mem_members {member : String × Json} {members : List (String × Json)}
    (hmember : member ∈ members) : member.2.nesting ≤ nestingOfMembers members := by
  induction members with
  | nil => cases hmember
  | cons first members ih =>
      rw [nestingOfMembers]
      rcases List.mem_cons.mp hmember with rfl | hmember
      · exact Nat.le_max_left _ _
      · exact Nat.le_trans (ih hmember) (Nat.le_max_right _ _)

/-- The value is a number, which is read back from its own text. -/
def ReadsBack (json : Json) : Prop :=
  readNumber (bytesOf json.render) = .ok (json, [])

/-- A number by itself, whole or not. -/
def number? : Json → Option (Int ⊕ Float)
  | .whole value => some (.inl value)
  | .real value => some (.inr value)
  | _ => none

theorem number?_inj {left right : Json} {number : Int ⊕ Float}
    (hleft : left.number? = some number) (hright : right.number? = some number) :
    left = right := by
  cases left <;> cases hleft <;> cases right <;> cases hright <;> rfl

theorem isSome_number?_of_value {parts : NumberParts} {negative : Bool} {json : Json}
    (hvalue : parts.value negative = .ok json) : json.number?.isSome = true := by
  unfold NumberParts.value at hvalue
  dsimp only at hvalue
  split at hvalue
  · split at hvalue
    · cases hvalue
      rfl
    · split at hvalue <;> cases hvalue <;> rfl
  · simp only [bind, Except.bind] at hvalue
    split at hvalue
    · cases hvalue
    · cases hvalue
      rfl

theorem isSome_number?_of_readNumber {bytes left : Bytes} {json : Json}
    (hread : readNumber bytes = .ok (json, left)) : json.number?.isSome = true := by
  unfold readNumber at hread
  dsimp only [bind, Except.bind] at hread
  split at hread
  · cases hread
  · split at hread
    · cases hread
    · next hvalue =>
        cases hread
        exact isSome_number?_of_value hvalue

theorem readsBack_iff {json : Json} :
    json.ReadsBack ↔ json.number?.isSome = true ∧
      (readNumber (bytesOf json.render)).toOption.map
        (fun (value, left) => (value.number?, left)) = some (json.number?, []) := by
  constructor
  · intro hread
    have hnumber := isSome_number?_of_readNumber hread
    rw [ReadsBack] at hread
    rw [hread]
    exact ⟨hnumber, rfl⟩
  · rintro ⟨hsome, hread⟩
    obtain ⟨number, hnumber⟩ := Option.isSome_iff_exists.mp hsome
    cases hresult : readNumber (bytesOf json.render) with
    | error fault =>
        rw [hresult] at hread
        cases hread
    | ok result =>
        rw [hresult] at hread
        obtain ⟨hvalue, hleft⟩ := Prod.mk.inj (Option.some.inj hread)
        have hsame : result.1 = json := number?_inj (hvalue.trans hnumber) hnumber
        rw [ReadsBack, hresult, ← hsame, ← hleft]

instance (json : Json) : Decidable json.ReadsBack :=
  decidable_of_iff _ readsBack_iff.symm

/-- All numbers in a value are read back from their own texts. -/
inductive Faithful : Json → Prop
  | null : Faithful .null
  | bool (value : Bool) : Faithful (.bool value)
  | number {json : Json} (hread : json.ReadsBack) : Faithful json
  | string (text : String) : Faithful (.string text)
  | array {items : List Json} (hitems : ∀ item ∈ items, Faithful item) : Faithful (.array items)
  | object {members : List (String × Json)} (hmembers : ∀ member ∈ members, Faithful member.2) :
      Faithful (.object members)

theorem Faithful.member {members : List (String × Json)}
    (hobject : (Json.object members).Faithful) {member : String × Json}
    (hmember : member ∈ members) : member.2.Faithful := by
  cases hobject with
  | number hread => cases isSome_number?_of_readNumber hread
  | object hmembers => exact hmembers member hmember

/-- A text does not start with white space, nor with a bracket that closes an array. -/
def Begins (bytes : Bytes) : Prop :=
  ∃ b rest, bytes = b :: rest ∧ isSpace b = false ∧ b ≠ byte ']'

theorem Begins.append {bytes : Bytes} (hbytes : Begins bytes) (more : Bytes) :
    Begins (bytes ++ more) := by
  obtain ⟨b, rest, rfl, hb⟩ := hbytes
  exact ⟨b, rest ++ more, rfl, hb⟩

theorem Begins.skipSpace {bytes : Bytes} (hbytes : Begins bytes) : skipSpace bytes = bytes := by
  obtain ⟨b, rest, rfl, hspace, _⟩ := hbytes
  exact List.dropWhile_cons_of_neg (by simp [hspace])

theorem begins_number {b : UInt8} (hb : b = byte '-' ∨ isDigit b = true) (rest : Bytes) :
    Begins (b :: rest) := by
  refine ⟨b, rest, rfl, ?_, ?_⟩
  · rcases hb with rfl | hb
    · rfl
    · by_contra hspace
      rw [Bool.not_eq_false, isSpace] at hspace
      simp only [Bool.or_eq_true, decide_eq_true_eq] at hspace
      rcases hspace with ((rfl | rfl) | rfl) | rfl <;> cases hb
  · rintro rfl
    rcases hb with hb | hb <;> cases hb

theorem Faithful.begins {json : Json} (hjson : json.Faithful) : Begins (bytesOf json.render) := by
  cases hjson with
  | null => exact ⟨byte 'n', _, rfl, rfl, by decide⟩
  | bool value =>
      cases value
      · exact ⟨byte 'f', _, rfl, rfl, by decide⟩
      · exact ⟨byte 't', _, rfl, rfl, by decide⟩
  | number hread =>
      obtain ⟨b, rest, hbytes, hb⟩ := exists_cons_of_readNumber hread
      rw [hbytes]
      exact begins_number hb rest
  | string text =>
      rw [render, bytesOf_renderString]
      exact ⟨byte '"', _, rfl, rfl, by decide⟩
  | @array items hitems =>
      cases items with
      | nil => exact ⟨byte '[', _, rfl, rfl, by decide⟩
      | cons first more =>
          simp only [render, bytesOf_append]
          exact ⟨byte '[', _, rfl, rfl, by decide⟩
  | @object members hmembers =>
      cases members with
      | nil => exact ⟨byte '\x7b', _, rfl, rfl, by decide⟩
      | cons first more =>
          simp only [render, bytesOf_append]
          exact ⟨byte '\x7b', _, rfl, rfl, by decide⟩

theorem ends_cons {b : UInt8} (hb : b = byte ',' ∨ b = byte ']' ∨ b = byte '\x7d')
    (rest : Bytes) : Ends (b :: rest) := by
  intro other hother
  cases hother
  rcases hb with rfl | rfl | rfl <;> decide

theorem ends_items (items : List Json) (rest : Bytes) :
    Ends (bytesOf (renderItems items) ++ byte ']' :: rest) := by
  cases items with
  | nil => exact ends_cons (.inr (.inl rfl)) rest
  | cons item items =>
      simp only [renderItems, bytesOf_append, List.append_assoc]
      exact ends_cons (.inl rfl) _

theorem ends_members (members : List (String × Json)) (rest : Bytes) :
    Ends (bytesOf (renderMembers members) ++ byte '\x7d' :: rest) := by
  cases members with
  | nil => exact ends_cons (.inr (.inr rfl)) rest
  | cons member members =>
      simp only [renderMembers, bytesOf_append, List.append_assoc]
      exact ends_cons (.inl rfl) _

theorem skipSpace_comma (rest : Bytes) : skipSpace (byte ',' :: rest) = byte ',' :: rest := rfl

theorem length_le_renderItems (items : List Json) :
    items.length ≤ (bytesOf (renderItems items)).length := by
  induction items with
  | nil => exact Nat.le_refl 0
  | cons item items ih =>
      simp only [renderItems, bytesOf_append, List.length_append, List.length_cons]
      have hcomma : (bytesOf ",").length = 1 := by decide +kernel
      omega

section Items

variable {σ : Type} {step : σ → Bytes → Except JsonFault (σ × Bytes)} {next : σ → Json → σ}

/-- A step takes up a written item and leaves what follows it. -/
def TakesItem (step : σ → Bytes → Except JsonFault (σ × Bytes)) (next : σ → Json → σ)
    (item : Json) : Prop :=
  Begins (bytesOf item.render) ∧ ∀ state rest, Ends rest →
    step state (bytesOf item.render ++ rest) = .ok (next state item, rest)

theorem readItems_more {items : List Json} (hitems : ∀ item ∈ items, TakesItem step next item)
    {fuel : Nat} (hfuel : items.length < fuel) (state : σ) (rest : Bytes) :
    readItems step fuel false state (bytesOf (renderItems items) ++ byte ']' :: rest) =
      .ok (items.foldl next state, rest) := by
  induction items generalizing fuel state with
  | nil =>
      obtain ⟨fuel, rfl⟩ : ∃ left, fuel = left + 1 := Nat.exists_eq_add_one_of_ne_zero (by omega)
      rfl
  | cons item items ih =>
      obtain ⟨fuel, rfl⟩ : ∃ left, fuel = left + 1 := Nat.exists_eq_add_one_of_ne_zero (by omega)
      obtain ⟨hbegins, hstep⟩ := hitems item List.mem_cons_self
      have hmore := fun other hother => hitems other (List.mem_cons_of_mem item hother)
      have hread := hstep state _ (ends_items items rest)
      have hbegins := hbegins.append (bytesOf (renderItems items) ++ byte ']' :: rest)
      have hskip := hbegins.skipSpace
      obtain ⟨b, after, hbytes, _, hb⟩ := hbegins
      rw [hbytes] at hskip hread
      simp only [renderItems, bytesOf_append, List.append_assoc, hbytes]
      change readItems step (fuel + 1) false state (byte ',' :: b :: after) = _
      rw [readItems, skipSpace_comma]
      dsimp only
      rw [if_neg (by decide), if_neg (by decide), if_pos rfl, hskip]
      dsimp only
      rw [if_neg hb, hread]
      exact ih hmore (by simpa using hfuel) _

/-- The items of a written array are taken up in order. -/
theorem readItems_render {first : Json} {more : List Json}
    (hitems : ∀ item ∈ first :: more, TakesItem step next item) {fuel : Nat} {rest : Bytes}
    (hfuel : (bytesOf first.render ++ (bytesOf (renderItems more) ++ byte ']' :: rest)).length <
      fuel) (state : σ) :
    readItems step fuel true state
        (bytesOf first.render ++ (bytesOf (renderItems more) ++ byte ']' :: rest)) =
      .ok ((first :: more).foldl next state, rest) := by
  have hlength := length_le_renderItems more
  simp only [List.length_append, List.length_cons] at hfuel
  obtain ⟨fuel, rfl⟩ : ∃ left, fuel = left + 1 := Nat.exists_eq_add_one_of_ne_zero (by omega)
  obtain ⟨hbegins, hstep⟩ := hitems first List.mem_cons_self
  have hmore := fun other hother => hitems other (List.mem_cons_of_mem first hother)
  have hread := hstep state _ (ends_items more rest)
  have hbegins := hbegins.append (bytesOf (renderItems more) ++ byte ']' :: rest)
  have hskip := hbegins.skipSpace
  obtain ⟨b, after, hbytes, _, hb⟩ := hbegins
  rw [hbytes] at hskip hread ⊢
  rw [readItems, hskip]
  dsimp only
  rw [if_neg hb, if_pos rfl, hread]
  exact readItems_more hmore (by omega) _ rest

end Items

section Members

variable {σ : Type} {step : σ → String → Bytes → Except JsonFault (σ × Bytes)}
  {next : σ → String × Json → σ}

/-- A step takes up a written member from its colon on, and leaves what follows it. -/
def TakesMember (step : σ → String → Bytes → Except JsonFault (σ × Bytes))
    (next : σ → String × Json → σ) (member : String × Json) : Prop :=
  ∀ state rest, Ends rest →
    step state member.1 (byte ':' :: (bytesOf member.2.render ++ rest)) =
      .ok (next state member, rest)

/-- The bytes of a member. -/
def memberBytes (member : String × Json) : Bytes :=
  bytesOf (renderString member.1) ++ byte ':' :: bytesOf member.2.render

theorem readName_member (member : String × Json) (rest : Bytes) :
    readName (memberBytes member ++ rest) =
      .ok (member.1, byte ':' :: (bytesOf member.2.render ++ rest)) := by
  rw [memberBytes, bytesOf_renderString]
  simp only [List.append_assoc, List.cons_append, List.nil_append]
  rw [readName, if_pos rfl]
  exact readString_escaped member.1 _

theorem readColon_colon (rest : Bytes) : readColon (byte ':' :: rest) = .ok rest := rfl

theorem skipSpace_member (member : String × Json) (rest : Bytes) :
    skipSpace (memberBytes member ++ rest) = memberBytes member ++ rest := by
  rw [memberBytes, bytesOf_renderString]
  rfl

theorem bytesOf_renderMembers_cons (member : String × Json) (members : List (String × Json)) :
    bytesOf (renderMembers (member :: members)) =
      byte ',' :: (memberBytes member ++ bytesOf (renderMembers members)) := by
  simp only [renderMembers, bytesOf_append, bytesOf_marks, memberBytes, List.append_assoc,
    List.cons_append, List.nil_append]

theorem length_le_renderMembers (members : List (String × Json)) :
    members.length ≤ (bytesOf (renderMembers members)).length := by
  induction members with
  | nil => exact Nat.le_refl 0
  | cons member members ih =>
      rw [bytesOf_renderMembers_cons]
      simp only [List.length_append, List.length_cons]
      omega

theorem readMembers_more {members : List (String × Json)}
    (hmembers : ∀ member ∈ members, TakesMember step next member) {fuel : Nat}
    (hfuel : members.length < fuel) (state : σ) (rest : Bytes) :
    readMembers step fuel false state (bytesOf (renderMembers members) ++ byte '\x7d' :: rest) =
      .ok (members.foldl next state, rest) := by
  induction members generalizing fuel state with
  | nil =>
      obtain ⟨fuel, rfl⟩ : ∃ left, fuel = left + 1 := Nat.exists_eq_add_one_of_ne_zero (by omega)
      rfl
  | cons member members ih =>
      obtain ⟨fuel, rfl⟩ : ∃ left, fuel = left + 1 := Nat.exists_eq_add_one_of_ne_zero (by omega)
      have hmore := fun other hother => hmembers other (List.mem_cons_of_mem member hother)
      have hread := hmembers member List.mem_cons_self state _ (ends_members members rest)
      rw [bytesOf_renderMembers_cons, List.cons_append, List.append_assoc, readMembers,
        skipSpace_comma]
      dsimp only
      rw [if_neg (by decide), if_neg (by decide), if_pos rfl, skipSpace_member, readName_member]
      dsimp only [bind, Except.bind]
      rw [hread]
      exact ih hmore (by simpa using hfuel) _

/-- The members of a written object are taken up in order.  The first one may be
taken up in a way of its own. -/
theorem readMembers_render {first : String × Json} {more : List (String × Json)}
    {state started : σ}
    (hfirst : ∀ rest, Ends rest → step state first.1
      (byte ':' :: (bytesOf first.2.render ++ rest)) = .ok (started, rest))
    (hmore : ∀ member ∈ more, TakesMember step next member) {fuel : Nat} {rest : Bytes}
    (hfuel : (memberBytes first ++ (bytesOf (renderMembers more) ++ byte '\x7d' :: rest)).length <
      fuel) :
    readMembers step fuel true state
        (memberBytes first ++ (bytesOf (renderMembers more) ++ byte '\x7d' :: rest)) =
      .ok (more.foldl next started, rest) := by
  have hlength := length_le_renderMembers more
  simp only [List.length_append, List.length_cons] at hfuel
  obtain ⟨fuel, rfl⟩ : ∃ left, fuel = left + 1 := Nat.exists_eq_add_one_of_ne_zero (by omega)
  have hread := hfirst _ (ends_members more rest)
  have hname := readName_member first (bytesOf (renderMembers more) ++ byte '\x7d' :: rest)
  have hskip := skipSpace_member first (bytesOf (renderMembers more) ++ byte '\x7d' :: rest)
  rw [memberBytes, bytesOf_renderString] at hskip hname ⊢
  simp only [List.cons_append] at hskip hname ⊢
  rw [readMembers, hskip]
  dsimp only
  rw [if_neg (by decide), if_pos rfl, hname]
  dsimp only [bind, Except.bind]
  rw [hread]
  exact readMembers_more hmore (by omega) started rest

end Members

theorem bytesOf_render_array (first : Json) (more : List Json) :
    bytesOf (Json.array (first :: more)).render =
      byte '[' :: (bytesOf first.render ++ (bytesOf (renderItems more) ++ [byte ']'])) := by
  simp only [render, bytesOf_append, bytesOf_marks, List.append_assoc, List.cons_append,
    List.nil_append]

theorem bytesOf_render_object (first : String × Json) (more : List (String × Json)) :
    bytesOf (Json.object (first :: more)).render =
      byte '\x7b' ::
        (memberBytes first ++ (bytesOf (renderMembers more) ++ [byte '\x7d'])) := by
  simp only [render, bytesOf_append, bytesOf_marks, memberBytes, List.append_assoc,
    List.cons_append, List.nil_append]

/-- A byte that starts a number starts nothing else. -/
theorem readValue_number {b : UInt8} (hb : b = byte '-' ∨ isDigit b = true) (depth : Nat)
    (rest : Bytes) : readValue depth (b :: rest) = readNumber (b :: rest) := by
  have hne {other : UInt8} (hother : ¬ (other = byte '-' ∨ isDigit other = true)) :
      ¬ b = other := by
    rintro rfl
    exact hother hb
  rw [readValue, (begins_number hb rest).skipSpace]
  dsimp only
  rw [if_neg (hne (by decide)), if_neg (hne (by decide)), if_neg (hne (by decide)), readScalar,
    if_neg (hne (by decide)), if_neg (hne (by decide)), if_neg (hne (by decide)), if_pos hb]

/-- A written value is read back, with what follows it. -/
def IsReadBack (depth : Nat) (json : Json) : Prop :=
  ∀ rest, Ends rest → readValue depth (bytesOf json.render ++ rest) = .ok (json, rest)

theorem isReadBack_array {items : List Json} {depth : Nat}
    (hitems : ∀ item ∈ items, Begins (bytesOf item.render) ∧ item.IsReadBack depth) :
    (Json.array items).IsReadBack (depth + 1) := by
  intro rest hrest
  cases items with
  | nil =>
      have hbytes : bytesOf (Json.array []).render = [byte '[', byte ']'] := by decide +kernel
      rw [hbytes, readValue]
      rfl
  | cons first more =>
      have htakes : ∀ item ∈ first :: more, TakesItem
          (fun items bytes => (readValue depth bytes).map fun (item, rest) =>
            (item :: items, rest))
          (fun items item => item :: items) item := by
        intro item hitem
        obtain ⟨hbegins, hread⟩ := hitems item hitem
        refine ⟨hbegins, fun state rest hrest => ?_⟩
        dsimp only
        rw [hread rest hrest]
        rfl
      have hread := readItems_render htakes (Nat.lt_succ_self (bytesOf first.render ++
        (bytesOf (renderItems more) ++ byte ']' :: rest)).length) []
      rw [bytesOf_render_array, readValue]
      simp only [List.cons_append, List.append_assoc, List.nil_append]
      change (readItems _ _ true [] _).bind _ = _
      rw [hread]
      simp [Except.bind]

theorem readValue_brace (depth : Nat) (rest : Bytes) :
    readValue (depth + 1) (byte '\x7b' :: rest) =
      (readMembers
        (fun members name bytes => do
          let (value, rest) ← readValue depth (← readColon bytes)
          .ok ((name, value) :: members, rest))
        (rest.length + 1) true [] rest).bind fun (members, rest) =>
          .ok (.object members.reverse, rest) := by
  have hskip : skipSpace (byte '\x7b' :: rest) = byte '\x7b' :: rest := rfl
  rw [readValue, hskip]
  dsimp only
  rw [if_neg (by decide), if_neg (by decide), if_pos rfl]
  rfl

theorem isReadBack_object {members : List (String × Json)} {depth : Nat}
    (hmembers : ∀ member ∈ members, member.2.IsReadBack depth) :
    (Json.object members).IsReadBack (depth + 1) := by
  intro rest hrest
  cases members with
  | nil =>
      have hbytes : bytesOf (Json.object []).render = [byte '\x7b', byte '\x7d'] := by
        decide +kernel
      rw [hbytes, readValue]
      rfl
  | cons first more =>
      have htakes : ∀ member ∈ first :: more, TakesMember
          (fun members name bytes => do
            let (value, rest) ← readValue depth (← readColon bytes)
            .ok ((name, value) :: members, rest))
          (fun members member => member :: members) member := by
        intro member hmember state rest hrest
        dsimp only [bind, Except.bind]
        rw [readColon_colon]
        dsimp only
        rw [hmembers member hmember rest hrest]
      have hmore := fun member hmember => htakes member (List.mem_cons_of_mem first hmember)
      have hread := readMembers_render (htakes first List.mem_cons_self []) hmore
        (Nat.lt_succ_self (memberBytes first ++
          (bytesOf (renderMembers more) ++ byte '\x7d' :: rest)).length)
      rw [bytesOf_render_object]
      simp only [List.cons_append, List.append_assoc, List.nil_append]
      rw [readValue_brace, hread]
      simp [Except.bind]

/-- A value whose numbers are read back is read back, if its containers nest no
deeper than the reader goes. -/
theorem Faithful.isReadBack {json : Json} (hjson : json.Faithful) {depth : Nat}
    (hdepth : json.nesting ≤ depth) : json.IsReadBack depth := by
  induction hjson generalizing depth with
  | null =>
      intro rest hrest
      have hbytes : bytesOf Json.null.render = [byte 'n', byte 'u', byte 'l', byte 'l'] := by
        decide +kernel
      rw [hbytes, readValue]
      rfl
  | bool value =>
      intro rest hrest
      cases value with
      | false =>
          have hbytes : bytesOf (Json.bool false).render =
              [byte 'f', byte 'a', byte 'l', byte 's', byte 'e'] := by decide +kernel
          rw [hbytes, readValue]
          rfl
      | true =>
          have hbytes : bytesOf (Json.bool true).render =
              [byte 't', byte 'r', byte 'u', byte 'e'] := by decide +kernel
          rw [hbytes, readValue]
          rfl
  | @number json hread =>
      intro rest hrest
      obtain ⟨b, more, hbytes, hb⟩ := exists_cons_of_readNumber hread
      have hlocal := local_readNumber hrest hread
      rw [hbytes] at hlocal ⊢
      exact (readValue_number hb depth _).trans hlocal
  | string text =>
      intro rest hrest
      rw [render, bytesOf_renderString, List.cons_append, List.append_assoc, readValue]
      change (readString (escaped text.toList ++ byte '"' :: rest)).map _ = _
      rw [readString_escaped]
      rfl
  -- a container uses up one level of the depth, and its parts nest less deep
  | @array items hitems ih =>
      rw [nesting] at hdepth
      obtain ⟨depth, rfl⟩ : ∃ left, depth = left + 1 := Nat.exists_eq_add_one_of_ne_zero (by omega)
      apply isReadBack_array
      intro item hitem
      have hle := nesting_le_of_mem_items hitem
      exact ⟨(hitems item hitem).begins, ih item hitem (by omega)⟩
  | @object members hmembers ih =>
      rw [nesting] at hdepth
      obtain ⟨depth, rfl⟩ : ∃ left, depth = left + 1 := Nat.exists_eq_add_one_of_ne_zero (by omega)
      apply isReadBack_object
      intro member hmember
      have hle := nesting_le_of_mem_members hmember
      exact ih member hmember (by omega)

end Json

end Horn
