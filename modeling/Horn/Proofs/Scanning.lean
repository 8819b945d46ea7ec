/-
Scanning piece by piece.  A text that is put together from spellings of tokens
is scanned as these tokens, if none of them goes on into the text behind it.
-/
import Horn.Proofs.Legible
import Horn.Proofs.Recognition

namespace Horn

/-- Some characters are scanned as some tokens, wherever they stand, and the scan
goes on with the rest. -/
def Scans (text : List Char) (tokens : List Token) (rest : List Char) : Prop :=
  ∀ position, ∃ last, (Tokens.scan position (text ++ rest)).toList? =
    (Tokens.scan last rest).toList?.map (tokens ++ ·)

theorem Scans.append {first second rest : List Char} {tokens more : List Token}
    (hfirst : Scans first tokens (second ++ rest)) (hsecond : Scans second more rest) :
    Scans (first ++ second) (tokens ++ more) rest := by
  intro position
  obtain ⟨mid, hmid⟩ := hfirst position
  obtain ⟨last, hlast⟩ := hsecond mid
  refine ⟨last, ?_⟩
  rw [List.append_assoc, hmid, hlast, Option.map_map]
  congr 1
  funext passed
  exact (List.append_assoc tokens more passed).symm

/-- A blank is skipped. -/
theorem Scans.blank {text rest : List Char} {tokens : List Token}
    (hscans : Scans text tokens rest) : Scans (' ' :: text) tokens rest := by
  intro position
  obtain ⟨last, hlast⟩ := hscans (position.after ' ')
  refine ⟨last, ?_⟩
  rw [← hlast, List.cons_append, Tokens.scan_eq, Tokens.scan_eq (position.after ' ')]
  rfl

theorem scans_token {c : Char} {text rest spelling : List Char} {token : Token}
    (hblank : isBlank c = false) (hpercent : c ≠ '%')
    (hslash : c = '/' → (text ++ rest).head? ≠ some '/')
    (hscan : ∀ cursor, scanToken cursor c (text ++ rest) = .ok ⟨token, spelling, rest⟩) :
    Scans (c :: text) [token] rest := by
  intro position
  have hskip : skipLayout false position (c :: (text ++ rest)) =
      ⟨position, c :: (text ++ rest)⟩ := by
    have hnone : ¬ (c = '%' ∨ c = '/' ∧ (text ++ rest).head? = some '/') := by
      rintro (heq | ⟨heq, hhead⟩)
      · exact hpercent heq
      · exact hslash heq hhead
    rw [skipLayout, if_neg Bool.false_ne_true, hblank, if_neg Bool.false_ne_true, if_neg hnone]
  refine ⟨position.afterAll spelling, ?_⟩
  rw [List.cons_append, Tokens.scan_eq, hskip]
  simp only [hscan, Tokens.toList?]
  rfl

theorem symbol_char {c : Char} {mark : Symbol} (hmark : Symbol.ofChar? c = some mark) :
    isBlank c = false ∧ c ≠ '%' ∧ c ≠ '?' := by
  unfold Symbol.ofChar? at hmark
  split at hmark
  all_goals first
    | decide
    | cases hmark

theorem scans_symbol {c : Char} {mark : Symbol} (hmark : Symbol.ofChar? c = some mark)
    {rest : List Char} (hcolon : c ≠ ':') (hslash : c = '/' → rest.head? ≠ some '/') :
    Scans [c] [.symbol mark] rest := by
  obtain ⟨hblank, hpercent, hquestion⟩ := symbol_char hmark
  have hscan : ∀ cursor, scanToken cursor c rest = .ok ⟨.symbol mark, [c], rest⟩ := by
    intro cursor
    rw [scanToken, if_neg fun hneck => hcolon hneck.1,
      if_neg fun hquery => hquestion hquery.1, hmark]
  exact scans_token hblank hpercent hslash hscan

theorem scans_neck (rest : List Char) : Scans [':', '-'] [.symbol .neck] rest :=
  scans_token (by decide) (by decide) (fun hslash => absurd hslash (by decide)) fun _ => rfl

theorem scans_query (rest : List Char) : Scans ['?', '-'] [.symbol .query] rest :=
  scans_token (by decide) (by decide) (fun hslash => absurd hslash (by decide)) fun _ => rfl

/-- No name goes on in a text. -/
def WordEnds (rest : List Char) : Prop :=
  ∀ c ∈ rest.head?, isWordChar c = false

theorem wordEnds_cons {c : Char} (hc : isWordChar c = false) (rest : List Char) :
    WordEnds (c :: rest) := by
  intro other hother
  rw [← Option.mem_some.mp hother]
  exact hc

theorem toNat_of_isWordChar {c : Char} (hc : isWordChar c = true) :
    48 ≤ c.toNat ∧ c.toNat ≤ 122 := by
  delta isWordChar Char.isAlphanum Char.isAlpha Char.isUpper Char.isLower Char.isDigit at hc
  simp only [Bool.or_eq_true, Bool.and_eq_true, decide_eq_true_eq, ge_iff_le,
    UInt32.le_iff_toNat_le] at hc
  rcases hc with ((⟨hlow, hhigh⟩ | ⟨hlow, hhigh⟩) | ⟨hlow, hhigh⟩) | rfl
  · exact ⟨Nat.le_trans (by decide) hlow, Nat.le_trans hhigh (by decide)⟩
  · exact ⟨Nat.le_trans (by decide) hlow, Nat.le_trans hhigh (by decide)⟩
  · exact ⟨Nat.le_trans (by decide) hlow, Nat.le_trans hhigh (by decide)⟩
  · decide

theorem toNat_of_isBlank {c : Char} (hc : isBlank c = true) : c.toNat ≤ 32 ∨ 133 ≤ c.toNat := by
  simp only [isBlank, Bool.or_eq_true, Bool.and_eq_true, decide_eq_true_eq, Char.le_def,
    UInt32.le_iff_toNat_le] at hc
  rcases hc with (((((((((rfl | ⟨_, hhigh⟩) | rfl) | rfl) | rfl) | ⟨hlow, _⟩) | rfl) | rfl) |
    rfl) | rfl) | rfl
  any_goals decide
  · exact .inl (Nat.le_trans hhigh (by decide))
  · exact .inr (Nat.le_trans (by decide) hlow)

/-- Characters of names are no blanks and stand for no symbol. -/
theorem isBlank_of_isWordChar {c : Char} (hc : isWordChar c = true) : isBlank c = false := by
  rw [← Bool.not_eq_true]
  intro hblank
  have hword := toNat_of_isWordChar hc
  have houtside := toNat_of_isBlank hblank
  omega

theorem ne_of_isWordChar {c d : Char} (hc : isWordChar c = true) (hd : isWordChar d = false) :
    c ≠ d := by
  rintro rfl
  rw [hd] at hc
  cases hc

theorem ofChar?_of_isWordChar {c : Char} (hc : isWordChar c = true) :
    Symbol.ofChar? c = none := by
  unfold Symbol.ofChar?
  split
  all_goals first
    | rfl
    | exact absurd hc (by decide)

/-- The token that a character of a name starts depends on the kind of letter. -/
theorem scanToken_of_isWordChar {c : Char} (hc : isWordChar c = true) (cursor : Cursor)
    (text : List Char) :
    scanToken cursor c text =
      if c.isDigit then .ok (scanNumber (c :: text))
      else if c.isLower then .ok (scanWord .identifier (c :: text))
      else if c.isUpper ∨ c = '_' then .ok (scanWord .variable (c :: text))
      else .error ⟨.unexpectedCharacter c, cursor.position⟩ := by
  rw [scanToken, if_neg fun hneck => ne_of_isWordChar hc (by decide) hneck.1,
    if_neg fun hquery => ne_of_isWordChar hc (by decide) hquery.1, ofChar?_of_isWordChar hc]
  exact if_neg (ne_of_isWordChar hc (by decide))

theorem scans_of_isWordChar {c : Char} {text rest spelling : List Char} {token : Token}
    (hc : isWordChar c = true)
    (hscan : ∀ cursor, scanToken cursor c (text ++ rest) = .ok ⟨token, spelling, rest⟩) :
    Scans (c :: text) [token] rest :=
  scans_token (isBlank_of_isWordChar hc) (ne_of_isWordChar hc (by decide))
    (fun hslash => absurd hslash (ne_of_isWordChar hc (by decide))) hscan

/-- A name reaches up to where it ends. -/
theorem scanWord_append (build : String → Token) {word rest : List Char}
    (hword : ∀ c ∈ word, isWordChar c = true) (hrest : WordEnds rest) :
    scanWord build (word ++ rest) = ⟨build (String.ofList word), word, rest⟩ := by
  rw [scanWord, takeWhile_word hword hrest, List.drop_left]

theorem all_of_isIdentifier {text : String} (htext : isIdentifier text = true) :
    ∃ first rest, text.toList = first :: rest ∧ first.isLower = true ∧
      ∀ c ∈ first :: rest, isWordChar c = true := by
  rw [isIdentifier] at htext
  cases hchars : text.toList with
  | nil => simp [hchars] at htext
  | cons first rest =>
      rw [hchars, Bool.and_eq_true, List.all_eq_true] at htext
      refine ⟨first, rest, rfl, htext.1, List.forall_mem_cons.mpr ⟨?_, htext.2⟩⟩
      exact isWordChar_of_isLower htext.1

theorem scans_identifier {text : String} (htext : isIdentifier text = true) {rest : List Char}
    (hrest : WordEnds rest) : Scans text.toList [.identifier text] rest := by
  obtain ⟨first, word, hchars, hlower, hword⟩ := all_of_isIdentifier htext
  have hdigit : first.isDigit = false := by
    by_contra hdigit
    rw [isLower_of_isDigit (Bool.eq_true_of_not_eq_false hdigit)] at hlower
    cases hlower
  have hname : String.ofList (first :: word) = text := by rw [← hchars, String.ofList_toList]
  have hscan : ∀ cursor, scanToken cursor first (word ++ rest) =
      .ok ⟨.identifier text, first :: word, rest⟩ := by
    intro cursor
    rw [scanToken_of_isWordChar (hword first List.mem_cons_self), hdigit,
      if_neg Bool.false_ne_true, if_pos hlower, ← List.cons_append,
      scanWord_append _ hword hrest, hname]
  rw [hchars]
  exact scans_of_isWordChar (hword first List.mem_cons_self) hscan

theorem all_of_isVariableName {name : String} (hname : isVariableName name = true) :
    ∃ first rest, name.toList = first :: rest ∧ isNameStart first = true ∧
      ∀ c ∈ first :: rest, isWordChar c = true := by
  rw [isVariableName] at hname
  cases hchars : name.toList with
  | nil => simp [hchars] at hname
  | cons first rest =>
      rw [hchars, Bool.and_eq_true, List.all_eq_true] at hname
      refine ⟨first, rest, rfl, hname.1, List.forall_mem_cons.mpr ⟨?_, hname.2⟩⟩
      rw [isNameStart, Bool.or_eq_true, decide_eq_true_eq] at hname
      rcases hname.1 with hupper | rfl
      · exact isWordChar_of_isUpper hupper
      · decide

theorem scans_variable {name : String} (hname : isVariableName name = true) {rest : List Char}
    (hrest : WordEnds rest) : Scans name.toList [.variable name] rest := by
  obtain ⟨first, word, hchars, hstart, hword⟩ := all_of_isVariableName hname
  have hlower : first.isLower = false := by
    by_contra hlower
    rw [isNameStart_of_isLower (Bool.eq_true_of_not_eq_false hlower)] at hstart
    cases hstart
  have hdigit : first.isDigit = false := by
    by_contra hdigit
    have hnumber : isNumberStart first = true := by
      rw [isNumberStart, Bool.eq_true_of_not_eq_false hdigit]
      rfl
    rw [isNameStart_of_isNumberStart hnumber] at hstart
    cases hstart
  have hupper : first.isUpper = true ∨ first = '_' := by
    rwa [isNameStart, Bool.or_eq_true, decide_eq_true_eq] at hstart
  have hspelled : String.ofList (first :: word) = name := by rw [← hchars, String.ofList_toList]
  have hscan : ∀ cursor, scanToken cursor first (word ++ rest) =
      .ok ⟨.variable name, first :: word, rest⟩ := by
    intro cursor
    rw [scanToken_of_isWordChar (hword first List.mem_cons_self), hdigit,
      if_neg Bool.false_ne_true, hlower, if_neg Bool.false_ne_true, if_pos hupper,
      ← List.cons_append, scanWord_append _ hword hrest, hspelled]
  rw [hchars]
  exact scans_of_isWordChar (hword first List.mem_cons_self) hscan

theorem scans_string {text : String} (htext : ∀ c ∈ text.toList, c ≠ '"' ∧ c ≠ '\n')
    (rest : List Char) : Scans ('"' :: (text.toList ++ ['"'])) [.string text] rest := by
  have htake : (text.toList ++ '"' :: rest).takeWhile (fun c => c ≠ '"' ∧ c ≠ '\n') =
      text.toList := by
    rw [List.takeWhile_append_of_pos fun c hc => decide_eq_true (htext c hc)]
    exact List.append_nil _
  have hstring : scanString (text.toList ++ '"' :: rest) =
      some ⟨.string text, '"' :: text.toList ++ ['"'], rest⟩ := by
    rw [scanString, htake, List.drop_left, String.ofList_toList]
    rfl
  have hscan : ∀ cursor, scanToken cursor '"' (text.toList ++ ['"'] ++ rest) =
      .ok ⟨.string text, '"' :: text.toList ++ ['"'], rest⟩ := by
    intro cursor
    have hsymbol : Symbol.ofChar? '"' = none := rfl
    rw [List.append_assoc, List.singleton_append]
    simp [scanToken, hsymbol, hstring]
  exact scans_token (by decide) (by decide) (fun hslash => absurd hslash (by decide)) hscan

theorem isDigit_of_wordEnds {rest : List Char} (hrest : WordEnds rest) :
    ∀ c ∈ rest.head?, c.isDigit = false := by
  intro c hc
  rw [← Bool.not_eq_true]
  intro hdigit
  have hword := hrest c hc
  rw [isWordChar_of_isDigit hdigit] at hword
  cases hword

/-- A number with decimal places, whose digits end where they are said to end. -/
theorem scanNumber_decimal {whole places rest : List Char}
    (hwhole : (whole ++ '.' :: (places ++ rest)).takeWhile Char.isDigit = whole)
    (hplaces : (places ++ rest).takeWhile Char.isDigit = places) (hsome : places ≠ []) :
    scanNumber (whole ++ '.' :: (places ++ rest)) =
      ⟨.number (readNumber whole places), whole ++ '.' :: places, rest⟩ := by
  have hdecimal : decimalPlaces ('.' :: (places ++ rest)) = places := hplaces
  have hdrop : (whole ++ '.' :: (places ++ rest)).drop (whole ++ '.' :: places).length = rest := by
    rw [← List.cons_append, ← List.append_assoc, List.drop_left]
  rw [scanNumber, hwhole, List.drop_left]
  simp only [hdecimal, if_neg hsome, hdrop]

theorem scans_number {whole places rest : List Char} (hwhole : ∀ c ∈ whole, c.isDigit = true)
    (hnonempty : whole ≠ []) (hplaces : ∀ c ∈ places, c.isDigit = true) (hsome : places ≠ [])
    (hrest : WordEnds rest) :
    Scans (whole ++ '.' :: places) [.number (readNumber whole places)] rest := by
  have htake : (whole ++ '.' :: (places ++ rest)).takeWhile Char.isDigit = whole := by
    apply takeWhile_word hwhole
    intro c hc
    rw [← Option.mem_some.mp hc]
    decide
  have hnumber := scanNumber_decimal htake (takeWhile_word hplaces (isDigit_of_wordEnds hrest))
    hsome
  obtain ⟨first, digits, rfl⟩ := List.exists_cons_of_ne_nil hnonempty
  have hfirst : first.isDigit = true := hwhole first List.mem_cons_self
  have hword := isWordChar_of_isDigit hfirst
  have hscan : ∀ cursor, scanToken cursor first (digits ++ '.' :: places ++ rest) =
      .ok ⟨.number (readNumber (first :: digits) places), first :: digits ++ '.' :: places,
        rest⟩ := by
    intro cursor
    rw [scanToken_of_isWordChar hword, if_pos hfirst, List.append_assoc]
    exact congrArg Except.ok hnumber
  exact scans_of_isWordChar hword hscan

end Horn
