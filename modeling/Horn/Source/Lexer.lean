/-
From characters to tokens.  Each scan skips blanks and comments and then takes
the longest token; a text that cannot be scanned to its end keeps the tokens
before the fault.
-/
import Horn.Source.Token
import Horn.Text.Blank

namespace Horn

/-- The rest of a text and the place where it starts. -/
structure Cursor where
  position : Position
  rest : List Char

/-- Skip blanks and comments.  A comment starts with `%` or `//` and ends
before the next line. -/
def skipLayout (inComment : Bool) (position : Position) : List Char → Cursor
  | [] => ⟨position, []⟩
  | c :: rest =>
      if inComment then skipLayout (c != '\n') (position.after c) rest
      else if isBlank c then skipLayout false (position.after c) rest
      else if c = '%' ∨ (c = '/' ∧ rest.head? = some '/') then
        skipLayout true (position.after c) rest
      else ⟨position, c :: rest⟩

theorem skipLayout_length_le (inComment : Bool) (position : Position) (text : List Char) :
    (skipLayout inComment position text).rest.length ≤ text.length := by
  induction text generalizing inComment position with
  | nil => simp [skipLayout]
  | cons c rest ih =>
      simp only [skipLayout, List.length_cons]
      split
      · exact Nat.le_succ_of_le (ih _ _)
      · split
        · exact Nat.le_succ_of_le (ih _ _)
        · split
          · exact Nat.le_succ_of_le (ih _ _)
          · simp

/-- Symbols of one character. -/
def Symbol.ofChar? : Char → Option Symbol
  | '(' => some .leftParen
  | ')' => some .rightParen
  | '[' => some .leftBracket
  | ']' => some .rightBracket
  | ',' => some .comma
  | '.' => some .dot
  | '|' => some .bar
  | ':' => some .colon
  | '=' => some .equals
  | '+' => some .plus
  | '-' => some .minus
  | '*' => some .star
  | '/' => some .slash
  | _ => none

/-- Characters of names after the first. -/
def isWordChar (c : Char) : Bool :=
  c.isAlphanum || c = '_'

theorem isWordChar_of_isLower {c : Char} (hc : c.isLower = true) : isWordChar c = true := by
  change (c.isUpper || c.isLower || c.isDigit || decide (c = '_')) = true
  rw [hc, Bool.or_true, Bool.true_or, Bool.true_or]

theorem isWordChar_of_isUpper {c : Char} (hc : c.isUpper = true) : isWordChar c = true := by
  change (c.isUpper || c.isLower || c.isDigit || decide (c = '_')) = true
  rw [hc, Bool.true_or, Bool.true_or, Bool.true_or]

/-- The decimal places after the whole digits of a number.  A dot belongs to
the number only if a digit follows it. -/
def decimalPlaces : List Char → List Char
  | '.' :: digits => digits.takeWhile Char.isDigit
  | _ => []

/-- The token at the start of a text, its spelling, and what follows it. -/
structure Scan where
  token : Token
  spelling : List Char
  rest : List Char

def scanString (text : List Char) : Option Scan :=
  let content := text.takeWhile fun c => c ≠ '"' ∧ c ≠ '\n'
  match text.drop content.length with
  | '"' :: rest => some ⟨.string (String.ofList content), '"' :: content ++ ['"'], rest⟩
  | _ => none

def scanNumber (text : List Char) : Scan :=
  let whole := text.takeWhile Char.isDigit
  let places := decimalPlaces (text.drop whole.length)
  let spelling := if places = [] then whole else whole ++ '.' :: places
  ⟨.number (readNumber whole places), spelling, text.drop spelling.length⟩

def scanWord (build : String → Token) (text : List Char) : Scan :=
  let word := text.takeWhile isWordChar
  ⟨build (String.ofList word), word, text.drop word.length⟩

/-- The token at the cursor, whose text starts with `c`. -/
def scanToken (cursor : Cursor) (c : Char) (text : List Char) : Except ParseError Scan :=
  if c = ':' ∧ text.head? = some '-' then .ok ⟨.symbol .neck, [':', '-'], text.drop 1⟩
  else if c = '?' ∧ text.head? = some '-' then .ok ⟨.symbol .query, ['?', '-'], text.drop 1⟩
  else match Symbol.ofChar? c with
    | some symbol => .ok ⟨.symbol symbol, [c], text⟩
    | none =>
        if c = '"' then
          match scanString text with
          | some scan => .ok scan
          | none =>
              let content := text.takeWhile (· ≠ '\n')
              .error ⟨.unterminatedString, cursor.position.afterAll (c :: content)⟩
        else if c.isDigit then .ok (scanNumber (c :: text))
        else if c.isLower then .ok (scanWord .identifier (c :: text))
        else if c.isUpper ∨ c = '_' then .ok (scanWord .variable (c :: text))
        else .error ⟨.unexpectedCharacter c, cursor.position⟩

theorem scanString_length_lt {text : List Char} {scan : Scan}
    (hscan : scanString text = some scan) : scan.rest.length < text.length := by
  simp only [scanString] at hscan
  split at hscan
  · next rest hrest =>
      have hdrop := congrArg List.length hrest
      simp only [List.length_drop, List.length_cons] at hdrop
      simp only [Option.some.injEq] at hscan
      subst hscan
      simp only
      omega
  · simp at hscan

theorem takeWhile_length_pos {p : Char → Bool} {c : Char} (text : List Char)
    (hc : p c = true) : 0 < ((c :: text).takeWhile p).length := by
  simp [List.takeWhile, hc]

theorem scanToken_length_le {cursor : Cursor} {c : Char} {text : List Char} {scan : Scan}
    (hscan : scanToken cursor c text = .ok scan) : scan.rest.length ≤ text.length := by
  simp only [scanToken] at hscan
  split at hscan
  · simp only [Except.ok.injEq] at hscan
    subst hscan
    simp
  split at hscan
  · simp only [Except.ok.injEq] at hscan
    subst hscan
    simp
  split at hscan
  · simp only [Except.ok.injEq] at hscan
    subst hscan
    simp
  split at hscan
  · split at hscan
    · next found hfound =>
        simp only [Except.ok.injEq] at hscan
        subst hscan
        exact Nat.le_of_lt (scanString_length_lt hfound)
    · simp at hscan
  split at hscan
  · next hdigit =>
      simp only [Except.ok.injEq] at hscan
      subst hscan
      have hpos := takeWhile_length_pos text hdigit
      simp only [scanNumber, List.length_drop, List.length_cons]
      split
      · omega
      · simp only [List.length_append]
        omega
  split at hscan
  · next hlower =>
      simp only [Except.ok.injEq] at hscan
      subst hscan
      have hpos := takeWhile_length_pos text (isWordChar_of_isLower hlower)
      simp only [scanWord, List.length_drop, List.length_cons]
      omega
  split at hscan
  · next hupper =>
      simp only [Except.ok.injEq] at hscan
      subst hscan
      have hword : isWordChar c = true := by
        rcases hupper with hupper | hupper
        · exact isWordChar_of_isUpper hupper
        · simp [isWordChar, hupper]
      have hpos := takeWhile_length_pos text hword
      simp only [scanWord, List.length_drop, List.length_cons]
      omega
  · simp at hscan

/-- The tokens of a text with their places, up to its end or its first fault. -/
inductive Tokens
  | next (token : Token) (position : Position) (rest : Tokens)
  | done (position : Position)
  | broken (error : ParseError)

/-- Scan a text from some place on. -/
def Tokens.scan (position : Position) (text : List Char) : Tokens :=
  let cursor := skipLayout false position text
  match _hrest : cursor.rest with
  | [] => .done cursor.position
  | c :: rest =>
      match _hscan : scanToken cursor c rest with
      | .error error => .broken error
      | .ok scan =>
          .next scan.token cursor.position
            (Tokens.scan (cursor.position.afterAll scan.spelling) scan.rest)
termination_by text.length
decreasing_by
  have hle := skipLayout_length_le false position text
  have hlt := scanToken_length_le _hscan
  rw [show (skipLayout false position text).rest = c :: rest from _hrest] at hle
  simp only [List.length_cons] at hle
  omega

theorem Tokens.scan_eq (position : Position) (text : List Char) :
    Tokens.scan position text =
      match (skipLayout false position text).rest with
      | [] => .done (skipLayout false position text).position
      | c :: rest =>
          match scanToken (skipLayout false position text) c rest with
          | .error error => .broken error
          | .ok scan =>
              .next scan.token (skipLayout false position text).position
                (Tokens.scan ((skipLayout false position text).position.afterAll scan.spelling)
                  scan.rest) := by
  rw [Tokens.scan]
  split
  · next hrest => rw [hrest]
  · next c rest hrest =>
      rw [hrest]
      dsimp only
      split
      · next hscan => rw [hscan]
      · next hscan => rw [hscan]

/-- The tokens of a whole text. -/
def Tokens.ofString (text : String) : Tokens :=
  Tokens.scan Position.start text.toList

/-- The number of tokens before the end or the fault. -/
def Tokens.length : Tokens → Nat
  | .next _ _ rest => rest.length + 1
  | .done _ => 0
  | .broken _ => 0

end Horn
