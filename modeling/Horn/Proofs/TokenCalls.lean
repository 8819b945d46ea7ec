/-
Tokens one by one.  A call for the next token passes the blanks and comments in
front of it and the longest spelling of a token that stands there, so calls that
follow each other pass a text from its start and leave no character out.  Calls
may go on behind a fault and behind the end.
-/
import Horn.Proofs.TokenPlaces

namespace Horn

/-- A blank or a comment stands at the start of a text. -/
def OpensLayout : List Char → Prop
  | [] => False
  | c :: rest => isBlank c = true ∨ c = '%' ∨ c = '/' ∧ rest.head? = some '/'

/-- Some blanks and comments are all that stand in front of a text.  A comment goes
on up to the end of its line. -/
inductive LayoutBefore : List Char → List Char → Prop
  | none {text : List Char} (hnone : ¬ OpensLayout text) : LayoutBefore [] text
  | blank {c : Char} {layout text : List Char} (hblank : isBlank c = true)
      (hlayout : LayoutBefore layout text) : LayoutBefore (c :: layout) text
  | comment {opening body layout text : List Char}
      (hopening : opening = ['%'] ∨ opening = ['/', '/']) (hbody : ∀ c ∈ body, c ≠ '\n')
      (hend : ∀ c ∈ (layout ++ text).head?, c = '\n') (hlayout : LayoutBefore layout text) :
      LayoutBefore (opening ++ (body ++ layout)) text

theorem skipLayout_of_not_opensLayout {text : List Char} (hnone : ¬ OpensLayout text)
    (position : Position) : skipLayout false position text = ⟨position, text⟩ := by
  cases text with
  | nil => rfl
  | cons c rest =>
      obtain ⟨hblank, hcomment⟩ := not_or.mp hnone
      rw [skipLayout, if_neg Bool.false_ne_true, if_neg hblank, if_neg hcomment]

theorem skipLayout_opening {opening : List Char}
    (hopening : opening = ['%'] ∨ opening = ['/', '/']) (position : Position)
    (text : List Char) :
    skipLayout false position (opening ++ text) =
      skipLayout true (position.afterAll opening) text := by
  rcases hopening with rfl | rfl
  · rfl
  · rfl

theorem skipLayout_body {body text : List Char} (hbody : ∀ c ∈ body, c ≠ '\n')
    (hend : ∀ c ∈ text.head?, c = '\n') (position : Position) :
    skipLayout true position (body ++ text) =
      skipLayout false (position.afterAll body) text := by
  induction body generalizing position with
  | nil =>
      cases text with
      | nil => rfl
      | cons c rest =>
          obtain rfl := hend c rfl
          rfl
  | cons c body ih =>
      obtain ⟨hc, hbody⟩ := List.forall_mem_cons.mp hbody
      rw [List.cons_append, skipLayout, if_pos rfl, bne_iff_ne.mpr hc]
      exact ih hbody _

/-- All of the layout is skipped, and nothing else. -/
theorem skipLayout_of_layoutBefore {layout text : List Char}
    (hlayout : LayoutBefore layout text) (position : Position) :
    skipLayout false position (layout ++ text) = ⟨position.afterAll layout, text⟩ := by
  induction hlayout generalizing position with
  | none hnone => exact skipLayout_of_not_opensLayout hnone position
  | blank hblank _ ih =>
      rw [List.cons_append, skipLayout, if_neg Bool.false_ne_true, if_pos hblank]
      exact ih _
  | comment hopening hbody hend _ ih =>
      rw [List.append_assoc, List.append_assoc, skipLayout_opening hopening,
        skipLayout_body hbody hend, ih, Position.afterAll_append, Position.afterAll_append]

/-- Layout is all there is exactly if nothing stands behind it. -/
theorem LayoutBefore.only_iff {layout behind : List Char} (hlayout : LayoutBefore layout behind) :
    LayoutBefore (layout ++ behind) [] ↔ behind = [] := by
  constructor
  · intro honly
    have hskip := skipLayout_of_layoutBefore honly Position.start
    rw [List.append_nil, skipLayout_of_layoutBefore hlayout] at hskip
    exact congrArg Cursor.rest hskip
  · rintro rfl
    rwa [List.append_nil]

/-- A text up to the end of its first line, and what follows. -/
theorem exists_line (text : List Char) :
    ∃ line rest, text = line ++ rest ∧ (∀ c ∈ line, c ≠ '\n') ∧ ∀ c ∈ rest.head?, c = '\n' := by
  induction text with
  | nil => exact ⟨[], [], rfl, nofun, nofun⟩
  | cons c text ih =>
      by_cases hc : c = '\n'
      · exact ⟨[], c :: text, rfl, nofun, fun _ hhead => Option.some.inj hhead ▸ hc⟩
      · obtain ⟨line, rest, rfl, hline, hend⟩ := ih
        exact ⟨c :: line, rest, rfl, List.forall_mem_cons.mpr ⟨hc, hline⟩, hend⟩

theorem exists_layoutBefore (text : List Char) :
    ∃ layout behind, text = layout ++ behind ∧ LayoutBefore layout behind := by
  induction hlength : text.length using Nat.strong_induction_on generalizing text with
  | _ length ih =>
      subst hlength
      by_cases hopens : OpensLayout text
      · have hcomment (opening tail : List Char) (htext : text = opening ++ tail)
            (hopening : opening = ['%'] ∨ opening = ['/', '/']) :
            ∃ layout behind, text = layout ++ behind ∧ LayoutBefore layout behind := by
          obtain ⟨body, rest, rfl, hbody, hend⟩ := exists_line tail
          have hless : rest.length < text.length := by
            have hpos : 0 < opening.length := by rcases hopening with rfl | rfl <;> decide
            rw [htext, List.length_append, List.length_append]
            omega
          obtain ⟨layout, behind, rfl, hlayout⟩ := ih _ hless rest rfl
          exact ⟨opening ++ (body ++ layout), behind, by simp [htext],
            .comment hopening hbody hend hlayout⟩
        cases text with
        | nil => cases hopens
        | cons c rest =>
            rcases hopens with hblank | rfl | ⟨rfl, hhead⟩
            · obtain ⟨layout, behind, rfl, hlayout⟩ := ih _ (Nat.lt_succ_self _) rest rfl
              exact ⟨c :: layout, behind, rfl, .blank hblank hlayout⟩
            · exact hcomment ['%'] rest rfl (.inl rfl)
            · obtain ⟨tail, rfl⟩ := List.head?_eq_some_iff.mp hhead
              exact hcomment ['/', '/'] tail rfl (.inr rfl)
      · exact ⟨[], text, rfl, .none hopens⟩

section Scans

variable {c : Char} {text : List Char} (cursor : Cursor)

theorem scanToken_of_isDigit (hc : c.isDigit = true) :
    scanToken cursor c text = .ok (scanNumber (c :: text)) := by
  rw [scanToken_of_isWordChar (isWordChar_of_isDigit hc), if_pos hc]

theorem scanToken_of_isLower (hc : c.isLower = true) :
    scanToken cursor c text = .ok (scanWord .identifier (c :: text)) := by
  have hdigit : ¬ c.isDigit = true := fun hdigit => by
    rw [isLower_of_isDigit hdigit] at hc
    cases hc
  rw [scanToken_of_isWordChar (isWordChar_of_isLower hc), if_neg hdigit, if_pos hc]

theorem isWordChar_of_nameStart (hc : c.isUpper = true ∨ c = '_') : isWordChar c = true := by
  rcases hc with hupper | rfl
  · exact isWordChar_of_isUpper hupper
  · decide

theorem scanToken_of_nameStart (hc : c.isUpper = true ∨ c = '_') :
    scanToken cursor c text = .ok (scanWord .variable (c :: text)) := by
  have hstart : isNameStart c = true := by rwa [isNameStart, Bool.or_eq_true, decide_eq_true_eq]
  have hdigit : ¬ c.isDigit = true := fun hdigit => by
    rw [isNameStart_of_isNumberStart (by rw [isNumberStart, hdigit]; rfl)] at hstart
    cases hstart
  have hlower : ¬ c.isLower = true := fun hlower => by
    rw [isNameStart_of_isLower hlower] at hstart
    cases hstart
  rw [scanToken_of_isWordChar (isWordChar_of_nameStart hc), if_neg hdigit, if_neg hlower,
    if_pos hc]

theorem exists_scan_of_ofChar? {mark : Symbol} (hmark : Symbol.ofChar? c = some mark) :
    ∃ scan, scanToken cursor c text = .ok scan := by
  rw [scanToken, hmark]
  split
  · exact ⟨_, rfl⟩
  split
  · exact ⟨_, rfl⟩
  · exact ⟨_, rfl⟩

end Scans

/-- Symbols have one character, apart from two that go on with a dash. -/
theorem Symbol.spelling_cases (mark : Symbol) :
    (∃ c, mark.spelling.toList = [c] ∧ Symbol.ofChar? c = some mark) ∨
      mark = .neck ∨ mark = .query := by
  cases mark with
  | neck => exact .inr (.inl rfl)
  | query => exact .inr (.inr rfl)
  | _ => exact .inl ⟨_, rfl, rfl⟩

theorem length_le_takeWhile {p : Char → Bool} {word : List Char} (hword : ∀ c ∈ word, p c = true)
    (rest : List Char) : word.length ≤ ((word ++ rest).takeWhile p).length := by
  rw [List.takeWhile_append_of_pos hword, List.length_append]
  exact Nat.le_add_right _ _

theorem length_digits_le_scanNumber (text : List Char) :
    (text.takeWhile Char.isDigit).length ≤ (scanNumber text).spelling.length := by
  rw [scanNumber]
  dsimp only
  split
  · exact Nat.le_refl _
  · rw [List.length_append]
    exact Nat.le_add_right _ _

theorem scanString_append {content : List Char} (hcontent : ∀ c ∈ content, c ≠ '"' ∧ c ≠ '\n')
    (rest : List Char) :
    scanString (content ++ '"' :: rest) =
      some ⟨.string (String.ofList content), '"' :: content ++ ['"'], rest⟩ := by
  have htake : (content ++ '"' :: rest).takeWhile (fun c => c ≠ '"' ∧ c ≠ '\n') = content := by
    refine takeWhile_word (fun c hc => decide_eq_true (hcontent c hc)) fun c hc => ?_
    obtain rfl := Option.mem_some.mp hc
    rfl
  rw [scanString, htake, List.drop_left]
  rfl

/-- Digits, a dot and digits belong to one number, with the digits that follow. -/
theorem length_le_scanNumber_decimal {whole places : List Char}
    (hdigits : ∀ c ∈ whole, c.isDigit = true) (hplaces : places ≠ [])
    (hdecimals : ∀ c ∈ places, c.isDigit = true) (rest : List Char) :
    (whole ++ '.' :: places).length ≤
      (scanNumber (whole ++ '.' :: places ++ rest)).spelling.length := by
  have hle := length_le_takeWhile hdecimals rest
  have hsplit := takeWhile_append_drop Char.isDigit (places ++ rest)
  generalize htake : (places ++ rest).takeWhile Char.isDigit = longer at hle hsplit
  generalize (places ++ rest).drop longer.length = last at hsplit
  have hdot : (whole ++ '.' :: (longer ++ last)).takeWhile Char.isDigit = whole := by
    refine takeWhile_word hdigits fun c hc => ?_
    obtain rfl := Option.mem_some.mp hc
    rfl
  have hlonger : longer ≠ [] := List.ne_nil_of_length_pos
    ((List.length_pos_of_ne_nil hplaces).trans_le hle)
  rw [List.append_assoc, List.cons_append, ← hsplit,
    scanNumber_decimal hdot (hsplit ▸ htake) hlonger]
  simpa using hle

theorem scanToken_of_scanString {text : List Char} {scan : Scan} (cursor : Cursor)
    (hscan : scanString text = some scan) : scanToken cursor '"' text = .ok scan := by
  rw [scanToken, if_neg (by simp), if_neg (by simp), show Symbol.ofChar? '"' = none from rfl]
  dsimp only
  rw [if_pos rfl, hscan]

/-- Where some token is spelled, a token is scanned, with a spelling that is not
shorter. -/
theorem exists_scan_of_spelled {token : Token} {spelling text : List Char} {c : Char}
    (hspelled : token.SpelledBy spelling) (hstarts : spelling <+: c :: text) (cursor : Cursor) :
    ∃ scan, scanToken cursor c text = .ok scan ∧ spelling.length ≤ scan.spelling.length := by
  obtain ⟨more, hmore⟩ := hstarts
  have htext : c :: text = spelling ++ more := hmore.symm
  clear hmore
  cases hspelled with
  | identifier hfirst hrest =>
      obtain ⟨rfl, rfl⟩ := List.cons.inj htext
      have hword : ∀ d ∈ c :: _, isWordChar d = true :=
        List.forall_mem_cons.mpr ⟨isWordChar_of_isLower hfirst, hrest⟩
      exact ⟨_, scanToken_of_isLower cursor hfirst, length_le_takeWhile hword more⟩
  | «variable» hfirst hrest =>
      obtain ⟨rfl, rfl⟩ := List.cons.inj htext
      have hword : ∀ d ∈ c :: _, isWordChar d = true :=
        List.forall_mem_cons.mpr ⟨isWordChar_of_nameStart hfirst, hrest⟩
      exact ⟨_, scanToken_of_nameStart cursor hfirst, length_le_takeWhile hword more⟩
  | whole hnonempty hdigits =>
      obtain ⟨first, digits, rfl⟩ := List.exists_cons_of_ne_nil hnonempty
      obtain ⟨rfl, rfl⟩ := List.cons.inj htext
      have hle := length_le_takeWhile hdigits more
      exact ⟨_, scanToken_of_isDigit cursor (hdigits c List.mem_cons_self),
        hle.trans (length_digits_le_scanNumber _)⟩
  | @decimal whole places hwhole hdigits hplaces hdecimals =>
      obtain ⟨first, digits, rfl⟩ := List.exists_cons_of_ne_nil hwhole
      obtain ⟨rfl, rfl⟩ := List.cons.inj htext
      refine ⟨_, scanToken_of_isDigit cursor (hdigits c List.mem_cons_self), ?_⟩
      exact length_le_scanNumber_decimal hdigits hplaces hdecimals more
  | string hcontent =>
      obtain ⟨rfl, rfl⟩ := List.cons.inj htext
      have hscan := scanToken_of_scanString cursor (scanString_append hcontent more)
      rw [← List.singleton_append, ← List.append_assoc] at hscan
      exact ⟨_, hscan, Nat.le_refl _⟩
  | symbol mark =>
      rcases mark.spelling_cases with ⟨first, hchars, hmark⟩ | rfl | rfl
      · rw [hchars] at htext ⊢
        obtain ⟨rfl, rfl⟩ := List.cons.inj htext
        obtain ⟨scan, hscan⟩ := exists_scan_of_ofChar? cursor hmark
        have hnonempty := (scanToken_spelled hscan).1.ne_nil
        exact ⟨scan, hscan, List.length_pos_of_ne_nil hnonempty⟩
      · obtain ⟨rfl, rfl⟩ := List.cons.inj (htext.trans rfl)
        exact ⟨_, rfl, Nat.le_refl _⟩
      · obtain ⟨rfl, rfl⟩ := List.cons.inj (htext.trans rfl)
        exact ⟨_, rfl, Nat.le_refl _⟩

/-- What is wrong with a text that starts with no token, and how much of it is
passed. -/
inductive Fault.Stops : Fault → List Char → List Char → Prop
  | character {c : Char} (rest : List Char) (hc : c ≠ '"') :
      Stops (.unexpectedCharacter c) [] (c :: rest)
  | string {content rest : List Char} (hcontent : ∀ c ∈ content, c ≠ '"' ∧ c ≠ '\n')
      (hend : ∀ c ∈ rest.head?, c = '\n') : Stops .unterminatedString ('"' :: content) rest

/-- Where the longest start of some class ends, a character follows that is not in it. -/
theorem head_of_takeWhile_eq {p : Char → Bool} {word rest : List Char}
    (hword : (word ++ rest).takeWhile p = word) : ∀ c ∈ rest.head?, p c = false := by
  have hall : ∀ c ∈ word, p c = true := fun c hc => List.mem_takeWhile_imp (hword ▸ hc)
  rw [List.takeWhile_append_of_pos hall, List.append_right_eq_self] at hword
  cases rest with
  | nil => exact nofun
  | cons c rest =>
      rintro _ ⟨⟩
      simpa using hword

/-- A string that does not end on its line is everything up to the end of the line. -/
theorem stops_of_scanString {text : List Char} (hscan : scanString text = none) :
    Fault.Stops .unterminatedString ('"' :: text.takeWhile (· ≠ '\n'))
      (text.drop (text.takeWhile (· ≠ '\n')).length) := by
  have hsplit := takeWhile_append_drop (fun c => c ≠ '"' ∧ c ≠ '\n') text
  have hinside : ∀ c ∈ text.takeWhile (fun c => c ≠ '"' ∧ c ≠ '\n'), c ≠ '"' ∧ c ≠ '\n' := by
    intro c hc
    have hinside := List.mem_takeWhile_imp hc
    exact of_decide_eq_true hinside
  rw [scanString] at hscan
  generalize hcontent : text.takeWhile (fun c => c ≠ '"' ∧ c ≠ '\n') = content at *
  generalize text.drop content.length = rest at *
  subst hsplit
  have hend : ∀ c ∈ rest.head?, c = '\n' := by
    intro c hc
    have hnot := head_of_takeWhile_eq hcontent c hc
    obtain ⟨rest, rfl⟩ := List.head?_eq_some_iff.mp hc
    by_contra hline
    obtain rfl : c = '"' := by simpa [hline] using hnot
    cases hscan
  have hline : (content ++ rest).takeWhile (· ≠ '\n') = content := by
    refine takeWhile_word (fun c hc => decide_eq_true (hinside c hc).2) fun c hc => ?_
    rw [hend c hc]
    rfl
  rw [hline, List.drop_left]
  exact .string hinside hend

/-- What a call for a token finds, where that stands, and where the call stops. -/
structure TokenCall where
  outcome : Except Fault Token
  place : Position
  stop : Cursor

/-- Where a text is left that starts with no token.  A string is passed up to the end
of its line, and any other character is not passed. -/
def Cursor.passFault (start : Cursor) : Cursor :=
  match start.rest with
  | '"' :: text =>
      let content := text.takeWhile (· ≠ '\n')
      ⟨start.position.afterAll ('"' :: content), text.drop content.length⟩
  | _ => start

/-- What a call finds behind the blanks and comments. -/
def Cursor.find (start : Cursor) : TokenCall :=
  match start.rest with
  | [] => ⟨.ok .endOfText, start.position, start⟩
  | c :: text =>
      match scanToken start c text with
      | .ok scan =>
          ⟨.ok scan.token, start.position, ⟨start.position.afterAll scan.spelling, scan.rest⟩⟩
      | .error error => ⟨.error error.fault, start.position, start.passFault⟩

/-- A call for the next token.  The end of the text can be found again, and so can a
character that starts no token. -/
def Cursor.call (cursor : Cursor) : TokenCall :=
  (skipLayout false cursor.position cursor.rest).find

/-- Some calls, each from where the one before it stopped. -/
def Cursor.calls : Nat → Cursor → List TokenCall
  | 0, _ => []
  | count + 1, cursor => cursor.call :: cursor.call.stop.calls count

/-- The tokens that the readers are given, from those of the later calls. -/
def TokenCall.tokens (call : TokenCall) (later : Tokens) : Tokens :=
  match call.outcome with
  | .ok .endOfText => .done call.place
  | .ok token => .next token call.place later
  | .error fault => .broken ⟨fault, call.stop.position⟩

theorem not_spelledBy_endOfText (spelling : List Char) :
    ¬ Token.endOfText.SpelledBy spelling := nofun

theorem scanToken_error_cases {cursor : Cursor} {c : Char} {text : List Char}
    {error : ParseError} (hscan : scanToken cursor c text = .error error) :
    c ≠ '"' ∧ error = ⟨.unexpectedCharacter c, cursor.position⟩ ∨
      c = '"' ∧ scanString text = none ∧ error = ⟨.unterminatedString,
        cursor.position.afterAll ('"' :: text.takeWhile (· ≠ '\n'))⟩ := by
  rw [scanToken] at hscan
  split at hscan
  · cases hscan
  split at hscan
  · cases hscan
  split at hscan
  · cases hscan
  split at hscan
  · next hquote =>
      subst hquote
      split at hscan
      · cases hscan
      · next hnone =>
          cases hscan
          exact .inr ⟨rfl, hnone, rfl⟩
  · next hquote =>
      split at hscan
      · cases hscan
      split at hscan
      · cases hscan
      split at hscan
      · cases hscan
      · cases hscan
        exact .inl ⟨hquote, rfl⟩

theorem Cursor.passFault_of_ne {position : Position} {c : Char} {text : List Char}
    (hc : c ≠ '"') : Cursor.passFault ⟨position, c :: text⟩ = ⟨position, c :: text⟩ := by
  unfold passFault
  split
  · next heq => exact absurd (List.cons.inj heq).1 hc
  · rfl

theorem TokenCall.tokens_of_ok {token : Token} (htoken : token ≠ .endOfText) (place : Position)
    (stop : Cursor) (later : Tokens) :
    TokenCall.tokens ⟨.ok token, place, stop⟩ later = .next token place later := by
  unfold tokens
  split
  · next heq => exact absurd (Except.ok.inj heq) htoken
  · next heq => rw [Except.ok.inj heq]
  · next heq => cases heq

section Find

variable {position : Position} {c : Char} {text : List Char}

theorem Cursor.find_of_ok {scan : Scan}
    (hscan : scanToken ⟨position, c :: text⟩ c text = .ok scan) :
    Cursor.find ⟨position, c :: text⟩ =
      ⟨.ok scan.token, position, ⟨position.afterAll scan.spelling, scan.rest⟩⟩ := by
  rw [find]
  simp only [hscan]

theorem Cursor.find_of_error {error : ParseError}
    (hscan : scanToken ⟨position, c :: text⟩ c text = .error error) :
    Cursor.find ⟨position, c :: text⟩ =
      ⟨.error error.fault, position, Cursor.passFault ⟨position, c :: text⟩⟩ := by
  rw [find]
  simp only [hscan]

/-- Where no token is scanned, the call stops at the place of the fault. -/
theorem Cursor.exists_stops {error : ParseError}
    (hscan : scanToken ⟨position, c :: text⟩ c text = .error error) :
    ∃ passed rest, c :: text = passed ++ rest ∧ error.fault.Stops passed rest ∧
      Cursor.passFault ⟨position, c :: text⟩ = ⟨position.afterAll passed, rest⟩ ∧
      error.position = position.afterAll passed := by
  rcases scanToken_error_cases hscan with ⟨hc, rfl⟩ | ⟨rfl, hstring, rfl⟩
  · exact ⟨[], c :: text, rfl, .character text hc, passFault_of_ne hc, rfl⟩
  · have hline := takeWhile_append_drop (· ≠ '\n') text
    exact ⟨_, _, congrArg _ hline.symm, stops_of_scanString hstring, rfl, rfl⟩

end Find

/-- The tokens of a text are those that calls find up to its end or its first fault. -/
theorem Tokens.scan_eq_call (cursor : Cursor) :
    Tokens.scan cursor.position cursor.rest =
      cursor.call.tokens (Tokens.scan cursor.call.stop.position cursor.call.stop.rest) := by
  rw [scan_eq, Cursor.call]
  generalize skipLayout false cursor.position cursor.rest = start
  obtain ⟨position, behind⟩ := start
  cases behind with
  | nil => rfl
  | cons c text =>
      dsimp only
      cases hscan : scanToken ⟨position, c :: text⟩ c text with
      | ok scan =>
          have htoken : scan.token ≠ .endOfText := fun hend =>
            not_spelledBy_endOfText _ (hend ▸ (scanToken_spelled hscan).1)
          rw [Cursor.find_of_ok hscan, TokenCall.tokens_of_ok htoken]
      | error error =>
          obtain ⟨passed, rest, _, _, hstop, hplace⟩ := Cursor.exists_stops hscan
          rw [Cursor.find_of_error hscan, hstop]
          exact congrArg (fun place => Tokens.broken ⟨error.fault, place⟩) hplace

/-- What stands at the start of a text: its end, the longest spelling of a token, or
no spelling of any token. -/
inductive Finds : Except Fault Token → List Char → List Char → Prop
  | finish : Finds (.ok .endOfText) [] []
  | token {token : Token} {spelling rest : List Char} (hspelled : token.SpelledBy spelling)
      (hlongest : ∀ other longer, Token.SpelledBy other longer → longer <+: spelling ++ rest →
        longer.length ≤ spelling.length) : Finds (.ok token) spelling rest
  | fault {fault : Fault} {passed rest : List Char} (hstops : fault.Stops passed rest)
      (hnone : ∀ token spelling, Token.SpelledBy token spelling → ¬ spelling <+: passed ++ rest) :
      Finds (.error fault) passed rest

theorem Finds.endOfText_iff {outcome : Except Fault Token} {found rest : List Char}
    (hfinds : Finds outcome found rest) : outcome = .ok .endOfText ↔ found ++ rest = [] := by
  cases hfinds with
  | finish => exact iff_of_true rfl rfl
  | token hspelled =>
      refine iff_of_false (fun hend => ?_) (by simp [hspelled.ne_nil])
      exact not_spelledBy_endOfText _ (Except.ok.inj hend ▸ hspelled)
  | fault hstops =>
      refine iff_of_false nofun ?_
      cases hstops <;> simp

theorem Finds.progress {outcome : Except Fault Token} {found rest : List Char}
    (hfinds : Finds outcome found rest) :
    outcome = .ok .endOfText ∨ (∃ fault, outcome = .error fault) ∨ found ≠ [] := by
  cases hfinds with
  | finish => exact .inl rfl
  | token hspelled => exact .inr (.inr hspelled.ne_nil)
  | fault => exact .inr (.inl ⟨_, rfl⟩)

/-- What a call does behind some characters of a text: it passes all blanks and
comments and what it finds there, and leaves the rest. -/
structure TokenCall.Passes (call : TokenCall) (before layout found rest : List Char) : Prop where
  skipped : LayoutBefore layout (found ++ rest)
  finds : Finds call.outcome found rest
  place : call.place = Position.of (before ++ layout)
  stop : call.stop = ⟨Position.of (before ++ (layout ++ found)), rest⟩
  ends_iff : call.outcome = .ok .endOfText ↔ LayoutBefore (layout ++ (found ++ rest)) []
  progress : call.outcome = .ok .endOfText ∨ (∃ fault, call.outcome = .error fault) ∨
    found ≠ []

theorem Cursor.exists_finds (position : Position) (behind : List Char) :
    ∃ found rest, behind = found ++ rest ∧
      (Cursor.find ⟨position, behind⟩).place = position ∧
      (Cursor.find ⟨position, behind⟩).stop = ⟨position.afterAll found, rest⟩ ∧
      Finds (Cursor.find ⟨position, behind⟩).outcome found rest := by
  cases behind with
  | nil => exact ⟨[], [], rfl, rfl, rfl, .finish⟩
  | cons c text =>
      cases hscan : scanToken ⟨position, c :: text⟩ c text with
      | ok scan =>
          rw [find_of_ok hscan]
          obtain ⟨hspelled, hspelling⟩ := scanToken_spelled hscan
          refine ⟨scan.spelling, scan.rest, hspelling.symm, rfl, rfl,
            .token hspelled fun other longer hother hstarts => ?_⟩
          rw [hspelling] at hstarts
          obtain ⟨same, hsame, hle⟩ := exists_scan_of_spelled hother hstarts ⟨position, c :: text⟩
          rw [hscan] at hsame
          cases hsame
          exact hle
      | error error =>
          rw [find_of_error hscan]
          have hnone (token : Token) (spelling : List Char) (hspelled : token.SpelledBy spelling) :
              ¬ spelling <+: c :: text := fun hstarts => by
            obtain ⟨scan, hfound, _⟩ :=
              exists_scan_of_spelled hspelled hstarts ⟨position, c :: text⟩
            rw [hscan] at hfound
            cases hfound
          obtain ⟨passed, rest, htext, hstops, hstop, _⟩ := exists_stops hscan
          exact ⟨passed, rest, htext, rfl, hstop, .fault hstops (htext ▸ hnone)⟩

theorem Cursor.exists_passes (before text : List Char) :
    ∃ layout found rest, text = layout ++ (found ++ rest) ∧
      (Cursor.call ⟨Position.of before, text⟩).Passes before layout found rest := by
  obtain ⟨layout, behind, rfl, hlayout⟩ := exists_layoutBefore text
  have hskip := skipLayout_of_layoutBefore hlayout (Position.of before)
  rw [call, hskip, ← Position.of_append]
  obtain ⟨found, rest, rfl, hplace, hstop, hfinds⟩ :=
    exists_finds (Position.of (before ++ layout)) behind
  rw [← Position.of_append, List.append_assoc] at hstop
  refine ⟨layout, found, rest, rfl, hlayout, hfinds, hplace, hstop, ?_, hfinds.progress⟩
  rw [hfinds.endOfText_iff, hlayout.only_iff]

/-- Calls pass a text behind some characters, each going on where the one before it
stopped. -/
inductive PassedBy : List Char → List Char → List TokenCall → Prop
  | none (before text : List Char) : PassedBy before text []
  | next {before layout found rest : List Char} {call : TokenCall} {later : List TokenCall}
      (hcall : call.Passes before layout found rest)
      (hlater : PassedBy (before ++ (layout ++ found)) rest later) :
      PassedBy before (layout ++ (found ++ rest)) (call :: later)

theorem passedBy_calls (count : Nat) (before text : List Char) :
    PassedBy before text (Cursor.calls count ⟨Position.of before, text⟩) := by
  induction count generalizing before text with
  | zero => exact .none before text
  | succ count ih =>
      obtain ⟨layout, found, rest, rfl, hcall⟩ := Cursor.exists_passes before text
      rw [Cursor.calls, hcall.stop]
      exact .next hcall (ih _ _)

theorem Tokens.exists_scan_eq_foldr (count : Nat) (cursor : Cursor) :
    ∃ later, Tokens.scan cursor.position cursor.rest =
      (cursor.calls count).foldr TokenCall.tokens later := by
  induction count generalizing cursor with
  | zero => exact ⟨_, rfl⟩
  | succ count ih =>
      obtain ⟨later, hlater⟩ := ih cursor.call.stop
      refine ⟨later, ?_⟩
      rw [scan_eq_call, hlater]
      rfl

/-- However often the next token is asked for, the calls pass the text from its start,
each its blanks and comments and then the longest spelling there, and the tokens of
the text are those that they find. -/
theorem calls_lose_no_character (text : String) (count : Nat) :
    PassedBy [] text.toList (Cursor.calls count ⟨Position.start, text.toList⟩) ∧
      ∃ later, Tokens.ofString text =
        (Cursor.calls count ⟨Position.start, text.toList⟩).foldr TokenCall.tokens later :=
  ⟨passedBy_calls count [] text.toList,
    Tokens.exists_scan_eq_foldr count ⟨Position.start, text.toList⟩⟩

/-- A string that is not ended is passed up to the end of its line, and the next call
goes on there. -/
example :
    (Cursor.calls 4 ⟨Position.start, "a % é\n \"b\n// c".toList⟩).map
        (fun call => (call.place, call.stop.position)) =
      [(⟨1, 1⟩, ⟨1, 2⟩), (⟨2, 2⟩, ⟨2, 4⟩), (⟨3, 5⟩, ⟨3, 5⟩), (⟨3, 5⟩, ⟨3, 5⟩)] := by
  decide +kernel

end Horn
