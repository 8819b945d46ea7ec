/-
Where tokens stand.  A token is placed by the lines and characters before it,
its spelling stands there, and what was scanned before it is what would be
scanned if the text ended there.
-/
import Mathlib.Data.List.DropRight
import Horn.Proofs.EntryPoints

namespace Horn

/-- The place behind some characters: its line is one more than their line
breaks, its column one more than the characters since the last of these. -/
def Position.of (before : List Char) : Position :=
  ⟨before.count '\n' + 1, (before.rtakeWhile (· ≠ '\n')).length + 1⟩

theorem Position.of_concat (before : List Char) (c : Char) :
    Position.of (before ++ [c]) = (Position.of before).after c := by
  by_cases hc : c = '\n' <;> simp [Position.of, Position.after, hc]

/-- The place that is kept while a text is scanned. -/
theorem Position.afterAll_start (before : List Char) :
    Position.start.afterAll before = Position.of before := by
  induction before using List.reverseRecOn with
  | nil => rfl
  | append_singleton before c ih => rw [afterAll_append, ih, of_concat]; rfl

theorem Position.of_append (before more : List Char) :
    Position.of (before ++ more) = (Position.of before).afterAll more := by
  rw [← afterAll_start, afterAll_append, afterAll_start]

/-- Characters lead on to a later line, or further along the same line. -/
theorem Position.afterAll_later (position : Position) (text : List Char) :
    position.line < (position.afterAll text).line ∨
      position.line = (position.afterAll text).line ∧
        (position.afterAll text).column = position.column + text.length := by
  induction text generalizing position with
  | nil => exact .inr ⟨rfl, rfl⟩
  | cons c text ih =>
      rw [afterAll_cons, List.length_cons]
      have hrest := ih (position.after c)
      by_cases hc : c = '\n'
      · simp only [after, if_pos hc] at hrest ⊢
        omega
      · simp only [after, if_neg hc] at hrest ⊢
        omega

theorem Position.of_append_ne {more : List Char} (hmore : more ≠ []) (before : List Char) :
    Position.of (before ++ more) ≠ Position.of before := by
  have hpos := List.length_pos_of_ne_nil hmore
  have hlater := afterAll_later (Position.of before) more
  rw [← of_append] at hlater
  intro hsame
  rw [hsame] at hlater
  omega

/-- How tokens are written. -/
inductive Token.SpelledBy : Token → List Char → Prop
  | identifier {first : Char} {rest : List Char} (hfirst : first.isLower = true)
      (hrest : ∀ c ∈ rest, isWordChar c = true) :
      SpelledBy (.identifier (String.ofList (first :: rest))) (first :: rest)
  | variable {first : Char} {rest : List Char} (hfirst : first.isUpper = true ∨ first = '_')
      (hrest : ∀ c ∈ rest, isWordChar c = true) :
      SpelledBy (.variable (String.ofList (first :: rest))) (first :: rest)
  | whole {digits : List Char} (hnonempty : digits ≠ [])
      (hdigits : ∀ c ∈ digits, c.isDigit = true) :
      SpelledBy (.number (readNumber digits [])) digits
  | decimal {whole places : List Char} (hwhole : whole ≠ [])
      (hdigits : ∀ c ∈ whole, c.isDigit = true) (hplaces : places ≠ [])
      (hdecimals : ∀ c ∈ places, c.isDigit = true) :
      SpelledBy (.number (readNumber whole places)) (whole ++ '.' :: places)
  | string {content : List Char} (hcontent : ∀ c ∈ content, c ≠ '"' ∧ c ≠ '\n') :
      SpelledBy (.string (String.ofList content)) ('"' :: content ++ ['"'])
  | symbol (mark : Symbol) : SpelledBy (.symbol mark) mark.spelling.toList

theorem Token.SpelledBy.ne_nil {token : Token} {spelling : List Char}
    (hspelled : token.SpelledBy spelling) : spelling ≠ [] := by
  cases hspelled with
  | whole hnonempty => exact hnonempty
  | symbol mark => cases mark <;> decide
  | _ => simp

theorem spelling_of_ofChar? {c : Char} {mark : Symbol} (hmark : Symbol.ofChar? c = some mark) :
    mark.spelling.toList = [c] := by
  unfold Symbol.ofChar? at hmark
  split at hmark
  all_goals
    cases hmark
    try decide

/-- A text is the longest start of some class and what follows it. -/
theorem takeWhile_append_drop (p : Char → Bool) (text : List Char) :
    text.takeWhile p ++ text.drop (text.takeWhile p).length = text :=
  List.prefix_iff_eq_append.mp (List.takeWhile_prefix p)

theorem scanWord_spelled {build : String → Token} {c : Char} {text : List Char}
    (hc : isWordChar c = true)
    (hbuild : ∀ rest : List Char, (∀ c ∈ rest, isWordChar c = true) →
      (build (String.ofList (c :: rest))).SpelledBy (c :: rest)) :
    (scanWord build (c :: text)).token.SpelledBy (scanWord build (c :: text)).spelling ∧
      (scanWord build (c :: text)).spelling ++ (scanWord build (c :: text)).rest = c :: text := by
  refine ⟨?_, takeWhile_append_drop isWordChar (c :: text)⟩
  rw [scanWord, List.takeWhile_cons_of_pos hc]
  exact hbuild _ fun c hc => List.mem_takeWhile_imp hc

theorem scanString_spelled {text : List Char} {scan : Scan} (hscan : scanString text = some scan) :
    scan.token.SpelledBy scan.spelling ∧ scan.spelling ++ scan.rest = '"' :: text := by
  have hsplit := takeWhile_append_drop (fun c => c ≠ '"' ∧ c ≠ '\n') text
  rw [scanString] at hscan
  split at hscan
  · next rest hrest =>
      cases hscan
      rw [hrest] at hsplit
      refine ⟨.string fun c hc => ?_, by simpa using hsplit⟩
      have hinside := List.mem_takeWhile_imp hc
      exact of_decide_eq_true hinside
  · cases hscan

theorem decimalPlaces_spelled (text : List Char) :
    decimalPlaces text = [] ∨
      (∃ rest, text = '.' :: (decimalPlaces text ++ rest)) ∧
        ∀ c ∈ decimalPlaces text, c.isDigit = true := by
  unfold decimalPlaces
  split
  · next digits =>
      refine .inr ⟨⟨_, congrArg _ (takeWhile_append_drop Char.isDigit digits).symm⟩, ?_⟩
      exact fun c hc => List.mem_takeWhile_imp hc
  · exact .inl rfl

theorem scanNumber_spelled {c : Char} {text : List Char} (hc : c.isDigit = true) :
    (scanNumber (c :: text)).token.SpelledBy (scanNumber (c :: text)).spelling ∧
      (scanNumber (c :: text)).spelling ++ (scanNumber (c :: text)).rest = c :: text := by
  have hwhole : (c :: text).takeWhile Char.isDigit ≠ [] := by
    rw [List.takeWhile_cons_of_pos hc]
    exact List.cons_ne_nil c _
  have hdigits : ∀ d ∈ (c :: text).takeWhile Char.isDigit, d.isDigit = true :=
    fun d hd => List.mem_takeWhile_imp hd
  have hsplit := takeWhile_append_drop Char.isDigit (c :: text)
  generalize hall : c :: text = all at *
  rw [scanNumber]
  dsimp only
  generalize all.takeWhile Char.isDigit = whole at *
  rcases decimalPlaces_spelled (all.drop whole.length) with hnone | ⟨⟨rest, hrest⟩, hdecimals⟩
  · rw [hnone, if_pos rfl]
    exact ⟨.whole hwhole hdigits, hsplit⟩
  · generalize decimalPlaces (all.drop whole.length) = places at *
    by_cases hplaces : places = []
    · subst hplaces
      rw [if_pos rfl]
      exact ⟨.whole hwhole hdigits, hsplit⟩
    · rw [if_neg hplaces]
      refine ⟨.decimal hwhole hdigits hplaces hdecimals, ?_⟩
      apply List.prefix_iff_eq_append.mp
      refine ⟨rest, ?_⟩
      rw [← hsplit, hrest]
      simp

/-- A token is scanned from its spelling, which stands in front of the rest. -/
theorem scanToken_spelled {cursor : Cursor} {c : Char} {text : List Char} {scan : Scan}
    (hscan : scanToken cursor c text = .ok scan) :
    scan.token.SpelledBy scan.spelling ∧ scan.spelling ++ scan.rest = c :: text := by
  have htwo {mark : Symbol} (hhead : text.head? = some '-')
      (hmark : mark.spelling.toList = [c, '-']) :
      (Token.symbol mark).SpelledBy [c, '-'] ∧ [c, '-'] ++ text.drop 1 = c :: text := by
    refine ⟨hmark ▸ .symbol mark, ?_⟩
    cases text with
    | nil => cases hhead
    | cons d text =>
        cases hhead
        rfl
  unfold scanToken at hscan
  split at hscan
  · next hneck =>
      obtain ⟨rfl, hhead⟩ := hneck
      cases hscan
      exact htwo hhead (by decide)
  split at hscan
  · next hquery =>
      obtain ⟨rfl, hhead⟩ := hquery
      cases hscan
      exact htwo hhead (by decide)
  split at hscan
  · next mark hmark =>
      cases hscan
      exact ⟨spelling_of_ofChar? hmark ▸ .symbol mark, rfl⟩
  split at hscan
  · next hquote =>
      subst hquote
      split at hscan
      · next found hfound =>
          cases hscan
          exact scanString_spelled hfound
      · cases hscan
  split at hscan
  · next hdigit =>
      cases hscan
      exact scanNumber_spelled hdigit
  split at hscan
  · next hlower =>
      cases hscan
      exact scanWord_spelled (isWordChar_of_isLower hlower) fun rest hrest =>
        .identifier hlower hrest
  split at hscan
  · next hstart =>
      cases hscan
      have hword : isWordChar c = true := by
        rcases hstart with hupper | rfl
        · exact isWordChar_of_isUpper hupper
        · decide
      exact scanWord_spelled hword fun rest hrest => .variable hstart hrest
  · cases hscan

/-- Blanks and comments stand in front of the rest. -/
theorem skipLayout_spelled (inComment : Bool) (position : Position) (text : List Char) :
    ∃ layout, text = layout ++ (skipLayout inComment position text).rest ∧
      (skipLayout inComment position text).position = position.afterAll layout := by
  induction text generalizing inComment position with
  | nil => exact ⟨[], rfl, rfl⟩
  | cons c text ih =>
      have hskip (inComment : Bool) : ∃ layout,
          c :: text = layout ++ (skipLayout inComment (position.after c) text).rest ∧
            (skipLayout inComment (position.after c) text).position =
              position.afterAll layout := by
        obtain ⟨layout, htext, hposition⟩ := ih inComment (position.after c)
        exact ⟨c :: layout, congrArg (c :: ·) htext, hposition⟩
      rw [skipLayout]
      split
      · exact hskip _
      split
      · exact hskip _
      split
      · exact hskip _
      · exact ⟨[], rfl, rfl⟩

/-- What is skipped is skipped also if the text ends right after it or later. -/
theorem skipLayout_cut {inComment : Bool} {position last : Position}
    {text rest more : List Char}
    (hskip : skipLayout inComment position (text ++ more) = ⟨last, rest ++ more⟩) :
    skipLayout inComment position text = ⟨last, rest⟩ := by
  induction text generalizing inComment position with
  | nil =>
      -- all of what is cut off is left over, so nothing of it was skipped
      obtain ⟨layout, hmore, hlast⟩ := skipLayout_spelled inComment position more
      rw [List.nil_append] at hskip
      rw [hskip] at hmore hlast
      have hlength := congrArg List.length hmore
      simp only [List.length_append] at hlength
      obtain rfl := List.eq_nil_of_length_eq_zero (show layout.length = 0 by omega)
      obtain rfl := List.eq_nil_of_length_eq_zero (show rest.length = 0 by omega)
      exact congrArg (Cursor.mk · []) hlast.symm
  | cons c text ih =>
      rw [List.cons_append, skipLayout] at hskip
      rw [skipLayout]
      by_cases hcomment : inComment = true
      · rw [if_pos hcomment] at hskip ⊢
        exact ih hskip
      rw [if_neg hcomment] at hskip ⊢
      by_cases hblank : isBlank c = true
      · rw [if_pos hblank] at hskip ⊢
        exact ih hskip
      rw [if_neg hblank] at hskip ⊢
      by_cases hopen : c = '%' ∨ c = '/' ∧ (text ++ more).head? = some '/'
      · rw [if_pos hopen] at hskip
        have hsame : c = '%' ∨ c = '/' ∧ text.head? = some '/' := by
          refine hopen.imp_right (And.imp_right fun hhead => ?_)
          cases text with
          | nil =>
              -- The comment would end between the two characters that open it.
              cases more with
              | nil => cases hhead
              | cons d more =>
                  have hle := skipLayout_length_le (d != '\n') ((position.after c).after d) more
                  rw [List.nil_append, skipLayout, if_pos rfl] at hskip
                  rw [hskip] at hle
                  simp only [List.length_append, List.length_cons] at hle
                  omega
          | cons d text => exact hhead
        rw [if_pos hsame]
        exact ih hskip
      · rw [if_neg hopen] at hskip
        have hsame : ¬(c = '%' ∨ c = '/' ∧ text.head? = some '/') := by
          refine fun hstart => hopen (hstart.imp_right (And.imp_right fun hhead => ?_))
          rw [List.head?_append, hhead]
          rfl
        rw [if_neg hsame]
        obtain ⟨rfl, hrest⟩ := Cursor.mk.inj hskip
        have hsplit : c :: text ++ more = rest ++ more := hrest
        rw [List.append_cancel_right hsplit]

theorem takeWhile_cut {p : Char → Bool} {word rest more : List Char}
    (hword : (word ++ (rest ++ more)).takeWhile p = word) :
    (word ++ rest).takeWhile p = word := by
  have hall : ∀ c ∈ word, p c = true := fun c hc => List.mem_takeWhile_imp (hword ▸ hc)
  refine takeWhile_word hall fun c hc => ?_
  rw [List.takeWhile_append_of_pos hall, List.append_right_eq_self] at hword
  cases rest with
  | nil => cases hc
  | cons d rest =>
      cases hc
      simpa using hword

theorem scanWord_cut {build : String → Token} {text rest more spelling : List Char}
    {token : Token} (hscan : scanWord build (text ++ more) = ⟨token, spelling, rest ++ more⟩) :
    scanWord build text = ⟨token, spelling, rest⟩ := by
  have hsplit := takeWhile_append_drop isWordChar (text ++ more)
  obtain ⟨htoken, hspelling, hrest⟩ := Scan.mk.inj hscan
  rw [hspelling] at hrest htoken hsplit
  rw [hrest, ← List.append_assoc] at hsplit
  obtain rfl := List.append_cancel_right hsplit
  rw [List.append_assoc] at hspelling
  rw [scanWord, takeWhile_cut hspelling, List.drop_left, htoken]

theorem scanString_cut {text rest more spelling : List Char} {token : Token}
    (hscan : scanString (text ++ more) = some ⟨token, spelling, rest ++ more⟩) :
    scanString text = some ⟨token, spelling, rest⟩ := by
  have hsplit := takeWhile_append_drop (fun c => c ≠ '"' ∧ c ≠ '\n') (text ++ more)
  rw [scanString] at hscan ⊢
  generalize hcontent : (text ++ more).takeWhile (fun c => c ≠ '"' ∧ c ≠ '\n') = content at *
  split at hscan
  · next found hdrop =>
      obtain ⟨rfl, rfl, rfl⟩ := Scan.mk.inj (Option.some.inj hscan)
      rw [hdrop, ← List.cons_append, ← List.append_assoc] at hsplit
      obtain rfl := List.append_cancel_right hsplit
      rw [List.append_assoc] at hcontent
      rw [takeWhile_cut hcontent, List.drop_left]
      rfl
  · cases hscan

theorem decimalPlaces_cut {rest more : List Char} (hnone : decimalPlaces (rest ++ more) = []) :
    decimalPlaces rest = [] := by
  cases rest with
  | nil => rfl
  | cons c rest =>
      by_cases hdot : c = '.'
      · subst hdot
        have hdigits : ([] ++ (rest ++ more)).takeWhile Char.isDigit = [] := hnone
        exact takeWhile_cut hdigits
      · unfold decimalPlaces
        split
        · next heq => exact absurd (List.cons.inj heq).1 hdot
        · rfl

/-- Decimal places are the digits behind a dot, up to where these end. -/
theorem decimalPlaces_append {text : List Char} (hplaces : decimalPlaces text ≠ []) :
    ∃ rest, text = '.' :: (decimalPlaces text ++ rest) ∧
      (decimalPlaces text ++ rest).takeWhile Char.isDigit = decimalPlaces text := by
  unfold decimalPlaces at *
  split at *
  · next digits =>
      have hsplit := takeWhile_append_drop Char.isDigit digits
      exact ⟨_, congrArg _ hsplit.symm, congrArg _ hsplit⟩
  · exact absurd rfl hplaces

theorem scanNumber_cut {text rest more spelling : List Char} {token : Token}
    (hscan : scanNumber (text ++ more) = ⟨token, spelling, rest ++ more⟩) :
    scanNumber text = ⟨token, spelling, rest⟩ := by
  have hwhole := takeWhile_append_drop Char.isDigit (text ++ more)
  rw [scanNumber] at hscan ⊢
  generalize hdigits : (text ++ more).takeWhile Char.isDigit = whole at *
  generalize hafter : (text ++ more).drop whole.length = after at *
  by_cases hplaces : decimalPlaces after = []
  · rw [hplaces, if_pos rfl] at hscan
    obtain ⟨htoken, rfl, hrest⟩ := Scan.mk.inj hscan
    rw [hafter] at hrest
    subst hrest
    rw [← List.append_assoc] at hwhole
    obtain rfl := List.append_cancel_right hwhole
    rw [List.append_assoc] at hdigits
    rw [takeWhile_cut hdigits, List.drop_left, decimalPlaces_cut hplaces, if_pos rfl,
      List.drop_left, htoken]
  · rw [if_neg hplaces] at hscan
    obtain ⟨htoken, rfl, hrest⟩ := Scan.mk.inj hscan
    obtain ⟨last, hlast, hend⟩ := decimalPlaces_append hplaces
    generalize decimalPlaces after = places at *
    subst hlast
    have hsplit : whole ++ '.' :: places ++ last = text ++ more := by
      rw [List.append_assoc]
      exact hwhole
    rw [← hsplit, List.drop_left] at hrest
    subst hrest
    rw [← List.append_assoc] at hsplit
    obtain rfl := List.append_cancel_right hsplit
    have htake : (whole ++ '.' :: (places ++ rest)).takeWhile Char.isDigit = whole := by
      have hmore : (whole ++ ('.' :: (places ++ rest) ++ more)).takeWhile Char.isDigit = whole := by
        simpa using hdigits
      exact takeWhile_cut hmore
    rw [← htoken, ← scanNumber_decimal htake (takeWhile_cut hend) hplaces, List.append_assoc]
    rfl

/-- A token is scanned also if the text ends right behind it or later. -/
theorem scanToken_cut {cursor : Cursor} {c : Char} {text rest more spelling : List Char}
    {token : Token} (other : Cursor)
    (hscan : scanToken cursor c (text ++ more) = .ok ⟨token, spelling, rest ++ more⟩) :
    scanToken other c text = .ok ⟨token, spelling, rest⟩ := by
  -- a mark of two characters may be decided by the first character that is cut off
  have hhead : text.head? = some '-' → (text ++ more).head? = some '-' := by
    intro hdash
    rw [List.head?_append, hdash]
    rfl
  have htwo (hdash : (text ++ more).head? = some '-')
      (hrest : (text ++ more).drop 1 = rest ++ more) :
      text.head? = some '-' ∧ text.drop 1 = rest := by
    cases text with
    | nil =>
        have hlength := congrArg List.length hrest
        cases more <;> simp at hlength hdash
        omega
    | cons d text => exact ⟨hdash, List.append_cancel_right hrest⟩
  rw [scanToken] at hscan ⊢
  by_cases hneck : c = ':' ∧ (text ++ more).head? = some '-'
  · rw [if_pos hneck] at hscan
    obtain ⟨rfl, rfl, hrest⟩ := Scan.mk.inj (Except.ok.inj hscan)
    obtain ⟨hdash, hdrop⟩ := htwo hneck.2 hrest
    rw [if_pos ⟨hneck.1, hdash⟩, hdrop]
  rw [if_neg hneck] at hscan
  rw [if_neg fun hsame => hneck (hsame.imp_right hhead)]
  by_cases hquery : c = '?' ∧ (text ++ more).head? = some '-'
  · rw [if_pos hquery] at hscan
    obtain ⟨rfl, rfl, hrest⟩ := Scan.mk.inj (Except.ok.inj hscan)
    obtain ⟨hdash, hdrop⟩ := htwo hquery.2 hrest
    rw [if_pos ⟨hquery.1, hdash⟩, hdrop]
  rw [if_neg hquery] at hscan
  rw [if_neg fun hsame => hquery (hsame.imp_right hhead)]
  cases hmark : Symbol.ofChar? c with
  | some mark =>
      rw [hmark] at hscan
      obtain ⟨rfl, rfl, hrest⟩ := Scan.mk.inj (Except.ok.inj hscan)
      rw [List.append_cancel_right hrest]
  | none =>
      rw [hmark] at hscan
      dsimp only at hscan ⊢
      by_cases hquote : c = '"'
      · rw [if_pos hquote] at hscan ⊢
        split at hscan
        · next found hfound =>
            rw [Except.ok.inj hscan] at hfound
            rw [scanString_cut hfound]
        · cases hscan
      rw [if_neg hquote] at hscan ⊢
      by_cases hdigit : c.isDigit = true
      · rw [if_pos hdigit] at hscan ⊢
        rw [scanNumber_cut (Except.ok.inj hscan)]
      rw [if_neg hdigit] at hscan ⊢
      by_cases hlower : c.isLower = true
      · rw [if_pos hlower] at hscan ⊢
        rw [scanWord_cut (Except.ok.inj hscan)]
      rw [if_neg hlower] at hscan ⊢
      by_cases hstart : c.isUpper = true ∨ c = '_'
      · rw [if_pos hstart] at hscan ⊢
        rw [scanWord_cut (Except.ok.inj hscan)]
      · rw [if_neg hstart] at hscan
        cases hscan

/-- Only blanks and comments stand in a text. -/
def IsLayout (text : List Char) : Prop :=
  ∀ position, (skipLayout false position text).rest = []

/-- No blank or comment stands in front of a text. -/
def StartsToken (text : List Char) : Prop :=
  ∀ position, skipLayout false position text = ⟨position, text⟩

theorem startsToken_skipLayout (inComment : Bool) (position : Position) (text : List Char) :
    StartsToken (skipLayout inComment position text).rest := by
  induction text generalizing inComment position with
  | nil => exact fun _ => rfl
  | cons c text ih =>
      rw [skipLayout]
      split
      · exact ih _ _
      split
      · exact ih _ _
      split
      · exact ih _ _
      · next hblank hopen =>
          intro other
          rw [skipLayout, if_neg Bool.false_ne_true, if_neg hblank, if_neg hopen]

/-- Every text is some layout and what starts with a token behind it. -/
theorem exists_layout (text : List Char) :
    ∃ layout behind, text = layout ++ behind ∧ IsLayout layout ∧ StartsToken behind ∧
      ∀ position : Position,
        skipLayout false position text = ⟨position.afterAll layout, behind⟩ := by
  obtain ⟨layout, htext, _⟩ := skipLayout_spelled false Position.start text
  have hstarts := startsToken_skipLayout false Position.start text
  have hrest (position : Position) := skipLayout_rest false position Position.start text
  generalize (skipLayout false Position.start text).rest = behind at *
  have hskip (position : Position) :
      skipLayout false position text = ⟨position.afterAll layout, behind⟩ := by
    obtain ⟨other, hother, hlast⟩ := skipLayout_spelled false position text
    rw [hrest, htext] at hother
    obtain rfl := List.append_cancel_right hother
    rw [← hlast, ← hrest position]
  refine ⟨layout, behind, htext, fun position => ?_, hstarts, hskip⟩
  have hcut : skipLayout false position (layout ++ behind) =
      ⟨position.afterAll layout, [] ++ behind⟩ := by
    rw [← htext, hskip]
    rfl
  rw [skipLayout_cut hcut]

/-- A text that starts with blanks and comments is scanned from where these end. -/
theorem Tokens.scan_skipLayout (position : Position) (text : List Char) :
    Tokens.scan (skipLayout false position text).position (skipLayout false position text).rest =
      Tokens.scan position text := by
  rw [scan_eq position, scan_eq (skipLayout false position text).position,
    startsToken_skipLayout false position text]

theorem Tokens.toList?_scan_of_ok {position : Position} {text rest : List Char} {c : Char}
    {scan : Scan} (hskip : (skipLayout false position text).rest = c :: rest)
    (hscan : ∀ cursor, scanToken cursor c rest = .ok scan) :
    (Tokens.scan position text).toList? =
      (Tokens.scan position scan.rest).toList?.map (scan.token :: ·) := by
  rw [scan_eq, hskip]
  simp only [hscan]
  exact congrArg (Option.map (scan.token :: ·)) (toList?_scan _ _ _)

/-- The token in view is written behind some blanks and comments, and the scan goes
on behind its spelling.  It would be scanned also if the text ended there or
later. -/
theorem Tokens.exists_of_scan_next {position place : Position} {text : List Char} {token : Token}
    {rest : Tokens} (hscan : Tokens.scan position text = .next token place rest) :
    ∃ spelling behind, skipLayout false position text = ⟨place, spelling ++ behind⟩ ∧
      token.SpelledBy spelling ∧ rest = Tokens.scan (place.afterAll spelling) behind ∧
      ∀ layout before after other, text = layout ++ (spelling ++ behind) →
        behind = before ++ after →
        (Tokens.scan other (layout ++ (spelling ++ before))).toList? =
          (Tokens.scan other before).toList?.map (token :: ·) := by
  rw [scan_eq] at hscan
  split at hscan
  · cases hscan
  next c chars hchars =>
  split at hscan
  · cases hscan
  next found hfound =>
  obtain ⟨token, spelling, behind⟩ := found
  cases hscan
  obtain ⟨hspelled, hspelling⟩ := scanToken_spelled hfound
  obtain ⟨first, spelling, rfl⟩ := List.exists_cons_of_ne_nil hspelled.ne_nil
  obtain ⟨rfl, rfl⟩ := List.cons.inj (List.cons_append.symm.trans hspelling)
  have hcursor : skipLayout false position text =
      ⟨(skipLayout false position text).position, first :: spelling ++ behind⟩ :=
    congrArg (Cursor.mk _) hchars
  refine ⟨first :: spelling, behind, hcursor, hspelled, rfl, ?_⟩
  rintro layout before after other htext rfl
  have hskip : skipLayout false position (layout ++ (first :: spelling ++ before) ++ after) =
      ⟨(skipLayout false position text).position, (first :: spelling ++ before) ++ after⟩ := by
    rw [List.append_assoc, List.append_assoc, ← htext]
    exact hcursor
  have hrest := congrArg Cursor.rest (skipLayout_cut hskip)
  rw [skipLayout_rest false position other] at hrest
  have hcut : scanToken (skipLayout false position text) first ((spelling ++ before) ++ after) =
      .ok ⟨token, first :: spelling, before ++ after⟩ := by
    rw [List.append_assoc]
    exact hfound
  exact toList?_scan_of_ok hrest fun cursor => scanToken_cut cursor hcut

/-- Tokens that are passed are those in front of some place, where the next token
stands or the text ends. -/
theorem Tokens.Passes.exists_split {position : Position} {text : List Char}
    {passed : List Token} {left : Tokens}
    (hpasses : (Tokens.scan position text).Passes passed left) :
    ∃ before after, text = before ++ after ∧ StartsToken after ∧
      left = Tokens.scan (position.afterAll before) after ∧
      ∀ other, (Tokens.scan other before).toList? = some passed := by
  induction passed generalizing position text with
  | nil =>
      obtain ⟨layout, behind, htext, hlayout, hstarts, hskip⟩ := exists_layout text
      refine ⟨layout, behind, htext, hstarts, ?_, fun other => ?_⟩
      · rw [hpasses.eq_of_nil, ← scan_skipLayout, hskip]
      · rw [scan_eq, hlayout other]
        rfl
  | cons token more ih =>
      generalize htokens : Tokens.scan position text = tokens at hpasses
      cases hpasses with
      | next hunbroken hpasses =>
      obtain ⟨spelling, behind, hskip, _, rfl, hcut⟩ := exists_of_scan_next htokens
      obtain ⟨layout, htext, hplace⟩ := skipLayout_spelled false position text
      rw [hskip] at htext hplace
      dsimp only at htext hplace
      obtain ⟨before, after, rfl, hstarts, rfl, hbefore⟩ := ih hpasses
      refine ⟨layout ++ (spelling ++ before), after, ?_, hstarts, ?_, fun other => ?_⟩
      · simpa using htext
      · rw [hplace, Position.afterAll_append, Position.afterAll_append]
      · rw [hcut layout before after other htext rfl, hbefore other]
        rfl

/-- A scan is done where only layout is left. -/
theorem Tokens.skipLayout_of_scan_done {position place : Position} {text : List Char}
    (hscan : Tokens.scan position text = .done place) :
    skipLayout false position text = ⟨place, []⟩ := by
  rw [scan_eq] at hscan
  split at hscan
  · next hrest =>
      cases hscan
      exact congrArg (Cursor.mk _) hrest
  next c rest hrest =>
  split at hscan <;> cases hscan

theorem Tokens.position_scan {position : Position} {text : List Char}
    (hunbroken : (Tokens.scan position text).isBroken = false) :
    (Tokens.scan position text).position = (skipLayout false position text).position := by
  rw [scan_eq] at hunbroken ⊢
  split
  · rfl
  next c rest hrest =>
  rw [hrest] at hunbroken
  dsimp only at hunbroken
  split at hunbroken
  · cases hunbroken
  · rfl

/-- A text ends at the place behind its characters. -/
theorem Tokens.Passes.position_eq {text : List Char} {passed : List Token} {position : Position}
    (hpasses : (Tokens.scan Position.start text).Passes passed (.done position)) :
    position = Position.of text := by
  obtain ⟨before, after, rfl, hstarts, hdone, _⟩ := hpasses.exists_split
  have hskip := skipLayout_of_scan_done hdone.symm
  rw [hstarts] at hskip
  obtain ⟨rfl, rfl⟩ := Cursor.mk.inj hskip
  rw [List.append_nil, Position.afterAll_start]

end Horn
