/-
Plain terms: variables, identifiers, finite numbers, lists and facts with
identifiers as functors.  Without variables their texts can be read back, so
that two of them have the same text exactly if they are the same tree.
-/
import Horn.Proofs.Binding
import Horn.Source.Lexer

namespace Horn

/-- An atom or functor as it is scanned: a small letter, then word characters. -/
def isIdentifier (text : String) : Bool :=
  match text.toList with
  | [] => false
  | first :: rest => first.isLower && rest.all isWordChar

/-- Whether a float is a number that can be written out in digits. -/
def isFinite (value : Float) : Bool :=
  match magnitude value with
  | .zero => true
  | .finite _ => true
  | .infinite => false
  | .notANumber => false

inductive Term.Plain : Term → Prop
  | var (name : Var) : Plain (.var name)
  | atom {text : String} (htext : isIdentifier text = true) : Plain (.atom text)
  | num {value : Float} (hvalue : isFinite value = true) : Plain (.num value)
  | emptyList : Plain .emptyList
  | cell {first second : Term} (hfirst : Plain first) (hsecond : Plain second) :
      Plain (.fact listFunctor [first, second])
  | compound {functor : String} {first : Term} {more : List Term}
      (hfunctor : isIdentifier functor = true) (hargs : ∀ arg ∈ first :: more, Plain arg) :
      Plain (.fact functor (first :: more))

namespace Term

theorem Plain.of_mem {functor : String} {args : List Term}
    (hplain : (Term.fact functor args).Plain) : ∀ arg ∈ args, arg.Plain := by
  cases hplain with
  | emptyList => simp
  | cell hfirst hsecond =>
      intro arg harg
      rcases List.mem_pair.mp harg with rfl | rfl
      · exact hfirst
      · exact hsecond
  | compound _ hargs => exact hargs

theorem argClosed_plain : ArgClosed Plain :=
  fun _ _ hplain => hplain.of_mem

theorem Plain.subst {image : Var → Term} {term : Term} (hterm : term.Plain)
    (himage : ∀ name ∈ term.occurrences, (image name).Plain) : (term.subst image).Plain := by
  induction hterm with
  | var name => exact himage name (by simp)
  | atom htext => exact .atom htext
  | num hvalue => exact .num hvalue
  | emptyList => exact .emptyList
  | cell _ _ ihFirst ihSecond =>
      refine .cell (ihFirst fun name hname => ?_) (ihSecond fun name hname => ?_)
      · exact himage name (mem_occurrences_fact.mpr ⟨_, by simp, hname⟩)
      · exact himage name (mem_occurrences_fact.mpr ⟨_, by simp, hname⟩)
  | @compound functor first more hfunctor hargs ih =>
      rw [Term.subst, substAll_eq_map, List.map_cons]
      refine .compound hfunctor fun arg harg => ?_
      rw [← List.map_cons] at harg
      obtain ⟨source, hsource, rfl⟩ := List.mem_map.mp harg
      exact ih source hsource fun name hname =>
        himage name (mem_occurrences_fact.mpr ⟨source, hsource, hname⟩)

end Term

/-- Characters inside an identifier or a number. -/
def isTextChar (c : Char) : Bool :=
  isWordChar c || c = '.' || c = '-'

theorem isTextChar_of_isWordChar {c : Char} (hc : isWordChar c = true) : isTextChar c = true := by
  simp [isTextChar, hc]

theorem isWordChar_of_isDigit {c : Char} (hc : c.isDigit = true) : isWordChar c = true := by
  simp [isWordChar, Char.isAlphanum, hc]

theorem isTextChar_of_isDigit {c : Char} (hc : c.isDigit = true) : isTextChar c = true :=
  isTextChar_of_isWordChar (isWordChar_of_isDigit hc)

theorem isLower_of_isDigit {c : Char} (hc : c.isDigit = true) : c.isLower = false := by
  simp only [Char.isDigit, Bool.and_eq_true, decide_eq_true_eq] at hc
  have hle : c.val.toNat ≤ 57 := UInt32.le_iff_toNat_le.mp hc.2
  have hlow : ¬ c.val ≥ 'a'.val := by
    intro hge
    have hge : 97 ≤ c.val.toNat := UInt32.le_iff_toNat_le.mp hge
    omega
  change (decide (c.val ≥ 'a'.val) && decide (c.val ≤ 'z'.val)) = false
  rw [decide_eq_false hlow, Bool.false_and]

/-- The first characters of numbers. -/
def isNumberStart (c : Char) : Bool :=
  c.isDigit || c = '-'

theorem isLower_of_isNumberStart {c : Char} (hc : isNumberStart c = true) : c.isLower = false := by
  rw [isNumberStart, Bool.or_eq_true, decide_eq_true_eq] at hc
  rcases hc with hc | rfl
  · exact isLower_of_isDigit hc
  · decide

/-- Characters that a number may start with, followed by others. -/
structure Numeral (text : List Char) : Prop where
  chars : ∀ c ∈ text, isTextChar c = true
  start : ∃ first rest, text = first :: rest ∧ isNumberStart first = true

theorem Numeral.append {text more : List Char} (htext : Numeral text)
    (hmore : ∀ c ∈ more, isTextChar c = true) : Numeral (text ++ more) := by
  obtain ⟨first, rest, rfl, hfirst⟩ := htext.start
  refine ⟨fun c hc => ?_, first, rest ++ more, rfl, hfirst⟩
  rcases List.mem_append.mp hc with hc | hc
  · exact htext.chars c hc
  · exact hmore c hc

/-- The pieces of a number that are written as they stand. -/
theorem numeral_minus : Numeral ['-'] :=
  ⟨List.all_eq_true.mp (by decide), '-', [], rfl, by decide⟩

theorem numeral_zeroPoint : Numeral ['0', '.'] :=
  ⟨List.all_eq_true.mp (by decide), '0', ['.'], rfl, by decide⟩

theorem numeral_zero : Numeral ['0', '.', '0'] :=
  ⟨List.all_eq_true.mp (by decide), '0', ['.', '0'], rfl, by decide⟩

theorem numeral_of_digits {digits : List Char} (hdigits : ∀ c ∈ digits, c.isDigit = true)
    (hne : digits ≠ []) : Numeral digits := by
  obtain ⟨first, rest, rfl⟩ := List.exists_cons_of_ne_nil hne
  have hfirst : first.isDigit = true := hdigits first List.mem_cons_self
  exact ⟨fun c hc => isTextChar_of_isDigit (hdigits c hc), first, rest, rfl,
    by simp [isNumberStart, hfirst]⟩

theorem isDigit_of_mem_digits {n : Nat} {c : Char} (hc : c ∈ Nat.toDigits 10 n) :
    c.isDigit = true :=
  Nat.isDigit_of_mem_toDigits (by decide) (by decide) hc

theorem isTextChar_of_mem_digits {n : Nat} {c : Char} (hc : c ∈ Nat.toDigits 10 n) :
    isTextChar c = true :=
  isTextChar_of_isDigit (isDigit_of_mem_digits hc)

theorem isTextChar_of_mem_zeros {count : Nat} {c : Char} (hc : c ∈ (zeros count).toList) :
    isTextChar c = true := by
  rw [zeros, String.toList_ofList] at hc
  rw [List.eq_of_mem_replicate hc]
  decide

theorem isTextChar_of_mem_int {n : Int} {c : Char} (hc : c ∈ (toString n).toList) :
    isTextChar c = true := by
  cases n with
  | ofNat n =>
      change c ∈ n.repr.toList at hc
      rw [Nat.toList_repr] at hc
      exact isTextChar_of_mem_digits hc
  | negSucc n =>
      change c ∈ ("-" ++ (n + 1).repr).toList at hc
      rw [String.toList_append, Nat.toList_repr, List.mem_append] at hc
      rcases hc with hc | hc
      · rw [List.mem_singleton.mp hc]
        decide
      · exact isTextChar_of_mem_digits hc

theorem numeral_positional (decimal : Decimal) :
    Numeral (decimal.positional .term).toList := by
  have hdigits : ∀ c ∈ Nat.toDigits 10 decimal.digits, c.isDigit = true :=
    fun c hc => isDigit_of_mem_digits hc
  simp only [Decimal.positional, Layout.term]
  split
  · simp only [String.toList_append, String.toList_ofList, if_true, List.append_assoc]
    apply (numeral_of_digits hdigits Nat.toDigits_ne_nil).append
    intro c hc
    rcases List.mem_append.mp hc with hc | hc
    · exact isTextChar_of_mem_zeros hc
    · rcases List.mem_pair.mp hc with rfl | rfl <;> decide
  · split
    · next hplaces =>
        simp only [String.toList_append, String.toList_ofList, List.append_assoc]
        refine (numeral_of_digits (fun c hc => hdigits c (List.mem_of_mem_take hc)) ?_).append
          fun c hc => ?_
        · intro hnil
          have hlength := congrArg List.length hnil
          simp only [List.length_take, List.length_nil] at hlength
          omega
        · rcases List.mem_append.mp hc with hc | hc
          · rw [List.mem_singleton.mp hc]
            decide
          · exact isTextChar_of_mem_digits (List.mem_of_mem_drop hc)
    · simp only [String.toList_append, String.toList_ofList, List.append_assoc]
      apply numeral_zeroPoint.append
      intro c hc
      rcases List.mem_append.mp hc with hc | hc
      · exact isTextChar_of_mem_zeros hc
      · exact isTextChar_of_mem_digits hc

theorem numeral_scientific (decimal : Decimal) :
    Numeral (decimal.scientific .term).toList := by
  simp only [Decimal.scientific, String.toList_append, String.toList_ofList, List.append_assoc]
  refine (numeral_of_digits (fun c hc => isDigit_of_mem_digits (List.mem_of_mem_take hc))
    ?_).append fun c hc => ?_
  · intro hnil
    rcases List.take_eq_nil_iff.mp hnil with hzero | hdigits
    · cases hzero
    · exact Nat.toDigits_ne_nil hdigits
  · simp only [List.mem_append] at hc
    rcases hc with hc | hc | hc | hc
    · split at hc
      · simp at hc
      · simp only [String.toList_append, String.toList_ofList, List.mem_append] at hc
        rcases hc with hc | hc
        · rw [List.mem_singleton.mp hc]
          decide
        · exact isTextChar_of_mem_digits (List.mem_of_mem_drop hc)
    · rw [List.mem_singleton.mp hc]
      decide
    · split at hc <;> simp [Layout.term] at hc
    · exact isTextChar_of_mem_int hc

theorem numeral_numberText {value : Float} (hvalue : isFinite value = true) :
    Numeral (numberText value).toList := by
  have hsigned : ∀ text : String, Numeral text.toList →
      Numeral ((if isNegative value then "-" else "") ++ text).toList := by
    intro text htext
    rw [String.toList_append]
    split
    · exact numeral_minus.append htext.chars
    · exact htext
  rw [isFinite] at hvalue
  rw [numberText, Layout.write]
  cases hmagnitude : magnitude value with
  | zero => exact hsigned _ numeral_zero
  | finite binary =>
      refine hsigned _ ?_
      rw [Decimal.render]
      split
      · exact numeral_positional _
      · exact numeral_scientific _
  | infinite => simp [hmagnitude] at hvalue
  | notANumber => simp [hmagnitude] at hvalue

/-- Whether a text has come to the end of an identifier or a number, and no
arguments follow. -/
def Stopped (text : List Char) : Prop :=
  ∀ c ∈ text.head?, isTextChar c = false ∧ c ≠ '('

/-- What follows an opening parenthesis, a comma or a bar, and where it ends. -/
structure Readers where
  tree : List Char → Option (Tree × List Char)
  tail : List Char → Option (Tree × List Char)
  more : List Char → Option (List Tree × List Char)

namespace Readers

/-- One more level of nesting. -/
def next (inner : Readers) : Readers where
  tree text :=
    match text with
    | '[' :: ']' :: rest => some (.node listFunctor [], rest)
    | '[' :: rest => do
        let (first, rest) ← inner.tree rest
        let (second, rest) ← inner.tail rest
        some (.node listFunctor [first, second], rest)
    | _ =>
        let word := text.takeWhile isTextChar
        match text.drop word.length with
        | '(' :: rest => do
            let (first, rest) ← inner.tree rest
            let (more, rest) ← inner.more rest
            some (.node (String.ofList word) (first :: more), rest)
        | rest =>
            some (if word.head?.any Char.isLower then .text (String.ofList word)
              else .number (String.ofList word), rest)
  tail text :=
    match text with
    | ']' :: rest => some (.node listFunctor [], rest)
    | ',' :: rest => do
        let (first, rest) ← inner.tree rest
        let (second, rest) ← inner.tail rest
        some (.node listFunctor [first, second], rest)
    | '|' :: rest => do
        let (last, rest) ← inner.tree rest
        some (last, rest.drop 1)
    | _ => none
  more text :=
    match text with
    | ')' :: rest => some ([], rest)
    | ',' :: rest => do
        let (first, rest) ← inner.tree rest
        let (more, rest) ← inner.more rest
        some (first :: more, rest)
    | _ => none

/-- Readers to some nesting. -/
def upTo : Nat → Readers
  | 0 => ⟨fun _ => none, fun _ => none, fun _ => none⟩
  | fuel + 1 => next (upTo fuel)

end Readers

/-- A word reaches up to the first character of another class. -/
theorem takeWhile_word {isInside : Char → Bool} {word rest : List Char}
    (hword : ∀ c ∈ word, isInside c = true) (hrest : ∀ c ∈ rest.head?, isInside c = false) :
    (word ++ rest).takeWhile isInside = word := by
  rw [List.takeWhile_append_of_pos hword]
  cases rest with
  | nil => simp
  | cons c rest => simp [List.takeWhile, hrest c rfl]

namespace Readers

/-- A word that no arguments follow is an identifier or a number. -/
theorem tree_word (inner : Readers) {first : Char} {word rest : List Char}
    (hword : ∀ c ∈ first :: word, isTextChar c = true) (hrest : Stopped rest) :
    (next inner).tree (first :: word ++ rest) =
      some (if first.isLower then .text (String.ofList (first :: word))
        else .number (String.ofList (first :: word)), rest) := by
  have hfirst : first ≠ '[' := by
    rintro rfl
    exact absurd (hword _ List.mem_cons_self) (by decide)
  have hspan : (first :: word ++ rest).takeWhile isTextChar = first :: word :=
    takeWhile_word hword fun c hc => (hrest c hc).1
  have hdrop : (first :: word ++ rest).drop (first :: word).length = rest := List.drop_left
  simp only [next]
  split
  · next heq => exact absurd (List.cons.inj heq).1 hfirst
  · next heq => exact absurd (List.cons.inj heq).1 hfirst
  · simp only [hspan, hdrop]
    split
    · exact absurd rfl (hrest '(' rfl).2
    · simp only [List.head?_cons, Option.any_some]
      rfl

/-- A word with arguments after it. -/
theorem tree_compound (inner : Readers) {first : Char} {word : List Char}
    (hword : ∀ c ∈ first :: word, isTextChar c = true) (rest : List Char) :
    (next inner).tree (first :: word ++ '(' :: rest) = (do
      let (head, rest) ← inner.tree rest
      let (more, rest) ← inner.more rest
      some (.node (String.ofList (first :: word)) (head :: more), rest)) := by
  have hfirst : first ≠ '[' := by
    rintro rfl
    exact absurd (hword _ List.mem_cons_self) (by decide)
  have hspan : (first :: word ++ '(' :: rest).takeWhile isTextChar = first :: word :=
    takeWhile_word hword (by simp; decide)
  have hdrop : (first :: word ++ '(' :: rest).drop (first :: word).length = '(' :: rest :=
    List.drop_left
  simp only [next]
  split
  · next heq => exact absurd (List.cons.inj heq).1 hfirst
  · next heq => exact absurd (List.cons.inj heq).1 hfirst
  · simp only [hspan, hdrop]

end Readers

theorem isIdentifier_chars {text : String} (htext : isIdentifier text = true) :
    ∃ first rest, text.toList = first :: rest ∧ first.isLower = true ∧
      ∀ c ∈ first :: rest, isTextChar c = true := by
  rw [isIdentifier] at htext
  cases hchars : text.toList with
  | nil => simp [hchars] at htext
  | cons first rest =>
      simp only [hchars, Bool.and_eq_true, List.all_eq_true] at htext
      refine ⟨first, rest, rfl, htext.1, fun c hc => isTextChar_of_isWordChar ?_⟩
      rcases List.mem_cons.mp hc with rfl | hc
      · exact isWordChar_of_isLower htext.1
      · exact htext.2 c hc

theorem ne_listFunctor_of_isIdentifier {functor : String}
    (hfunctor : isIdentifier functor = true) : functor ≠ listFunctor := by
  rintro rfl
  exact absurd hfunctor (by decide)

namespace Term

theorem renderAt_cell (first second : Term) (inTail : Bool) :
    (Term.fact listFunctor [first, second]).renderAt inTail =
      (if inTail then "," else "[") ++ first.renderAt false ++ second.renderAt true ++
        (if inTail then "" else "]") := by
  rw [renderAt, if_pos rfl]

/-- What is neither a list cell nor without arguments. -/
theorem renderAt_args {functor : String} {more : List Term}
    (hlist : functor = listFunctor → more.length ≠ 1) (first : Term) (inTail : Bool) :
    (Term.fact functor (first :: more)).renderAt inTail =
      (if inTail then "|" else "") ++ functor ++ "(" ++ first.renderAt false ++
        renderMore more ++ ")" := by
  match more with
  | [] => rw [renderAt]; simp
  | [second] =>
      rw [renderAt, if_neg fun heq => hlist heq rfl]
      simp only [renderMore, String.append_assoc, String.append_empty]
  | _ :: _ :: _ => rw [renderAt]; simp

theorem renderAt_compound {functor : String} (hfunctor : functor ≠ listFunctor) (first : Term)
    (more : List Term) (inTail : Bool) :
    (Term.fact functor (first :: more)).renderAt inTail =
      (if inTail then "|" else "") ++ functor ++ "(" ++ first.renderAt false ++
        renderMore more ++ ")" :=
  renderAt_args (fun heq => absurd heq hfunctor) first inTail

/-- In the tail of a list, what is no list stands behind a bar. -/
theorem renderAt_tail (term : Term) :
    term = .emptyList ∨ (∃ first second, term = .fact listFunctor [first, second]) ∨
      term.renderAt true = "|" ++ term.renderAt false := by
  match term with
  | .var _ | .atom _ | .num _ => exact Or.inr (Or.inr (by simp [renderAt]))
  | .str _ =>
      refine Or.inr (Or.inr ?_)
      simp only [renderAt, if_true, Bool.false_eq_true, if_false, String.append_assoc,
        String.empty_append]
  | .fact functor [] =>
      by_cases hlist : functor = listFunctor
      · exact Or.inl (by rw [hlist]; rfl)
      · exact Or.inr (Or.inr (by simp [renderAt, hlist]))
  | .fact functor [first, second] =>
      by_cases hlist : functor = listFunctor
      · exact Or.inr (Or.inl ⟨first, second, by rw [hlist]⟩)
      · exact Or.inr (Or.inr (by simp [renderAt, hlist, String.append_assoc]))
  | .fact functor [first] => exact Or.inr (Or.inr (by simp [renderAt, String.append_assoc]))
  | .fact functor (first :: _ :: _ :: _) =>
      exact Or.inr (Or.inr (by simp [renderAt, String.append_assoc]))

end Term

theorem stopped_cons {c : Char} {rest : List Char} (hc : isTextChar c = false) (hne : c ≠ '(') :
    Stopped (c :: rest) := by
  intro d hd
  rw [List.head?_cons, Option.mem_some] at hd
  rw [← hd]
  exact ⟨hc, hne⟩

theorem stopped_nil : Stopped [] := by
  simp [Stopped]

theorem Term.renderMore_cons (term : Term) (terms : List Term) (rest : List Char) :
    (Term.renderMore (term :: terms)).toList ++ rest =
      ',' :: ((term.renderAt false).toList ++ ((Term.renderMore terms).toList ++ rest)) := by
  simp only [Term.renderMore, String.toList_append, List.append_assoc]
  rfl

/-- A text that starts with one of the marks that stand behind a term. -/
def Separated (text : List Char) : Prop :=
  ∃ mark ∈ [')', ']', ',', '|'], text.head? = some mark

theorem Separated.head {text : List Char} (htext : Separated text) {holds : Char → Prop}
    (hmarks : ∀ mark ∈ [')', ']', ',', '|'], holds mark) : ∀ c ∈ text.head?, holds c := by
  obtain ⟨mark, hmark, hhead⟩ := htext
  intro c hc
  rw [hhead, Option.mem_some] at hc
  exact hc ▸ hmarks mark hmark

theorem Separated.stopped {text : List Char} (htext : Separated text) : Stopped text :=
  htext.head (by simp; decide)

/-- The text of further arguments starts with a comma, or there is none. -/
theorem separated_more (terms : List Term) (rest : List Char) :
    Separated ((Term.renderMore terms).toList ++ ')' :: rest) := by
  cases terms with
  | nil => exact ⟨')', by simp, rfl⟩
  | cons term terms => exact ⟨',', by simp, by rw [Term.renderMore_cons]; rfl⟩

/-- The text of a list's tail starts with a comma or a bar, or there is none. -/
theorem separated_tail (term : Term) (rest : List Char) :
    Separated ((term.renderAt true).toList ++ ']' :: rest) := by
  rcases term.renderAt_tail with rfl | ⟨first, second, rfl⟩ | htail
  · exact ⟨']', by simp, rfl⟩
  · refine ⟨',', by simp, ?_⟩
    simp only [Term.renderAt_cell, String.toList_append, List.append_assoc]
    rfl
  · refine ⟨'|', by simp, ?_⟩
    simp only [htail, String.toList_append, List.append_assoc]
    rfl

theorem ne_of_isTextChar {c d : Char} (hc : isTextChar c = true) (hd : isTextChar d = false) :
    c ≠ d := by
  rintro rfl
  rw [hd] at hc
  cases hc

/-- The text of a term is not empty and cannot be taken for the end of a list. -/
theorem Term.Plain.text_start {term : Term} (hplain : term.Plain)
    (hground : term.isGround = true) :
    ∃ first rest, (term.renderAt false).toList = first :: rest ∧ first ≠ ']' := by
  cases hplain with
  | var name => simp [Term.isGround, Term.occurrences] at hground
  | atom htext =>
      obtain ⟨first, word, hchars, _, hword⟩ := isIdentifier_chars htext
      refine ⟨first, word, ?_, ne_of_isTextChar (hword first List.mem_cons_self) (by decide)⟩
      simpa [Term.renderAt] using hchars
  | num hvalue =>
      have hnumeral := numeral_numberText hvalue
      obtain ⟨first, word, hchars, _⟩ := hnumeral.start
      have hfirst := hnumeral.chars first (hchars ▸ List.mem_cons_self)
      refine ⟨first, word, ?_, ne_of_isTextChar hfirst (by decide)⟩
      simpa [Term.renderAt] using hchars
  | emptyList => exact ⟨'[', [']'], rfl, by decide⟩
  | cell _ _ =>
      simp only [Term.renderAt_cell, String.toList_append, List.append_assoc]
      exact ⟨'[', _, rfl, by decide⟩
  | compound hfunctor _ =>
      obtain ⟨first, word, hchars, _, hword⟩ := isIdentifier_chars hfunctor
      rw [Term.renderAt_compound (ne_listFunctor_of_isIdentifier hfunctor)]
      simp only [String.toList_append, List.append_assoc, hchars]
      exact ⟨first, _, rfl, ne_of_isTextChar (hword first List.mem_cons_self) (by decide)⟩

namespace Readers

/-- What a reader makes of the text of a term that stands in front of others. -/
structure Reads (valuation : Valuation) (term : Term) : Prop where
  tree : ∀ fuel rest, term.size ≤ fuel → Stopped rest →
    (upTo fuel).tree ((term.renderAt false).toList ++ rest) = some (term.eval valuation, rest)
  tail : ∀ fuel rest, term.size < fuel →
    (upTo fuel).tail ((term.renderAt true).toList ++ ']' :: rest) =
      some (term.eval valuation, rest)

/-- In the tail of a list a term that is no list is read after its bar. -/
theorem Reads.of_tree {valuation : Valuation} {term : Term}
    (htail : term.renderAt true = "|" ++ term.renderAt false)
    (htree : ∀ fuel rest, term.size ≤ fuel → Stopped rest →
      (upTo fuel).tree ((term.renderAt false).toList ++ rest) = some (term.eval valuation, rest)) :
    Reads valuation term := by
  refine ⟨htree, fun fuel rest hfuel => ?_⟩
  obtain ⟨fuel, rfl⟩ := Nat.exists_eq_add_of_lt hfuel
  have hlast := htree (term.size + fuel) (']' :: rest) (by omega)
    (stopped_cons (by decide) (by decide))
  rw [htail, String.toList_append, List.append_assoc]
  change (upTo (term.size + fuel + 1)).tail
    ('|' :: ((term.renderAt false).toList ++ ']' :: rest)) = _
  simp only [upTo, next, hlast, bind, Option.bind_some, List.drop_one, List.tail_cons]

theorem reads_more {valuation : Valuation} {terms : List Term}
    (hreads : ∀ term ∈ terms, Reads valuation term) (fuel : Nat)
    (hfuel : Term.sizeAll terms < fuel) (rest : List Char) :
    (upTo fuel).more ((Term.renderMore terms).toList ++ ')' :: rest) =
      some (terms.map (Term.eval valuation), rest) := by
  induction terms generalizing fuel with
  | nil =>
      obtain ⟨fuel, rfl⟩ := Nat.exists_eq_add_of_lt hfuel
      rfl
  | cons term terms ih =>
      obtain ⟨fuel, rfl⟩ := Nat.exists_eq_add_of_lt hfuel
      have hpos := term.size_pos
      rw [Term.sizeAll] at *
      have hterm := (hreads term List.mem_cons_self).tree
        (term.size + Term.sizeAll terms + fuel) _ (by omega) (separated_more terms rest).stopped
      have hterms := ih (fun other hother => hreads other (List.mem_cons_of_mem _ hother))
        (term.size + Term.sizeAll terms + fuel) (by omega)
      rw [Term.renderMore_cons]
      simp only [upTo, next, hterm, hterms, bind, Option.bind_some, List.map_cons]

section Plain

variable {valuation : Valuation}

theorem reads_atom {text : String} (htext : isIdentifier text = true) :
    Reads valuation (.atom text) := by
  obtain ⟨first, word, hchars, hlower, hword⟩ := isIdentifier_chars htext
  refine .of_tree (by simp [Term.renderAt]) fun fuel rest hfuel hrest => ?_
  obtain ⟨fuel, rfl⟩ := Nat.exists_eq_add_of_le' hfuel
  have hread := tree_word (upTo fuel) hword hrest
  rw [← hchars, String.ofList_toList, if_pos hlower] at hread
  simpa [Term.renderAt, Term.eval, Term.size, upTo] using hread

theorem reads_num {value : Float} (hvalue : isFinite value = true) :
    Reads valuation (.num value) := by
  have hnumeral := numeral_numberText hvalue
  obtain ⟨first, word, hchars, hstart⟩ := hnumeral.start
  have hlower := isLower_of_isNumberStart hstart
  refine .of_tree (by simp [Term.renderAt]) fun fuel rest hfuel hrest => ?_
  obtain ⟨fuel, rfl⟩ := Nat.exists_eq_add_of_le' hfuel
  have hread := tree_word (upTo fuel) (hchars ▸ hnumeral.chars) hrest
  rw [← hchars, String.ofList_toList, hlower, if_neg Bool.false_ne_true] at hread
  simpa [Term.renderAt, Term.eval, Term.size, upTo] using hread

theorem reads_emptyList : Reads valuation .emptyList := by
  constructor
  · intro fuel rest hfuel _
    obtain ⟨fuel, rfl⟩ := Nat.exists_eq_add_of_le' hfuel
    rfl
  · intro fuel rest hfuel
    obtain ⟨fuel, rfl⟩ := Nat.exists_eq_add_of_lt hfuel
    rfl

/-- What stands between the brackets of a list is read the same in the tail of a
list. -/
theorem reads_cell {first second : Term} (hplain : first.Plain) (hground : first.isGround = true)
    (hreadFirst : Reads valuation first) (hreadSecond : Reads valuation second) :
    Reads valuation (.fact listFunctor [first, second]) := by
  have hsize : (Term.fact listFunctor [first, second]).size = 1 + first.size + second.size := by
    simp only [Term.size, Term.sizeAll]
    omega
  have hpos := first.size_pos
  -- the opening bracket or comma is past, and the same two parts are left to be read
  have hboth : ∀ fuel rest, first.size + second.size ≤ fuel →
      (do
        let (head, rest) ← (upTo fuel).tree ((first.renderAt false).toList ++
          ((second.renderAt true).toList ++ ']' :: rest))
        let (last, rest) ← (upTo fuel).tail rest
        some (Tree.node listFunctor [head, last], rest)) =
      some ((Term.fact listFunctor [first, second]).eval valuation, rest) := by
    intro fuel rest hfuel
    rw [hreadFirst.tree fuel _ (by omega) (separated_tail second rest).stopped]
    simp only [bind, Option.bind_some]
    rw [hreadSecond.tail fuel rest (by omega)]
    rw [Option.bind_some, Term.eval_fact, List.map_cons, List.map_cons, List.map_nil]
  constructor
  · intro fuel rest hfuel _
    rw [hsize] at hfuel
    obtain ⟨fuel, rfl⟩ := Nat.exists_eq_add_of_lt (Nat.lt_of_lt_of_le (by omega) hfuel :
      first.size + second.size < fuel)
    obtain ⟨start, word, hstart, hne⟩ := hplain.text_start hground
    have hread := hboth (first.size + second.size + fuel) rest (by omega)
    rw [Term.renderAt_cell]
    simp only [String.toList_append, List.append_assoc, Bool.false_eq_true, if_false]
    change (upTo _).tree ('[' :: ((first.renderAt false).toList ++
      ((second.renderAt true).toList ++ ']' :: rest))) = _
    rw [← hread, hstart]
    simp only [upTo, next, List.cons_append]
    split
    · next heq => exact absurd (List.cons.inj (List.cons.inj heq).2).1 hne
    · next heq =>
        rw [(List.cons.inj heq).2]
    · next hnot => exact absurd rfl (hnot _)
  · intro fuel rest hfuel
    rw [hsize] at hfuel
    obtain ⟨fuel, rfl⟩ := Nat.exists_eq_add_of_lt hfuel
    rw [Term.renderAt_cell, ← hboth (1 + first.size + second.size + fuel) rest (by omega)]
    simp only [String.toList_append, List.append_assoc]
    rfl

theorem reads_compound {functor : String} (hfunctor : isIdentifier functor = true) {first : Term}
    {more : List Term} (hreads : ∀ arg ∈ first :: more, Reads valuation arg) :
    Reads valuation (.fact functor (first :: more)) := by
  have hne := ne_listFunctor_of_isIdentifier hfunctor
  refine .of_tree ?_ fun fuel rest hfuel _ => ?_
  · rw [Term.renderAt_compound hne, Term.renderAt_compound hne]
    simp [String.append_assoc]
  obtain ⟨start, word, hchars, _, hword⟩ := isIdentifier_chars hfunctor
  simp only [Term.size, Term.sizeAll] at hfuel
  have hpos := first.size_pos
  obtain ⟨fuel, rfl⟩ := Nat.exists_eq_add_of_lt (Nat.lt_of_lt_of_le (by omega) hfuel :
    first.size + Term.sizeAll more < fuel)
  have hreadFirst := (hreads first List.mem_cons_self).tree
    (first.size + Term.sizeAll more + fuel) _ (by omega) (separated_more more rest).stopped
  have hreadMore := reads_more (fun arg harg => hreads arg (List.mem_cons_of_mem _ harg))
    (first.size + Term.sizeAll more + fuel) (by omega) rest
  have hread := tree_compound (upTo (first.size + Term.sizeAll more + fuel)) hword
    ((first.renderAt false).toList ++ ((Term.renderMore more).toList ++ ')' :: rest))
  simp only [hreadFirst, hreadMore, bind, Option.bind_some] at hread
  rw [← hchars, String.ofList_toList] at hread
  rw [Term.renderAt_compound hne, Term.eval_fact, List.map_cons]
  simp only [String.toList_append, List.append_assoc, upTo]
  exact hread

/-- The induction is on the way the term is built. -/
theorem reads_of_plain (valuation : Valuation) {term : Term} (hplain : term.Plain)
    (hground : term.isGround = true) : Reads valuation term := by
  induction hplain with
  | var name => simp [Term.isGround, Term.occurrences] at hground
  | atom htext => exact reads_atom htext
  | num hvalue => exact reads_num hvalue
  | emptyList => exact reads_emptyList
  | @cell first second hfirst _ ihFirst ihSecond =>
      have hargs := Term.isGround_fact.mp hground
      have hgroundFirst := hargs first (by simp)
      exact reads_cell hfirst hgroundFirst (ihFirst hgroundFirst)
        (ihSecond (hargs second (by simp)))
  | compound hfunctor _ ih =>
      have hargs := Term.isGround_fact.mp hground
      exact reads_compound hfunctor fun arg harg => ih arg harg (hargs arg harg)

end Plain

end Readers

namespace Term

theorem renderMore_congr {lefts rights : List Term}
    (hsame : lefts.Forall₂ (fun left right => left.renderAt false = right.renderAt false) rights) :
    renderMore lefts = renderMore rights := by
  induction hsame with
  | nil => rfl
  | cons hhead _ ih => rw [renderMore, renderMore, hhead, ih]

/-- The text of a fact is put together from those of its arguments. -/
theorem renderAt_fact_congr (functor : String) {lefts rights : List Term}
    (hsame : lefts.Forall₂ (fun left right => ∀ inTail,
      left.renderAt inTail = right.renderAt inTail) rights) (inTail : Bool) :
    (Term.fact functor lefts).renderAt inTail = (Term.fact functor rights).renderAt inTail := by
  cases hsame with
  | nil => rfl
  | cons hfirst hmore =>
      cases hmore with
      | nil => simp [renderAt, hfirst]
      | cons hsecond hmore =>
          cases hmore with
          | nil => simp only [renderAt, hfirst, hsecond]
          | cons hthird hmore =>
              have htexts := renderMore_congr (hmore.imp fun _ _ hboth => hboth false)
              simp only [renderAt, renderMore, hfirst, hsecond, hthird, htexts]

/-- Equal trees are written alike, since a plain leaf of a tree says whether it
is a number. -/
theorem Plain.renderAt_eq {valuation : Valuation} {left right : Term} (hleft : left.Plain)
    (hright : right.Plain) (hground : left.isGround = true) (hground' : right.isGround = true)
    (heq : left.eval valuation = right.eval valuation) (inTail : Bool) :
    left.renderAt inTail = right.renderAt inTail := by
  induction left generalizing right inTail with
  | var name => simp [isGround, occurrences] at hground
  | atom text =>
      cases right with
      | var name => simp [isGround, occurrences] at hground'
      | atom text' => rw [Tree.text.inj heq]
      | str text' => cases hright
      | _ => simp [Term.eval] at heq
  | str text => cases hleft
  | num value =>
      cases right with
      | var name => simp [isGround, occurrences] at hground'
      | num value' => rw [renderAt, renderAt, Tree.number.inj heq]
      | _ => simp [Term.eval] at heq
  | fact functor args ih =>
      cases right with
      | var name => simp [isGround, occurrences] at hground'
      | fact functor' args' =>
          rw [eval_fact, eval_fact, Tree.node.injEq] at heq
          obtain ⟨rfl, hargs⟩ := heq
          refine renderAt_fact_congr functor (List.forall₂_iff_get.mpr ⟨?_, ?_⟩) inTail
          · simpa using congrArg List.length hargs
          · intro place hplace hplace' inTail
            have hmem := List.getElem_mem hplace
            have hmem' := List.getElem_mem hplace'
            refine ih _ hmem (hleft.of_mem _ hmem) (hright.of_mem _ hmem')
              (isGround_fact.mp hground _ hmem) (isGround_fact.mp hground' _ hmem') ?_ inTail
            have hvalues := List.getElem_of_eq hargs (by simpa using hplace)
            simpa using hvalues
      | _ => simp [Term.eval] at heq

/-- Between plain terms without variables, comparing texts is comparing trees. -/
theorem Plain.sameText_iff {left right : Term} (hleft : left.Plain) (hright : right.Plain)
    (hground : left.isGround = true) (hground' : right.isGround = true) (valuation : Valuation) :
    left.sameText right = true ↔ left.eval valuation = right.eval valuation := by
  rw [Term.sameText_iff]
  constructor
  · rintro ⟨_, htext⟩
    have hreads := (Readers.reads_of_plain valuation hleft hground).tree (left.size + right.size)
      [] (Nat.le_add_right _ _) stopped_nil
    have hreads' := (Readers.reads_of_plain valuation hright hground').tree
      (left.size + right.size) [] (Nat.le_add_left _ _) stopped_nil
    rw [render, render] at htext
    rw [htext, hreads'] at hreads
    exact (Prod.mk.inj (Option.some.inj hreads)).1.symm
  · intro heq
    refine ⟨?_, hleft.renderAt_eq hright hground hground' heq false⟩
    cases left with
    | var name => simp [isGround, occurrences] at hground
    | str text => cases hleft
    | _ =>
        cases right with
        | var name => simp [isGround, occurrences] at hground'
        | str text' => cases hright
        | _ => simp_all [Term.eval, kind]

end Term

end Horn
