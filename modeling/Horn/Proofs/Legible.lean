/-
Texts of terms with variables.  Where no other text can be taken for a name, the
names of the variables can be told from all the rest, and so written anew; terms
with the same text have the same text under other names.
-/
import Horn.Proofs.Projection

namespace Horn

/-- The first characters of variables. -/
def isNameStart (c : Char) : Bool :=
  c.isUpper || c = '_'

/-- A variable as it is scanned: a capital letter or an underscore, then word
characters. -/
def isVariableName (text : String) : Bool :=
  match text.toList with
  | [] => false
  | first :: rest => isNameStart first && rest.all isWordChar

/-- A variable that cannot be taken for a number: the text of a float that is no
number has the form of a name. -/
def IsSpelled (name : Var) : Prop :=
  isVariableName name = true ∧ name ≠ "NaN"

theorem isTextChar_of_isNameStart {c : Char} (hc : isNameStart c = true) :
    isTextChar c = true := by
  rw [isNameStart, Bool.or_eq_true, decide_eq_true_eq] at hc
  rcases hc with hc | rfl
  · exact isTextChar_of_isWordChar (isWordChar_of_isUpper hc)
  · decide

theorem isVariableName_chars {text : String} (htext : isVariableName text = true) :
    ∃ first rest, text.toList = first :: rest ∧ isNameStart first = true ∧
      ∀ c ∈ first :: rest, isTextChar c = true := by
  rw [isVariableName] at htext
  cases hchars : text.toList with
  | nil => simp [hchars] at htext
  | cons first rest =>
      simp only [hchars, Bool.and_eq_true, List.all_eq_true] at htext
      refine ⟨first, rest, rfl, htext.1, List.forall_mem_cons.mpr
        ⟨isTextChar_of_isNameStart htext.1, fun c hc => ?_⟩⟩
      exact isTextChar_of_isWordChar (htext.2 c hc)

theorem between_of_isUpper {c : Char} (hc : c.isUpper = true) :
    65 ≤ c.toNat ∧ c.toNat ≤ 90 := by
  obtain ⟨hlow, hhigh⟩ := of_decide_eq_true hc
  exact ⟨hlow, hhigh⟩

/-- A character that is outside the capital letters and no underscore starts no
name. -/
theorem isNameStart_of_outside {c : Char} (hc : c.toNat < 65 ∨ 90 < c.toNat) (hne : c ≠ '_') :
    isNameStart c = false := by
  rw [isNameStart, Bool.or_eq_false_iff, decide_eq_false_iff_not, ← Bool.not_eq_true]
  refine ⟨fun hupper => ?_, hne⟩
  have hbounds := between_of_isUpper hupper
  omega

theorem isNameStart_of_isLower {c : Char} (hc : c.isLower = true) : isNameStart c = false := by
  have hlow : 97 ≤ c.toNat := of_decide_eq_true (Bool.and_eq_true_iff.mp hc).1
  refine isNameStart_of_outside (Or.inr (by omega)) ?_
  rintro rfl
  exact absurd hc (by decide)

theorem isNameStart_of_isNumberStart {c : Char} (hc : isNumberStart c = true) :
    isNameStart c = false := by
  rw [isNumberStart, Bool.or_eq_true, decide_eq_true_eq] at hc
  rcases hc with hc | rfl
  · have hhigh : c.toNat ≤ 57 := of_decide_eq_true (Bool.and_eq_true_iff.mp hc).2
    refine isNameStart_of_outside (Or.inl (by omega)) ?_
    rintro rfl
    exact absurd hc (by decide)
  · decide

/-- The words of a text, without the marks between them. -/
def textWords (text : List Char) : List (List Char) :=
  text.splitOnP fun c => !isTextChar c

/-- A text that stays when names are written anew: it has no quote in it, and no
word of it is one of the names. -/
def Inert (moved : Var → Prop) (text : String) : Prop :=
  '"' ∉ text.toList ∧ ∀ word ∈ textWords text.toList, ¬ moved (String.ofList word)

/-- A term in which nothing but variables can be taken for a name that is written
anew. -/
inductive Term.Clear (moved : Var → Prop) : Term → Prop
  | var (name : Var) : Clear moved (.var name)
  | atom {text : String} (htext : Inert moved text) : Clear moved (.atom text)
  | str {text : String} (htext : '"' ∉ text.toList) : Clear moved (.str text)
  | num (value : Float) : Clear moved (.num value)
  | fact {functor : String} {args : List Term} (hfunctor : Inert moved functor)
      (hargs : ∀ arg ∈ args, Clear moved arg) : Clear moved (.fact functor args)

section Inert

variable {moved : Var → Prop}

theorem textWords_of_chars {text : List Char} (htext : ∀ c ∈ text, isTextChar c = true) :
    textWords text = [text] :=
  List.splitOnP_eq_singleton fun c hc => by rw [htext c hc, Bool.not_true]

theorem inert_of_chars {text : String} (htext : ∀ c ∈ text.toList, isTextChar c = true)
    (hmoved : ¬ moved text) : Inert moved text := by
  constructor
  · intro hquote
    exact absurd (htext _ hquote) (by decide)
  · rw [textWords_of_chars htext]
    intro word hword
    rwa [List.mem_singleton.mp hword, String.ofList_toList]

/-- A variable that is none of the names has an inert text. -/
theorem inert_of_isVariableName {name : Var} (hname : isVariableName name = true)
    (hmoved : ¬ moved name) : Inert moved name := by
  obtain ⟨first, rest, hchars, _, hrest⟩ := isVariableName_chars hname
  exact inert_of_chars (hchars ▸ hrest) hmoved

variable (hspelled : ∀ name, moved name → IsSpelled name)
include hspelled

theorem Inert.not_moved {text : String} (htext : Inert moved text) : ¬ moved text := by
  intro hmoved
  obtain ⟨first, rest, hchars, _, hrest⟩ := isVariableName_chars (hspelled text hmoved).1
  apply htext.2 text.toList
  · rw [textWords_of_chars (hchars ▸ hrest)]
    exact List.mem_singleton_self _
  · rwa [String.ofList_toList]

/-- A word that does not start as a variable does is none of the names. -/
theorem inert_of_start {text : String} {first : Char} {rest : List Char}
    (hchars : text.toList = first :: rest) (hfirst : isNameStart first = false)
    (htext : ∀ c ∈ first :: rest, isTextChar c = true) : Inert moved text := by
  refine inert_of_chars (hchars ▸ htext) fun hmoved => ?_
  have hname := (hspelled text hmoved).1
  rw [isVariableName, hchars] at hname
  simp [hfirst] at hname

theorem inert_of_isIdentifier {text : String} (htext : isIdentifier text = true) :
    Inert moved text := by
  obtain ⟨first, rest, hchars, hlower, hrest⟩ := isIdentifier_chars htext
  exact inert_of_start hspelled hchars (isNameStart_of_isLower hlower) hrest

/-- Only the text of what is no number has the form of a name. -/
theorem inert_numberText (value : Float) : Inert moved (numberText value) := by
  cases hfinite : isFinite value with
  | true =>
      have hnumeral := numeral_numberText hfinite
      obtain ⟨first, rest, hchars, hstart⟩ := hnumeral.start
      exact inert_of_start hspelled hchars (isNameStart_of_isNumberStart hstart)
        (hchars ▸ hnumeral.chars)
  | false =>
      rw [isFinite] at hfinite
      rw [numberText, Layout.write]
      cases hmagnitude : magnitude value with
      | zero => simp [hmagnitude] at hfinite
      | finite binary => simp [hmagnitude] at hfinite
      | infinite =>
          cases isNegative value with
          | true =>
              exact @inert_of_start moved hspelled "-inf" '-' "inf".toList (by decide)
                (by decide) (List.all_eq_true.mp (by decide))
          | false =>
              exact @inert_of_start moved hspelled "inf" 'i' "nf".toList (by decide)
                (by decide) (List.all_eq_true.mp (by decide))
      | notANumber =>
          have hnan : Inert moved "NaN" :=
            inert_of_chars (List.all_eq_true.mp (by decide)) fun hmoved => (hspelled _ hmoved).2 rfl
          exact hnan

end Inert

namespace Term

variable {moved : Var → Prop}

theorem Clear.of_mem {functor : String} {args : List Term}
    (hclear : (Term.fact functor args).Clear moved) : ∀ arg ∈ args, arg.Clear moved := by
  cases hclear with
  | fact _ hargs => exact hargs

theorem Clear.subst {image : Var → Term} {term : Term} (hterm : term.Clear moved)
    (himage : ∀ name ∈ term.occurrences, (image name).Clear moved) :
    (term.subst image).Clear moved := by
  induction hterm with
  | var name => exact himage name (by simp)
  | atom htext => exact .atom htext
  | str htext => exact .str htext
  | num value => exact .num value
  | @fact functor args hfunctor hargs ih =>
      rw [Term.subst, substAll_eq_map]
      refine .fact hfunctor fun arg harg => ?_
      obtain ⟨source, hsource, rfl⟩ := List.mem_map.mp harg
      exact ih source hsource fun name hname =>
        himage name (mem_occurrences_fact.mpr ⟨source, hsource, hname⟩)

end Term

section Respelling

variable (moved : Var → Prop) (image : Var → Var)

open Classical in
/-- A word with its new name if it is one of the names. -/
noncomputable def respellWord (word : List Char) : List Char :=
  match word with
  | [] => []
  | first :: rest =>
      if moved (String.ofList (first :: rest)) then
        (image (String.ofList (first :: rest))).toList
      else first :: rest

/-- Write the names in a text anew, and leave what stands in quotes.  The word read
so far is kept until its end is seen. -/
noncomputable def respellFrom : Bool → List Char → List Char → List Char
  | _, word, [] => respellWord moved image word
  | true, word, c :: rest => c :: respellFrom (decide (c ≠ '"')) word rest
  | false, word, c :: rest =>
      if isTextChar c then respellFrom false (word ++ [c]) rest
      else respellWord moved image word ++ c :: respellFrom (decide (c = '"')) [] rest

noncomputable def respell (text : List Char) : List Char :=
  respellFrom moved image false [] text

/-- A text goes on with something that is part of no word. -/
def Ended (text : List Char) : Prop :=
  ∀ c ∈ text.head?, isTextChar c = false

theorem ended_cons {c : Char} {rest : List Char} (hc : isTextChar c = false) :
    Ended (c :: rest) := by
  intro d hd
  rw [List.head?_cons, Option.mem_some] at hd
  exact hd ▸ hc

theorem respellWord_of_not {word : List Char} (hword : ¬ moved (String.ofList word)) :
    respellWord moved image word = word := by
  cases word with
  | nil => rfl
  | cons first rest => rw [respellWord, if_neg hword]

theorem respellFrom_word {word rest : List Char} (before : List Char)
    (hword : ∀ c ∈ word, isTextChar c = true) (hrest : Ended rest) :
    respellFrom moved image false before (word ++ rest) =
      respellWord moved image (before ++ word) ++ respell moved image rest := by
  induction word generalizing before with
  | nil =>
      rw [List.nil_append, List.append_nil]
      cases rest with
      | nil => simp [respell, respellFrom, respellWord]
      | cons c rest =>
          have hc : isTextChar c = false := hrest c rfl
          simp [respell, respellFrom, respellWord, hc]
  | cons c word ih =>
      obtain ⟨hc, hword⟩ := List.forall_mem_cons.mp hword
      rw [List.cons_append, respellFrom, if_pos hc, ih _ hword, List.append_assoc]
      rfl

theorem respell_word {word rest : List Char} (hword : ∀ c ∈ word, isTextChar c = true)
    (hrest : Ended rest) :
    respell moved image (word ++ rest) = respellWord moved image word ++ respell moved image rest :=
  respellFrom_word moved image [] hword hrest

/-- A mark between words stays. -/
theorem respell_mark {c : Char} (hc : isTextChar c = false) (hquote : c ≠ '"')
    (rest : List Char) : respell moved image (c :: rest) = c :: respell moved image rest := by
  simp [respell, respellFrom, respellWord, hc, hquote]

/-- What stands in quotes stays. -/
theorem respell_quoted {text : List Char} (htext : '"' ∉ text) (rest : List Char) :
    respell moved image ('"' :: (text ++ '"' :: rest)) =
      '"' :: (text ++ '"' :: respell moved image rest) := by
  have hinside : respellFrom moved image true [] (text ++ '"' :: rest) =
      text ++ '"' :: respell moved image rest := by
    induction text with
    | nil => simp [respell, respellFrom]
    | cons c text ih =>
        obtain ⟨hc, htext⟩ := not_or.mp (List.mem_cons.not.mp htext)
        have hne : c ≠ '"' := fun heq => hc heq.symm
        simp [respellFrom, hne, ih htext]
  have hquote : isTextChar '"' = false := by decide
  simp [respell, respellFrom, respellWord, hquote, hinside]

theorem modifyHead_nil_append (words : List (List Char)) :
    words.modifyHead ([] ++ ·) = words :=
  congrFun List.modifyHead_id words

/-- The first word of the text goes on with what was read before. -/
theorem respellFrom_inert {text rest : List Char} (before : List Char) (hquote : '"' ∉ text)
    (hwords : ∀ word ∈ (textWords text).modifyHead (before ++ ·), ¬ moved (String.ofList word))
    (hrest : Ended rest) :
    respellFrom moved image false before (text ++ rest) =
      before ++ text ++ respell moved image rest := by
  induction text generalizing before with
  | nil =>
      have hbefore : ¬ moved (String.ofList before) := by
        simpa [textWords, List.splitOnP_nil] using hwords
      have hend := @respellFrom_word moved image [] rest before (by simp) hrest
      rw [List.append_nil] at hend ⊢
      rwa [respellWord_of_not moved image hbefore] at hend
  | cons c text ih =>
      obtain ⟨hc, hquote⟩ := not_or.mp (List.mem_cons.not.mp hquote)
      rw [textWords, List.splitOnP_cons_eq_if_modifyHead] at hwords
      rw [List.cons_append, respellFrom]
      cases htext : isTextChar c with
      | true =>
          simp only [htext, Bool.not_true, Bool.false_eq_true, if_false,
            List.modifyHead_modifyHead] at hwords
          have hnext : ((before ++ ·) ∘ List.cons c : List Char → List Char) =
              ((before ++ [c]) ++ ·) := by
            funext word
            simp
          rw [hnext] at hwords
          rw [if_pos rfl, ih (before ++ [c]) hquote hwords]
          simp
      | false =>
          simp only [htext, Bool.not_false, if_true, List.modifyHead_cons,
            List.append_nil, List.forall_mem_cons] at hwords
          obtain ⟨hbefore, hwords⟩ := hwords
          have hlater : ∀ word ∈ (textWords text).modifyHead ([] ++ ·),
              ¬ moved (String.ofList word) := by
            rwa [modifyHead_nil_append]
          have hne : c ≠ '"' := fun heq => hc heq.symm
          rw [if_neg (by simp), respellWord_of_not moved image hbefore, decide_eq_false hne,
            ih [] hquote hlater]
          simp

/-- An inert text stays. -/
theorem respell_inert {text : String} (htext : Inert moved text) {rest : List Char}
    (hrest : Ended rest) :
    respell moved image (text.toList ++ rest) = text.toList ++ respell moved image rest := by
  refine respellFrom_inert moved image [] htext.1 ?_ hrest
  rw [modifyHead_nil_append]
  exact htext.2

theorem respell_moved {name : Var} (hname : isVariableName name = true) (hmoved : moved name)
    {rest : List Char} (hrest : Ended rest) :
    respell moved image (name.toList ++ rest) =
      (image name).toList ++ respell moved image rest := by
  obtain ⟨first, word, hchars, _, hword⟩ := isVariableName_chars hname
  have hsame : String.ofList (first :: word) = name := by rw [← hchars, String.ofList_toList]
  rw [hchars, respell_word moved image hword hrest, respellWord, hsame, if_pos hmoved]

end Respelling

namespace Term

variable {moved : Var → Prop} {image : Var → Var}

/-- The bar before the last tail of a list. -/
def bar (inTail : Bool) : String :=
  if inTail then "|" else ""

theorem respell_bar (inTail : Bool) (rest : List Char) :
    respell moved image ((bar inTail).toList ++ rest) =
      (bar inTail).toList ++ respell moved image rest := by
  cases inTail with
  | false => rfl
  | true => exact respell_mark moved image (by decide) (by decide) rest

/-- What follows a term in the tail of a list starts with a mark. -/
theorem ended_tail (term : Term) {rest : List Char} (hrest : Ended rest) :
    Ended ((term.renderAt true).toList ++ rest) := by
  have hbar : isTextChar '|' = false := by decide
  match term with
  | .fact functor [] =>
      rw [renderAt]
      split
      · exact hrest
      · simp only [String.toList_append, List.append_assoc]
        exact ended_cons hbar
  | .fact functor [first, second] =>
      rw [renderAt]
      split
      · simp only [String.toList_append, List.append_assoc]
        exact ended_cons (by decide)
      · simp only [String.toList_append, List.append_assoc]
        exact ended_cons hbar
  | .fact functor [first] | .fact functor (first :: _ :: _ :: _) | .var _ | .atom _ | .str _
  | .num _ =>
      simp only [renderAt, String.toList_append, List.append_assoc]
      exact ended_cons hbar

/-- What writing the text of a term anew gives, where something else follows. -/
def Respelled (moved : Var → Prop) (image : Var → Var) (term : Term) : Prop :=
  ∀ inTail rest, Ended rest →
    respell moved image ((term.renderAt inTail).toList ++ rest) =
      ((term.rename image).renderAt inTail).toList ++ respell moved image rest

/-- Further arguments start with a comma. -/
theorem ended_more (terms : List Term) {rest : List Char} (hrest : Ended rest) :
    Ended ((renderMore terms).toList ++ rest) := by
  cases terms with
  | nil => exact hrest
  | cons term terms =>
      rw [renderMore_cons]
      exact ended_cons (by decide)

theorem respell_more {terms : List Term} (hterms : ∀ term ∈ terms, Respelled moved image term)
    {rest : List Char} (hrest : Ended rest) :
    respell moved image ((renderMore terms).toList ++ rest) =
      (renderMore (terms.map (rename image))).toList ++ respell moved image rest := by
  induction terms with
  | nil => rfl
  | cons term terms ih =>
      obtain ⟨hterm, hterms⟩ := List.forall_mem_cons.mp hterms
      rw [renderMore_cons, List.map_cons, renderMore_cons,
        respell_mark moved image (by decide) (by decide), hterm false _ (ended_more terms hrest),
        ih hterms]

/-- In the tail of a list a term that is no list stands behind a bar. -/
theorem Respelled.of_bar {term : Term} (text text' : String)
    (htext : ∀ inTail, term.renderAt inTail = bar inTail ++ text)
    (htext' : ∀ inTail, (term.rename image).renderAt inTail = bar inTail ++ text')
    (hrespell : ∀ rest, Ended rest →
      respell moved image (text.toList ++ rest) = text'.toList ++ respell moved image rest) :
    Respelled moved image term := by
  intro inTail rest hrest
  rw [htext, htext', String.toList_append, String.toList_append, List.append_assoc,
    List.append_assoc, respell_bar, hrespell rest hrest]

theorem respelled_emptyList : Respelled moved image .emptyList := by
  intro inTail rest _
  cases inTail with
  | true => rfl
  | false =>
      have hbrackets : (Term.emptyList.renderAt false).toList = ['[', ']'] := by decide
      rw [show Term.emptyList.rename image = Term.emptyList from rfl, hbrackets,
        List.cons_append, List.cons_append, respell_mark moved image (by decide) (by decide),
        respell_mark moved image (by decide) (by decide)]
      rfl

theorem respelled_cell {first second : Term} (hfirst : Respelled moved image first)
    (hsecond : Respelled moved image second) :
    Respelled moved image (.fact listFunctor [first, second]) := by
  intro inTail rest hrest
  have hrenamed : (Term.fact listFunctor [first, second]).rename image =
      .fact listFunctor [first.rename image, second.rename image] := rfl
  simp only [hrenamed, renderAt_cell, String.toList_append, List.append_assoc]
  cases inTail with
  | true =>
      have hmark := respell_mark moved image (c := ',') (by decide) (by decide)
      exact (hmark _).trans (congrArg (',' :: ·)
        ((hfirst false _ (second.ended_tail hrest)).trans (congrArg _ (hsecond true _ hrest))))
  | false =>
      have hopen := respell_mark moved image (c := '[') (by decide) (by decide)
      have hclose := respell_mark moved image (c := ']') (by decide) (by decide)
      have hended : Ended (']' :: rest) := ended_cons (by decide)
      refine (hopen _).trans (congrArg ('[' :: ·) ?_)
      refine (hfirst false _ (second.ended_tail hended)).trans (congrArg _ ?_)
      exact (hsecond true _ hended).trans (congrArg _ (hclose rest))

theorem respelled_constant {functor : String} (hfunctor : Inert moved functor)
    (hne : functor ≠ listFunctor) : Respelled moved image (.fact functor []) := by
  have hrendered : ∀ inTail, (Term.fact functor []).renderAt inTail = bar inTail ++ functor := by
    intro inTail
    rw [renderAt, if_neg hne, bar]
  exact .of_bar functor functor hrendered hrendered
    fun rest hrest => respell_inert moved image hfunctor hrest

theorem respelled_compound {functor : String} (hfunctor : Inert moved functor) {first : Term}
    {more : List Term} (hlist : functor = listFunctor → more.length ≠ 1)
    (hargs : ∀ arg ∈ first :: more, Respelled moved image arg) :
    Respelled moved image (.fact functor (first :: more)) := by
  have hrenamed : (Term.fact functor (first :: more)).rename image =
      .fact functor (first.rename image :: more.map (rename image)) := by
    rw [rename, subst, substAll_eq_map]
    rfl
  have hlist' : functor = listFunctor → (more.map (rename image)).length ≠ 1 := by
    rwa [List.length_map]
  obtain ⟨hfirst, hmore⟩ := List.forall_mem_cons.mp hargs
  refine .of_bar (functor ++ ("(" ++ (first.renderAt false ++ (renderMore more ++ ")"))))
    (functor ++ ("(" ++ ((first.rename image).renderAt false ++
      (renderMore (more.map (rename image)) ++ ")")))) (fun inTail => ?_) (fun inTail => ?_)
    fun rest hrest => ?_
  · simp only [renderAt_args hlist, bar, String.append_assoc]
  · simp only [hrenamed, renderAt_args hlist', bar, String.append_assoc]
  · simp only [String.toList_append, List.append_assoc]
    have hopen := respell_mark moved image (c := '(') (by decide) (by decide)
    have hclose := respell_mark moved image (c := ')') (by decide) (by decide)
    have hended : Ended (')' :: rest) := ended_cons (by decide)
    have hafter : Ended ((renderMore more).toList ++ ')' :: rest) := ended_more more hended
    refine (respell_inert moved image hfunctor (ended_cons (by decide))).trans (congrArg _ ?_)
    refine (hopen _).trans (congrArg ('(' :: ·) ?_)
    refine (hfirst false _ hafter).trans (congrArg _ ?_)
    exact (respell_more hmore hended).trans (congrArg _ (hclose rest))

/-- A variable that is written anew, or is as inert as any other text. -/
def Moves (moved : Var → Prop) (image : Var → Var) (name : Var) : Prop :=
  moved name ∨ image name = name ∧ Inert moved name

variable (hspelled : ∀ name, moved name → IsSpelled name)
include hspelled

/-- The text of a term, with the names of its variables written anew, is the text
of the renamed term.  The induction is on the way the term is built. -/
theorem Clear.respelled {term : Term} (hclear : term.Clear moved)
    (hnames : ∀ name ∈ term.occurrences, Moves moved image name) :
    Respelled moved image term := by
  induction hclear with
  | var name =>
      refine .of_bar name (image name) (fun _ => rfl) (fun _ => rfl) fun rest hrest => ?_
      rcases hnames name (by simp) with hmoved | ⟨hfixed, hinert⟩
      · exact respell_moved moved image (hspelled name hmoved).1 hmoved hrest
      · rw [hfixed]
        exact respell_inert moved image hinert hrest
  | atom htext =>
      exact .of_bar _ _ (fun _ => rfl) (fun _ => rfl)
        fun rest hrest => respell_inert moved image htext hrest
  | @str text htext =>
      have hquotes : ∀ inTail, (Term.str text).renderAt inTail =
          bar inTail ++ ("\"" ++ (text ++ "\"")) := by
        intro inTail
        simp only [renderAt, bar, String.append_assoc]
      refine .of_bar _ _ hquotes hquotes fun rest _ => ?_
      simp only [String.toList_append, List.append_assoc]
      exact respell_quoted moved image htext rest
  | num value =>
      exact .of_bar _ _ (fun _ => rfl) (fun _ => rfl)
        fun rest hrest => respell_inert moved image (inert_numberText hspelled value) hrest
  | @fact functor args hfunctor _ ih =>
      have hargs : ∀ arg ∈ args, Respelled moved image arg := fun arg harg =>
        ih arg harg fun name hname => hnames name (mem_occurrences_fact.mpr ⟨arg, harg, hname⟩)
      by_cases hlist : functor = listFunctor
      · subst hlist
        rcases args with _ | ⟨first, _ | ⟨second, _ | ⟨third, more⟩⟩⟩
        · exact respelled_emptyList
        · exact respelled_compound hfunctor (by simp) hargs
        · exact respelled_cell (hargs first (by simp)) (hargs second (by simp))
        · exact respelled_compound hfunctor (by simp) hargs
      · cases args with
        | nil => exact respelled_constant hfunctor hlist
        | cons first more =>
            exact respelled_compound hfunctor (fun heq => absurd heq hlist) hargs

theorem render_rename {term : Term} (hclear : term.Clear moved)
    (hnames : ∀ name ∈ term.occurrences, Moves moved image name) :
    (term.rename image).render.toList = respell moved image term.render.toList := by
  have hnothing : Ended [] := by simp [Ended]
  have hrespelled := hclear.respelled hspelled hnames false [] hnothing
  rw [List.append_nil] at hrespelled
  rw [render, render, hrespelled]
  exact (List.append_nil _).symm

/-- Terms with the same text have the same text under other names. -/
theorem Clear.render_rename_eq {left right : Term} (hleft : left.Clear moved)
    (hright : right.Clear moved) (hleftNames : ∀ name ∈ left.occurrences, Moves moved image name)
    (hrightNames : ∀ name ∈ right.occurrences, Moves moved image name)
    (heq : left.render = right.render) :
    (left.rename image).render = (right.rename image).render := by
  apply String.toList_inj.mp
  rw [render_rename hspelled hleft hleftNames, render_rename hspelled hright hrightNames, heq]

end Term

theorem Term.kind_rename (image : Var → Var) (term : Term) :
    (term.rename image).kind = term.kind := by
  cases term <;> rfl

end Horn
