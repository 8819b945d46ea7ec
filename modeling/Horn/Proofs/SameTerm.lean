/-
When comparing texts is comparing terms.  A variable that has a value accepts
another by its kind and its text; the text tells the term where every word has one
kind and no word or string has a mark in it that separates the parts of a text.
-/
import Horn.Proofs.Projection

namespace Horn

mutual

/-- Equality of shape, name and text, where numbers are compared as they are
written. -/
def Term.same : Term → Term → Bool
  | .var left, .var right => left = right
  | .atom left, .atom right => left = right
  | .str left, .str right => left = right
  | .num left, .num right => numberText left = numberText right
  | .fact left leftArgs, .fact right rightArgs =>
      left = right && Term.sameAll leftArgs rightArgs
  | _, _ => false

def Term.sameAll : List Term → List Term → Bool
  | [], [] => true
  | left :: lefts, right :: rights => left.same right && Term.sameAll lefts rights
  | _, _ => false

end

namespace Term

theorem sameAll_iff {lefts rights : List Term} :
    sameAll lefts rights = true ↔
      lefts.Forall₂ (fun left right => left.same right = true) rights := by
  induction lefts generalizing rights with
  | nil => cases rights <;> simp [sameAll]
  | cons left lefts ih => cases rights <;> simp [sameAll, ih]

theorem same_fact {functor : String} {lefts rights : List Term}
    (hargs : sameAll lefts rights = true) :
    (Term.fact functor lefts).same (.fact functor rights) = true := by
  rw [same, decide_eq_true rfl, hargs, Bool.and_self]

theorem kind_of_same {left right : Term} (hsame : left.same right = true) :
    left.kind = right.kind := by
  cases left <;> cases right <;> first | rfl | simp [same] at hsame

/-- The same terms are written alike. -/
theorem renderAt_of_same {left right : Term} (hsame : left.same right = true) (inTail : Bool) :
    left.renderAt inTail = right.renderAt inTail := by
  induction left generalizing right inTail with
  | fact functor args ih =>
      cases right with
      | fact other others =>
          rw [same, Bool.and_eq_true, decide_eq_true_eq, sameAll_iff, List.forall₂_iff_get] at hsame
          obtain ⟨rfl, hlength, hargs⟩ := hsame
          refine renderAt_fact_congr functor (List.forall₂_iff_get.mpr ⟨hlength, ?_⟩) inTail
          intro place hplace hother inTail
          exact ih _ (List.get_mem _ _) (hargs place hplace hother) inTail
      | _ => simp [same] at hsame
  | _ => cases right <;> simp_all [same, renderAt]

theorem sameText_of_same {left right : Term} (hsame : left.same right = true) :
    left.sameText right = true := by
  rw [Term.sameText_iff]
  exact ⟨kind_of_same hsame, renderAt_of_same hsame false⟩

end Term

/-- The characters that separate the parts of a text. -/
def isMark (c : Char) : Bool :=
  c ∈ ['(', ')', '[', ']', ',', '|', '"']

/-- A text that stands whole between marks. -/
structure IsWord (text : String) : Prop where
  ne : text.toList ≠ []
  chars : ∀ c ∈ text.toList, isMark c = false

theorem isWord_of_all {text : String} (hne : text.toList ≠ [])
    (hchars : text.toList.all (!isMark ·) = true) : IsWord text := by
  refine ⟨hne, fun c hc => ?_⟩
  rw [← Bool.not_eq_true']
  exact List.all_eq_true.mp hchars c hc

/-- What follows a term, if anything does: a mark that opens no arguments. -/
def Closed (text : List Char) : Prop :=
  ∀ c ∈ text.head?, isMark c = true ∧ c ≠ '('

theorem closed_cons {c : Char} {rest : List Char} (hc : isMark c = true) (hne : c ≠ '(') :
    Closed (c :: rest) := by
  intro d hd
  rw [List.head?_cons, Option.mem_some] at hd
  exact hd ▸ ⟨hc, hne⟩

theorem closed_nil : Closed [] := by
  simp [Closed]

theorem Separated.closed {text : List Char} (htext : Separated text) : Closed text :=
  htext.head (by simp; decide)

/-- What a term is written as, if it is written as one word. -/
def Term.word? : Term → Option String
  | .var name => some name
  | .atom text => some text
  | .str _ => none
  | .num value => some (numberText value)
  | .fact functor [] => some functor
  | .fact _ (_ :: _) => none

/-- A term whose words each have one kind, so that none can be taken for another,
and in whose words and strings there are no marks that could be taken for its own. -/
inductive Term.Unmixed (kindOf : String → Kind) : Term → Prop
  | word {term : Term} {text : String} (hterm : term.word? = some text) (htext : IsWord text)
      (hkind : term.kind = kindOf text) : Unmixed kindOf term
  | str {text : String} (htext : '"' ∉ text.toList) : Unmixed kindOf (.str text)
  | emptyList : Unmixed kindOf .emptyList
  | cell {first second : Term} (hfirst : Unmixed kindOf first)
      (hsecond : Unmixed kindOf second) : Unmixed kindOf (.fact listFunctor [first, second])
  | compound {functor : String} {first : Term} {more : List Term} (hfunctor : IsWord functor)
      (hargs : ∀ arg ∈ first :: more, Unmixed kindOf arg) :
      Unmixed kindOf (.fact functor (first :: more))

/-- What the text of a term shows first. -/
inductive Form
  | word (text : List Char)
  | quoted (text : List Char)
  | emptyList
  | cell
  | compound (functor : List Char)

/-- The form of the term that a text starts with. -/
def formOf (text : List Char) : Form :=
  match text with
  | '"' :: rest => .quoted (rest.takeWhile (· ≠ '"'))
  | '[' :: ']' :: _ => .emptyList
  | '[' :: _ => .cell
  | _ =>
      let word := text.takeWhile (!isMark ·)
      if (text.drop word.length).head? = some '(' then .compound word else .word word

theorem formOf_word {word rest : List Char} (hne : word ≠ [])
    (hword : ∀ c ∈ word, isMark c = false) (hrest : ∀ c ∈ rest.head?, isMark c = true) :
    formOf (word ++ rest) = if rest.head? = some '(' then .compound word else .word word := by
  obtain ⟨first, more, rfl⟩ := List.exists_cons_of_ne_nil hne
  have hfirst := hword first List.mem_cons_self
  have hspan : (first :: more ++ rest).takeWhile (!isMark ·) = first :: more :=
    takeWhile_word (fun c hc => by rw [hword c hc]; rfl) fun c hc => by rw [hrest c hc]; rfl
  have hdrop : (first :: more ++ rest).drop (first :: more).length = rest := List.drop_left
  have hstart : ∀ mark tail, isMark mark = true → first :: more ++ rest = mark :: tail → False := by
    intro mark tail hmark heq
    rw [(List.cons.inj heq).1, hmark] at hfirst
    cases hfirst
  rw [formOf]
  · simp only [hspan, hdrop]
  · exact fun tail => hstart '"' tail (by decide)
  · exact fun tail => hstart '[' (']' :: tail) (by decide)
  · exact fun tail => hstart '[' tail (by decide)

namespace Term

/-- The form of the text of a term. -/
def form : Term → Form
  | .var name => .word name.toList
  | .atom text => .word text.toList
  | .str text => .quoted text.toList
  | .num value => .word (numberText value).toList
  | .fact functor [] => if functor = listFunctor then .emptyList else .word functor.toList
  | .fact functor [_, _] => if functor = listFunctor then .cell else .compound functor.toList
  | .fact functor (_ :: _) => .compound functor.toList

theorem ne_listFunctor_of_isWord {text : String} (htext : IsWord text) : text ≠ listFunctor := by
  rintro rfl
  exact absurd (htext.chars '|' List.mem_cons_self) (by decide)

theorem renderAt_of_word? {term : Term} {text : String} (hterm : term.word? = some text)
    (htext : IsWord text) (inTail : Bool) :
    term.renderAt inTail = (if inTail then "|" else "") ++ text := by
  match term with
  | .var _ | .atom _ | .num _ => rw [renderAt, Option.some.inj hterm]
  | .fact functor [] =>
      have hfunctor : functor = text := Option.some.inj hterm
      rw [renderAt, hfunctor, if_neg (ne_listFunctor_of_isWord htext)]
  | .str _ | .fact _ (_ :: _) => cases hterm

theorem form_of_word? {term : Term} {text : String} (hterm : term.word? = some text)
    (htext : IsWord text) : term.form = .word text.toList := by
  match term with
  | .var _ | .atom _ | .num _ => rw [form, Option.some.inj hterm]
  | .fact functor [] =>
      have hfunctor : functor = text := Option.some.inj hterm
      rw [form, hfunctor, if_neg (ne_listFunctor_of_isWord htext)]
  | .str _ | .fact _ (_ :: _) => cases hterm

theorem form_compound {functor : String} (hfunctor : functor ≠ listFunctor) (first : Term)
    (more : List Term) : (fact functor (first :: more)).form = .compound functor.toList := by
  match more with
  | [_] => rw [form, if_neg hfunctor]
  | [] | _ :: _ :: _ => simp [form]

/-- Leaves of one kind that are written as one word are the same. -/
theorem same_of_word? {left right : Term} {text : String} (hleft : left.word? = some text)
    (hright : right.word? = some text) (hkind : left.kind = right.kind) :
    left.same right = true := by
  cases left with
  | fact functor args =>
      cases right with
      | fact other others =>
          cases args with
          | nil =>
              cases others with
              | nil => simp_all [word?, same, sameAll]
              | cons first more => cases hright
          | cons first more => cases hleft
      | _ => cases hkind
  | _ => cases right <;> simp_all [word?, kind, same]

variable {kindOf : String → Kind}

theorem Unmixed.of_mem {functor : String} {args : List Term}
    (hterm : (Term.fact functor args).Unmixed kindOf) : ∀ arg ∈ args, arg.Unmixed kindOf := by
  cases hterm with
  | word hterm _ _ =>
      cases args with
      | nil => simp
      | cons first more => cases hterm
  | emptyList => simp
  | cell hfirst hsecond =>
      intro arg harg
      rcases List.mem_pair.mp harg with rfl | rfl
      · exact hfirst
      · exact hsecond
  | compound _ hargs => exact hargs

/-- The text of a term is not empty and cannot be taken for the end of a list. -/
theorem Unmixed.text_start {term : Term} (hterm : term.Unmixed kindOf) :
    ∃ first rest, (term.renderAt false).toList = first :: rest ∧ first ≠ ']' := by
  have hword : ∀ {text : String}, IsWord text →
      ∃ first rest, text.toList = first :: rest ∧ first ≠ ']' := by
    intro text htext
    obtain ⟨first, rest, hchars⟩ := List.exists_cons_of_ne_nil htext.ne
    refine ⟨first, rest, hchars, ?_⟩
    rintro rfl
    exact absurd (htext.chars ']' (hchars ▸ List.mem_cons_self)) (by decide)
  cases hterm with
  | word hterm htext _ =>
      rw [renderAt_of_word? hterm htext]
      simpa using hword htext
  | str _ => exact ⟨'"', _, by simp only [renderAt, String.toList_append]; rfl, by decide⟩
  | emptyList => exact ⟨'[', [']'], rfl, by decide⟩
  | cell _ _ => exact ⟨'[', _, by simp only [renderAt_cell, String.toList_append]; rfl, by decide⟩
  | compound hfunctor _ =>
      obtain ⟨first, rest, hchars, hne⟩ := hword hfunctor
      rw [renderAt_compound (ne_listFunctor_of_isWord hfunctor)]
      simp only [String.toList_append, List.append_assoc, hchars]
      exact ⟨first, _, rfl, hne⟩

/-- The form of a term can be read from its text, whatever follows. -/
theorem Unmixed.formOf_renderAt {term : Term} (hterm : term.Unmixed kindOf) {rest : List Char}
    (hrest : Closed rest) : formOf ((term.renderAt false).toList ++ rest) = term.form := by
  cases hterm with
  | word hterm htext _ =>
      have hopen : rest.head? ≠ some '(' := fun hhead => (hrest '(' hhead).2 rfl
      rw [renderAt_of_word? hterm htext, form_of_word? hterm htext]
      have hform := formOf_word htext.ne htext.chars fun c hc => (hrest c hc).1
      simpa [hopen] using hform
  | @str text htext =>
      have hchars : ((Term.str text).renderAt false).toList ++ rest =
          '"' :: (text.toList ++ '"' :: rest) := by simp [renderAt]
      have hspan : (text.toList ++ '"' :: rest).takeWhile (· ≠ '"') = text.toList := by
        rw [List.takeWhile_append_of_pos]
        · simp
        · exact fun c hc => decide_eq_true fun heq => htext (heq ▸ hc)
      rw [hchars, formOf, hspan, form]
  | emptyList => rfl
  | @cell first second hfirst _ =>
      obtain ⟨start, more, hstart, hne⟩ := hfirst.text_start
      rw [renderAt_cell, form, if_pos rfl]
      simp only [String.toList_append, List.append_assoc, hstart]
      rw [if_neg Bool.false_ne_true, formOf.eq_def]
      split
      · next heq => exact absurd (List.cons.inj heq).1 (by decide)
      · next heq => exact absurd (List.cons.inj (List.cons.inj heq).2).1 hne
      · rfl
      · next hnot => exact absurd rfl (hnot _)
  | @compound functor first more hfunctor _ =>
      have hform : ∀ args, formOf (functor.toList ++ '(' :: args) = .compound functor.toList := by
        intro args
        rw [formOf_word hfunctor.ne hfunctor.chars (by simp; decide), List.head?_cons,
          if_pos rfl]
      rw [renderAt_compound (ne_listFunctor_of_isWord hfunctor),
        form_compound (ne_listFunctor_of_isWord hfunctor)]
      simpa using hform _

/-- What the form of a term says about it. -/
def Shaped (kindOf : String → Kind) (term : Term) : Form → Prop
  | .word chars => ∃ text, term.word? = some text ∧ IsWord text ∧ term.kind = kindOf text ∧
      text.toList = chars
  | .quoted chars => ∃ text, term = .str text ∧ text.toList = chars
  | .emptyList => term = .emptyList
  | .cell => ∃ first second, term = .fact listFunctor [first, second] ∧ first.Unmixed kindOf ∧
      second.Unmixed kindOf
  | .compound chars => ∃ functor first more, term = .fact functor (first :: more) ∧
      functor.toList = chars ∧ ∀ arg ∈ first :: more, arg.Unmixed kindOf

theorem Unmixed.shaped {term : Term} (hterm : term.Unmixed kindOf) :
    Shaped kindOf term term.form := by
  cases hterm with
  | @word term text hterm htext hkind =>
      rw [form_of_word? hterm htext]
      exact ⟨text, hterm, htext, hkind, rfl⟩
  | @str text htext => exact ⟨text, rfl, rfl⟩
  | emptyList => rfl
  | @cell first second hfirst hsecond => exact ⟨first, second, rfl, hfirst, hsecond⟩
  | @compound functor first more hfunctor hargs =>
      rw [form_compound (ne_listFunctor_of_isWord hfunctor)]
      exact ⟨functor, first, more, rfl, rfl, hargs⟩

/-- Of two terms that a text starts with, one is of the form of the other. -/
theorem Unmixed.shaped_of_text {left right : Term} (hright : right.Unmixed kindOf)
    (hleft : left.Unmixed kindOf) {rest more : List Char} (hrest : Closed rest)
    (hmore : Closed more)
    (heq : (left.renderAt false).toList ++ rest = (right.renderAt false).toList ++ more) :
    Shaped kindOf right left.form := by
  rw [← hleft.formOf_renderAt hrest, heq, hright.formOf_renderAt hmore]
  exact hright.shaped

/-- Two terms of which one text starts with both, at a place of the same sort, are
the same, and what follows them is too. -/
structure Told (left right : Term) : Prop where
  front : ∀ {rest more : List Char}, Closed rest → Closed more →
    (left.renderAt false).toList ++ rest = (right.renderAt false).toList ++ more →
      left.same right = true ∧ rest = more
  tail : ∀ {rest more : List Char},
    (left.renderAt true).toList ++ ']' :: rest = (right.renderAt true).toList ++ ']' :: more →
      left.same right = true ∧ rest = more

/-- Behind its bar a term is told as it is in front. -/
theorem Told.of_front {left right : Term}
    (hbar : left.renderAt true = "|" ++ left.renderAt false)
    (hfront : ∀ {rest more : List Char}, Closed rest → Closed more →
      (left.renderAt false).toList ++ rest = (right.renderAt false).toList ++ more →
        left.same right = true ∧ rest = more) : Told left right := by
  refine ⟨hfront, fun heq => ?_⟩
  have hmark : isMark ']' = true := by decide
  rcases right.renderAt_tail with rfl | ⟨first, second, rfl⟩ | htail
  · simp only [hbar, String.toList_append, List.append_assoc] at heq
    cases heq
  · simp only [hbar, renderAt_cell, String.toList_append, List.append_assoc] at heq
    cases heq
  · simp only [hbar, htail, String.toList_append, List.append_assoc] at heq
    obtain ⟨hsame, hrest⟩ := hfront (closed_cons hmark (by decide)) (closed_cons hmark (by decide))
      (List.append_cancel_left heq)
    exact ⟨hsame, (List.cons.inj hrest).2⟩

theorem told_more {lefts rights : List Term}
    (htold : ∀ left ∈ lefts, ∀ right ∈ rights, Told left right) {rest more : List Char}
    (heq : (renderMore lefts).toList ++ ')' :: rest = (renderMore rights).toList ++ ')' :: more) :
    sameAll lefts rights = true ∧ rest = more := by
  induction lefts generalizing rights with
  | nil =>
      cases rights with
      | nil => exact ⟨rfl, (List.cons.inj heq).2⟩
      | cons right rights =>
          rw [renderMore_cons] at heq
          cases heq
  | cons left lefts ih =>
      cases rights with
      | nil =>
          rw [renderMore_cons] at heq
          cases heq
      | cons right rights =>
          rw [renderMore_cons, renderMore_cons] at heq
          obtain ⟨hsame, hrest⟩ := (htold left List.mem_cons_self right List.mem_cons_self).front
            (separated_more lefts rest).closed (separated_more rights more).closed
            (List.cons.inj heq).2
          obtain ⟨hall, hafter⟩ := ih (fun other hother another hanother =>
            htold other (List.mem_cons_of_mem _ hother) another (List.mem_cons_of_mem _ hanother))
            hrest
          exact ⟨by rw [sameAll, hsame, hall, Bool.and_self], hafter⟩

theorem same_emptyList : Term.emptyList.same .emptyList = true := by
  decide

theorem told_emptyList {right : Term} (hright : right.Unmixed kindOf) :
    Told .emptyList right := by
  refine ⟨fun hrest hmore heq => ?_, fun heq => ?_⟩
  · obtain rfl : right = .emptyList := hright.shaped_of_text .emptyList hrest hmore heq
    exact ⟨same_emptyList, List.append_cancel_left heq⟩
  · rcases right.renderAt_tail with rfl | ⟨first, second, rfl⟩ | htail
    · exact ⟨same_emptyList, (List.cons.inj heq).2⟩
    · simp only [renderAt_cell, String.toList_append, List.append_assoc] at heq
      cases heq
    · simp only [htail, String.toList_append, List.append_assoc] at heq
      cases heq

theorem told_cell {first second right : Term} (hfirst : first.Unmixed kindOf)
    (hsecond : second.Unmixed kindOf) (hright : right.Unmixed kindOf)
    (htoldFirst : ∀ {other : Term}, other.Unmixed kindOf → Told first other)
    (htoldSecond : ∀ {other : Term}, other.Unmixed kindOf → Told second other) :
    Told (.fact listFunctor [first, second]) right := by
  -- what stands between the brackets is the same in front and in a tail
  have hinside : ∀ {first' second' : Term}, first'.Unmixed kindOf → second'.Unmixed kindOf →
      ∀ {rest more : List Char},
        (first.renderAt false).toList ++ ((second.renderAt true).toList ++ ']' :: rest) =
          (first'.renderAt false).toList ++ ((second'.renderAt true).toList ++ ']' :: more) →
        (Term.fact listFunctor [first, second]).same (.fact listFunctor [first', second']) = true ∧
          rest = more := by
    intro first' second' hfirst' hsecond' rest more heq
    obtain ⟨hsame, hbehind⟩ := (htoldFirst hfirst').front (separated_tail second rest).closed
      (separated_tail second' more).closed heq
    obtain ⟨hsame', hafter⟩ := (htoldSecond hsecond').tail hbehind
    exact ⟨same_fact (by rw [sameAll, sameAll, hsame, hsame']; rfl), hafter⟩
  refine ⟨fun hrest hmore heq => ?_, fun heq => ?_⟩
  · have hshaped := hright.shaped_of_text (.cell hfirst hsecond) hrest hmore heq
    rw [form, if_pos rfl] at hshaped
    obtain ⟨first', second', rfl, hfirst', hsecond'⟩ := hshaped
    simp only [renderAt_cell, String.toList_append, List.append_assoc] at heq
    exact hinside hfirst' hsecond' (List.append_cancel_left heq)
  · rcases right.renderAt_tail with rfl | ⟨first', second', rfl⟩ | htail
    · simp only [renderAt_cell, String.toList_append, List.append_assoc] at heq
      cases heq
    · simp only [renderAt_cell, String.toList_append, List.append_assoc] at heq
      exact hinside (hright.of_mem first' (by simp)) (hright.of_mem second' (by simp))
        (List.append_cancel_left heq)
    · simp only [htail, renderAt_cell, String.toList_append, List.append_assoc] at heq
      cases heq

theorem told_compound {functor : String} {first right : Term} {more : List Term}
    (hfunctor : IsWord functor) (hargs : ∀ arg ∈ first :: more, arg.Unmixed kindOf)
    (hright : right.Unmixed kindOf)
    (htold : ∀ arg ∈ first :: more, ∀ {other : Term}, other.Unmixed kindOf → Told arg other) :
    Told (.fact functor (first :: more)) right := by
  have hne := ne_listFunctor_of_isWord hfunctor
  refine .of_front ?_ fun {rest after} hrest hafter heq => ?_
  · rw [renderAt_compound hne, renderAt_compound hne]
    simp [String.append_assoc]
  · have hshaped := hright.shaped_of_text (.compound hfunctor hargs) hrest hafter heq
    rw [form_compound hne] at hshaped
    obtain ⟨functor', first', more', rfl, hchars, hargs'⟩ := hshaped
    obtain rfl := String.toList_inj.mp hchars
    rw [renderAt_compound hne, renderAt_compound hne] at heq
    simp only [String.toList_append, List.append_assoc] at heq
    have hinside := List.append_cancel_left (List.append_cancel_left (List.append_cancel_left heq))
    obtain ⟨hsame, hbehind⟩ := (htold first List.mem_cons_self
      (hargs' first' List.mem_cons_self)).front (separated_more more rest).closed
      (separated_more more' after).closed hinside
    obtain ⟨hall, hend⟩ := told_more (fun arg harg other hother => htold arg
      (List.mem_cons_of_mem _ harg) (hargs' other (List.mem_cons_of_mem _ hother))) hbehind
    exact ⟨same_fact (by rw [sameAll, hsame, hall, Bool.and_self]), hend⟩

/-- The induction is on the way the left term is built; its form says how the right
one is. -/
theorem Unmixed.told {left right : Term} (hleft : left.Unmixed kindOf)
    (hright : right.Unmixed kindOf) : Told left right := by
  induction hleft generalizing right with
  | @word term text hterm htext hkind =>
      refine .of_front ?_ fun hrest hmore heq => ?_
      · rw [renderAt_of_word? hterm htext, renderAt_of_word? hterm htext]
        simp
      · have hshaped := hright.shaped_of_text (.word hterm htext hkind) hrest hmore heq
        rw [form_of_word? hterm htext] at hshaped
        obtain ⟨text', hterm', htext', hkind', hchars⟩ := hshaped
        obtain rfl := String.toList_inj.mp hchars
        rw [renderAt_of_word? hterm htext, renderAt_of_word? hterm' htext'] at heq
        exact ⟨same_of_word? hterm hterm' (hkind.trans hkind'.symm), List.append_cancel_left heq⟩
  | @str text htext =>
      refine .of_front ?_ fun hrest hmore heq => ?_
      · simp only [renderAt, if_true, Bool.false_eq_true, if_false, String.append_assoc,
          String.empty_append]
      · have hshaped := hright.shaped_of_text (.str htext) hrest hmore heq
        obtain ⟨text', rfl, hchars⟩ := hshaped
        obtain rfl := String.toList_inj.mp hchars
        exact ⟨decide_eq_true rfl, List.append_cancel_left heq⟩
  | emptyList => exact told_emptyList hright
  | cell hfirst hsecond ihFirst ihSecond =>
      exact told_cell hfirst hsecond hright ihFirst ihSecond
  | compound hfunctor hargs ih => exact told_compound hfunctor hargs hright ih

/-- A term that is told from others of its kind by its text: variables, atoms,
strings and numbers always are, and facts whose arguments are unmixed. -/
def Readable (kindOf : String → Kind) : Term → Prop
  | .fact functor args =>
      (IsWord functor ∨ Fact.isList ⟨functor, args⟩ = true) ∧ ∀ arg ∈ args, arg.Unmixed kindOf
  | _ => True

/-- A fact without arguments is a word of its kind. -/
theorem Readable.unmixed_constant {functor : String}
    (hterm : (Term.fact functor []).Readable kindOf) :
    (Term.fact functor []).Unmixed fun _ => .fact := by
  rcases hterm.1 with hword | hlist
  · exact .word rfl hword rfl
  · obtain rfl : functor = listFunctor := by simpa [Fact.isList] using hlist
    exact .emptyList

theorem Readable.unmixed_args {functor : String} {first : Term} {more : List Term}
    (hterm : (Term.fact functor (first :: more)).Readable kindOf) :
    (Term.fact functor (first :: more)).Unmixed kindOf := by
  rcases hterm.1 with hword | hlist
  · exact .compound hword hterm.2
  · obtain ⟨rfl, hlength⟩ : functor = listFunctor ∧ more.length = 1 := by
      simpa [Fact.isList] using hlist
    obtain ⟨second, rfl⟩ := List.length_eq_one_iff.mp hlength
    exact .cell (hterm.2 first (by simp)) (hterm.2 second (by simp))

theorem form_args_ne_form_constant (functor other : String) (first : Term) (more : List Term) :
    (fact functor (first :: more)).form ≠ (fact other []).form := by
  match more with
  | [_] => by_cases hlist : functor = listFunctor <;> by_cases hempty : other = listFunctor <;>
      simp [form, hlist, hempty]
  | [] | _ :: _ :: _ => by_cases hempty : other = listFunctor <;> simp [form, hempty]

theorem Readable.same_of_renderAt {left right : Term} (hleft : left.Readable kindOf)
    (hright : right.Readable kindOf) (hkind : left.kind = right.kind)
    (htext : left.renderAt false = right.renderAt false) : left.same right = true := by
  have hchars := congrArg (fun text => String.toList text ++ []) htext
  match left, right with
  | .var _, .var _ | .atom _, .atom _ | .num _, .num _ => simpa [renderAt, same] using htext
  | .str text, .str other =>
      simp only [renderAt, String.toList_append, List.append_nil] at hchars
      exact decide_eq_true (String.toList_inj.mp
        (List.append_cancel_left (List.append_cancel_right hchars)))
  | .fact _ [], .fact _ [] =>
      exact (hleft.unmixed_constant.told hright.unmixed_constant).front closed_nil closed_nil
        hchars |>.1
  | .fact _ (_ :: _), .fact _ (_ :: _) =>
      exact (hleft.unmixed_args.told hright.unmixed_args).front closed_nil closed_nil hchars |>.1
  | .fact functor (first :: more), .fact other [] =>
      have hform := hleft.unmixed_args.formOf_renderAt closed_nil
      rw [hchars, hright.unmixed_constant.formOf_renderAt closed_nil] at hform
      exact absurd hform.symm (form_args_ne_form_constant functor other first more)
  | .fact other [], .fact functor (first :: more) =>
      have hform := hright.unmixed_args.formOf_renderAt closed_nil
      rw [← hchars, hleft.unmixed_constant.formOf_renderAt closed_nil] at hform
      exact absurd hform.symm (form_args_ne_form_constant functor other first more)

/-- Between readable terms, comparing kinds and texts is comparing terms. -/
theorem Readable.sameText_iff {left right : Term} (hleft : left.Readable kindOf)
    (hright : right.Readable kindOf) : left.sameText right = true ↔ left.same right = true := by
  refine ⟨fun hsame => ?_, sameText_of_same⟩
  rw [Term.sameText_iff] at hsame
  exact hleft.same_of_renderAt hright hsame.1 hsame.2

end Term

/-- A variable that has a value stays as it is.  It accepts the same value, and no
other where the values are readable. -/
theorem value_is_compared {bindings : Bindings} (hacyclic : bindings.Acyclic) {name : Var}
    (hbound : (bindings.dereference (.var name)).isVar = false) (term : Term) :
    (bindings.bind? name term = some bindings ∨ bindings.bind? name term = none) ∧
    ((bindings.ground (.var name)).same (bindings.ground term) = true →
      bindings.bind? name term = some bindings) ∧
    ∀ kindOf, (bindings.ground (.var name)).Readable kindOf →
      (bindings.ground term).Readable kindOf →
      (bindings.bind? name term = some bindings ↔
        (bindings.ground (.var name)).same (bindings.ground term) = true) := by
  have hvalue : bindings.ground (.var name) =
      bindings.ground (bindings.dereference (.var name)) := by
    change bindings.value name = _
    rw [hacyclic.value_eq, hbound]
    rfl
  have hbind := Bindings.bind?_of_bound hbound term
  rw [hvalue]
  refine ⟨?_, fun hsame => ?_, fun kindOf hleft hright => ?_⟩
  · rw [hbind]
    split
    · exact Or.inl rfl
    · exact Or.inr rfl
  · rw [hbind, if_pos (Term.sameText_of_same hsame)]
  · rw [hbind, ← hleft.sameText_iff hright]
    split <;> simp_all

/-- Under `X = f(Z, "t")` the variable takes that value again, and not `f(W, "t")`. -/
theorem value_is_taken_again :
    let bindings := Bindings.empty.insert "X" (.fact "f" [.var "Z", .str "t"])
    bindings.Acyclic ∧ (bindings.dereference (.var "X")).isVar = false ∧
      bindings.bind? "X" (.fact "f" [.var "Z", .str "t"]) = some bindings ∧
      bindings.bind? "X" (.fact "f" [.var "W", .str "t"]) = none := by
  intro bindings
  have hacyclic : bindings.Acyclic := Bindings.acyclic_single (by decide)
  have hbound : (bindings.dereference (.var "X")).isVar = false := by decide +kernel
  have hreadable : ∀ name ∈ ["Z", "W"],
      (Term.fact "f" [.var name, .str "t"]).Readable fun _ => .variable := by
    intro name hname
    refine ⟨Or.inl (isWord_of_all (by decide) (by decide)), ?_⟩
    intro arg harg
    rcases List.mem_pair.mp harg with rfl | rfl
    · refine .word rfl ?_ rfl
      rcases List.mem_pair.mp hname with rfl | rfl
      · exact isWord_of_all (by decide) (by decide)
      · exact isWord_of_all (by decide) (by decide)
    · exact .str (by decide)
  have hvalue : bindings.ground (.var "X") = .fact "f" [.var "Z", .str "t"] := by rfl
  have hother : bindings.ground (.fact "f" [.var "W", .str "t"]) =
      .fact "f" [.var "W", .str "t"] := by rfl
  obtain ⟨_, hagain, _⟩ := value_is_compared hacyclic hbound (.fact "f" [.var "Z", .str "t"])
  obtain ⟨hends, _, hexactly⟩ := value_is_compared hacyclic hbound (.fact "f" [.var "W", .str "t"])
  refine ⟨hacyclic, hbound, hagain (by decide +kernel), hends.resolve_left fun htaken => ?_⟩
  have hsame := (hexactly _ (hvalue ▸ hreadable "Z" (by simp))
    (hother ▸ hreadable "W" (by simp))).mp htaken
  rw [hvalue, hother] at hsame
  exact absurd hsame (by decide)

/-- Under `X = f(g)` the variable also takes `f(g())`, whose argument is no atom but a
fact of the same text. -/
theorem fact_is_taken_for_atom :
    let bindings := Bindings.empty.insert "X" (.fact "f" [.atom "g"])
    bindings.Acyclic ∧ (bindings.dereference (.var "X")).isVar = false ∧
      bindings.bind? "X" (.fact "f" [.fact "g" []]) = some bindings ∧
      (bindings.ground (.var "X")).same (bindings.ground (.fact "f" [.fact "g" []])) = false := by
  intro bindings
  have hacyclic : bindings.Acyclic := Bindings.acyclic_single (by decide)
  have hbound : (bindings.dereference (.var "X")).isVar = false := by decide +kernel
  refine ⟨hacyclic, hbound, ?_, by decide +kernel⟩
  rw [Bindings.bind?_of_bound hbound, if_pos (by decide +kernel)]

end Horn
