/-
Statements that are read back from their texts.  The text of each part is the
spelling of a derivation of that part, so the parser reads it; the derivations
are put together as the texts are.
-/
import Horn.Proofs.NodeForm
import Horn.Proofs.Printable
import Horn.Proofs.Scanning

namespace Horn

/-- Some tokens are scanned from a text wherever no name goes on behind it. -/
def Spelled (text : String) (tokens : List Token) : Prop :=
  ∀ rest, WordEnds rest → Scans text.toList tokens rest

/-- A sign other than a slash or a colon is scanned by itself. -/
theorem scans_mark {c : Char} {mark : Symbol} (hmark : Symbol.ofChar? c = some mark)
    (hcolon : c ≠ ':') (hslash : c ≠ '/') (rest : List Char) : Scans [c] [.symbol mark] rest :=
  scans_symbol hmark hcolon fun heq => absurd heq hslash

/-- A number is written as it is, or as a minus and another number. -/
theorem spelled_numberText {value : Float} (hplain : IsPlain value)
    (hexact : PrintsExactly value) :
    Spelled (numberText value) [.number value] ∨
      ∃ size, -size = value ∧ Spelled (numberText value) [.symbol .minus, .number size] := by
  obtain ⟨whole, places, hwhole, hplaces, htext⟩ := numberText_of_isPlain hplain
  have hvalue := hexact whole places htext
  have hnumber {rest : List Char} (hrest : WordEnds rest) :=
    scans_number hwhole.digits hwhole.nonempty hplaces.digits hplaces.nonempty hrest
  by_cases hnegative : isNegative value = true
  · rw [if_pos hnegative] at hvalue
    rw [signText, if_pos hnegative] at htext
    refine .inr ⟨_, hvalue, fun rest hrest => ?_⟩
    rw [htext]
    exact (scans_mark rfl (by decide) (by decide) _).append (hnumber hrest)
  · rw [if_neg hnegative] at hvalue
    rw [signText, if_neg hnegative] at htext
    refine .inl fun rest hrest => ?_
    rw [htext, ← hvalue]
    exact hnumber hrest

theorem writtenVar_of_isWritten {name : Var} (hname : IsWritten name) (before : Nat) :
    writtenVar before name = name :=
  if_neg hname.2

/-- A derivation of a term whose tokens are scanned from the text of that term. -/
def ArgTree.Spells (tree : ArgTree) (term : Term) : Prop :=
  (∀ before, tree.term before = term) ∧ Spelled term.render tree.tokens

def Term.ReadsBack (term : Term) : Prop :=
  ∃ tree : ArgTree, tree.Spells term

/-- A derivation of a fact whose tokens are scanned from the text of that fact. -/
def FactTree.Spells (tree : FactTree) (fact : Fact) : Prop :=
  (∀ before, tree.fact before = fact) ∧ Spelled fact.render tree.tokens

def Fact.ReadsBack (fact : Fact) : Prop :=
  ∃ tree : FactTree, tree.Spells fact

/-- As an argument a word is an atom; any other fact stays what it is. -/
theorem FactTree.Spells.readsBack {tree : FactTree} {fact : Fact} (hspells : tree.Spells fact)
    (hword : ∀ name, tree ≠ .word name) : fact.toTerm.ReadsBack := by
  refine ⟨.fact tree, fun before => ?_, hspells.2⟩
  rw [← hspells.1 before]
  cases tree with
  | word name => exact absurd rfl (hword name)
  | _ => rfl

theorem readsBack_var {name : Var} (hname : IsWritten name) : (Term.var name).ReadsBack := by
  refine ⟨.var name, fun before => ?_, fun rest hrest => ?_⟩
  · rw [ArgTree.term, writtenVar_of_isWritten hname]
  · have htext : (Term.var name).render = name := by simp [Term.render, Term.renderAt]
    rw [htext]
    exact scans_variable hname.1 hrest

theorem readsBack_atom {text : String} (htext : isIdentifier text = true) :
    (Term.atom text).ReadsBack := by
  refine ⟨.fact (.word text), fun _ => rfl, fun rest hrest => ?_⟩
  have hsame : (Term.atom text).render = text := by simp [Term.render, Term.renderAt]
  rw [hsame]
  exact scans_identifier htext hrest

theorem readsBack_str {text : String} (htext : ∀ c ∈ text.toList, c ≠ '"' ∧ c ≠ '\n') :
    (Term.str text).ReadsBack := by
  refine ⟨.string text, fun _ => rfl, fun rest _ => ?_⟩
  have hsame : (Term.str text).render.toList = '"' :: (text.toList ++ ['"']) := by
    simp [Term.render, Term.renderAt]
  rw [hsame]
  exact scans_string htext rest

theorem readsBack_num {value : Float} (hplain : IsPlain value) (hexact : PrintsExactly value) :
    (Term.num value).ReadsBack := by
  have htext : (Term.num value).render = numberText value := by simp [Term.render, Term.renderAt]
  rcases spelled_numberText hplain hexact with htokens | ⟨size, hsize, htokens⟩
  · exact ⟨.number value, fun _ => rfl, htext ▸ htokens⟩
  · exact ⟨.negative size, fun _ => congrArg Term.num hsize, htext ▸ htokens⟩

theorem exists_args {first : Term} {more : List Term} (hfirst : first.ReadsBack)
    (hmore : ∀ arg ∈ more, arg.ReadsBack) :
    ∃ tree : ArgsTree, (∀ before, tree.terms before = first :: more) ∧
      ∀ rest, Scans ((first.renderAt false).toList ++ (Term.renderMore more).toList) tree.tokens
        (')' :: rest) := by
  induction more generalizing first with
  | nil =>
      obtain ⟨tree, hterm, hscans⟩ := hfirst
      refine ⟨.last tree, fun before => ?_, fun rest => ?_⟩
      · rw [ArgsTree.terms, hterm]
      · rw [Term.renderMore, String.toList_empty, List.append_nil]
        exact hscans _ (wordEnds_cons (by decide) rest)
  | cons second more ih =>
      obtain ⟨tree, hterm, hscans⟩ := hfirst
      obtain ⟨others, hterms, hothers⟩ := ih (hmore second List.mem_cons_self) fun arg harg =>
        hmore arg (List.mem_cons_of_mem _ harg)
      refine ⟨.more tree others, fun before => ?_, fun rest => ?_⟩
      · rw [ArgsTree.terms, hterm, hterms]
      · have htext := Term.renderMore_cons second more []
        rw [List.append_nil, List.append_nil] at htext
        rw [htext]
        exact (hscans _ (wordEnds_cons (by decide) _)).append
          ((scans_mark rfl (by decide) (by decide) _).append (hothers rest))

theorem word_spells {name : String} (hname : isIdentifier name = true) :
    (FactTree.word name).Spells ⟨name, []⟩ := by
  refine ⟨fun _ => rfl, fun rest hrest => ?_⟩
  have htext : (Fact.mk name []).render = name := by
    have hne := ne_listFunctor_of_isIdentifier hname
    simp [Fact.render, Fact.toTerm, Term.render, Term.renderAt, hne]
  rw [htext]
  exact scans_identifier hname hrest

theorem exists_call {functor : String} (hfunctor : isIdentifier functor = true) {first : Term}
    {more : List Term} (hargs : ∀ arg ∈ first :: more, arg.ReadsBack) :
    ∃ args, (FactTree.call (.identifier functor) args).Spells ⟨functor, first :: more⟩ := by
  obtain ⟨hfirst, hmore⟩ := List.forall_mem_cons.mp hargs
  obtain ⟨args, hterms, hscans⟩ := exists_args hfirst hmore
  refine ⟨args, fun before => ?_, fun rest hrest => ?_⟩
  · rw [FactTree.fact, hterms]
    rfl
  · have htext : (Fact.mk functor (first :: more)).render.toList = functor.toList ++
        ('(' :: (((first.renderAt false).toList ++ (Term.renderMore more).toList) ++ [')'])) := by
      simp only [Fact.render, Fact.toTerm, Term.render,
        Term.renderAt_compound (ne_listFunctor_of_isIdentifier hfunctor), Bool.false_eq_true,
        if_false, String.empty_append, String.toList_append, List.append_assoc]
      rfl
    rw [htext]
    have hclose := scans_mark (c := ')') rfl (by decide) (by decide) rest
    have hopen := (scans_mark (c := '(') rfl (by decide) (by decide) _).append
      ((hscans rest).append hclose)
    exact (scans_identifier hfunctor (wordEnds_cons (by decide) _)).append hopen

/-- A list with one more item in front. -/
def ListTree.push (first : ArgTree) : ListTree → ListTree
  | .empty => .closed (.last first)
  | .closed items => .closed (.more first items)
  | .opened items tail => .opened (.more first items) tail

theorem ListTree.fact_push (first : ArgTree) (list : ListTree) (before : Nat) :
    (list.push first).fact before = ⟨listFunctor,
      [first.term before, (list.fact (before + placeholders first.tokens)).toTerm]⟩ := by
  cases list with
  | empty => rfl
  | closed items =>
      rw [push, ListTree.fact, ListTree.fact, toTerm_listFact (items.terms_ne_nil _)]
      rfl
  | opened items tail =>
      have hcount : placeholders (ArgsTree.more first items).tokens =
          placeholders first.tokens + placeholders items.tokens := by
        rw [ArgsTree.tokens, placeholders_append]
        rfl
      rw [push, ListTree.fact, ListTree.fact, toTerm_listFact (items.terms_ne_nil _), hcount,
        Nat.add_assoc]
      rfl

theorem ListTree.tokens_push (first : ArgTree) {list : ListTree} {tokens : List Token}
    (hitems : list ≠ .empty) (htokens : list.tokens = .symbol .leftBracket :: tokens) :
    (list.push first).tokens =
      .symbol .leftBracket :: (first.tokens ++ .symbol .comma :: tokens) := by
  cases list with
  | empty => exact absurd rfl hitems
  | closed items =>
      rw [ListTree.tokens, List.cons.injEq] at htokens
      rw [push, ListTree.tokens, ArgsTree.tokens, ← htokens.2, List.append_assoc, List.cons_append]
  | opened items tail =>
      rw [ListTree.tokens, List.cons.injEq] at htokens
      rw [push, ListTree.tokens, ArgsTree.tokens, ← htokens.2, List.append_assoc, List.cons_append]

/-- A derivation of a list cell; behind the left bracket its tokens are scanned
from the text that two terms have there. -/
def ListTree.Continues (list : ListTree) (first second : Term) : Prop :=
  (∀ before, list.fact before = ⟨listFunctor, [first, second]⟩) ∧
    ∃ tokens, list.tokens = .symbol .leftBracket :: tokens ∧
      ∀ rest, Scans ((first.renderAt false).toList ++ ((second.renderAt true).toList ++ [']']))
        tokens rest

theorem ListTree.Continues.spells {list : ListTree} {first second : Term}
    (hlist : list.Continues first second) :
    (FactTree.list list).Spells ⟨listFunctor, [first, second]⟩ := by
  obtain ⟨hfact, tokens, htokens, hscans⟩ := hlist
  refine ⟨hfact, fun rest _ => ?_⟩
  have htext : (Fact.mk listFunctor [first, second]).render.toList =
      '[' :: ((first.renderAt false).toList ++ ((second.renderAt true).toList ++ [']'])) := by
    simp only [Fact.render, Fact.toTerm, Term.render, Term.renderAt_cell, String.toList_append,
      List.append_assoc]
    rfl
  rw [htext, FactTree.tokens, htokens]
  exact (scans_mark rfl (by decide) (by decide) _).append (hscans rest)

theorem emptyList_spells : (FactTree.list .empty).Spells ⟨listFunctor, []⟩ := by
  refine ⟨fun _ => rfl, fun rest _ => ?_⟩
  have htext : (Fact.mk listFunctor []).render.toList = ['[', ']'] := by decide
  rw [htext]
  exact (scans_mark rfl (by decide) (by decide) _).append
    (scans_mark rfl (by decide) (by decide) rest)

/-- If the term is a list cell, its items are read behind the items of a list. -/
def Term.ReadsInTail (term : Term) : Prop :=
  ∀ first second, term = .fact listFunctor [first, second] →
    ∃ list : ListTree, list.Continues first second

/-- The tail of a list is nothing, or more items of the same list, or stands
behind a bar. -/
theorem exists_list {first second : Term} (hfirst : first.ReadsBack) (hsecond : second.ReadsBack)
    (hcell : second.ReadsInTail) :
    ∃ list : ListTree, list.Continues first second := by
  obtain ⟨head, hterm, hscans⟩ := hfirst
  have hclose := scans_mark (c := ']') rfl (by decide) (by decide)
  rcases second.renderAt_tail with rfl | ⟨item, tail, rfl⟩ | hbar
  · refine ⟨.push head .empty, fun before => ?_, _, rfl, fun rest => ?_⟩
    · rw [ListTree.fact_push, hterm]
      rfl
    · exact (hscans _ (wordEnds_cons (by decide) rest)).append (hclose rest)
  · obtain ⟨list, hfact, tokens, htokens, hitems⟩ := hcell item tail rfl
    have hnonempty : list ≠ .empty := by
      rintro rfl
      cases hfact 0
    refine ⟨.push head list, fun before => ?_, _, list.tokens_push head hnonempty htokens,
      fun rest => ?_⟩
    · rw [ListTree.fact_push, hterm, hfact]
      rfl
    · have htext : ((Term.fact listFunctor [item, tail]).renderAt true).toList ++ [']'] =
          ',' :: ((item.renderAt false).toList ++ ((tail.renderAt true).toList ++ [']'])) := by
        simp only [Term.renderAt_cell, if_true, String.append_empty, String.toList_append,
          List.append_assoc]
        rfl
      rw [htext]
      exact (hscans _ (wordEnds_cons (by decide) _)).append
        ((scans_mark rfl (by decide) (by decide) _).append (hitems rest))
  · obtain ⟨tree, hother, hmore⟩ := hsecond
    refine ⟨.opened (.last head) tree, fun before => ?_, _, rfl, fun rest => ?_⟩
    · rw [ListTree.fact, ArgsTree.terms, hterm, hother]
      rfl
    · have htext : (second.renderAt true).toList ++ [']'] =
          '|' :: ((second.renderAt false).toList ++ [']']) := by
        rw [hbar, String.toList_append, List.append_assoc]
        rfl
      rw [htext]
      exact (hscans _ (wordEnds_cons (by decide) _)).append
        ((scans_mark rfl (by decide) (by decide) _).append
          ((hmore _ (wordEnds_cons (by decide) rest)).append (hclose rest)))

theorem exactly_of_mem {terms : List Term}
    (hexact : ∀ value ∈ Term.numbersAll terms, PrintsExactly value) :
    ∀ term ∈ terms, ∀ value ∈ term.numbers, PrintsExactly value := by
  intro term hterm value hvalue
  apply hexact
  rw [Term.numbersAll_eq_flatMap]
  exact List.mem_flatMap.mpr ⟨term, hterm, hvalue⟩

theorem eq_listFunctor_of_isList {functor : String} {args : List Term}
    (hlist : (Fact.mk functor args).isList = true) :
    functor = listFunctor ∧ (args = [] ∨ ∃ first second, args = [first, second]) := by
  simp only [Fact.isList, Bool.and_eq_true, Bool.or_eq_true, decide_eq_true_eq,
    List.length_eq_zero_iff, List.length_eq_two] at hlist
  exact hlist

theorem readsInTail_of_ne {functor : String} (hfunctor : functor ≠ listFunctor)
    (args : List Term) : (Term.fact functor args).ReadsInTail := by
  rintro _ _ ⟨⟩
  exact absurd rfl hfunctor

/-- The facts among the arguments. -/
theorem exists_compound {functor : String} {args : List Term}
    (hkind : isIdentifier functor = true ∧ args ≠ [] ∨ (Fact.mk functor args).isList = true)
    (hargs : ∀ arg ∈ args, arg.ReadsBack ∧ arg.ReadsInTail) :
    (Term.fact functor args).ReadsInTail ∧
      ∃ tree : FactTree, tree.Spells ⟨functor, args⟩ ∧ ∀ name, tree ≠ .word name := by
  rcases hkind with ⟨hfunctor, hnonempty⟩ | hlist
  · obtain ⟨first, more, rfl⟩ := List.exists_cons_of_ne_nil hnonempty
    obtain ⟨args, hspells⟩ := exists_call hfunctor fun arg harg => (hargs arg harg).1
    exact ⟨readsInTail_of_ne (ne_listFunctor_of_isIdentifier hfunctor) _, _, hspells, by simp⟩
  · obtain ⟨rfl, rfl | ⟨first, second, rfl⟩⟩ := eq_listFunctor_of_isList hlist
    · exact ⟨by rintro _ _ ⟨⟩, _, emptyList_spells, by simp⟩
    · obtain ⟨hsecond, hcell⟩ := hargs second (by simp)
      obtain ⟨list, hcontinues⟩ := exists_list (hargs first (by simp)).1 hsecond hcell
      refine ⟨?_, _, hcontinues.spells, by simp⟩
      rintro _ _ ⟨⟩
      exact ⟨list, hcontinues⟩

theorem Term.Printable.readsBack {term : Term} (hterm : term.Printable)
    (hexact : ∀ value ∈ term.numbers, PrintsExactly value) :
    term.ReadsBack ∧ term.ReadsInTail := by
  induction hterm with
  | var hname => exact ⟨readsBack_var hname, by rintro _ _ ⟨⟩⟩
  | atom htext => exact ⟨readsBack_atom htext, by rintro _ _ ⟨⟩⟩
  | str htext => exact ⟨readsBack_str htext, by rintro _ _ ⟨⟩⟩
  | num hvalue =>
      have hsingle := hexact _ (List.mem_singleton_self _)
      exact ⟨readsBack_num hvalue hsingle, by rintro _ _ ⟨⟩⟩
  | fact hkind _ ih =>
      have hargs := fun arg harg => ih arg harg (exactly_of_mem hexact arg harg)
      obtain ⟨htail, tree, hspells, hword⟩ := exists_compound hkind hargs
      exact ⟨hspells.readsBack hword, htail⟩

/-- A fact without arguments is a word, unless it is a list. -/
theorem Fact.Printable.readsBack {fact : Fact} (hfact : fact.Printable)
    (hexact : ∀ value ∈ Term.numbersAll fact.args, PrintsExactly value) : fact.ReadsBack := by
  obtain ⟨functor, args⟩ := fact
  by_cases hword : isIdentifier functor = true ∧ args = []
  · obtain ⟨hfunctor, rfl⟩ := hword
    exact ⟨_, word_spells hfunctor⟩
  · have hkind := hfact.kind.imp_left fun hfunctor =>
      And.intro hfunctor fun hnil => hword ⟨hfunctor, hnil⟩
    obtain ⟨_, tree, hspells, _⟩ := exists_compound hkind fun arg harg =>
      (hfact.args arg harg).readsBack (exactly_of_mem hexact arg harg)
    exact ⟨tree, hspells⟩

def Factor.ReadsBack (factor : Factor) : Prop :=
  ∃ tree : FactorTree, (∀ before, tree.factor before = factor) ∧
    Spelled factor.render tree.tokens

theorem Factor.readsBack_num {value : Float} (hplain : IsPlain value)
    (hexact : PrintsExactly value) : (Factor.num value).ReadsBack := by
  rcases spelled_numberText hplain hexact with htokens | ⟨size, hsize, htokens⟩
  · exact ⟨.number value, fun _ => rfl, htokens⟩
  · exact ⟨.negative size, fun _ => congrArg Factor.num hsize, htokens⟩

theorem Factor.readsBack_var {name : Var} (hname : IsWritten name) :
    (Factor.var name).ReadsBack := by
  refine ⟨.var name, fun before => ?_, fun rest hrest => scans_variable hname.1 hrest⟩
  rw [FactorTree.factor, writtenVar_of_isWritten hname]

/-- An operation in parentheses, with a blank on each side of its operator. -/
theorem scans_operation {left right op : String} {tokens more : List Token} {token : Token}
    (hleft : Spelled left tokens) (hright : Spelled right more)
    (hop : ∀ rest, Scans op.toList [token] (' ' :: rest)) (rest : List Char) :
    Scans ("(" ++ left ++ " " ++ op ++ " " ++ right ++ ")").toList
      (.symbol .leftParen :: (tokens ++ token :: (more ++ [.symbol .rightParen]))) rest := by
  have htext : ("(" ++ left ++ " " ++ op ++ " " ++ right ++ ")").toList =
      '(' :: (left.toList ++ ' ' :: (op.toList ++ ' ' :: (right.toList ++ [')']))) := by
    simp only [String.toList_append, List.append_assoc]
    rfl
  have hclose := (hright _ (wordEnds_cons (by decide) rest)).append
    (scans_mark (c := ')') rfl (by decide) (by decide) rest)
  have hmiddle := ((hop _).append hclose.blank).blank
  rw [htext]
  exact (scans_mark rfl (by decide) (by decide) _).append
    ((hleft _ (wordEnds_cons (by decide) _)).append hmiddle)

theorem scans_productOp (op : ProductOp) (rest : List Char) :
    Scans op.symbol.toList [op.token] (' ' :: rest) := by
  cases op with
  | multiply => exact scans_symbol rfl (by decide) fun hslash => absurd hslash (by decide)
  | divide => exact scans_symbol rfl (by decide) fun _ => by simp

theorem scans_sumOp (op : SumOp) (rest : List Char) :
    Scans op.symbol.toList [op.token] (' ' :: rest) := by
  cases op with
  | add => exact scans_mark rfl (by decide) (by decide) _
  | subtract => exact scans_mark rfl (by decide) (by decide) _

theorem readsBack_product {left right : Factor} (hleft : left.ReadsBack)
    (hright : right.ReadsBack) (op : ProductOp) :
    (Factor.paren (.single ⟨left, some op, some right⟩)).ReadsBack := by
  obtain ⟨first, hfirst, htokens⟩ := hleft
  obtain ⟨second, hsecond, hmore⟩ := hright
  refine ⟨.paren (.chain (.chain first (.next op second .done)) .done), fun before => ?_,
    fun rest _ => ?_⟩
  · rw [FactorTree.factor, ExprTree.expr, SumsTree.extend, ProductTree.product,
      ProductsTree.extend, ProductsTree.extend, hfirst, hsecond]
    rfl
  · have hsame : (FactorTree.paren (.chain (.chain first (.next op second .done)) .done)).tokens =
        .symbol .leftParen ::
          (first.tokens ++ op.token :: (second.tokens ++ [.symbol .rightParen])) := by
      simp [FactorTree.tokens, ExprTree.tokens, SumsTree.tokens, ProductTree.tokens,
        ProductsTree.tokens]
    rw [hsame, Factor.render, Expr.single, Expr.render, Product.render]
    exact scans_operation htokens hmore (scans_productOp op) rest

theorem readsBack_sum {left right : Factor} (hleft : left.ReadsBack) (hright : right.ReadsBack)
    (op : SumOp) :
    (Factor.paren ⟨.single left, some op, some (.single right)⟩).ReadsBack := by
  obtain ⟨first, hfirst, htokens⟩ := hleft
  obtain ⟨second, hsecond, hmore⟩ := hright
  refine ⟨.paren (.chain (.chain first .done) (.next op (.chain second .done) .done)),
    fun before => ?_, fun rest _ => ?_⟩
  · rw [FactorTree.factor, ExprTree.expr, SumsTree.extend, SumsTree.extend, ProductTree.product,
      ProductTree.product, ProductsTree.extend, ProductsTree.extend, hfirst, hsecond]
    rfl
  · have hsame : (FactorTree.paren (.chain (.chain first .done)
        (.next op (.chain second .done) .done))).tokens = .symbol .leftParen ::
          (first.tokens ++ op.token :: (second.tokens ++ [.symbol .rightParen])) := by
      simp [FactorTree.tokens, ExprTree.tokens, SumsTree.tokens, ProductTree.tokens,
        ProductsTree.tokens]
    rw [hsame, Factor.render, Expr.render, Product.single, Product.single, Product.render,
      Product.render]
    exact scans_operation htokens hmore (scans_sumOp op) rest

mutual

theorem Factor.Printable.readsBack {factor : Factor} (hfactor : factor.Printable)
    (hexact : ∀ value ∈ factor.numbers, PrintsExactly value) : factor.reread.ReadsBack := by
  cases factor with
  | num value => exact Factor.readsBack_num hfactor (hexact value (List.mem_singleton_self _))
  | var name => exact Factor.readsBack_var hfactor
  | paren expr => exact Expr.Printable.readsBack hfactor hexact

theorem Product.Printable.readsBack {product : Product} (hproduct : product.Printable)
    (hexact : ∀ value ∈ product.numbers, PrintsExactly value) : product.asFactor.ReadsBack := by
  obtain ⟨left, _ | op, _ | right⟩ := product
  · exact Factor.Printable.readsBack hproduct hexact
  · exact hproduct.elim
  · exact hproduct.elim
  · obtain ⟨hleft, hright⟩ := List.forall_mem_append.mp hexact
    exact readsBack_product (Factor.Printable.readsBack hproduct.1 hleft)
      (Factor.Printable.readsBack hproduct.2 hright) op

theorem Expr.Printable.readsBack {expr : Expr} (hexpr : expr.Printable)
    (hexact : ∀ value ∈ expr.numbers, PrintsExactly value) : expr.asFactor.ReadsBack := by
  obtain ⟨left, _ | op, _ | right⟩ := expr
  · exact Product.Printable.readsBack hexpr hexact
  · exact hexpr.elim
  · exact hexpr.elim
  · obtain ⟨hleft, hright⟩ := List.forall_mem_append.mp hexact
    exact readsBack_sum (Product.Printable.readsBack hexpr.1 hleft)
      (Product.Printable.readsBack hexpr.2 hright) op

end

def Goal.ReadsBack (goal : Goal) : Prop :=
  ∃ tree : GoalTree, (∀ before, tree.goal before = goal) ∧ Spelled goal.render tree.tokens

theorem Fact.ReadsBack.goal {fact : Fact} (hfact : fact.ReadsBack) :
    (Goal.fact fact).ReadsBack := by
  obtain ⟨tree, hmeans, htokens⟩ := hfact
  exact ⟨.fact tree, fun before => congrArg Goal.fact (hmeans before), htokens⟩

theorem readsBack_assign {target : Var} (htarget : IsWritten target) {value : Factor}
    (hvalue : value.ReadsBack) : (Goal.assign target (.single (.single value))).ReadsBack := by
  obtain ⟨tree, hmeans, htokens⟩ := hvalue
  refine ⟨.assign target (.chain (.chain tree .done) .done), fun before => ?_,
    fun rest hrest => ?_⟩
  · rw [GoalTree.goal, ExprTree.expr, SumsTree.extend, ProductTree.product, ProductsTree.extend,
      hmeans, writtenVar_of_isWritten htarget]
  · have htext : (Goal.assign target (.single (.single value))).render.toList =
        target.toList ++ ' ' :: ("is".toList ++ ' ' :: value.render.toList) := by
      simp only [Goal.render, Expr.single, Expr.render, Product.single, Product.render,
        String.toList_append, List.append_assoc]
      rfl
    have hsame : (GoalTree.assign target (.chain (.chain tree .done) .done)).tokens =
        .variable target :: .identifier "is" :: tree.tokens := by
      simp [GoalTree.tokens, ExprTree.tokens, SumsTree.tokens, ProductTree.tokens,
        ProductsTree.tokens]
    have his : isIdentifier "is" = true := by decide
    have hword := (scans_identifier his (wordEnds_cons (by decide) _)).append
      (htokens rest hrest).blank
    rw [htext, hsame]
    exact (scans_variable htarget.1 (wordEnds_cons (by decide) _)).append hword.blank

theorem Goal.Printable.readsBack {goal : Goal} (hgoal : goal.Printable)
    (hexact : ∀ value ∈ goal.numbers, PrintsExactly value) : goal.reread.ReadsBack := by
  cases goal with
  | fact fact => exact (Fact.Printable.readsBack hgoal hexact).goal
  | assign target value =>
      exact readsBack_assign hgoal.1 (Expr.Printable.readsBack hgoal.2 hexact)

theorem exists_goals {first : Goal} {more : Query} (hfirst : first.ReadsBack)
    (hmore : ∀ goal ∈ more, goal.ReadsBack) :
    ∃ tree : GoalsTree, (∀ before, tree.goals before = first :: more) ∧
      Spelled (Query.render (first :: more)) tree.tokens := by
  induction more generalizing first with
  | nil =>
      obtain ⟨tree, hgoal, htokens⟩ := hfirst
      refine ⟨.last tree, fun before => ?_, ?_⟩
      · rw [GoalsTree.goals, hgoal]
      · rw [Query.render, List.map_singleton, String.intercalate_singleton]
        exact htokens
  | cons second more ih =>
      obtain ⟨tree, hgoal, htokens⟩ := hfirst
      obtain ⟨hsecond, hothers⟩ := List.forall_mem_cons.mp hmore
      obtain ⟨others, hgoals, hscans⟩ := ih hsecond hothers
      refine ⟨.more tree others, fun before => ?_, fun rest hrest => ?_⟩
      · rw [GoalsTree.goals, hgoal, hgoals]
      · have htext : (Query.render (first :: second :: more)).toList =
            first.render.toList ++ ',' :: ' ' :: (Query.render (second :: more)).toList := by
          rw [Query.render, List.map_cons, List.map_cons, String.intercalate_cons_cons,
            String.toList_append, String.toList_append, List.append_assoc]
          rfl
        rw [htext]
        exact (htokens _ (wordEnds_cons (by decide) _)).append
          ((scans_mark rfl (by decide) (by decide) _).append (hscans rest hrest).blank)

theorem Query.Printable.readsBack {goals : Query} (hgoals : Query.Printable goals)
    (hexact : ∀ value ∈ Query.numbers goals, PrintsExactly value) :
    ∃ tree : GoalsTree, (∀ before, tree.goals before = Query.reread goals) ∧
      Spelled (Query.render (Query.reread goals)) tree.tokens := by
  obtain ⟨first, more, rfl⟩ := List.exists_cons_of_ne_nil hgoals.1
  have hread : ∀ goal ∈ first :: more, goal.reread.ReadsBack := fun goal hgoal =>
    (hgoals.2 goal hgoal).readsBack fun value hvalue =>
      hexact value (List.mem_flatMap.mpr ⟨goal, hgoal, hvalue⟩)
  rw [← List.forall_mem_map, List.map_cons, List.forall_mem_cons] at hread
  exact exists_goals hread.1 hread.2

theorem Statement.Printable.exists_derivation {statement : Statement}
    (hstatement : statement.Printable)
    (hexact : ∀ value ∈ statement.numbers, PrintsExactly value) :
    ∃ tree : StatementTree, (∀ before, tree.statement before = statement.reread) ∧
      Scans statement.reread.render.toList tree.tokens [] := by
  have hdot := scans_mark (c := '.') rfl (by decide) (by decide) []
  match statement with
  | .clause (.fact head) =>
      obtain ⟨tree, hfact, htokens⟩ := Fact.Printable.readsBack hstatement hexact
      refine ⟨.fact tree, fun before => ?_, ?_⟩
      · rw [StatementTree.statement, hfact]
        rfl
      · have htext : (Statement.clause (.fact head)).reread.render.toList =
            head.render.toList ++ ['.'] := String.toList_append
        rw [htext]
        exact (htokens _ (wordEnds_cons (by decide) _)).append hdot
  | .clause (.rule head body) =>
      obtain ⟨hheadExact, hbodyExact⟩ := List.forall_mem_append.mp hexact
      obtain ⟨tree, hfact, htokens⟩ := Fact.Printable.readsBack hstatement.1 hheadExact
      obtain ⟨goals, hgoals, hscans⟩ := Query.Printable.readsBack hstatement.2 hbodyExact
      refine ⟨.rule tree goals, fun before => ?_, ?_⟩
      · rw [StatementTree.statement, hfact, hgoals]
        rfl
      · have htext : (Statement.clause (.rule head body)).reread.render.toList =
            head.render.toList ++
              ' ' :: (':' :: '-' :: ' ' ::
                ((Query.render (Query.reread body)).toList ++ ['.'])) := by
          simp only [Statement.reread, Clause.reread, Statement.render, Clause.render,
            String.toList_append, List.append_assoc]
          rfl
        have hbody := (hscans _ (wordEnds_cons (by decide) _)).append hdot
        rw [htext]
        exact (htokens _ (wordEnds_cons (by decide) _)).append
          ((scans_neck _).append hbody.blank).blank
  | .query goals =>
      obtain ⟨tree, hgoals, hscans⟩ := Query.Printable.readsBack hstatement hexact
      refine ⟨.query tree true, fun before => ?_, ?_⟩
      · rw [StatementTree.statement, hgoals]
        rfl
      · have htext : (Statement.query goals).reread.render.toList =
            '?' :: '-' :: ' ' :: ((Query.render (Query.reread goals)).toList ++ ['.']) := by
          simp only [Statement.reread, Statement.render, String.toList_append, List.append_assoc]
          rfl
        have hbody := (hscans _ (wordEnds_cons (by decide) _)).append hdot
        rw [htext]
        exact (scans_query _).append hbody.blank

theorem toList?_of_scans {text : String} {tokens : List Token}
    (hscans : Scans text.toList tokens []) :
    (Tokens.ofString text).toList? = some tokens := by
  obtain ⟨last, htokens⟩ := hscans Position.start
  rw [List.append_nil] at htokens
  rw [Tokens.ofString, htokens, Tokens.scan_eq]
  exact congrArg some (List.append_nil tokens)

/-- The text of a printable statement is read as that statement with each
operation in parentheses of its own. -/
theorem Statement.Printable.parseProgram_render {statement : Statement}
    (hstatement : statement.Printable)
    (hexact : ∀ value ∈ statement.numbers, PrintsExactly value) :
    parseProgram statement.render = .ok [statement.reread] := by
  obtain ⟨tree, hmeans, hscans⟩ := hstatement.exists_derivation hexact
  rw [statement.render_reread] at hscans
  have htokens : (Tokens.ofString statement.render).toList? =
      some (ProgramTree.tokens [tree]) := by
    rw [toList?_of_scans hscans, ProgramTree.tokens_cons]
    exact congrArg some (List.append_nil _).symm
  rw [parseProgram_complete htokens, ProgramTree.statements, ProgramTree.statements, hmeans]

/-- The text of a printable statement is a program of one statement.  That one
has the same text and the same values, and is the statement itself if none of
its goals is an assignment. -/
theorem statement_text_is_read_back {statement : Statement} (hstatement : statement.Printable)
    (hexact : ∀ value ∈ statement.numbers, PrintsExactly value) :
    ∃ back, parseProgram statement.render = .ok [back] ∧ back.render = statement.render ∧
      ((∀ goal ∈ statement.goals, ¬ goal.IsAssignment) → back = statement) ∧
      back.SameValues statement :=
  ⟨statement.reread, hstatement.parseProgram_render hexact, statement.render_reread,
    Statement.reread_eq_self, Statement.sameValues_reread hstatement⟩

/-- The digits of a number are all there is on both sides of its point. -/
theorem printsExactly_of_text {value : Float} (whole places : List Char)
    (htext : (numberText value).toList = signText value ++ (whole ++ '.' :: places))
    (hpoint : '.' ∉ whole ∧ '.' ∉ places)
    (hvalue : (if isNegative value then -readNumber whole places else readNumber whole places) =
      value) : PrintsExactly value := by
  intro digits more hdigits
  rw [htext, List.append_cancel_left_eq,
    List.append_cons_inj_of_notMem hpoint.1 hpoint.2] at hdigits
  rw [← hdigits.1, ← hdigits.2.2]
  exact hvalue

/-- A rule with an open list, a negative number behind an operator, a list as a
goal and a goal without arguments. -/
def scaledRule : Statement :=
  .clause (.rule
    ⟨"scaled", [.list [.var "X", .num (-2.5)] (.var "T"), .str "a b", .fact "f" [.atom "a"]]⟩
    [.assign "X" ⟨⟨.var "Y", some .multiply, some (.num (-2.5))⟩, some .add,
        some (.single (.num 4))⟩,
      .fact ⟨listFunctor, [.atom "a", .var "T"]⟩, .fact ⟨"done", []⟩])

theorem scaledRule_printable : scaledRule.Printable := by
  have hnegative : IsPlain (-2.5) := by
    have hmagnitude : magnitude (-2.5) = .finite ⟨5 * 2 ^ 50, -51⟩ := by decide +kernel
    simp only [IsPlain, hmagnitude, Binary.size]
    norm_num
  have hfour : IsPlain 4 := by
    have hmagnitude : magnitude 4 = .finite ⟨2 ^ 52, -50⟩ := by decide +kernel
    simp only [IsPlain, hmagnitude, Binary.size]
    norm_num
  have hX : IsWritten "X" := ⟨by decide, by decide⟩
  have hT : IsWritten "T" := ⟨by decide, by decide⟩
  have ha : (Term.atom "a").Printable := .atom (by decide)
  have htail : (Term.list [.num (-2.5)] (.var "T")).Printable :=
    .fact (.inr (by decide)) (by simpa using ⟨.num hnegative, .var hT⟩)
  have hlist : (Term.list [.var "X", .num (-2.5)] (.var "T")).Printable :=
    .fact (.inr (by decide)) (by simpa using ⟨.var hX, htail⟩)
  have hcall : (Term.fact "f" [.atom "a"]).Printable :=
    .fact (.inl (by decide)) (by simpa using ha)
  have hassign : Goal.Printable (.assign "X" ⟨⟨.var "Y", some .multiply, some (.num (-2.5))⟩,
      some .add, some (.single (.num 4))⟩) :=
    ⟨hX, ⟨⟨by decide, by decide⟩, hnegative⟩, hfour⟩
  have hcell : Goal.Printable (.fact ⟨listFunctor, [.atom "a", .var "T"]⟩) :=
    ⟨.inr (by decide), by simpa using ⟨ha, .var hT⟩⟩
  have hdone : Goal.Printable (.fact ⟨"done", []⟩) := ⟨.inl (by decide), by simp⟩
  refine ⟨⟨.inl (by decide), ?_⟩, by simp, by simpa using ⟨hassign, hcell, hdone⟩⟩
  simpa using ⟨hlist, .str (by simp), hcall⟩

theorem scaledRule_printsExactly : ∀ value ∈ scaledRule.numbers, PrintsExactly value := by
  have hnegative : PrintsExactly (-2.5) :=
    printsExactly_of_text ['2'] ['5'] (by decide +kernel) (by decide) (by decide +kernel)
  have hfour : PrintsExactly 4 :=
    printsExactly_of_text ['4'] ['0'] (by decide +kernel) (by decide) (by decide +kernel)
  have hnumbers : scaledRule.numbers = [-2.5, -2.5, 4] := rfl
  rw [hnumbers]
  simpa using ⟨hnegative, hfour⟩

theorem scaledRule_is_read_back :
    scaledRule.Printable ∧ (∀ value ∈ scaledRule.numbers, PrintsExactly value) ∧
      scaledRule.render =
        "scaled([X,-2.5|T],\"a b\",f(a)) :- X is ((Y * -2.5) + 4.0), [a|T], done." ∧
      ∃ back, parseProgram scaledRule.render = .ok [back] ∧ back.render = scaledRule.render ∧
        ((∀ goal ∈ scaledRule.goals, ¬ goal.IsAssignment) → back = scaledRule) ∧
        back.SameValues scaledRule :=
  ⟨scaledRule_printable, scaledRule_printsExactly, by decide +kernel,
    statement_text_is_read_back scaledRule_printable scaledRule_printsExactly⟩

end Horn
