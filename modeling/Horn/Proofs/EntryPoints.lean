/-
The three ways to read a text.  Programs, queries and lines of commands are read
by the same readers and differ in what they do at the start and at the end of
the text, so that a text which two of them accept has one reading.
-/
import Horn.Proofs.Scanning

namespace Horn

/-- A sign of a query that may be missing. -/
def optionalSign (sign : Bool) : List Token :=
  if sign then [.symbol .query] else []

/-- The tokens of a query, with its sign and its dot or without them. -/
def queryTokens (sign : Bool) (goals : GoalsTree) (dot : Bool) : List Token :=
  optionalSign sign ++ (goals.tokens ++ optionalDot dot)

/-- Goals do not start with the sign of a query. -/
theorem ArgTree.head_ne_query (arg : ArgTree) (rest : List Token) :
    (arg.tokens ++ rest).head? ≠ some (.symbol .query) := by
  cases arg with
  | fact tree =>
      rw [ArgTree.tokens]
      generalize hstart : tree.tokens ++ rest = start
      cases hstart ▸ tree.startsFact rest <;> simp
  | _ => simp [ArgTree.tokens]

theorem GoalsTree.head_ne_query (goals : GoalsTree) (rest : List Token) :
    (goals.tokens ++ rest).head? ≠ some (.symbol .query) := by
  cases goals with
  | last goal =>
      rw [GoalsTree.tokens, goal.tokens_eq, List.append_assoc]
      exact goal.first.head_ne_query _
  | more goal more =>
      rw [GoalsTree.tokens, goal.tokens_eq, List.append_assoc, List.append_assoc]
      exact goal.first.head_ne_query _

/-- Only a query that has its sign starts with it. -/
theorem head_queryTokens_iff (sign : Bool) (goals : GoalsTree) (dot : Bool) :
    (queryTokens sign goals dot).head? = some (.symbol .query) ↔ sign = true := by
  cases sign with
  | true => exact iff_of_true rfl rfl
  | false => exact iff_of_false (goals.head_ne_query _) Bool.false_ne_true

namespace Reader

/-- What has been passed by looking for a symbol. -/
theorem passes_of_eat {symbol : Symbol} {input left : Input} {eaten : Bool}
    (heat : eat symbol input = .ok (eaten, left)) :
    input.Passes (if eaten then [.symbol symbol] else []) left := by
  have hread : (eat symbol >>= pure) input = .ok (eaten, left) := by rw [bind_pure, heat]
  rcases of_eat hread with hend | ⟨mid, hpasses, hend⟩
  · cases hend
    exact .nil input
  · cases hend
    exact hpasses

theorem eat_of_passes_or {symbol : Symbol} {eaten : Bool} {input left : Input}
    (hpasses : input.Passes (if eaten then [.symbol symbol] else []) left)
    (hnone : eaten = false → left.ahead.head? ≠ some (.symbol symbol)) :
    eat symbol input = .ok (eaten, left) := by
  cases eaten with
  | true => exact eat_of_passes hpasses
  | false =>
      obtain rfl := Input.Passes.eq_of_nil hpasses
      exact eat_of_ahead (hnone rfl)

/-- A query is read up to the end of its text. -/
theorem query_sound {fuel : Nat} {input left : Input} {result : Query}
    (hread : query fuel input = .ok (result, left)) :
    ∃ (sign : Bool) (tree : GoalsTree) (dot : Bool),
      input.Passes (queryTokens sign tree dot) left ∧ left.tokens.current = .endOfText ∧
        result = tree.goals input.placeholders := by
  rw [query] at hread
  obtain ⟨sign, start, hsign, hread⟩ := exists_of_bind_ok hread
  obtain ⟨found, mid, hgoals, hread⟩ := exists_of_bind_ok hread
  obtain ⟨dot, last, hdot, hread⟩ := exists_of_bind_ok hread
  have hpasses := passes_of_eat hsign
  have hcount : start.placeholders = input.placeholders := by
    rw [hpasses.count]
    cases sign <;> rfl
  obtain ⟨tree, hpasses', rfl⟩ := goals_sound hgoals
  by_cases hend : last.tokens.current = .endOfText
  · rw [bind_eq_of_ok (atEnd_of_eq hend)] at hread
    cases hread
    refine ⟨sign, tree, dot, hpasses.trans (hpasses'.trans (passes_of_eat hdot)), hend, ?_⟩
    rw [hcount]
  · rw [bind_eq_of_ok (atEnd_of_ne hend)] at hread
    cases hread

theorem query_complete {sign : Bool} (tree : GoalsTree) {dot : Bool} {fuel : Nat}
    {input left : Input} (hpasses : input.Passes (queryTokens sign tree dot) left)
    (hleft : left.tokens.current = .endOfText)
    (hfuel : 4 * tree.tokens.length + 4 ≤ fuel) :
    query fuel input = .ok (tree.goals input.placeholders, left) := by
  obtain ⟨start, hsign, hpasses⟩ := hpasses.split
  obtain ⟨mid, hgoals, hdot⟩ := hpasses.split
  have hends : FollowsQuery left.ahead := by
    rw [Input.ahead, hleft]
    apply followsQuery_cons
    rintro mark ⟨⟩
  have hnone : start.ahead.head? ≠ some (.symbol .query) := by
    rw [hpasses.ahead, List.append_assoc]
    exact tree.head_ne_query _
  have hcount : start.placeholders = input.placeholders := by
    rw [hsign.count]
    cases sign <;> rfl
  rw [query, bind_eq_of_ok (eat_of_passes_or hsign fun _ => hnone),
    bind_eq_of_ok (goals_complete tree hgoals (followsGoals_ahead hdot hends) (by omega)
      (by omega)),
    bind_eq_of_ok (eat_of_passes_or hdot fun _ => hends.dot),
    bind_eq_of_ok (atEnd_of_eq hleft), if_pos rfl, hcount]
  rfl

section Commands

variable {fuel count : Nat} {input left : Input}

theorem commands_of_colon (hcolon : input.tokens.current = .symbol .colon) :
    commands fuel (count + 1) input =
      (directive >>= fun first => commands fuel count >>= fun rest =>
        pure (.directive first :: rest)) input := by
  have hend : input.tokens.current ≠ .endOfText := by simp [hcolon]
  rw [commands, bind_eq_of_ok (atEnd_of_ne hend), if_neg Bool.false_ne_true,
    bind_eq_of_ok (sees_of_eq hcolon), if_pos rfl]
  simp only [pure_bind]

theorem commands_of_statement (hend : input.tokens.current ≠ .endOfText)
    (hcolon : input.tokens.current ≠ .symbol .colon) :
    commands fuel (count + 1) input =
      (statement fuel >>= fun first => commands fuel count >>= fun rest =>
        pure (.statement first :: rest)) input := by
  rw [commands, bind_eq_of_ok (atEnd_of_ne hend), if_neg Bool.false_ne_true,
    bind_eq_of_ok (sees_of_ne hcolon), if_neg Bool.false_ne_true]
  simp only [pure_bind]

theorem statements_of_statement (hend : input.tokens.current ≠ .endOfText)
    (hcolon : input.tokens.current ≠ .symbol .colon) :
    statements fuel (count + 1) input =
      (statement fuel >>= fun first => statements fuel count >>= fun rest =>
        pure (first :: rest)) input := by
  rw [statements, bind_eq_of_ok (atEnd_of_ne hend), if_neg Bool.false_ne_true,
    bind_eq_of_ok (sees_of_ne hcolon), if_neg Bool.false_ne_true]

/-- Commands are the statements of a program exactly if none is a directive. -/
theorem commands_eq_ok_iff {result : List Statement} :
    commands fuel count input = .ok (result.map .statement, left) ↔
      statements fuel count input = .ok (result, left) := by
  induction count generalizing input left result with
  | zero => simp [commands, statements, fail]
  | succ count ih =>
      by_cases hend : input.tokens.current = .endOfText
      · rw [commands, statements, bind_eq_of_ok (atEnd_of_eq hend),
          bind_eq_of_ok (atEnd_of_eq hend)]
        cases result <;> simp [pure_eq_ok]
      by_cases hcolon : input.tokens.current = .symbol .colon
      · rw [commands_of_colon hcolon, statements, bind_eq_of_ok (atEnd_of_ne hend),
          if_neg Bool.false_ne_true, bind_eq_of_ok (sees_of_eq hcolon)]
        constructor
        · intro hread
          obtain ⟨first, mid, _, hread⟩ := exists_of_bind_ok hread
          obtain ⟨rest, mid', _, hlast⟩ := exists_of_bind_ok hread
          cases result <;> cases hlast
        · intro hread
          cases hread
      · rw [commands_of_statement hend hcolon, statements_of_statement hend hcolon]
        constructor
        · intro hread
          obtain ⟨first, mid, hfirst, hread⟩ := exists_of_bind_ok hread
          obtain ⟨rest, mid', hrest, hlast⟩ := exists_of_bind_ok hread
          cases result with
          | nil => cases hlast
          | cons head tail =>
              cases hlast
              rw [bind_eq_of_ok hfirst, bind_eq_of_ok (ih.mp hrest)]
              rfl
        · intro hread
          obtain ⟨first, mid, hfirst, hread⟩ := exists_of_bind_ok hread
          obtain ⟨rest, mid', hrest, hlast⟩ := exists_of_bind_ok hread
          cases hlast
          rw [bind_eq_of_ok hfirst, bind_eq_of_ok (ih.mpr hrest)]
          rfl

end Commands

end Reader

/-- A text is a query exactly if its tokens are those of goals, with the sign and
the dot of a query or without them. -/
theorem parseQuery_eq_ok_iff {text : String} {goals : Query} :
    parseQuery text = .ok goals ↔
      ∃ sign tree dot, (Tokens.ofString text).toList? = some (queryTokens sign tree dot) ∧
        tree.goals 0 = goals := by
  constructor
  · intro hparse
    obtain ⟨hbroken, left, hread⟩ := exists_of_readText hparse
    obtain ⟨sign, tree, dot, hpasses, hend, rfl⟩ := Reader.query_sound hread
    exact ⟨sign, tree, dot, toList?_of_passes hbroken hpasses hend, rfl⟩
  · rintro ⟨sign, tree, dot, htokens, rfl⟩
    obtain ⟨hbroken, left, hpasses, hend⟩ := exists_passes_of_toList? htokens
    have hlength := Tokens.length_eq htokens
    simp only [queryTokens, List.length_append] at hlength
    apply (readText_eq_ok_iff hbroken).mpr
    exact ⟨_, Reader.query_complete tree hpasses hend (by omega)⟩

theorem Tokens.head?_of_toList? {tokens : Tokens} {passed : List Token}
    (hpassed : tokens.toList? = some passed) (mark : Symbol) :
    passed.head? = some (.symbol mark) ↔ tokens.current = .symbol mark := by
  cases tokens with
  | next token position rest =>
      obtain ⟨more, _, rfl⟩ := Option.map_eq_some_iff.mp hpassed
      exact Option.some_inj
  | done position =>
      cases hpassed
      exact iff_of_false nofun nofun
  | broken error => cases hpassed

/-- A program of a single statement, which is a query, is a query with its sign. -/
theorem parseProgram_eq_query_iff {text : String} {goals : Query} :
    parseProgram text = .ok [.query goals] ↔
      ∃ tree dot, (Tokens.ofString text).toList? = some (queryTokens true tree dot) ∧
        tree.goals 0 = goals := by
  constructor
  · intro hparse
    obtain ⟨program, htokens, hstatements⟩ := parseProgram_sound hparse
    match program, hstatements with
    | [.query tree dot], hstatements =>
        cases hstatements
        rw [ProgramTree.tokens_cons] at htokens
        rw [show ProgramTree.tokens [] = [] from rfl, List.append_nil] at htokens
        exact ⟨tree, dot, htokens, rfl⟩
  · rintro ⟨tree, dot, htokens, rfl⟩
    have hprogram : (Tokens.ofString text).toList? =
        some (ProgramTree.tokens [.query tree dot]) := by
      rw [htokens, ProgramTree.tokens_cons, show ProgramTree.tokens [] = [] from rfl,
        List.append_nil]
      rfl
    exact parseProgram_complete hprogram

theorem skipLayout_rest (inComment : Bool) (position other : Position) (text : List Char) :
    (skipLayout inComment position text).rest = (skipLayout inComment other text).rest := by
  induction text generalizing inComment position other with
  | nil => rfl
  | cons c text ih =>
      simp only [skipLayout]
      split
      · exact ih _ _ _
      split
      · exact ih _ _ _
      split
      · exact ih _ _ _
      · rfl

/-- Only the places of faults depend on where a token stands. -/
theorem scanToken_of_ok {cursor : Cursor} {c : Char} {text : List Char} {scan : Scan}
    (hscan : scanToken cursor c text = .ok scan) (other : Cursor) :
    scanToken other c text = .ok scan := by
  grind [scanToken]

/-- A text has the same tokens wherever it stands. -/
theorem Tokens.toList?_scan (position other : Position) (text : List Char) :
    (Tokens.scan position text).toList? = (Tokens.scan other text).toList? := by
  fun_induction Tokens.scan position text generalizing other with
  | case1 position text cursor hrest =>
      rw [scan_eq other, skipLayout_rest false other position, hrest]
      rfl
  | case2 position text cursor c rest hrest error hscan =>
      rw [scan_eq other, skipLayout_rest false other position, hrest]
      dsimp only
      cases hother : scanToken (skipLayout false other text) c rest with
      | error error => rfl
      | ok scan =>
          rw [scanToken_of_ok hother cursor] at hscan
          cases hscan
  | case3 position text cursor c rest hrest scan hscan ih =>
      rw [scan_eq other, skipLayout_rest false other position, hrest]
      dsimp only
      rw [scanToken_of_ok hscan]
      exact congrArg (Option.map (scan.token :: ·)) (ih _)

theorem toList?_sign_append (text : String) :
    (Tokens.ofString ("?- " ++ text)).toList? =
      (Tokens.ofString text).toList?.map (.symbol .query :: ·) := by
  have hblank : Scans [' '] [] text.toList := Scans.blank fun position => ⟨position, by simp⟩
  have hsign : Scans ['?', '-', ' '] [.symbol .query] text.toList :=
    (scans_query (' ' :: text.toList)).append hblank
  obtain ⟨last, hlast⟩ := hsign Position.start
  rw [Tokens.ofString, Tokens.ofString, String.toList_append,
    Tokens.toList?_scan Position.start last text.toList]
  exact hlast

/-- The readings of a text agree.  A program is a line of commands without a
directive.  A query that has its sign is a program of that query alone, and one
that lacks it is such a program once the sign is put in front. -/
theorem entry_points_agree (text : String) :
    (∀ statements, parseProgram text = .ok statements ↔
      parseCommands text = .ok (statements.map .statement)) ∧
    ((Tokens.ofString text).current = .symbol .query →
      ∀ goals, parseQuery text = .ok goals ↔ parseProgram text = .ok [.query goals]) ∧
    ((Tokens.ofString text).current ≠ .symbol .query →
      ∀ goals, parseQuery text = .ok goals ↔
        parseProgram ("?- " ++ text) = .ok [.query goals]) := by
  refine ⟨fun statements => ?_, fun hsign goals => ?_, fun hsign goals => ?_⟩
  · cases hbroken : (Tokens.ofString text).isBroken with
    | true =>
        exact iff_of_false (readText_of_broken hbroken _) (readText_of_broken hbroken _)
    | false =>
        rw [parseProgram, parseCommands, readText_eq_ok_iff hbroken, readText_eq_ok_iff hbroken]
        exact exists_congr fun left => Reader.commands_eq_ok_iff.symm
  · rw [parseQuery_eq_ok_iff, parseProgram_eq_query_iff]
    constructor
    · rintro ⟨sign, tree, dot, htokens, hgoals⟩
      have hhead := (Tokens.head?_of_toList? htokens .query).mpr hsign
      obtain rfl := (head_queryTokens_iff sign tree dot).mp hhead
      exact ⟨tree, dot, htokens, hgoals⟩
    · rintro ⟨tree, dot, htokens, hgoals⟩
      exact ⟨true, tree, dot, htokens, hgoals⟩
  · rw [parseQuery_eq_ok_iff, parseProgram_eq_query_iff, toList?_sign_append]
    constructor
    · rintro ⟨sign, tree, dot, htokens, hgoals⟩
      cases sign with
      | true =>
          have hhead := (head_queryTokens_iff true tree dot).mpr rfl
          exact absurd ((Tokens.head?_of_toList? htokens .query).mp hhead) hsign
      | false => exact ⟨tree, dot, by rw [htokens]; rfl, hgoals⟩
    · rintro ⟨tree, dot, htokens, hgoals⟩
      obtain ⟨passed, hpassed, hsame⟩ := Option.map_eq_some_iff.mp htokens
      rw [(List.cons.inj hsame).2] at hpassed
      exact ⟨false, tree, dot, hpassed, hgoals⟩

end Horn
