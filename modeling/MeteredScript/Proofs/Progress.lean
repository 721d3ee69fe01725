import MeteredScript.Proofs.Advancing

namespace MeteredScript

/-! # Reading comes to an end

Malformed tokens may have readers look for what is not there, but not forever. Every rule passes a token
before it reads with itself, and every round of a loop passes one or is the last. There is one lemma for
each rule of the grammar, about the rule with two bounds and two readers of what is inside: they agree
where the bounds are no less than the number of tokens left and the readers agree behind one more token.
Main statement: any tokens are read as a program or refused with a parse error, and so they would be
without bounds.
-/

namespace Parse

/-! ## Expressions -/

section Expressions

variable {left bound bound' : Nat} {sub sub' : Parse Expr} {ahead : Option Token → Prop}
  (hsub : Agree left sub sub' anything Moves)
include hsub

theorem agree_sequence (hbound : left ≤ bound + 1) (hbound' : left ≤ bound' + 1) :
    Agree left (sequence bound sub) (sequence bound' sub') ahead Moves := by
  refine .here fun _ => hsub.bind fun n first (hpos : 0 < n) => .check ?_ (.result hpos)
  have hrest : Agree (left - n) sub sub' anything Moves := hsub.of_le (Nat.sub_le left n)
  refine (Agree.commaRest hrest (by omega) (by omega) first).bind fun m parts _ => ?_
  exact .spanFrom fun _ => .result (by omega)

/-- A round of an array passes an element, or a comma without one. -/
theorem agree_arrayStep (read : List Expr) :
    Agree left (arrayStep sub read) (arrayStep sub' read) ahead Round := by
  refine .check .last ?_
  refine .eat (.result fun _ => Nat.one_pos) ?_
  refine hsub.bind fun n e hpos => .eat (.result fun _ => ?_) (.result fun _ => ?_)
  · omega
  · omega

/-- An entry passes its name before its value. -/
theorem agree_entry : Agree left (entry sub) (entry sub') anything Moves := by
  refine .peek fun next _ => ?_
  split
  · rename_i key hkey
    obtain ⟨t, rfl, _⟩ := Option.bind_eq_some_iff.mp hkey
    refine .advance (.expect fun _ => ?_)
    exact (hsub.of_le (by omega)).bind fun n e _ => .result (by omega)
  · exact .unexpected

variable (hbound : left ≤ bound) (hbound' : left ≤ bound')
include hbound hbound'

theorem agree_array : Agree (left + 1) (array bound sub) (array bound' sub') ahead Moves := by
  refine .expect fun _ => ?_
  refine (Agree.iterate (agree_arrayStep hsub) hbound hbound' []).bind fun n read _ => ?_
  exact .expect fun _ => .spanFrom fun _ => .result (by omega)

theorem agree_object : Agree (left + 1) (object bound sub) (object bound' sub') ahead Moves := by
  refine .expect fun _ => ?_
  refine (Agree.commaSeparated (agree_entry hsub) hbound hbound').bind fun n entries _ => ?_
  exact .spanFrom fun _ => .result (by omega)

theorem agree_parenthesized :
    Agree (left + 1) (parenthesized bound sub) (parenthesized bound' sub') ahead Moves := by
  refine .expect fun _ => (agree_sequence hsub (by omega) (by omega)).bind fun n e _ => ?_
  exact .expect fun _ => .result (by omega)

/-- A token that begins nothing is passed by the error about it. -/
theorem agree_primary : Agree (left + 1) (primary bound sub) (primary bound' sub') ahead Moves := by
  refine .here fun _ => .peek fun next _ => ?_
  split
  · exact .advance (.result Nat.one_pos)
  · exact agree_parenthesized hsub hbound hbound'
  · exact agree_array hsub hbound hbound'
  · exact agree_object hsub hbound hbound'
  · split
    · exact .advance (.result Nat.one_pos)
    · exact .unexpected
  · exact .unexpected

/-- Links begin with a token of their own; without one the chain is over. -/
theorem agree_link (start : Span) (e : Expr) :
    Agree left (link bound sub start e) (link bound' sub' start e) ahead Round := by
  refine .peek fun next _ => ?_
  have hinside : Agree (left - 1) sub sub' anything Moves := hsub.of_le (Nat.sub_le left 1)
  split
  · refine .advance (.peek fun next _ => ?_)
    split
    · rename_i name hname
      obtain ⟨t, rfl, _⟩ := Option.bind_eq_some_iff.mp hname
      exact .advance (.spanFrom fun _ => .result fun _ => by omega)
    · exact .unexpected
  · refine .advance ((agree_sequence hinside (by omega) (by omega)).bind fun n key _ => ?_)
    exact .expect fun _ => .spanFrom fun _ => .result fun _ => by omega
  · refine .advance ((Agree.commaSeparated hinside (by omega) (by omega)).bind fun n arguments _ => ?_)
    exact .spanFrom fun _ => .result fun _ => by omega
  · exact .last

theorem agree_chain : Agree (left + 1) (chain bound sub) (chain bound' sub') ahead Moves := by
  refine .here fun start => (agree_primary hsub hbound hbound').bind fun n e (hpos : 0 < n) => ?_
  -- the smallest expression has passed a token, so there are more rounds than tokens are left
  have hlinks : ∀ e, Agree (left + 1 - n) (link bound sub start e) (link bound' sub' start e)
      anything Round := fun e => (agree_link hsub hbound hbound' start e).of_le (by omega)
  exact (Agree.iterate hlinks (by omega) (by omega) e).imp fun m _ _ => by omega

/-- A sign behind a chain is passed, if there is one. -/
theorem agree_postfixed :
    Agree (left + 1) (postfixed bound sub) (postfixed bound' sub') ahead Moves := by
  refine .here fun _ => (agree_chain hsub hbound hbound').bind fun n e hpos => .peek fun next _ => ?_
  split
  · cases e with
    | place target => exact .advance (.spanFrom fun _ => .result (by omega))
    | _ => exact .fail _ _
  · exact .result hpos

omit hsub hbound hbound' in
theorem agree_applySign (e : Expr) (sign : PrefixSign × Span) :
    Agree left (applySign e sign) (applySign e sign) ahead fun _ _ => True := by
  refine .spanFrom fun span => ?_
  split
  · exact .result trivial
  · split
    · exact .result trivial
    · exact .result trivial
    · exact .fail _ _

omit hsub hbound hbound' in
/-- A sign is passed before what it stands in front of. -/
theorem agreeRules_sign
    (hchain : Agree (left + 1) (postfixed bound sub) (postfixed bound' sub') anything Moves) :
    AgreeRules left (fun _ => alone (signRule bound sub)) (fun _ => alone (signRule bound' sub')) := by
  intro left' _ _ inside inside' hle _ _ hinside _
  refine .peek fun next _ => ?_
  split
  · rename_i sign hsign
    obtain ⟨t, rfl, _⟩ := Option.bind_eq_some_iff.mp hsign
    refine .here fun start => .advance ((hinside ()).bind fun n e _ => ?_)
    exact (agree_applySign e (sign, start)).imp fun m _ _ => by omega
  · exact hchain.of_anything.of_le (by omega)

omit hsub hbound hbound' in
/-- Signs are read by a rule of their own, tied to itself once for each sign. -/
theorem tied_signed (bound : Nat) (sub : Parse Expr) :
    Tied (fun _ => alone (signRule bound sub)) (fun level signs _ => signed bound sub level signs) where
  zero _ _ := rfl
  succ level signs _ := by
    -- `deepen` changes where a reader runs and not what it reads
    simp only [signed, deepen_eq]
    rfl
  nil _ _ _ c hc := by
    obtain ⟨rest, reached⟩ := c
    cases hc
    rfl

theorem agree_unary : Agree (left + 1) (unary bound sub) (unary bound' sub') ahead Moves :=
  (tied_signed bound sub).agree_read (tied_signed bound' sub')
    (agreeRules_sign (agree_postfixed hsub hbound hbound')) 0 0 (Nat.le_refl _) (by omega) (by omega) ()

omit hsub hbound hbound' in
/-- A round passes an operator before its right operand, or is the last. -/
theorem agree_infixStep {right right' : Nat → Parse Expr}
    (hright : ∀ least, Agree left (right least) (right' least) anything Moves) (start : Span)
    (least : Nat) (e : Expr) :
    Agree left (infixStep right start least e) (infixStep right' start least e) ahead Round := by
  refine .peek fun next _ => ?_
  split
  · rename_i op hop
    obtain ⟨t, rfl, _⟩ := Option.bind_eq_some_iff.mp hop
    split
    · exact .last
    · refine .advance (((hright _).of_le (Nat.sub_le left 1)).bind fun n operand _ => ?_)
      exact .spanFrom fun _ => .result fun _ => by omega
  · exact .last

omit hsub in
/-- Climbing reads an operand first, and right operands behind an operator. -/
theorem agreeRules_climb
    (hunary : Agree (left + 1) (unary bound sub) (unary bound' sub') anything Moves) :
    AgreeRules left (fun _ => climbRule bound sub) (fun _ => climbRule bound' sub') := by
  intro left' _ _ right right' hle _ _ hright least
  refine .here fun start => (hunary.of_le (Nat.succ_le_succ hle)).bind fun n e (hpos : 0 < n) => ?_
  -- the first operand has passed a token, so there are as many rounds as tokens are left
  have hsteps : ∀ e, Agree (left' + 1 - n) (infixStep right start least e)
      (infixStep right' start least e) anything Round :=
    agree_infixStep (fun least => (hright least).of_le (by omega)) start least
  exact (Agree.iterate hsteps (by omega) (by omega) e).imp fun m _ _ => by omega

omit hsub hbound hbound' in
/-- Operators are read by one rule, tied to itself once for each right operand. -/
theorem tied_climb (bound : Nat) (sub : Parse Expr) :
    Tied (fun _ => climbRule bound sub) (climb bound sub) where
  zero _ _ := rfl
  succ level depth least := by
    simp only [climb, deepen_eq]
  nil _ right least c hc := by
    obtain ⟨rest, reached⟩ := c
    cases hc
    rfl

theorem agree_infixed : Agree (left + 1) (infixed bound sub) (infixed bound' sub') ahead Moves :=
  (tied_climb bound sub).agree_read (tied_climb bound' sub')
    (agreeRules_climb hbound hbound' (agree_unary hsub hbound hbound')) 0 0 (Nat.le_refl _) (by omega)
    (by omega) 1

/-- A question mark is passed before the two branches. -/
theorem agree_conditional :
    Agree (left + 1) (conditional bound sub) (conditional bound' sub') ahead Moves := by
  refine .here fun _ => (agree_infixed hsub hbound hbound').bind fun n test hpos => ?_
  refine .eat ((hsub.of_le (by omega)).bind fun m consequent _ => .expect fun _ => ?_) (.result hpos)
  refine (hsub.of_le (by omega)).bind fun k alternate _ => .spanFrom fun _ => .result ?_
  omega

/-- An operator of assignment is passed before the value. -/
theorem agree_assignmentRule :
    Agree (left + 1) (assignmentRule bound sub) (assignmentRule bound' sub') ahead Moves := by
  refine .here fun _ => (agree_conditional hsub hbound hbound').bind fun n e hpos => ?_
  refine .peek fun next _ => ?_
  split
  · rename_i op hop
    obtain ⟨t, rfl, _⟩ := Option.bind_eq_some_iff.mp hop
    cases e with
    | place target =>
      refine .advance ((hsub.of_le (by omega)).bind fun m value _ => .spanFrom fun _ => .result ?_)
      omega
    | _ => exact .fail _ _
  · exact .result hpos

omit hsub hbound hbound' in
/-- Behind the last token there is no expression, whatever would be read inside of it. -/
theorem assignmentRule_of_nil (bound : Nat) (sub : Parse Expr) {c : Cursor} (hc : c.rest = []) :
    assignmentRule bound sub c = unexpected c := by
  obtain ⟨rest, reached⟩ := c
  cases hc
  rfl

end Expressions

/-- Expressions are read by one rule, tied to itself once for each level. -/
theorem tied_assignment :
    Tied (fun bound => alone (assignmentRule bound)) (fun level bound _ => assignment level bound) where
  zero _ _ := rfl
  succ level bound _ := by
    funext c
    simp only [assignment, alone, deepen_eq]
  nil bound sub _ _ hc := assignmentRule_of_nil bound (sub ()) hc

theorem agreeRules_assignment (top : Nat) :
    AgreeRules top (fun bound => alone (assignmentRule bound))
      (fun bound => alone (assignmentRule bound)) :=
  fun _ _ _ _ _ _ hbound hbound' hsub _ => agree_assignmentRule (hsub ()) hbound hbound'

variable {left bound bound' : Nat} {ahead : Option Token → Prop}

/-- Expressions are read alike with any bounds that are no less than the number of tokens left. -/
theorem agree_assignment_of_le (level level' : Nat) (hbound : left ≤ bound + 1)
    (hbound' : left ≤ bound' + 1) :
    Agree left (assignment level bound) (assignment level' bound') ahead Moves :=
  tied_assignment.agree_read tied_assignment (agreeRules_assignment left) level level' (Nat.le_succ left)
    hbound hbound' ()

section

variable {left bound bound' : Nat} {ahead : Option Token → Prop} (hbound : left ≤ bound + 1)
  (hbound' : left ≤ bound' + 1)
include hbound hbound'

theorem agree_assignment :
    Agree left (assignment 0 bound) (assignment 0 bound') ahead Moves :=
  agree_assignment_of_le 0 0 hbound hbound'

theorem agree_expression : Agree left (expression bound) (expression bound') ahead Moves :=
  agree_sequence (agree_assignment hbound hbound') hbound hbound'

/-! ## Statements -/

omit hbound hbound' in
theorem agree_semicolon : Agree left semicolon semicolon ahead fun _ _ => True :=
  .eat (.result trivial) (.result trivial)

/-- An initial value stands behind an equals sign. -/
theorem agree_initializer :
    Agree left (initializer bound) (initializer bound') ahead fun _ _ => True := by
  refine .eat ?_ (.result trivial)
  have hvalue : Agree (left - 1) (assignment 0 bound) (assignment 0 bound') anything Moves :=
    agree_assignment (by omega) (by omega)
  exact hvalue.bind fun n e _ => .result trivial

/-- A name with its optional initial value, whatever is made of them. -/
theorem agree_declared {α : Type} (make : String → Option Expr → α) :
    Agree left (Parse.name >>= fun name => initializer bound >>= fun init => pure (make name init))
      (Parse.name >>= fun name => initializer bound' >>= fun init => pure (make name init)) ahead
      Moves := by
  refine Agree.name.bind fun n name (hpos : 0 < n) => ?_
  have hinit : Agree (left - n) (initializer bound) (initializer bound') anything fun _ _ => True :=
    agree_initializer (by omega) (by omega)
  exact hinit.bind fun m init _ => .result (by omega)

theorem agree_declarator : Agree left (declarator bound) (declarator bound') ahead Moves :=
  agree_declared hbound hbound' DeclaratorOf.mk

/-- A declaration passes its word before its names. -/
theorem agree_declaration : Agree left (declaration bound) (declaration bound') ahead Moves := by
  refine .here fun _ => Agree.advance_any.bind fun n _ _ => ?_
  have hfirst : Agree (left - n) (declarator bound) (declarator bound') anything Moves :=
    agree_declarator (by omega) (by omega)
  refine hfirst.bind fun m first (hpos : 0 < m) => ?_
  have hitem : Agree (left - n - m) (declarator bound) (declarator bound') anything Moves :=
    agree_declarator (by omega) (by omega)
  refine (Agree.commaRest hitem (by omega) (by omega) first).bind fun k declarators _ => ?_
  exact .spanFrom fun _ => .result (by omega)

theorem agree_forInit : Agree left (forInit bound) (forInit bound') ahead fun _ _ => True := by
  refine .peek fun next _ => ?_
  split
  · exact .result trivial
  · split
    · exact (agree_declaration hbound hbound').bind_ahead fun n r _ => .result trivial
    · exact (agree_expression hbound hbound').bind_ahead fun n e _ => .result trivial

theorem agree_expressionUnless (closer : Token) :
    Agree left (expressionUnless bound closer) (expressionUnless bound' closer) ahead
      fun _ _ => True := by
  refine .check (.result trivial) ?_
  exact (agree_expression hbound hbound').bind_ahead fun n e _ => .result trivial

theorem agree_returnArgument :
    Agree left (returnArgument bound) (returnArgument bound') ahead fun _ _ => True := by
  refine .peek fun next _ => ?_
  split
  · exact .result trivial
  · exact .result trivial
  · exact .result trivial
  · exact (agree_expression hbound hbound').bind_ahead fun n e _ => .result trivial

theorem agree_returnStatement :
    Agree left (returnStatement bound) (returnStatement bound') ahead Moves := by
  refine .expect fun _ => ?_
  have hargument : Agree (left - 1) (returnArgument bound) (returnArgument bound') anything
      fun _ _ => True := agree_returnArgument (by omega) (by omega)
  refine hargument.bind fun n argument _ => agree_semicolon.bind fun m _ _ => ?_
  exact .spanFrom fun _ => .result (by omega)

theorem agree_expressionStatement :
    Agree left (expressionStatement bound) (expressionStatement bound') ahead Moves := by
  refine .here fun _ => (agree_expression hbound hbound').bind_ahead fun n e (hpos : 0 < n) => ?_
  exact agree_semicolon.bind fun m _ _ => .spanFrom fun _ => .result (by omega)

theorem agree_declarationStatement :
    Agree left (declarationStatement bound) (declarationStatement bound') ahead Moves := by
  refine (agree_declaration hbound hbound').bind_ahead fun n r (hpos : 0 < n) => ?_
  exact agree_semicolon.bind fun m _ _ => .result (by omega)

omit hbound hbound' in
theorem agree_wordStatement (make : Span → Stmt) {token : Token} :
    Agree left (wordStatement make) (wordStatement make) (· = some token) Moves := by
  refine .here fun _ => .advance (agree_semicolon.bind fun n _ _ => .result ?_)
  omega

end

section

variable {left bound bound' : Nat} {sub sub' : Parse Stmt} {ahead : Option Token → Prop}
  (hsub : Agree left sub sub' anything Moves)
include hsub

theorem agree_blockStep (read : List Stmt) :
    Agree left (blockStep sub read) (blockStep sub' read) ahead Round := by
  refine .peek fun next _ => ?_
  split
  · exact .last
  · exact .last
  · exact hsub.bind fun n s hpos => .result fun _ => hpos

variable (hbound : left ≤ bound) (hbound' : left ≤ bound')
include hbound hbound'

/-- A block passes its opening brace. -/
theorem agree_block : Agree (left + 1) (block bound sub) (block bound' sub') ahead Moves := by
  refine .expect fun _ => ?_
  refine (Agree.iterate (agree_blockStep hsub) hbound hbound' []).bind fun n read _ => ?_
  refine .peek fun next _ => ?_
  split
  · exact .fail _ _
  · exact .expect fun _ => .spanFrom fun _ => .result (by omega)

theorem agree_ifStatement :
    Agree (left + 1) (ifStatement bound sub) (ifStatement bound' sub') ahead Moves := by
  refine .expect fun _ => .expect fun _ => (agree_expression (by omega) (by omega)).bind ?_
  refine fun n test _ => .expect fun _ => (hsub.of_le (by omega)).bind fun m consequent _ => ?_
  refine .eat ((hsub.of_le (by omega)).bind fun k alternate _ => ?_) ?_
  · exact .spanFrom fun _ => .result (by omega)
  · exact .spanFrom fun _ => .result (by omega)

/-- Each part of a `for` loop stands behind a token of its own. -/
theorem agree_forStatement :
    Agree (left + 1) (forStatement bound sub) (forStatement bound' sub') ahead Moves := by
  refine .expect fun _ => .expect fun _ => (agree_forInit (by omega) (by omega)).bind ?_
  refine fun n init _ => .expect fun _ => (agree_expressionUnless (by omega) (by omega) _).bind ?_
  refine fun m test _ => .expect fun _ => (agree_expressionUnless (by omega) (by omega) _).bind ?_
  refine fun k update _ => .expect fun _ => (hsub.of_le (by omega)).bind fun l body _ => ?_
  exact .spanFrom fun _ => .result (by omega)

theorem agree_whileStatement :
    Agree (left + 1) (whileStatement bound sub) (whileStatement bound' sub') ahead Moves := by
  refine .expect fun _ => .expect fun _ => (agree_expression (by omega) (by omega)).bind ?_
  refine fun n test _ => .expect fun _ => (hsub.of_le (by omega)).bind fun m body _ => ?_
  exact .spanFrom fun _ => .result (by omega)

/-- A statement that is none of the others is an expression. -/
theorem agree_statementRule :
    Agree (left + 1) (statementRule bound sub) (statementRule bound' sub') ahead Moves := by
  have hbounds : left + 1 ≤ bound + 1 ∧ left + 1 ≤ bound' + 1 := by omega
  refine .peek fun next _ => ?_
  -- one case a word; whatever else there is begins an expression
  cases next with
  | none => exact .unexpected
  | some token =>
    cases token with
    | keyword word =>
      cases word with
      | functionWord => exact .here fun _ => .fail _ _
      | varWord | letWord | constWord => exact agree_declarationStatement hbounds.1 hbounds.2
      | ifWord => exact agree_ifStatement hsub hbound hbound'
      | forWord => exact agree_forStatement hsub hbound hbound'
      | whileWord => exact agree_whileStatement hsub hbound hbound'
      | breakWord => exact agree_wordStatement .breakLoop
      | continueWord => exact agree_wordStatement .continueLoop
      | returnWord => exact agree_returnStatement hbounds.1 hbounds.2
      | _ => exact agree_expressionStatement hbounds.1 hbounds.2
    | punctuation mark =>
      cases mark with
      | openBrace => exact (agree_block hsub hbound hbound').bind_ahead fun n r hpos => .result hpos
      | semicolon => exact .here fun _ => .advance (.result Nat.one_pos)
      | _ => exact agree_expressionStatement hbounds.1 hbounds.2
    | _ => exact agree_expressionStatement hbounds.1 hbounds.2

end

/-- Statements are read by one rule, tied to itself once for each level. -/
theorem tied_statement :
    Tied (fun bound => alone (statementRule bound)) (fun level bound _ => statement level bound) where
  zero _ _ := rfl
  succ level bound _ := by
    funext c
    simp only [statement, alone, deepen_eq]
  nil bound sub _ c hc := by
    obtain ⟨rest, reached⟩ := c
    cases hc
    rfl

theorem agreeRules_statement (top : Nat) :
    AgreeRules top (fun bound => alone (statementRule bound))
      (fun bound => alone (statementRule bound)) :=
  fun _ _ _ _ _ _ hbound hbound' hsub _ => agree_statementRule (hsub ()) hbound hbound'

theorem agree_statement_of_le (level level' : Nat) (hbound : left ≤ bound + 1)
    (hbound' : left ≤ bound' + 1) :
    Agree left (statement level bound) (statement level' bound') ahead Moves :=
  tied_statement.agree_read tied_statement (agreeRules_statement left) level level' (Nat.le_succ left)
    hbound hbound' ()

/-! ## Programs -/

section

variable {left bound bound' : Nat} {ahead : Option Token → Prop} (hbound : left ≤ bound + 1)
  (hbound' : left ≤ bound' + 1)
include hbound hbound'

theorem agree_statement :
    Agree left (statement 0 bound) (statement 0 bound') ahead Moves :=
  agree_statement_of_le 0 0 hbound hbound'

theorem agree_param : Agree left (param bound) (param bound') ahead Moves :=
  agree_declared hbound hbound' ParamOf.mk

/-- A function passes its word and its name before the rest. -/
theorem agree_function : Agree left (function bound) (function bound') ahead Moves := by
  refine .expect fun _ => Agree.name.bind fun n name _ => .expect fun _ => ?_
  have hparam : Agree (left - 1 - n - 1) (param bound) (param bound') anything Moves :=
    agree_param (by omega) (by omega)
  refine (Agree.commaSeparated hparam (by omega) (by omega)).bind fun m params _ => ?_
  have hstatement : Agree (left - 1) (statement 0 bound) (statement 0 bound') anything Moves :=
    agree_statement (by omega) (by omega)
  have hbody : Agree (left - 1 - n - 1 - m) (block bound (statement 0 bound))
      (block bound' (statement 0 bound')) anything Moves :=
    (agree_block hstatement (by omega) (by omega)).of_le (by omega)
  exact hbody.bind fun k r _ => .spanFrom fun _ => .result (by omega)

theorem agree_item : Agree left (item bound) (item bound') ahead Moves := by
  refine .check ?_ ?_
  · exact (agree_function hbound hbound').bind_ahead fun n f hpos => .result hpos
  · exact (agree_statement hbound hbound').bind_ahead fun n s hpos => .result hpos

theorem agree_itemStep (read : List Item) :
    Agree left (itemStep bound read) (itemStep bound' read) ahead Round := by
  refine .peek fun next _ => ?_
  split
  · exact .last
  · exact (agree_item hbound hbound').bind_ahead fun n i hpos => .result fun _ => hpos

end

theorem itemStep_of_nil (bound : Nat) (read : List Item) (c : Cursor) (hc : c.rest = []) :
    itemStep bound read c = .ok ((read, false), c) := by
  obtain ⟨rest, reached⟩ := c
  cases hc
  rfl

/-- Rounds of a program pass a token each. -/
theorem goesFrom_itemStep (bound : Nat) (read : List Item) (c : Cursor) :
    GoesFrom c Round (itemStep bound read c) := by
  have hstep : Agree 0 (itemStep bound read) (itemStep bound read) anything Round :=
    agree_itemStep (Nat.zero_le _) (Nat.zero_le _) read
  exact hstep.goes c trivial

/-- All items of a program are read within as many rounds as there are tokens, and one more. -/
theorem agree_items (hbound : left ≤ bound) (hbound' : left ≤ bound') :
    Agree (left + 1) (items bound) (items bound') ahead fun _ _ => True := by
  have hstep : ∀ read, Agree (left + 1) (itemStep bound read) (itemStep bound' read) anything Round :=
    fun read => agree_itemStep (by omega) (by omega) read
  exact (Agree.iterate_quiet hstep (goesFrom_itemStep bound') (itemStep_of_nil bound)
    (itemStep_of_nil bound') hbound hbound' []).bind
    fun n read _ => .result trivial

/-- The last round of a program is at the end. -/
theorem rest_of_itemStep {read read' : List Item} {c c' : Cursor}
    (h : itemStep bound read c = .ok ((read', false), c')) : c'.rest = [] := by
  have hpeek : Parse.peek c = .ok (c.token?, c) := rfl
  unfold itemStep at h
  rw [bind_of_ok hpeek] at h
  split at h
  · rename_i hnone
    rcases Except.ok.inj h with ⟨_, rfl⟩
    rw [Option.isNone_iff_eq_none, Cursor.token?, Option.map_eq_none_iff] at hnone
    exact List.head?_eq_none_iff.mp hnone
  · obtain ⟨i, c'', _, hresult⟩ := exists_of_bind_eq_ok h
    cases hresult

/-- With as many rounds as there are tokens, all tokens are read. -/
theorem rest_of_iterate_itemStep {rounds : Nat} {read read' : List Item} {c c' : Cursor}
    (hrounds : c.rest.length ≤ rounds)
    (h : iterate (itemStep bound) rounds read c = .ok (read', c')) : c'.rest = [] := by
  induction rounds generalizing read c with
  | zero =>
    rcases Except.ok.inj h with ⟨rfl, rfl⟩
    exact List.length_eq_zero_iff.mp (Nat.le_zero.mp hrounds)
  | succ rounds ih =>
    obtain ⟨⟨next, more⟩, c'', hstep, h⟩ := exists_of_bind_eq_ok h
    cases more with
    | true =>
      have hless := length_lt_of_round (goesFrom_itemStep bound) hstep
      exact ih (by omega) h
    | false =>
      rcases Except.ok.inj h with ⟨rfl, rfl⟩
      exact rest_of_itemStep hstep

/-- A program is read to the last token. -/
theorem rest_of_items {c c' : Cursor} {read : List Item} (hbound : c.rest.length ≤ bound)
    (h : items bound c = .ok (read, c')) : c'.rest = [] := by
  obtain ⟨results, c'', hloop, hresult⟩ := exists_of_bind_eq_ok h
  rcases Except.ok.inj hresult with ⟨rfl, rfl⟩
  exact rest_of_iterate_itemStep hbound hloop

/-- So all tokens are passed, or it is a parse error. -/
theorem items_go_to_end {c : Cursor} (hbound : c.rest.length ≤ bound) :
    GoesFrom c (fun n _ => n = c.rest.length) (items bound c) := by
  have hitems : Agree 1 (items bound) (items bound) anything fun _ _ => True :=
    agree_items (Nat.zero_le _) (Nat.zero_le _)
  have hgoes := hitems.goes c trivial
  cases hread : items bound c with
  | error e =>
    rw [hread] at hgoes
    exact hgoes
  | ok r =>
    refine ⟨c.rest.length, Nat.le_refl _, ?_, rfl⟩
    rw [List.drop_length]
    exact rest_of_items hbound hread

/-! ## All rules and loops -/

/-- The rules of the grammar, but for whole programs. They have a bound, and readers of what is inside,
which have another. The name behind a point belongs to a link of `chain`. -/
inductive IsRule : {α : Type} → Parse α → Prop
  | function (bound : Nat) : IsRule (function bound)
  | statement (level bound : Nat) : IsRule (statement level bound)
  | block (bound level inside : Nat) : IsRule (block bound (statement level inside))
  | declaration (bound : Nat) : IsRule (declaration bound)
  | ifStatement (bound level inside : Nat) : IsRule (ifStatement bound (statement level inside))
  | forStatement (bound level inside : Nat) : IsRule (forStatement bound (statement level inside))
  | whileStatement (bound level inside : Nat) : IsRule (whileStatement bound (statement level inside))
  | returnStatement (bound : Nat) : IsRule (returnStatement bound)
  | sequence (bound level inside : Nat) : IsRule (sequence bound (assignment level inside))
  | assignment (level bound : Nat) : IsRule (assignment level bound)
  | conditional (bound level inside : Nat) : IsRule (conditional bound (assignment level inside))
  | infixed (bound level inside : Nat) : IsRule (infixed bound (assignment level inside))
  | climb (bound level inside level' depth least : Nat) :
      IsRule (climb bound (assignment level inside) level' depth least)
  | unary (bound level inside : Nat) : IsRule (unary bound (assignment level inside))
  | signed (bound level inside level' signs : Nat) :
      IsRule (signed bound (assignment level inside) level' signs)
  | postfixed (bound level inside : Nat) : IsRule (postfixed bound (assignment level inside))
  | chain (bound level inside : Nat) : IsRule (chain bound (assignment level inside))
  | arguments (bound level inside : Nat) :
      IsRule (commaSeparated bound (.punctuation .closeParen) (assignment level inside))
  | primary (bound level inside : Nat) : IsRule (primary bound (assignment level inside))
  | array (bound level inside : Nat) : IsRule (array bound (assignment level inside))
  | object (bound level inside : Nat) : IsRule (object bound (assignment level inside))

/-- The loops of the grammar, by their rounds. -/
inductive IsLoop : {α : Type} → (α → Parse (α × Bool)) → Prop
  | items (bound : Nat) : IsLoop (itemStep bound)
  | params (bound : Nat) : IsLoop (commaStep (.punctuation .closeParen) (param bound))
  | statements (level inside : Nat) : IsLoop (blockStep (statement level inside))
  | declarators (bound : Nat) : IsLoop (moreStep (declarator bound))
  | parts (level inside : Nat) : IsLoop (moreStep (assignment level inside))
  | operands (bound level inside level' depth : Nat) (start : Span) (least : Nat) :
      IsLoop (infixStep (climb bound (assignment level inside) level' depth) start least)
  | links (bound level inside : Nat) (start : Span) :
      IsLoop (link bound (assignment level inside) start)
  | arguments (level inside : Nat) :
      IsLoop (commaStep (.punctuation .closeParen) (assignment level inside))
  | elements (level inside : Nat) : IsLoop (arrayStep (assignment level inside))
  | entries (level inside : Nat) :
      IsLoop (commaStep (.punctuation .closeBrace) (entry (assignment level inside)))

section

variable {α : Type}

/-- Every round of a loop passes a token or is the last. Hence the loop comes to an end without a bound,
and to the same one with a bound above the number of tokens left. -/
structure LoopAdvances (step : α → Parse (α × Bool)) : Prop where
  round (a : α) (c : Cursor) : GoesFrom c Round (step a c)
  ends (bound : Nat) (a : α) (c : Cursor) (r : Except Error (α × Cursor)) : c.rest.length < bound →
    (Repeats step a c r ↔ r = iterate step bound a c)

/-- Rules that read with each other, on however many levels, come to an end where at most `left` tokens
are left, which is the one that `read` comes to. -/
def RecursionEnds {ι : Type} (left : Nat) (rule : (ι → Parse α) → ι → Parse α) (read : ι → Parse α) :
    Prop :=
  ∀ (i : ι) (c : Cursor) (r : Except Error (α × Cursor)), c.rest.length ≤ left →
    (Recurs rule i c r ↔ r = read i c)

theorem Agree.advances {left : Nat} {p q : Parse α} (h : Agree left p q anything Moves) : Advances p :=
  fun c => h.goes c trivial

theorem LoopAdvances.of_agree {step step' : α → Parse (α × Bool)}
    (h : ∀ a, Agree 0 (step a) (step' a) anything Round) : LoopAdvances step := by
  have hround : ∀ a c, GoesFrom c Round (step a c) := fun a c => (h a).goes c trivial
  exact ⟨hround, fun _ _ _ _ hbound => repeats_iff hround hbound⟩

/-- Recursion that is tied far enough does not depend on how far. -/
theorem Tied.recursionEnds {ι : Type} {rule : Nat → (ι → Parse α) → ι → Parse α}
    {read : Nat → Nat → ι → Parse α} {left bound bound' : Nat} (h : Tied rule read)
    (hrule : AgreeRules left rule rule) (level : Nat) (hbound : left ≤ bound) (hbound' : left ≤ bound') :
    RecursionEnds left (rule bound) (read level bound') :=
  fun i _ _ hleft => h.recurs_iff hrule level i hleft (by omega) (by omega)

end

theorem agree_self_assignment (level bound : Nat) :
    Agree 0 (assignment level bound) (assignment level bound) anything Moves :=
  agree_assignment_of_le level level (Nat.zero_le _) (Nat.zero_le _)

theorem agree_self_statement (level bound : Nat) :
    Agree 0 (statement level bound) (statement level bound) anything Moves :=
  agree_statement_of_le level level (Nat.zero_le _) (Nat.zero_le _)

/-- Signs in front of an operand come to an end. -/
theorem recursionEnds_signed {signs : Nat} (bound level inside level' : Nat)
    (hsigns : left ≤ signs) :
    RecursionEnds left (alone (signRule bound (assignment level inside)))
      (fun _ => signed bound (assignment level inside) level' signs) := by
  have hchain : Agree 1 (postfixed bound (assignment level inside))
      (postfixed bound (assignment level inside)) anything Moves :=
    agree_postfixed (agree_self_assignment level inside) (Nat.zero_le _) (Nat.zero_le _)
  exact (tied_signed _ _).recursionEnds (agreeRules_sign hchain.self) level' (Nat.le_refl left) hsigns

/-- Operators with operators in their right operands come to an end. -/
theorem recursionEnds_climb {depth : Nat} (level inside level' : Nat) (hbound : left ≤ bound)
    (hdepth : left ≤ depth) :
    RecursionEnds left (climbRule bound (assignment level inside))
      (climb bound (assignment level inside) level' depth) := by
  have hunary : Agree 1 (unary bound (assignment level inside)) (unary bound (assignment level inside))
      anything Moves :=
    agree_unary (agree_self_assignment level inside) (Nat.zero_le _) (Nat.zero_le _)
  exact (tied_climb _ _).recursionEnds (agreeRules_climb hbound hbound hunary.self) level'
    (Nat.le_refl left) hdepth

/-- Climbing moves on, from whatever operator it starts. -/
theorem advances_climb (bound level inside level' depth least : Nat) :
    Advances (climb bound (assignment level inside) level' depth least) := by
  have hunary : Agree 1 (unary bound (assignment level inside)) (unary bound (assignment level inside))
      anything Moves :=
    agree_unary (agree_self_assignment level inside) (Nat.zero_le _) (Nat.zero_le _)
  exact (tied_climb _ _).goes (agreeRules_climb (Nat.zero_le _) (Nat.zero_le _) hunary)
    level' depth least

/-- Every rule of the grammar passes a token. -/
theorem IsRule.advances {α : Type} {p : Parse α} (h : IsRule p) : Advances p := by
  have hexpr := agree_self_assignment
  have hstmt := agree_self_statement
  -- no bound is needed for what a single run passes, so all of them are taken from nothing on
  have hle : ∀ bound : Nat, 0 ≤ bound := Nat.zero_le
  cases h with
  | function bound => exact (agree_function (hle _) (hle (bound + 1))).advances
  | statement level bound => exact (hstmt level bound).advances
  | block bound level inside => exact (agree_block (hstmt level inside) (hle _) (hle bound)).advances
  | declaration bound => exact (agree_declaration (hle _) (hle (bound + 1))).advances
  | ifStatement bound level inside =>
    exact (agree_ifStatement (hstmt level inside) (hle _) (hle bound)).advances
  | forStatement bound level inside =>
    exact (agree_forStatement (hstmt level inside) (hle _) (hle bound)).advances
  | whileStatement bound level inside =>
    exact (agree_whileStatement (hstmt level inside) (hle _) (hle bound)).advances
  | returnStatement bound => exact (agree_returnStatement (hle _) (hle (bound + 1))).advances
  | sequence bound level inside =>
    exact (agree_sequence (hexpr level inside) (hle _) (hle (bound + 1))).advances
  | assignment level bound => exact (hexpr level bound).advances
  | conditional bound level inside =>
    exact (agree_conditional (hexpr level inside) (hle _) (hle bound)).advances
  | infixed bound level inside =>
    exact (agree_infixed (hexpr level inside) (hle _) (hle bound)).advances
  | climb bound level inside level' depth least =>
    exact advances_climb bound level inside level' depth least
  | unary bound level inside => exact (agree_unary (hexpr level inside) (hle _) (hle bound)).advances
  | signed bound level inside level' signs =>
    exact (tied_signed _ _).goes
      (agreeRules_sign (agree_postfixed (hexpr level inside) (hle _) (hle bound))) level' signs ()
  | postfixed bound level inside =>
    exact (agree_postfixed (hexpr level inside) (hle _) (hle bound)).advances
  | chain bound level inside => exact (agree_chain (hexpr level inside) (hle _) (hle bound)).advances
  | arguments bound level inside =>
    exact (Agree.commaSeparated (hexpr level inside) (hle _) (hle bound)).advances
  | primary bound level inside =>
    exact (agree_primary (hexpr level inside) (hle _) (hle bound)).advances
  | array bound level inside => exact (agree_array (hexpr level inside) (hle _) (hle bound)).advances
  | object bound level inside =>
    exact (agree_object (hexpr level inside) (hle _) (hle bound)).advances

/-- Every loop of the grammar passes a token in each round but the last. -/
theorem IsLoop.advances {α : Type} {step : α → Parse (α × Bool)} (h : IsLoop step) :
    LoopAdvances step := by
  have hexpr := agree_self_assignment
  have hle : ∀ bound : Nat, 0 ≤ bound := Nat.zero_le
  cases h with
  | items bound => exact .of_agree (agree_itemStep (hle _) (hle (bound + 1)))
  | params bound =>
    exact .of_agree (Agree.commaStep (agree_param (hle _) (hle (bound + 1))) (.punctuation .closeParen))
  | statements level inside => exact .of_agree (agree_blockStep (agree_self_statement level inside))
  | declarators bound =>
    exact .of_agree (Agree.moreStep (agree_declarator (hle _) (hle (bound + 1))))
  | parts level inside => exact .of_agree (Agree.moreStep (hexpr level inside))
  | operands bound level inside level' depth start least =>
    have hright : ∀ least, Agree 0 (climb bound (assignment level inside) level' depth least)
        (climb bound (assignment level inside) level' depth least) anything Moves := fun least =>
      ⟨fun c _ => advances_climb bound level inside level' depth least c, fun _ _ _ => rfl⟩
    exact .of_agree (agree_infixStep hright start least)
  | links bound level inside start =>
    exact .of_agree (agree_link (hexpr level inside) (hle _) (hle bound) start)
  | arguments level inside =>
    exact .of_agree (Agree.commaStep (hexpr level inside) (.punctuation .closeParen))
  | elements level inside => exact .of_agree (agree_arrayStep (hexpr level inside))
  | entries level inside =>
    exact .of_agree (Agree.commaStep (agree_entry (hexpr level inside)) (.punctuation .closeBrace))

end Parse

/-- Tokens make a program or are refused. -/
theorem Program.ofTokens?_eq_ok_or_parse (tokens : List Lexeme) :
    (∃ program, Program.ofTokens? tokens = .ok program) ∨
      ∃ fault span, Program.ofTokens? tokens = .error (.parse fault span) := by
  have hgoes : Parse.GoesFrom ⟨tokens, 0⟩ (fun n _ => n = tokens.length)
      ((Parse.items tokens.length).run ⟨tokens, 0⟩) := Parse.items_go_to_end (Nat.le_refl _)
  unfold Program.ofTokens?
  cases hread : (Parse.items tokens.length).run ⟨tokens, 0⟩ with
  | error e =>
    rw [hread] at hgoes
    obtain ⟨fault, span, rfl⟩ := hgoes
    exact .inr ⟨fault, span, rfl⟩
  | ok r => exact .inl ⟨_, rfl⟩

/-- Reading comes to an end, since it goes forward. Any tokens are read as a program, to the last one,
or refused with a parse error, and no bound is the reason for that: more than the number of tokens
makes no difference. Every other rule passes at least one token, and none but those ahead, or fails
with a parse error. Every round of a loop passes a token or is the last, so that the loop, without a
bound, has one end; and so have the rules that read with each other: expressions and statements inside
of others, signs in front of signs, and operators in the right operands of others. -/
theorem Program.reading_advances (tokens : List Lexeme) :
    ((∃ program, Program.ofTokens? tokens = .ok program) ∨
      ∃ fault span, Program.ofTokens? tokens = .error (.parse fault span)) ∧
    (∀ bound, tokens.length ≤ bound →
      Parse.items bound ⟨tokens, 0⟩ = Parse.items tokens.length ⟨tokens, 0⟩ ∧
      Parse.GoesFrom ⟨tokens, 0⟩ (fun n _ => n = tokens.length) (Parse.items bound ⟨tokens, 0⟩)) ∧
    (∀ {α : Type} (p : Parse α), Parse.IsRule p → Parse.Advances p) ∧
    (∀ {α : Type} (step : α → Parse (α × Bool)), Parse.IsLoop step → Parse.LoopAdvances step) ∧
    (∀ left bound bound' level : Nat, left ≤ bound → left ≤ bound' →
      Parse.RecursionEnds left (Parse.alone (Parse.assignmentRule bound))
        (fun _ => Parse.assignment level bound') ∧
      Parse.RecursionEnds left (Parse.alone (Parse.statementRule bound))
        (fun _ => Parse.statement level bound')) ∧
    (∀ left bound bound' level inside level' : Nat, left ≤ bound → left ≤ bound' →
      Parse.RecursionEnds left (Parse.alone (Parse.signRule bound (Parse.assignment level inside)))
        (fun _ => Parse.signed bound (Parse.assignment level inside) level' bound') ∧
      Parse.RecursionEnds left (Parse.climbRule bound (Parse.assignment level inside))
        (Parse.climb bound (Parse.assignment level inside) level' bound')) := by
  refine ⟨Program.ofTokens?_eq_ok_or_parse tokens, fun bound hbound => ⟨?_, ?_⟩, ?_, ?_, ?_, ?_⟩
  -- A bound beyond the number of tokens is never used up.
  · have hitems : Parse.Agree (tokens.length + 1) (Parse.items tokens.length) (Parse.items bound)
        Parse.anything fun _ _ => True := Parse.agree_items (Nat.le_refl _) hbound
    exact hitems.same ⟨tokens, 0⟩ trivial (Nat.lt_succ_self _)
  · exact Parse.items_go_to_end hbound
  · exact fun _ h => h.advances
  · exact fun _ h => h.advances
  · intro left bound bound' level hbound hbound'
    exact ⟨Parse.tied_assignment.recursionEnds (Parse.agreeRules_assignment left) level hbound hbound',
      Parse.tied_statement.recursionEnds (Parse.agreeRules_statement left) level hbound hbound'⟩
  · intro left bound bound' level inside level' hbound hbound'
    exact ⟨Parse.recursionEnds_signed bound level inside level' hbound',
      Parse.recursionEnds_climb level inside level' hbound hbound'⟩

/-- Without a token there is a program, too, and reading it passes none. -/
theorem empty_program_passes_nothing :
    Program.ofTokens? [] = .ok ⟨[], ⟨0, 0⟩⟩ ∧ Parse.items 0 ⟨[], 0⟩ = .ok ([], ⟨[], 0⟩) ∧
      ¬ Parse.Advances (Parse.items 0) := by
  refine ⟨rfl, rfl, fun h => ?_⟩
  obtain ⟨n, hle, _, hpos⟩ := h ⟨[], 0⟩
  exact absurd hle (Nat.not_le.mpr hpos)

/-- An array that nothing closes: `[,,`. -/
def unclosedCommas : List Lexeme :=
  [⟨.punctuation .openBracket, ⟨0, 1⟩, 1⟩, ⟨.punctuation .comma, ⟨1, 2⟩, 1⟩,
    ⟨.punctuation .comma, ⟨2, 3⟩, 1⟩]

/-- The loop over the elements passes both commas and fails behind them, and with more rounds it would
fail there as well. -/
theorem unclosedCommas_reading_advances :
    Program.ofTokens? unclosedCommas = .error (.parse .endOfInput ⟨3, 3⟩) ∧
      Parse.items 9 ⟨unclosedCommas, 0⟩ = Parse.items 3 ⟨unclosedCommas, 0⟩ ∧
      Parse.Advances (Parse.array 3 (Parse.assignment 1 2)) ∧
      Parse.Repeats (Parse.arrayStep (Parse.assignment 1 2)) [] ⟨unclosedCommas.tail, 1⟩
        (.error (.parse .endOfInput ⟨3, 3⟩)) ∧
      Parse.Recurs (Parse.alone (Parse.assignmentRule 9)) () ⟨unclosedCommas, 0⟩
        (.error (.parse .endOfInput ⟨3, 3⟩)) := by
  obtain ⟨_, hbounds, hrules, hloops, hexpr, _⟩ := Program.reading_advances unclosedCommas
  refine ⟨rfl, (hbounds 9 (by decide)).1, hrules _ (.array 3 1 2), ?_, ?_⟩
  · exact ((hloops _ (.elements 1 2)).ends 3 [] ⟨unclosedCommas.tail, 1⟩ _ (by decide)).mpr rfl
  · exact ((hexpr 3 9 3 0 (by decide) (by decide)).1 () ⟨unclosedCommas, 0⟩ _ (by decide)).mpr rfl

end MeteredScript
