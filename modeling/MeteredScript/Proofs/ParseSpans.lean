import MeteredScript.Proofs.Spans
import MeteredScript.Tree.Parser

namespace MeteredScript

/-! # Reading without source ranges

The grammar decides by tokens alone: source ranges are put into what is read, and nothing is decided by
them. `Erases view p q` says that taking all ranges away first and reading with `q` is the same as
reading with `p` and taking them away afterwards, where `view` takes them away from a result. This is
shown of every rule of the grammar, a rule and itself without its ranges; of whole token lists it is
`Program.ofTokens?_eraseSpan`.
-/

/-- A token without the place where it was written. -/
def Lexeme.eraseSpan (lexeme : Lexeme) : Lexeme := ⟨lexeme.token, {}, 0⟩

/-- The same tokens ahead, without the places where they were written. -/
def Cursor.eraseSpans (c : Cursor) : Cursor := ⟨c.rest.map Lexeme.eraseSpan, 0⟩

/-- The next token is the same without ranges. -/
theorem Cursor.token?_eraseSpans (c : Cursor) : c.eraseSpans.token? = c.token? := by
  unfold Cursor.token? Cursor.eraseSpans
  rw [List.head?_map, Option.map_map]
  rfl

/-- There is no range left to read. -/
theorem Cursor.span_eraseSpans (c : Cursor) : c.eraseSpans.span = {} := by
  unfold Cursor.span Cursor.eraseSpans
  cases c.rest with
  | nil => rfl
  | cons lexeme rest => rfl

/-- Passing a token commutes with taking the ranges away. -/
theorem Cursor.advance_eraseSpans (c : Cursor) : c.eraseSpans.advance = c.advance.eraseSpans := by
  unfold Cursor.advance Cursor.eraseSpans
  cases hrest : c.rest with
  | nil => simp [hrest]
  | cons lexeme rest => rfl

namespace Parse

variable {α β : Type}

/-- The outcome of reading without source ranges, in the result, in an error and in what is left. -/
def eraseOutcome (view : α → α) : Except Error (α × Cursor) → Except Error (α × Cursor)
  | .ok (a, c) => .ok (view a, c.eraseSpans)
  | .error e => .error (e.mapSpan noSpan)

/-- Reading with `q` where no ranges are is reading with `p` and taking the ranges away. -/
def Erases (view : α → α) (p q : Parse α) : Prop :=
  ∀ c : Cursor, q c.eraseSpans = eraseOutcome view (p c)

/-- The reader decides by nothing that has to do with ranges. -/
abbrev Forgets (view : α → α) (p : Parse α) : Prop := Erases view p p

namespace Erases

variable {view : α → α} {view' : β → β} {p q : Parse α}

/-- A result without ranges is the view of the one that is given. -/
theorem result {a b : α} (h : b = view a) : Erases view (pure a) (pure b) := by
  subst h
  exact fun _ => rfl

/-- An error loses its range, and nothing else. -/
theorem fail (e : Error) : Erases view (throw e) (throw (e.mapSpan noSpan)) := fun _ => rfl

/-- What is read next depends on the first result, whose ranges are gone too. -/
theorem bind {f g : α → Parse β} (hp : Erases view p q) (hf : ∀ a, Erases view' (f a) (g (view a))) :
    Erases view' (p >>= f) (q >>= g) := by
  intro c
  show (q c.eraseSpans >>= fun r => g r.1 r.2) = eraseOutcome view' (p c >>= fun r => f r.1 r.2)
  rw [hp c]
  cases p c with
  | error e => rfl
  | ok r => exact hf r.1 r.2

/-! ## Single tokens -/

/-- To look ahead is to look at a token, which has no range. -/
theorem peek {f g : Option Token → Parse β} (h : ∀ t, Erases view' (f t) (g t)) :
    Erases view' (Parse.peek >>= f) (Parse.peek >>= g) := by
  have hpeek : Forgets id Parse.peek := by
    intro c
    show Except.ok (c.eraseSpans.token?, c.eraseSpans) = .ok (c.token?, c.eraseSpans)
    rw [Cursor.token?_eraseSpans]
  exact hpeek.bind h

variable {item : Parse α} {f g : Span → Parse β} {token : Token}

/-- The range of the next token is lost: what follows may only put it into its result. -/
theorem here (h : ∀ span, Erases view' (f span) (g {})) :
    Erases view' (Parse.here >>= f) (Parse.here >>= g) := by
  have hhere : Forgets noSpan Parse.here := by
    intro c
    show Except.ok (c.eraseSpans.span, c.eraseSpans) = .ok ({}, c.eraseSpans)
    rw [Cursor.span_eraseSpans]
  exact hhere.bind h

theorem advance {f g : Unit → Parse β} (h : Erases view' (f ()) (g ())) :
    Erases view' (Parse.advance >>= f) (Parse.advance >>= g) := by
  have hadvance : Forgets id Parse.advance := by
    intro c
    show Except.ok ((), c.eraseSpans.advance) = .ok ((), c.advance.eraseSpans)
    rw [Cursor.advance_eraseSpans]
  exact hadvance.bind fun _ => h

/-- So is the range of all that was read. -/
theorem spanFrom {start : Span} (h : ∀ span, Erases view' (f span) (g {})) :
    Erases view' (Parse.spanFrom start >>= f) (Parse.spanFrom {} >>= g) := by
  have hspan : Erases noSpan (Parse.spanFrom start) (Parse.spanFrom {}) := fun _ => rfl
  exact hspan.bind h

theorem check {f g : Bool → Parse β} (h : ∀ found, Erases view' (f found) (g found)) :
    Erases view' (Parse.check token >>= f) (Parse.check token >>= g) := by
  have hcheck : Forgets id (Parse.check token) := peek fun _ => result rfl
  exact hcheck.bind h

/-- The error about an unexpected token names the token and its range. -/
theorem unexpected : Forgets view Parse.unexpected := by
  refine here fun span => peek fun t => ?_
  cases t with
  | none => exact fail _
  | some token =>
    cases token with
    | regex body flags => exact fail _
    | _ => exact fail _

theorem eat {f g : Bool → Parse β} (h : ∀ eaten, Erases view' (f eaten) (g eaten)) :
    Erases view' (Parse.eat token >>= f) (Parse.eat token >>= g) := by
  have heat : Forgets id (Parse.eat token) := by
    refine check fun found => ?_
    cases found with
    | true => exact advance (result rfl)
    | false => exact result rfl
  exact heat.bind h

/-- A token that has to follow. -/
theorem expect (h : ∀ span, Erases view' (f span) (g {})) :
    Erases view' (Parse.expect token >>= f) (Parse.expect token >>= g) := by
  have hexpect : Forgets noSpan (Parse.expect token) := by
    refine here fun span => eat fun eaten => ?_
    cases eaten with
    | true => exact result rfl
    | false => exact unexpected
  exact hexpect.bind h

theorem name : Forgets id Parse.name := by
  refine peek fun t => ?_
  cases t with
  | none => exact unexpected
  | some token =>
    cases token with
    | ident name => exact advance (result rfl)
    | _ => exact unexpected

/-! ## Lists -/

/-- Loops, by induction on the bound: the same rounds are made. -/
theorem iterate {step step' : α → Parse (α × Bool)}
    (hstep : ∀ a, Erases (Prod.map view id) (step a) (step' (view a))) (bound : Nat) (a : α) :
    Erases view (Parse.iterate step bound a) (Parse.iterate step' bound (view a)) := by
  induction bound generalizing a with
  | zero => exact result rfl
  | succ bound ih =>
    refine (hstep a).bind fun r => ?_
    obtain ⟨a, more⟩ := r
    cases more with
    | true => exact ih a
    | false => exact result rfl

theorem commaStep {closer : Token} (hitem : Forgets view item) (read : List α) :
    Erases (Prod.map (List.map view) id) (Parse.commaStep closer item read)
      (Parse.commaStep closer item (read.map view)) := by
  refine check fun found => ?_
  cases found with
  | true => exact result rfl
  | false => exact hitem.bind fun a => eat fun more => result rfl

/-- Lists in brackets are lists without ranges. -/
theorem commaSeparated {closer : Token} (hitem : Forgets view item) (bound : Nat) :
    Forgets (List.map view) (Parse.commaSeparated bound closer item) := by
  refine (iterate (commaStep hitem) bound []).bind fun read => ?_
  exact expect fun _ => result List.map_reverse.symm

theorem moreStep (hitem : Forgets view item) (read : List α) :
    Erases (Prod.map (List.map view) id) (Parse.moreStep item read)
      (Parse.moreStep item (read.map view)) := by
  refine eat fun more => ?_
  cases more with
  | true => exact hitem.bind fun a => result rfl
  | false => exact result rfl

/-- The rest of a list whose first item was read before. -/
theorem commaRest (hitem : Forgets view item) (bound : Nat) (first : α) :
    Erases (List.map view) (Parse.commaRest bound item first)
      (Parse.commaRest bound item (view first)) :=
  (iterate (moreStep hitem) bound [first]).bind fun _ => result List.map_reverse.symm

end Erases

/-! ## Expressions -/

section Expressions

variable {sub : Parse Expr} (hsub : Forgets Expr.eraseSpans sub) (bound : Nat)
include hsub

theorem erases_sequence : Forgets Expr.eraseSpans (sequence bound sub) := by
  refine .here fun start => hsub.bind fun first => .check fun comma => ?_
  cases comma with
  | true =>
    refine (Erases.commaRest hsub bound first).bind fun parts => .spanFrom fun span => .result ?_
    simp [Expr.mapSpans, noSpan]
  | false => exact .result rfl

/-- A round of an array reads an element and its comma, or just a comma. -/
theorem erases_arrayStep (read : List Expr) :
    Erases (Prod.map (List.map Expr.eraseSpans) id) (arrayStep sub read)
      (arrayStep sub (read.map Expr.eraseSpans)) := by
  refine .check fun closed => ?_
  cases closed with
  | true => exact .result rfl
  | false =>
    refine .eat fun comma => ?_
    cases comma with
    | true => exact .result rfl
    | false => exact hsub.bind fun e => .eat fun more => .result rfl

theorem erases_array : Forgets Expr.eraseSpans (array bound sub) := by
  refine .expect fun start => ?_
  refine (Erases.iterate (erases_arrayStep hsub) bound []).bind fun read => ?_
  refine .expect fun _ => .spanFrom fun span => .result ?_
  simp [Expr.mapSpans, noSpan]

theorem erases_entry : Forgets (Prod.map id Expr.eraseSpans) (entry sub) := by
  refine .peek fun t => ?_
  cases t.bind entryKey? with
  | some key => exact .advance (.expect fun _ => hsub.bind fun e => .result rfl)
  | none => exact .unexpected

theorem erases_object : Forgets Expr.eraseSpans (object bound sub) := by
  refine .expect fun start => ?_
  refine (Erases.commaSeparated (erases_entry hsub) bound).bind fun entries => ?_
  refine .spanFrom fun span => .result ?_
  simp [Expr.mapSpans, noSpan]

theorem erases_parenthesized : Forgets Expr.eraseSpans (parenthesized bound sub) := by
  refine .expect fun _ => (erases_sequence hsub bound).bind fun e => ?_
  exact .expect fun _ => .result rfl

/-- What an expression begins with decides which rule reads it. -/
theorem erases_primary : Forgets Expr.eraseSpans (primary bound sub) := by
  refine .here fun start => .peek fun t => ?_
  split
  · exact .advance (.result rfl)
  · exact erases_parenthesized hsub bound
  · exact erases_array hsub bound
  · exact erases_object hsub bound
  · rename_i token _ _ _ _
    cases literal? token with
    | some value => exact .advance (.result rfl)
    | none => exact .unexpected
  · exact .unexpected

/-- A link of a chain takes its range from the start of the chain. -/
theorem erases_link (start : Span) (e : Expr) :
    Erases (Prod.map Expr.eraseSpans id) (link bound sub start e)
      (link bound sub {} e.eraseSpans) := by
  refine .peek fun t => ?_
  split
  · refine .advance (.peek fun t => ?_)
    -- a token either continues the chain or ends it
    cases t.bind memberName? with
    | some name => exact .advance (.spanFrom fun span => .result rfl)
    | none => exact .unexpected
  · refine .advance ((erases_sequence hsub bound).bind fun key => ?_)
    exact .expect fun _ => .spanFrom fun span => .result rfl
  · refine .advance ((Erases.commaSeparated hsub bound).bind fun arguments => ?_)
    refine .spanFrom fun span => .result ?_
    simp [Expr.mapSpans, noSpan]
  · exact .result rfl

theorem erases_chain : Forgets Expr.eraseSpans (chain bound sub) :=
  .here fun start => (erases_primary hsub bound).bind fun e =>
    Erases.iterate (erases_link hsub bound start) bound e

theorem erases_postfixed : Forgets Expr.eraseSpans (postfixed bound sub) := by
  refine .here fun start => (erases_chain hsub bound).bind fun e => .peek fun t => ?_
  split
  · cases e with
    | place target => exact .advance (.spanFrom fun span => .result rfl)
    | _ => exact .fail _
  · exact .result rfl

omit hsub in
/-- A step needs something to step, and refuses the rest with an error at its sign. -/
theorem erases_applySign (e : Expr) (sign : PrefixSign × Span) :
    Erases Expr.eraseSpans (applySign e sign)
      (applySign e.eraseSpans (Prod.map id noSpan sign)) := by
  obtain ⟨sign, start⟩ := sign
  refine .spanFrom fun span => ?_
  cases sign with
  | unary op => exact .result rfl
  | update op =>
    -- only a place, or steps in front of one, can be stepped
    cases e with
    | place target => exact .result rfl
    | updateBefore op' span' inner target => exact .result rfl
    | _ => exact .fail _

/-- Signs in front of an operand, by induction on how many may follow. -/
theorem erases_signed (level signs : Nat) :
    Forgets Expr.eraseSpans (signed bound sub level signs) := by
  induction signs generalizing level with
  | zero => exact .unexpected
  | succ signs ih =>
    simp only [signed, deepen_eq]
    refine .peek fun t => ?_
    cases t.bind PrefixSign.ofToken? with
    | some sign =>
      refine .here fun start => .advance ?_
      exact (ih (level + 1)).bind fun e => erases_applySign e (sign, start)
    | none => exact erases_postfixed hsub bound

theorem erases_unary : Forgets Expr.eraseSpans (unary bound sub) :=
  erases_signed hsub bound 0 (bound + 1)

omit hsub in
/-- Whether an operator is read depends on how tightly it binds, not on where it stands. -/
theorem erases_infixStep {right : Nat → Parse Expr}
    (hright : ∀ least, Forgets Expr.eraseSpans (right least)) (start : Span) (least : Nat)
    (left : Expr) :
    Erases (Prod.map Expr.eraseSpans id) (infixStep right start least left)
      (infixStep right {} least left.eraseSpans) := by
  refine .peek fun t => ?_
  cases t.bind InfixOp.ofToken? with
  | some op =>
    dsimp only
    split
    · exact .result rfl
    · refine .advance ((hright _).bind fun right => .spanFrom fun span => .result ?_)
      exact congrArg (·, true) (op.eraseSpans_join left right span).symm
  | none => exact .result rfl

/-- Operators of all levels, by induction on the level, and in it on the length of the rest. -/
theorem erases_climb (level depth least : Nat) :
    Forgets Expr.eraseSpans (climb bound sub level depth least) := by
  induction depth generalizing level least with
  | zero => exact .unexpected
  | succ depth ih =>
    simp only [climb, deepen_eq]
    refine .here fun start => (erases_unary hsub bound).bind fun left => ?_
    exact .iterate (erases_infixStep (ih (level + 1)) start least) bound left

theorem erases_infixed : Forgets Expr.eraseSpans (infixed bound sub) :=
  erases_climb hsub bound 0 (bound + 1) 1

theorem erases_conditional : Forgets Expr.eraseSpans (conditional bound sub) := by
  refine .here fun start => (erases_infixed hsub bound).bind fun test => .eat fun question => ?_
  cases question with
  | true =>
    refine hsub.bind fun consequent => .expect fun _ => hsub.bind fun alternate => ?_
    exact .spanFrom fun span => .result rfl
  | false => exact .result rfl

/-- A target that cannot be assigned to is refused with an error at its range. -/
theorem erases_assignmentRule : Forgets Expr.eraseSpans (assignmentRule bound sub) := by
  refine .here fun start => (erases_conditional hsub bound).bind fun e => .peek fun t => ?_
  cases t.bind assignOp? with
  | some op =>
    cases e with
    | place target => exact .advance (hsub.bind fun value => .spanFrom fun span => .result rfl)
    | _ => exact .fail _
  | none => exact .result rfl

end Expressions

/-- Expressions inside expressions, by induction on how deep they may be. -/
theorem erases_assignment (level bound : Nat) :
    Forgets Expr.eraseSpans (assignment level bound) := by
  induction bound generalizing level with
  | zero => exact .unexpected
  | succ bound ih =>
    intro c
    simp only [assignment, deepen_eq]
    exact erases_assignmentRule (ih (level + 1)) (bound + 1) c

/-- Whole expressions. -/
theorem erases_expression (bound : Nat) :
    Forgets Expr.eraseSpans (expression bound) :=
  erases_sequence (erases_assignment 0 bound) bound

/-! ## Statements -/

/-- An optional semicolon. -/
theorem Erases.semicolon {f g : Unit → Parse β} {view' : β → β} (h : Erases view' (f ()) (g ())) :
    Erases view' (Parse.semicolon >>= f) (Parse.semicolon >>= g) := by
  have hsemicolon : Forgets id Parse.semicolon := .eat fun _ => .result rfl
  exact hsemicolon.bind fun _ => h

theorem erases_initializer (bound : Nat) :
    Forgets (Option.map Expr.eraseSpans) (initializer bound) := by
  refine .eat fun assigned => ?_
  cases assigned with
  | true => exact (erases_assignment 0 bound).bind fun e => .result rfl
  | false => exact .result rfl

theorem erases_declarator (bound : Nat) :
    Forgets Declarator.eraseSpans (declarator bound) :=
  Erases.name.bind fun _ => (erases_initializer bound).bind fun _ => .result rfl

/-- A declaration is given back with its range. -/
theorem erases_declaration (bound : Nat) :
    Forgets (Prod.map (List.map Declarator.eraseSpans) noSpan) (declaration bound) := by
  refine .here fun start => .advance ((erases_declarator bound).bind fun first => ?_)
  refine (Erases.commaRest (erases_declarator bound) bound first).bind fun declarators => ?_
  exact .spanFrom fun span => .result rfl

/-- What a `for` loop starts with. -/
theorem erases_forInit (bound : Nat) :
    Forgets (Option.map ForInit.eraseSpans) (forInit bound) := by
  refine .peek fun t => ?_
  split
  · exact .result rfl
  · split
    · exact (erases_declaration bound).bind fun _ => .result rfl
    · exact (erases_expression bound).bind fun _ => .result rfl

theorem erases_expressionUnless (bound : Nat) (closer : Token) :
    Forgets (Option.map Expr.eraseSpans) (expressionUnless bound closer) := by
  refine .check fun closed => ?_
  cases closed with
  | true => exact .result rfl
  | false => exact (erases_expression bound).bind fun _ => .result rfl

/-- Whether there is something to return is decided by the next token. -/
theorem erases_returnArgument (bound : Nat) :
    Forgets (Option.map Expr.eraseSpans) (returnArgument bound) := by
  refine .peek fun t => ?_
  split
  · exact .result rfl
  · exact .result rfl
  · exact .result rfl
  · exact (erases_expression bound).bind fun _ => .result rfl

section Statements

variable (bound : Nat) {sub : Parse Stmt}

theorem erases_returnStatement : Forgets Stmt.eraseSpans (returnStatement bound) := by
  refine .expect fun start => (erases_returnArgument bound).bind fun argument => ?_
  exact .semicolon (.spanFrom fun span => .result rfl)

theorem erases_expressionStatement : Forgets Stmt.eraseSpans (expressionStatement bound) := by
  refine .here fun start => (erases_expression bound).bind fun e => ?_
  exact .semicolon (.spanFrom fun span => .result rfl)

theorem erases_declarationStatement : Forgets Stmt.eraseSpans (declarationStatement bound) :=
  (erases_declaration bound).bind fun _ => .semicolon (.result rfl)

theorem erases_wordStatement {make : Span → Stmt} (hmake : ∀ span, make {} = (make span).eraseSpans) :
    Forgets Stmt.eraseSpans (wordStatement make) :=
  .here fun start => .advance (.semicolon (.result (hmake start)))

variable (hsub : Forgets Stmt.eraseSpans sub)
include hsub

theorem erases_blockStep (read : List Stmt) :
    Erases (Prod.map (List.map Stmt.eraseSpans) id) (blockStep sub read)
      (blockStep sub (read.map Stmt.eraseSpans)) := by
  refine .peek fun t => ?_
  split
  · exact .result rfl
  · exact .result rfl
  · exact hsub.bind fun _ => .result rfl

/-- A block is given back with its range. -/
theorem erases_block : Forgets (Prod.map (List.map Stmt.eraseSpans) noSpan) (block bound sub) := by
  refine .expect fun start => ?_
  refine (Erases.iterate (erases_blockStep hsub) bound []).bind fun read => .peek fun t => ?_
  cases t.isNone with
  | true => exact .fail _
  | false => exact .expect fun _ => .spanFrom fun span => .result (Prod.ext List.map_reverse.symm rfl)

theorem erases_ifStatement : Forgets Stmt.eraseSpans (ifStatement bound sub) := by
  refine .expect fun start => .expect fun _ => (erases_expression bound).bind fun test => ?_
  refine .expect fun _ => hsub.bind fun consequent => .eat fun elseWord => ?_
  cases elseWord with
  | true => exact hsub.bind fun alternate => .spanFrom fun span => .result rfl
  | false => exact .spanFrom fun span => .result rfl

theorem erases_forStatement : Forgets Stmt.eraseSpans (forStatement bound sub) := by
  refine .expect fun start => .expect fun _ => (erases_forInit bound).bind fun init => ?_
  refine .expect fun _ => (erases_expressionUnless bound _).bind fun test => ?_
  refine .expect fun _ => (erases_expressionUnless bound _).bind fun update => ?_
  exact .expect fun _ => hsub.bind fun body => .spanFrom fun span => .result rfl

theorem erases_whileStatement : Forgets Stmt.eraseSpans (whileStatement bound sub) := by
  refine .expect fun start => .expect fun _ => (erases_expression bound).bind fun test => ?_
  exact .expect fun _ => hsub.bind fun body => .spanFrom fun span => .result rfl

/-- What a statement begins with decides which rule reads it. -/
theorem erases_statementRule : Forgets Stmt.eraseSpans (statementRule bound sub) := by
  refine .peek fun t => ?_
  cases t with
  | none => exact .unexpected
  | some token =>
    cases token with
    | keyword word =>
      cases word with
      | functionWord => exact .here fun span => .fail _
      | varWord | letWord | constWord => exact erases_declarationStatement bound
      | ifWord => exact erases_ifStatement bound hsub
      | forWord => exact erases_forStatement bound hsub
      | whileWord => exact erases_whileStatement bound hsub
      | breakWord => exact erases_wordStatement fun _ => rfl
      | continueWord => exact erases_wordStatement fun _ => rfl
      | returnWord => exact erases_returnStatement bound
      | _ => exact erases_expressionStatement bound
    | punctuation mark =>
      cases mark with
      | openBrace =>
        refine (erases_block bound hsub).bind fun r => .result ?_
        simp [Stmt.mapSpans]
      | semicolon => exact .here fun span => .advance (.result rfl)
      | _ => exact erases_expressionStatement bound
    | _ => exact erases_expressionStatement bound

end Statements

/-- Statements inside statements, by induction on how deep they may be. -/
theorem erases_statement (level bound : Nat) :
    Forgets Stmt.eraseSpans (statement level bound) := by
  induction bound generalizing level with
  | zero => exact .unexpected
  | succ bound ih =>
    intro c
    simp only [statement, deepen_eq]
    exact erases_statementRule (bound + 1) (ih (level + 1)) c

/-! ## Programs -/

theorem erases_param (bound : Nat) : Forgets Param.eraseSpans (param bound) :=
  Erases.name.bind fun _ => (erases_initializer bound).bind fun _ => .result rfl

/-- Functions. -/
theorem erases_function (bound : Nat) :
    Forgets (Function.mapSpans noSpan) (function bound) := by
  refine .expect fun start => Erases.name.bind fun name => .expect fun _ => ?_
  refine (Erases.commaSeparated (erases_param bound) bound).bind fun params => ?_
  refine (erases_block bound (erases_statement 0 bound)).bind fun body => ?_
  exact .spanFrom fun span => .result rfl

theorem erases_item (bound : Nat) : Forgets Item.eraseSpans (item bound) := by
  refine .check fun isFunction => ?_
  cases isFunction with
  | true => exact (erases_function bound).bind fun _ => .result rfl
  | false => exact (erases_statement 0 bound).bind fun _ => .result rfl

theorem erases_itemStep (bound : Nat) (read : List Item) :
    Erases (Prod.map (List.map Item.eraseSpans) id) (itemStep bound read)
      (itemStep bound (read.map Item.eraseSpans)) := by
  refine .peek fun t => ?_
  cases t.isNone with
  | true => exact .result rfl
  | false => exact (erases_item bound).bind fun _ => .result rfl

/-- All items of a program. -/
theorem erases_items (bound : Nat) : Forgets (List.map Item.eraseSpans) (items bound) :=
  (Erases.iterate (erases_itemStep bound) bound []).bind fun _ => .result List.map_reverse.symm

end Parse

/-- A program or an error without source ranges. -/
def eraseParsed : Except Error Program → Except Error Program
  | .ok program => .ok program.eraseSpans
  | .error e => .error (e.mapSpan noSpan)

/-- What a token list spells, and how it fails to spell a program, does not depend on where its tokens
were written. -/
theorem Program.ofTokens?_eraseSpan (lexemes : List Lexeme) :
    Program.ofTokens? (lexemes.map Lexeme.eraseSpan) = eraseParsed (Program.ofTokens? lexemes) := by
  have hitems : Parse.items lexemes.length ⟨lexemes.map Lexeme.eraseSpan, 0⟩ =
      Parse.eraseOutcome (List.map Item.eraseSpans) (Parse.items lexemes.length ⟨lexemes, 0⟩) :=
    Parse.erases_items lexemes.length ⟨lexemes, 0⟩
  unfold Program.ofTokens?
  rw [List.length_map, StateT.run, StateT.run, hitems]
  cases Parse.items lexemes.length ⟨lexemes, 0⟩ with
  | error e => rfl
  | ok r => rfl

/-- Token lists that differ only in where their tokens were written spell the same. -/
theorem Program.eraseParsed_congr {lexemes lexemes' : List Lexeme}
    (h : lexemes'.map Lexeme.token = lexemes.map Lexeme.token) :
    eraseParsed (Program.ofTokens? lexemes') = eraseParsed (Program.ofTokens? lexemes) := by
  have hsame : lexemes'.map Lexeme.eraseSpan = lexemes.map Lexeme.eraseSpan := by
    have herase : Lexeme.eraseSpan = (fun token => ⟨token, {}, 0⟩) ∘ Lexeme.token := rfl
    rw [herase, ← List.map_map, h, List.map_map]
  rw [← Program.ofTokens?_eraseSpan, hsame, Program.ofTokens?_eraseSpan]

end MeteredScript
