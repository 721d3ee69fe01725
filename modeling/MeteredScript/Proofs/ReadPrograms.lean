import MeteredScript.Proofs.NodeTable
import MeteredScript.Proofs.Outline
import MeteredScript.Proofs.ReadExpressions

namespace MeteredScript

/-! # Reading written programs

Statements are read back like expressions. A statement that ends in an `if` without an `else` must not
have an `else` behind it, which would go to that `if`; everything else that is written down ends with a
token of its own, so that nothing behind it matters.
-/

/-! ## First tokens -/

/-- Words that begin a statement and are never part of an expression. -/
def Token.startsStatement : Token → Bool
  | .keyword word =>
    match word with
    | .varWord | .ifWord | .forWord | .whileWord | .breakWord | .continueWord | .returnWord => true
    | _ => false
  | .punctuation mark =>
    match mark with
    | .openBrace | .semicolon => true
    | _ => false
  | _ => false

/-- An expression statement begins like an expression, and never with a brace. -/
theorem starts_statementTokens {e : Expr} (he : e.isWritable = true) :
    ∃ token rest, statementTokens e = token :: rest ∧ token.startsExpression = true ∧
      token ≠ .punctuation .openBrace := by
  unfold statementTokens
  split
  · exact ⟨_, _, rfl, rfl, by decide⟩
  · rename_i hbrace
    obtain ⟨token, rest, htokens, hstart, _⟩ := e.starts_tokens he
    refine ⟨token, rest, htokens, hstart, ?_⟩
    rintro rfl
    rw [htokens] at hbrace
    exact hbrace rfl

/-- What closes a list begins no expression. -/
theorem Expr.starts_tokens_ne {e : Expr} (he : e.isWritable = true) {closer : Token}
    (hcloser : closer.startsExpression = false) :
    ∃ token rest, e.tokens = token :: rest ∧ token.startsExpression = true ∧ token ≠ closer := by
  obtain ⟨token, rest, htokens, hstart, _⟩ := e.starts_tokens he
  refine ⟨token, rest, htokens, hstart, ?_⟩
  rintro rfl
  exact Bool.false_ne_true (hcloser.symm.trans hstart)

theorem Stmt.starts_tokens {s : Stmt} (hs : s.isWritable = true) :
    ∃ token rest, s.tokens = token :: rest ∧
      (token.startsStatement = true ∨ token.startsExpression = true) := by
  cases s with
  | expression e span =>
    obtain ⟨token, rest, htokens, hstart, _⟩ := starts_statementTokens hs
    refine ⟨token, rest ++ [.punctuation .semicolon], ?_, .inr hstart⟩
    rw [Stmt.tokens, htokens, List.cons_append]
  | declare declarators span => exact ⟨_, _, by rw [Stmt.tokens, declarationTokens]; rfl, .inl rfl⟩
  | _ => exact ⟨_, _, by rw [Stmt.tokens], .inl rfl⟩

theorem Stmt.starts_tokens_ne {s : Stmt} (hs : s.isWritable = true) :
    ∃ token rest, s.tokens = token :: rest ∧ token ≠ .punctuation .closeBrace ∧
      token ≠ .keyword .elseWord ∧ token ≠ .keyword .functionWord := by
  obtain ⟨token, rest, htokens, hstart⟩ := Stmt.starts_tokens hs
  have hne : ∀ other : Token, other.startsStatement = false → other.startsExpression = false →
      token ≠ other := by
    rintro other hstatement hexpression rfl
    rcases hstart with h | h
    · exact Bool.false_ne_true (hstatement.symm.trans h)
    · exact Bool.false_ne_true (hexpression.symm.trans h)
  exact ⟨token, rest, htokens, hne _ rfl rfl, hne _ rfl rfl, hne _ rfl rfl⟩

theorem Item.starts_tokens {i : Item} (hi : i.isWritable = true) :
    ∃ token rest, i.tokens = token :: rest ∧ token ≠ .keyword .elseWord := by
  cases i with
  | function f => exact ⟨_, _, rfl, by decide⟩
  | statement s =>
    obtain ⟨token, rest, htokens, _, helse, _⟩ := Stmt.starts_tokens_ne hi
    exact ⟨token, rest, htokens, helse⟩

/-- An `else` behind a statement does not go to an `if` inside it. -/
def Stmt.Closed (s : Stmt) (next : Option Token) : Prop :=
  s.endsOpen = true → next ≠ some (.keyword .elseWord)

namespace Parse

/-! ## Declarations -/

variable {α : Type} {back : List Token} {bound : Nat} {stop : Option Token → Prop}

theorem semicolon_cons {f : Unit → Parse α} {Q : α → Prop} (h : Reads (f ()) bound back stop Q) :
    Reads (semicolon >>= f) (bound + 1) (.punctuation .semicolon :: back) stop Q := by
  unfold semicolon
  rw [bind_assoc]
  refine Reads.eat_same ?_
  rw [pure_bind]
  exact h

theorem bind_semicolon {β : Type} {p : Parse α} {g : α → Parse β} {front : List Token}
    {stop' : Option Token → Prop} {P : α → Prop} {Q : β → Prop} (hp : Reads p bound front stop P)
    (hstop : stop (some (.punctuation .semicolon)))
    (hg : ∀ a, P a → Reads (g a) bound back stop' Q) :
    Reads (p >>= fun a => semicolon >>= fun _ => g a) bound
      (front ++ .punctuation .semicolon :: back) stop' Q :=
  Reads.bind hp (fun a ha => semicolon_cons (hg a ha)) (by omega) fun _ _ => hstop

/-- Initial values are read back, and so is that there is none. -/
theorem reads_initializer (n : Nat) {init : Option Expr} (hinit : optionWritable init = true) :
    Reads (initializer n) n (initializerTokens init) (Stops 1)
      fun r => r.map Expr.eraseSpans = init.map Expr.eraseSpans := by
  unfold initializer
  rcases init with _ | e
  · exact Reads.eat_nil (fun _ hnext => hnext.ne rfl (Nat.le_refl 1)) (Reads.pure rfl)
  · have hread := reads_assignment n 0 e hinit
    refine (Reads.eat_same (Reads.bind_nil hread fun x hx => Reads.pure ?_)).of_le (Nat.le_succ n)
    rw [Option.map_some, Option.map_some, hx]

/-- A name with an optional initial value. -/
theorem reads_declared (make : String → Option Expr → α) (n : Nat) (name : String)
    {init : Option Expr} (hinit : optionWritable init = true) :
    Reads (do
      let name ← Parse.name
      return make name (← initializer n)) n (declaredTokens name init) (Stops 1)
      fun r => ∃ init', r = make name init' ∧ init'.map Expr.eraseSpans = init.map Expr.eraseSpans := by
  refine (Reads.name_cons ?_).of_le (Nat.le_succ n)
  exact Reads.bind_nil (reads_initializer n hinit) fun init' h => Reads.pure ⟨init', rfl, h⟩

theorem reads_declarator (n : Nat) {d : Declarator} (hd : optionWritable d.init = true) :
    Reads (declarator n) n (declaredTokens d.name d.init) (Stops 1)
      fun r => r.eraseSpans = d.eraseSpans := by
  refine (reads_declared DeclaratorOf.mk n d.name hd).imp fun r hr => ?_
  obtain ⟨init, rfl, hinit⟩ := hr
  exact congrArg (DeclaratorOf.mk d.name) hinit

theorem reads_param (n : Nat) {p : Param} (hp : optionWritable p.fallback = true) :
    Reads (param n) n (declaredTokens p.name p.fallback) (Stops 1)
      fun r => r.eraseSpans = p.eraseSpans := by
  refine (reads_declared ParamOf.mk n p.name hp).imp fun r hr => ?_
  obtain ⟨fallback, rfl, hfallback⟩ := hr
  exact congrArg (ParamOf.mk p.name) hfallback

/-- Declarations are read back up to the word they begin with, which is always written the same. -/
theorem reads_declaration (n : Nat) {declarators : List Declarator}
    (h : declarationWritable declarators = true) :
    Reads (declaration n) n (declarationTokens declarators) (Stops 0)
      fun r => r.1.map Declarator.eraseSpans = declarators.map Declarator.eraseSpans := by
  rw [declarationWritable, Bool.and_eq_true, List.all_eq_true] at h
  obtain ⟨hne, hall⟩ := h
  match declarators, hne with
  | first :: rest, _ =>
    have hitem : ∀ d ∈ rest, Reads (declarator n) n (declaredTokens d.name d.init) (Stops 1)
        fun r => r.eraseSpans = d.eraseSpans :=
      fun d hd => reads_declarator n (hall d (List.mem_cons_of_mem first hd))
    have hcomma : Stops 1 (some (.punctuation .comma)) := stops_some rfl Nat.one_pos
    have hstop : ∀ next, Stops 0 next → Stops 1 next ∧ next ≠ some (.punctuation .comma) :=
      fun next hnext => ⟨hnext.mono (Nat.le_succ 0), hnext.ne rfl (Nat.le_refl 0)⟩
    unfold declaration
    rw [declarationTokens, List.map_cons, separate, List.flatMap_map]
    -- The word in front pays for the step to the first declarator.
    refine Reads.here fun start => (Reads.advance_cons ?_).of_le (Nat.le_succ n)
    refine Reads.bind (reads_declarator n (hall first List.mem_cons_self)) (fun d hd => ?_)
      (Nat.le_add_right n _) fun next hnext => ?_
    · have hrest := Reads.commaRest d n rest hitem hcomma hstop (Nat.le_refl n)
      refine Reads.bind_nil hrest fun read hread => Reads.spanFrom fun span => Reads.pure ?_
      rw [hread, hd, List.map_cons]
    · rcases rest with _ | ⟨second, rest⟩
      · exact hnext.mono (Nat.le_succ 0)
      · exact hcomma

/-! ## Expressions inside statements -/

theorem reads_expression_before (n : Nat) {e : Expr} (he : e.isWritable = true) {closer : Token}
    (hstop : closer.continuation? = none) :
    Reads (expression n) n e.tokens (· = some closer) fun x => x.eraseSpans = e.eraseSpans := by
  have hread := reads_expression n e he
  rw [Expr.tokensAt_zero] at hread
  exact hread.mono (Nat.le_refl n) fun next hnext => hnext ▸ stops_of_none hstop

theorem semicolon_stops : (Token.punctuation .semicolon).continuation? = none := rfl

theorem closeParen_stops : (Token.punctuation .closeParen).continuation? = none := rfl

/-- A part of a loop that may be missing: the token behind it begins no expression. -/
theorem reads_expressionUnless (n : Nat) {e : Option Expr} (he : optionWritable e = true)
    {closer : Token} (hcloser : closer.startsExpression = false) (hstop : closer.continuation? = none) :
    Reads (expressionUnless n closer) n (optionTokens e) (· = some closer)
      fun r => r.map Expr.eraseSpans = e.map Expr.eraseSpans := by
  unfold expressionUnless
  rcases e with _ | e
  · exact Reads.check_ahead (Reads.pure rfl)
  · obtain ⟨token, rest, htokens, _, hne⟩ := Expr.starts_tokens_ne he hcloser
    have hread := reads_expression_before n he hstop
    rw [optionTokens, Expr.tokensAt_zero]
    rw [htokens] at hread ⊢
    refine Reads.check_cons ?_
    rw [beq_false_of_ne hne]
    refine Reads.bind_nil hread fun x hx => Reads.pure ?_
    rw [Option.map_some, Option.map_some, hx]

/-- What is returned is read back; a semicolon stands where there is nothing. -/
theorem reads_returnArgument (n : Nat) {e : Option Expr} (he : optionWritable e = true) :
    Reads (returnArgument n) n (optionTokens e) (· = some (.punctuation .semicolon))
      fun r => r.map Expr.eraseSpans = e.map Expr.eraseSpans := by
  unfold returnArgument
  rcases e with _ | e
  · refine Reads.peek_nil fun next hnext => ?_
    rw [hnext]
    exact Reads.pure rfl
  · obtain ⟨token, rest, htokens, hstart, _⟩ := e.starts_tokens he
    have hread := reads_expression_before n he semicolon_stops
    rw [optionTokens, Expr.tokensAt_zero]
    rw [htokens] at hread ⊢
    refine Reads.peek_cons ?_
    -- neither a semicolon nor a brace begins an expression, so there is an argument to read
    split
    · contradiction
    · rename_i h
      cases h
      cases hstart
    · rename_i h
      cases h
      cases hstart
    · refine Reads.bind_nil hread fun x hx => Reads.pure ?_
      rw [Option.map_some, Option.map_some, hx]

theorem not_isDeclarationWord {token : Token} (h : token.startsExpression = true) :
    isDeclarationWord token = false := by
  unfold isDeclarationWord
  split
  any_goals cases h
  rfl

/-- The start of a `for` loop: a declaration is told by its word. -/
theorem reads_forInit (n : Nat) {init : Option ForInit}
    (hinit : (init.map ForInit.isWritable).getD true = true) :
    Reads (forInit n) n ((init.map ForInit.tokens).getD []) (· = some (.punctuation .semicolon))
      fun r => r.map ForInit.eraseSpans = init.map ForInit.eraseSpans := by
  unfold forInit
  rcases init with _ | (⟨declarators, span⟩ | e)
  · refine Reads.peek_nil fun next hnext => ?_
    rw [hnext]
    exact Reads.pure rfl
  · have hread := (reads_declaration n hinit).mono (Nat.le_refl n)
      fun next (hnext : next = some (.punctuation .semicolon)) => hnext ▸ stops_of_none rfl
    refine Reads.peek_cons (Reads.bind_nil hread fun r hr => Reads.pure ?_)
    simp only [Option.map_some, ForInit.eraseSpans, ForInit.mapSpans] at hr ⊢
    rw [hr]
    rfl
  · obtain ⟨token, rest, htokens, hstart, _⟩ := e.starts_tokens hinit
    have hread := reads_expression_before n (e := e) hinit semicolon_stops
    rw [Option.map_some, Option.getD_some, ForInit.tokens, Expr.tokensAt_zero]
    rw [htokens] at hread ⊢
    refine Reads.peek_cons ?_
    split
    -- An expression never starts with a semicolon.
    · rename_i h
      cases h
      cases hstart
    · rw [Option.map_some, Option.getD_some, not_isDeclarationWord hstart]
      refine Reads.bind_nil hread fun x hx => Reads.pure ?_
      simp only [Option.map_some, ForInit.eraseSpans, ForInit.mapSpans]
      rw [← Expr.eraseSpans, hx]

/-! ## Statements -/

/-- The reader reads every statement, and gives it up to source ranges. -/
def ReadsStmts (p : Parse Stmt) (bound : Nat) : Prop :=
  ∀ s : Stmt, s.isWritable = true →
    Reads p bound s.tokens s.Closed fun x => x.eraseSpans = s.eraseSpans

theorem ReadsStmts.reads {p : Parse Stmt} (h : ReadsStmts p bound) {s : Stmt}
    (hs : s.isWritable = true) :
    Reads p bound s.tokens (· ≠ some (.keyword .elseWord)) fun x => x.eraseSpans = s.eraseSpans :=
  (h s hs).mono (Nat.le_refl bound) fun _ hnext _ => hnext

/-- The test of a choice or a loop, in parentheses. -/
theorem reads_condition {f : Expr → Parse α} {n N : Nat} (hN : n ≤ N) {test : Expr}
    (htest : test.isWritable = true) {Q : α → Prop}
    (hf : ∀ x, x.eraseSpans = test.eraseSpans → Reads (f x) n back stop Q) :
    Reads (do
      let _ ← expect (.punctuation .openParen)
      let test ← expression N
      let _ ← expect (.punctuation .closeParen)
      f test) n (inParens test.tokens ++ back) stop Q := by
  rw [inParens, List.cons_append, List.append_assoc]
  refine (Reads.expect_cons fun _ => ?_).of_le (Nat.le_succ n)
  exact Reads.bind_expect ((reads_expression_before N htest rfl).of_le hN) rfl hf

section

variable {n : Nat} {sub : Parse Stmt} (hsub : ReadsStmts sub n)
include hsub

theorem reads_blockStep {s : Stmt} (hs : s.isWritable = true) (read : List Stmt) :
    Reads (blockStep sub read) n s.tokens (· ≠ some (.keyword .elseWord))
      fun r => r.2 = true ∧ r.1.map Stmt.eraseSpans = s.eraseSpans :: read.map Stmt.eraseSpans := by
  have hread := hsub.reads hs
  obtain ⟨token, rest, htokens, hbrace, _⟩ := Stmt.starts_tokens_ne hs
  rw [htokens] at hread ⊢
  refine Reads.peek_cons ?_
  split
  · contradiction
  · rename_i h
    exact absurd (Option.some.inj h) hbrace
  · refine Reads.bind_nil hread fun x hx => Reads.pure ⟨rfl, ?_⟩
    rw [List.map_cons, hx]

/-- Blocks are read back. No statement begins with `else`, so each one is closed by the next. -/
theorem reads_block {N : Nat} (hN : n ≤ N) {body : List Stmt} (hbody : stmtsWritable body = true) :
    Reads (block N sub) (n + 1)
      (.punctuation .openBrace :: (tokensStmts body ++ [.punctuation .closeBrace])) anything
      fun r => r.1.map Stmt.eraseSpans = body.map Stmt.eraseSpans := by
  have hitem : ∀ s ∈ body, ∀ read, Reads (blockStep sub read) n s.tokens (· ≠ some (.keyword .elseWord))
      fun r => r.2 = true ∧ r.1.map Stmt.eraseSpans = s.eraseSpans :: read.map Stmt.eraseSpans :=
    fun s hs read => reads_blockStep hsub (stmtsWritable_iff.mp hbody s hs) read
  -- No statement starts with `else`, so an `if` before it ends where it should.
  have hfirst : ∀ s ∈ body, s.tokens ≠ [] ∧ s.tokens.head? ≠ some (.keyword .elseWord) := by
    intro s hs
    obtain ⟨token, rest, htokens, _, helse, _⟩ :=
      Stmt.starts_tokens_ne (stmtsWritable_iff.mp hbody s hs)
    rw [htokens]
    exact ⟨List.cons_ne_nil _ _, fun h => helse (Option.some.inj h)⟩
  have hend : ∀ read, Reads (blockStep sub read) n [] (· = some (.punctuation .closeBrace))
      fun r => r.2 = false ∧ r.1 = read := by
    intro read
    refine Reads.peek_nil fun next hnext => ?_
    rw [hnext]
    exact Reads.pure ⟨rfl, rfl⟩
  have hstop : ∀ next : Option Token, next = some (.punctuation .closeBrace) →
      next ≠ some (.keyword .elseWord) := by
    rintro _ rfl ⟨⟩
  have hall := Reads.iterate_all body hitem hfirst hstop hend N hN []
  rw [tokensStmts_eq_flatMap]
  unfold block
  refine Reads.expect_cons fun start => ?_
  refine Reads.bind hall (fun read hread => Reads.peek_cons ?_) (Nat.le_add_right n _) fun _ _ => rfl
  refine (Reads.expect_cons fun _ => Reads.spanFrom fun span => Reads.pure ?_).of_le (Nat.le_succ n)
  exact Reads.map_reverse_of_read hread

variable {test : Expr}

/-- A branch without an `else` is read back where none follows. -/
theorem reads_ifThen {consequent : Stmt} (htest : test.isWritable = true)
    (hconsequent : consequent.isWritable = true) (span : Span) :
    Reads (ifStatement (n + 1) sub) (n + 1) (Stmt.ifThen test consequent span).tokens
      (Stmt.ifThen test consequent span).Closed
      fun x => x.eraseSpans = (Stmt.ifThen test consequent span).eraseSpans := by
  rw [Stmt.tokens]
  refine Reads.expect_cons fun start => reads_condition (Nat.le_succ n) htest fun x hx => ?_
  -- no `else` follows, neither one for this `if` nor one for an `if` inside it
  have hread := (hsub consequent hconsequent).mono (Nat.le_refl n)
    fun next (hnext : (Stmt.ifThen test consequent span).Closed next) _ => hnext rfl
  refine Reads.bind_nil hread fun y hy => Reads.eat_nil (fun _ hnext => hnext rfl) ?_
  refine Reads.spanFrom fun span' => Reads.pure ?_
  simp only [Stmt.eraseSpans, Expr.eraseSpans, Stmt.mapSpans] at hx hy ⊢
  rw [hx, hy]
  rfl

theorem reads_ifElse {consequent alternate : Stmt} (htest : test.isWritable = true)
    (hconsequent : consequent.isWritable = true) (halternate : alternate.isWritable = true)
    (hclosed : consequent.endsOpen = false) (span : Span) :
    Reads (ifStatement (n + 1) sub) (n + 1) (Stmt.ifElse test consequent alternate span).tokens
      (Stmt.ifElse test consequent alternate span).Closed
      fun x => x.eraseSpans = (Stmt.ifElse test consequent alternate span).eraseSpans := by
  rw [Stmt.tokens]
  refine Reads.expect_cons fun start => reads_condition (Nat.le_succ n) htest fun x hx => ?_
  have hread := hsub alternate halternate
  refine Reads.bind (hsub consequent hconsequent)
    (fun y hy => Reads.eat_same (Reads.bind_nil hread fun z hz => ?_)) (by omega) fun _ _ h => ?_
  · refine Reads.spanFrom fun span' => Reads.pure ?_
    simp only [Stmt.eraseSpans, Expr.eraseSpans, Stmt.mapSpans] at hx hy hz ⊢
    rw [hx, hy, hz]
    rfl
  · -- an `else` follows the first branch, which therefore must not end in an open `if`
    exact absurd (hclosed.symm.trans h) Bool.false_ne_true

theorem reads_while {body : Stmt} (htest : test.isWritable = true) (hbody : body.isWritable = true)
    (span : Span) :
    Reads (whileStatement (n + 1) sub) (n + 1) (Stmt.whileLoop test body span).tokens
      (Stmt.whileLoop test body span).Closed
      fun x => x.eraseSpans = (Stmt.whileLoop test body span).eraseSpans := by
  rw [Stmt.tokens]
  refine Reads.expect_cons fun start => reads_condition (Nat.le_succ n) htest fun x hx => ?_
  refine Reads.bind_nil (hsub body hbody) fun y hy => Reads.spanFrom fun span' => Reads.pure ?_
  simp only [Stmt.eraseSpans, Expr.eraseSpans, Stmt.mapSpans] at hx hy ⊢
  rw [hx, hy]
  rfl

/-- All parts of a `for` loop are read back, whichever are there. -/
theorem reads_for {init : Option ForInit} {test update : Option Expr} {body : Stmt}
    (hinit : (init.map ForInit.isWritable).getD true = true) (htest : optionWritable test = true)
    (hupdate : optionWritable update = true) (hbody : body.isWritable = true) (span : Span) :
    Reads (forStatement (n + 1) sub) (n + 1) (Stmt.forLoop init test update body span).tokens
      (Stmt.forLoop init test update body span).Closed
      fun x => x.eraseSpans = (Stmt.forLoop init test update body span).eraseSpans := by
  rw [Stmt.tokens]
  refine Reads.expect_cons fun start => (Reads.expect_cons fun _ => ?_).of_le (Nat.le_succ n)
  refine Reads.bind_expect ((reads_forInit (n + 1) hinit).of_le (Nat.le_succ n)) rfl fun i hi => ?_
  have hread := (reads_expressionUnless (n + 1) htest rfl semicolon_stops).of_le (Nat.le_succ n)
  refine Reads.bind_expect hread rfl fun x hx => ?_
  have hread' := (reads_expressionUnless (n + 1) hupdate rfl closeParen_stops).of_le (Nat.le_succ n)
  refine Reads.bind_expect hread' rfl fun y hy => ?_
  refine Reads.bind_nil (hsub body hbody) fun z hz => Reads.spanFrom fun span' => Reads.pure ?_
  simp only [Stmt.eraseSpans, Stmt.mapSpans] at hz ⊢
  rw [hi, hx, hy, hz]
  rfl

end

section

variable (stop : Option Token → Prop)

theorem reads_declare (n : Nat) {declarators : List Declarator}
    (h : declarationWritable declarators = true) (span : Span) :
    Reads (declarationStatement n) n (Stmt.declare declarators span).tokens stop
      fun x => x.eraseSpans = (Stmt.declare declarators span).eraseSpans := by
  rw [Stmt.tokens]
  refine bind_semicolon (g := fun r => pure (Stmt.declare r.1 r.2)) (reads_declaration n h)
    (stops_of_none semicolon_stops) fun r hr => Reads.pure ?_
  simp only [Stmt.eraseSpans, Stmt.mapSpans] at hr ⊢
  rw [hr]
  rfl

theorem reads_return (n : Nat) {argument : Option Expr} (h : optionWritable argument = true)
    (span : Span) :
    Reads (returnStatement n) n (Stmt.returnValue argument span).tokens stop
      fun x => x.eraseSpans = (Stmt.returnValue argument span).eraseSpans := by
  rw [Stmt.tokens]
  refine (Reads.expect_cons fun start => ?_).of_le (Nat.le_succ n)
  refine bind_semicolon (reads_returnArgument n h) rfl fun x hx => ?_
  refine Reads.spanFrom fun span' => Reads.pure ?_
  simp only [Stmt.eraseSpans, Stmt.mapSpans]
  rw [hx]
  rfl

/-- An expression as a statement: in parentheses if it would begin with a brace. -/
theorem reads_expressionStatement (n : Nat) {e : Expr} (he : e.isWritable = true) (span : Span) :
    Reads (expressionStatement n) n (Stmt.expression e span).tokens stop
      fun x => x.eraseSpans = (Stmt.expression e span).eraseSpans := by
  have hread : Reads (expression n) n (statementTokens e) (Stops 0)
      fun x => x.eraseSpans = e.eraseSpans := by
    unfold statementTokens
    -- an expression that begins with a brace is in parentheses, where its level asks for none
    split
    · exact reads_expression_inParens n he
    · rw [← Expr.tokensAt_zero]
      exact reads_expression n e he
  rw [Stmt.tokens]
  refine Reads.here fun start => ?_
  refine bind_semicolon hread (stops_of_none semicolon_stops) fun x hx => ?_
  refine Reads.spanFrom fun span' => Reads.pure ?_
  simp only [Stmt.eraseSpans, Stmt.mapSpans]
  rw [← Expr.eraseSpans, hx]
  rfl

theorem reads_word (make : Span → Stmt) (n : Nat) {word : Token} {s : Stmt}
    (hmake : ∀ span, (make span).eraseSpans = s.eraseSpans) :
    Reads (wordStatement make) n [word, .punctuation .semicolon] stop
      fun x => x.eraseSpans = s.eraseSpans := by
  have hread : Reads (wordStatement make) (n + 1 + 1) [word, .punctuation .semicolon] stop
      fun x => x.eraseSpans = s.eraseSpans :=
    Reads.here fun start => Reads.advance_cons (semicolon_cons (Reads.pure (hmake start)))
  exact hread.of_le (by omega)

end

/-- A token that begins an expression, and opens no block, begins a statement that is one. -/
theorem reads_statementRule_of_expression {N : Nat} {sub : Parse Stmt} {token : Token}
    {Q : Stmt → Prop} (hstart : token.startsExpression = true)
    (hbrace : token ≠ .punctuation .openBrace)
    (h : Reads (expressionStatement N) bound (token :: back) stop Q) :
    Reads (statementRule N sub) bound (token :: back) stop Q := by
  unfold statementRule
  refine Reads.peek_cons ?_
  split
  · rename_i word hword
    cases hword
    -- of the words, only those that are values or signs begin an expression
    cases word with
    | functionWord | varWord | letWord | constWord | ifWord | forWord | whileWord | breakWord
    | continueWord | returnWord => cases hstart
    | _ => exact h
  · rename_i hopen
    exact absurd (Option.some.inj hopen) hbrace
  · rename_i hsemicolon
    cases hsemicolon
    cases hstart
  · exact h
  · contradiction

section

variable {n : Nat} {sub : Parse Stmt} (hsub : ReadsStmts sub n)
include hsub

/-- Statements are read back if those inside are. -/
theorem reads_statementRule : ReadsStmts (statementRule (n + 1) sub) (n + 1) := by
  intro s hs
  cases s with
  | declare declarators span =>
    have hread := reads_declare (Stmt.declare declarators span).Closed (n + 1) hs span
    rw [Stmt.tokens] at hread ⊢
    exact Reads.peek_cons hread
  | block body span =>
    have hread := reads_block hsub (Nat.le_succ n) hs
    rw [Stmt.tokens]
    refine Reads.peek_cons (Reads.bind_nil hread.of_anything fun r hr => Reads.pure ?_)
    simp only [Stmt.eraseSpans, Stmt.mapSpans, mapSpansStmts_eq_map] at hr ⊢
    rw [hr]
    rfl
  | ifThen test consequent span =>
    rw [Stmt.isWritable, Bool.and_eq_true] at hs
    have hread := reads_ifThen hsub hs.1 hs.2 span
    rw [Stmt.tokens] at hread ⊢
    exact Reads.peek_cons hread
  -- the consequent is closed, or the `else` would go to a branch inside it
  | ifElse test consequent alternate span =>
    rw [Stmt.isWritable, Bool.and_eq_true, Bool.and_eq_true, Bool.and_eq_true, Bool.not_eq_true'] at hs
    obtain ⟨⟨⟨htest, hconsequent⟩, halternate⟩, hclosed⟩ := hs
    have hread := reads_ifElse hsub htest hconsequent halternate hclosed span
    rw [Stmt.tokens] at hread ⊢
    exact Reads.peek_cons hread
  | forLoop init test update body span =>
    rw [Stmt.isWritable, Bool.and_eq_true, Bool.and_eq_true, Bool.and_eq_true] at hs
    obtain ⟨⟨⟨hinit, htest⟩, hupdate⟩, hbody⟩ := hs
    have hread := reads_for hsub hinit htest hupdate hbody span
    rw [Stmt.tokens] at hread ⊢
    exact Reads.peek_cons hread
  | whileLoop test body span =>
    rw [Stmt.isWritable, Bool.and_eq_true] at hs
    have hread := reads_while hsub hs.1 hs.2 span
    rw [Stmt.tokens] at hread ⊢
    exact Reads.peek_cons hread
  | breakLoop span =>
    rw [Stmt.tokens]
    exact Reads.peek_cons (reads_word _ .breakLoop (n + 1) fun _ => rfl)
  | continueLoop span =>
    rw [Stmt.tokens]
    exact Reads.peek_cons (reads_word _ .continueLoop (n + 1) fun _ => rfl)
  | returnValue argument span =>
    have hread := reads_return (Stmt.returnValue argument span).Closed (n + 1) hs span
    rw [Stmt.tokens] at hread ⊢
    exact Reads.peek_cons hread
  | empty span =>
    rw [Stmt.tokens]
    exact Reads.peek_cons (Reads.here fun start => Reads.advance_cons (Reads.pure rfl))
  -- all words were tried before an expression is read
  | expression e span =>
    have hread := reads_expressionStatement (Stmt.expression e span).Closed (n + 1) hs span
    obtain ⟨token, rest, htokens, hstart, hbrace⟩ := starts_statementTokens hs
    rw [Stmt.tokens, htokens, List.cons_append] at hread ⊢
    exact reads_statementRule_of_expression hstart hbrace hread

end

/-- Statements are read back, by induction on the bound. -/
theorem reads_statement (n level : Nat) : ReadsStmts (statement level n) n := by
  induction n generalizing level with
  | zero =>
    intro s hs
    -- no statement is written with no token
    obtain ⟨token, rest, htokens, _⟩ := Stmt.starts_tokens hs
    exact Reads.of_bound_lt (by rw [htokens]; exact Nat.succ_pos _)
  | succ n ih =>
    have hrule : statement level (n + 1) = statementRule (n + 1) (statement (level + 1) n) :=
      funext fun _ => deepen_eq level _
    rw [hrule]
    exact reads_statementRule (ih (level + 1))

/-! ## Programs -/

/-- Functions are read back. -/
theorem reads_function (n : Nat) {f : Function} (hf : (Item.function f).isWritable = true)
    (stop : Option Token → Prop) :
    Reads (function n) n f.tokens stop fun x => x.mapSpans noSpan = f.mapSpans noSpan := by
  rw [Item.isWritable, Bool.and_eq_true, List.all_eq_true] at hf
  obtain ⟨hparams, hbody⟩ := hf
  -- Every parameter starts with its name.
  have hfirst : ∀ p ∈ f.params, ∃ token tokens, declaredTokens p.name p.fallback = token :: tokens ∧
      token ≠ .punctuation .closeParen ∧ token ≠ .punctuation .comma :=
    fun _ _ => ⟨_, _, rfl, by rintro ⟨⟩, by rintro ⟨⟩⟩
  have hread := Reads.commaSeparated f.params (fun p hp => reads_param n (hparams p hp)) hfirst
    (stops_some rfl Nat.one_pos) (stops_of_none closeParen_stops) (by decide) n (Nat.le_refl n)
  have hblock := reads_block (reads_statement n 0) (Nat.le_refl n) hbody
  unfold function
  rw [Function.tokens, inParens, List.cons_append]
  refine (Reads.expect_cons fun start => ?_).of_le (Nat.le_succ n)
  refine (Reads.name_cons ?_).of_le (Nat.le_succ n)
  refine (Reads.expect_cons fun _ => ?_).of_le (Nat.le_succ n)
  refine Reads.bind hread (fun params hparams => ?_) (Nat.le_add_right n _) fun _ _ => trivial
  refine (Reads.bind_nil hblock.of_anything fun r hr => ?_).of_le (Nat.le_succ n)
  refine Reads.spanFrom fun span => Reads.pure ?_
  simp only [Function.mapSpans] at hr ⊢
  rw [hparams, hr]
  rfl

/-- Items of a program are read back. -/
theorem reads_item (n : Nat) {i : Item} (hi : i.isWritable = true) :
    Reads (item n) n i.tokens (· ≠ some (.keyword .elseWord)) fun x => x.eraseSpans = i.eraseSpans := by
  unfold item
  cases i with
  | function f =>
    have hread := reads_function n hi (· ≠ some (.keyword .elseWord))
    rw [Item.tokens, Function.tokens] at *
    refine Reads.check_cons ?_
    rw [beq_self_eq_true, if_pos rfl]
    exact Reads.bind_nil hread fun x hx => Reads.pure (congrArg Item.function hx)
  | statement s =>
    have hread := (reads_statement n 0).reads hi
    -- No statement starts with `function`.
    obtain ⟨token, rest, htokens, _, _, hne⟩ := Stmt.starts_tokens_ne hi
    rw [Item.tokens]
    rw [htokens] at hread ⊢
    refine Reads.check_cons ?_
    rw [beq_false_of_ne hne]
    exact Reads.bind_nil hread fun x hx => Reads.pure (congrArg Item.statement hx)

/-- All functions and statements up to the last token. -/
theorem reads_items (n : Nat) {items : List Item} (hitems : items.all Item.isWritable = true) :
    Reads (Parse.items n) n (items.flatMap Item.tokens) (· = none)
      fun r => r.map Item.eraseSpans = items.map Item.eraseSpans := by
  rw [List.all_eq_true] at hitems
  -- No item starts with `else`, so an `if` before it ends where it should.
  have hfirst : ∀ i ∈ items, i.tokens ≠ [] ∧ i.tokens.head? ≠ some (.keyword .elseWord) := by
    intro i hi
    obtain ⟨token, rest, htokens, helse⟩ := Item.starts_tokens (hitems i hi)
    rw [htokens]
    exact ⟨List.cons_ne_nil _ _, fun h => helse (Option.some.inj h)⟩
  have hitem : ∀ i ∈ items, ∀ read, Reads (itemStep n read) n i.tokens (· ≠ some (.keyword .elseWord))
      fun r => r.2 = true ∧ r.1.map Item.eraseSpans = i.eraseSpans :: read.map Item.eraseSpans := by
    intro i hi read
    have hread := reads_item n (hitems i hi)
    obtain ⟨token, rest, htokens, _⟩ := Item.starts_tokens (hitems i hi)
    rw [htokens] at hread ⊢
    refine Reads.peek_cons (Reads.bind_nil hread fun x hx => Reads.pure ⟨rfl, ?_⟩)
    rw [List.map_cons, hx]
  have hend : ∀ read, Reads (itemStep n read) n [] (· = none) fun r => r.2 = false ∧ r.1 = read := by
    intro read
    refine Reads.peek_nil fun next hnext => ?_
    rw [hnext]
    exact Reads.pure ⟨rfl, rfl⟩
  have hstop : ∀ next : Option Token, next = none → next ≠ some (.keyword .elseWord) := by
    rintro _ rfl ⟨⟩
  have hall := Reads.iterate_all items hitem hfirst hstop hend n (Nat.le_refl n) []
  exact Reads.bind_nil hall fun read hread => Reads.pure (Reads.map_reverse_of_read hread)

end Parse

/-! ## The node table of what was read -/

/-- The reader of programs gives back what was written, up to source ranges. -/
theorem Program.eraseSpans_ofTokens? {program : Program} (h : program.isWritable = true)
    {lexemes : List Lexeme} (htokens : lexemes.map Lexeme.token = program.tokens) :
    ∃ parsed, Program.ofTokens? lexemes = .ok parsed ∧ parsed.eraseSpans = program.eraseSpans := by
  have hlength : (Cursor.mk lexemes 0).tokens.length ≤ lexemes.length :=
    Nat.le_of_eq (List.length_map _)
  have hstart : (Cursor.mk lexemes 0).tokens = program.tokens ++ [] :=
    htokens.trans (List.append_nil _).symm
  obtain ⟨items, cursor, hread, _, hitems⟩ :=
    Parse.reads_items lexemes.length h ⟨lexemes, 0⟩ [] hstart rfl hlength
  refine ⟨⟨items, ⟨0, cursor.reached⟩⟩, ?_, ?_⟩
  · have hrun : (Parse.items lexemes.length).run ⟨lexemes, 0⟩ = .ok (items, cursor) := hread
    unfold Program.ofTokens?
    rw [hrun]
    rfl
  · simp only [Program.eraseSpans, Program.mapSpans]
    rw [hitems]
    rfl

/-- A program that is written with parentheses only where they are needed, and read again, has a node
table that unfolds to the outline of the program and to nothing else, up to source ranges. -/
theorem Program.unfolds_of_tokens (program : Program) (h : program.isWritable = true)
    (lexemes : List Lexeme) (htokens : lexemes.map Lexeme.token = program.tokens) :
    ∃ parsed, Program.ofTokens? lexemes = .ok parsed ∧ parsed.eraseSpans = program.eraseSpans ∧
      (∃ outline, parsed.nodeTable.Unfolds 0 outline) ∧
      ∀ outline, parsed.nodeTable.Unfolds 0 outline →
        outline.eraseSpans = program.outline.eraseSpans := by
  obtain ⟨parsed, hparsed, herase⟩ := Program.eraseSpans_ofTokens? h htokens
  refine ⟨parsed, hparsed, herase, ⟨parsed.outline, parsed.nodeTable_unfolds⟩,
      fun outline houtline => ?_⟩
  rw [houtline.unique parsed.nodeTable_unfolds]
  calc parsed.outline.eraseSpans
    _ = parsed.eraseSpans.outline := (parsed.outline_mapSpans noSpan).symm
    _ = program.eraseSpans.outline := by rw [herase]
    _ = program.outline.eraseSpans := program.outline_mapSpans noSpan

def tangle : Program :=
  let name (text : String) : Place := .ident text {}
  let a : Expr := .place (name "a")
  let power : Expr := .binary (.arith .exp) a (.place (name "b")) {}
  let first : Expr := .binary (.arith .exp) power (.unary .minus (.place (name "c")) {}) {}
  let steps : Expr := .updateBefore .increment {} [(.decrement, {})] (name "b")
  let second : Expr := .assign .plain (.member (.object [] {}) "d" {}) (.sequence [a, steps] {}) {}
  ⟨[.statement (.ifElse a (.expression first {}) (.expression second {}) {})], {}⟩

/-- The tokens of the tangle: of its parentheses, those around `a ** b`, those around the comma, and
those that keep a brace from the front of a statement. -/
def tangleTokens : List Token :=
  [.keyword .ifWord, .punctuation .openParen, .ident "a", .punctuation .closeParen,
    .punctuation .openParen, .ident "a", .sign (.binary (.arith .exp)), .ident "b",
    .punctuation .closeParen, .sign (.binary (.arith .exp)), .sign (.binary (.arith .sub)), .ident "c",
    .punctuation .semicolon, .keyword .elseWord, .punctuation .openParen, .punctuation .openBrace,
    .punctuation .closeBrace, .punctuation .point, .ident "d", .sign (.assign .plain),
    .punctuation .openParen, .ident "a", .punctuation .comma, .sign (.update .increment),
    .sign (.update .decrement), .ident "b", .punctuation .closeParen, .punctuation .closeParen,
    .punctuation .semicolon]

/-- A program with all kinds of parts. -/
theorem tangle_unfolds_of_tokens :
    tangle.isWritable = true ∧ tangle.tokens = tangleTokens ∧
      ∃ parsed, Program.ofTokens? (tangleTokens.map fun token => ⟨token, {}, 1⟩) = .ok parsed ∧
        parsed.eraseSpans = tangle.eraseSpans ∧ (∃ outline, parsed.nodeTable.Unfolds 0 outline) ∧
        ∀ outline, parsed.nodeTable.Unfolds 0 outline →
          outline.eraseSpans = tangle.outline.eraseSpans :=
  ⟨rfl, by decide, tangle.unfolds_of_tokens rfl _ (by decide)⟩

end MeteredScript
