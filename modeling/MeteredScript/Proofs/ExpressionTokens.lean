import MeteredScript.Proofs.Printer
import MeteredScript.Proofs.Spans
import MeteredScript.Tree.Parser

namespace MeteredScript

/-! # First and following tokens of expressions

Which tokens an expression can begin with, and which tokens behind it would make more of it. A token
that could go on with an expression has a level of its own; where an expression of a level is written,
only tokens of a lower level may follow.
-/

/-! ## Levels of infix operators -/

namespace InfixOp

/-- Infix operators are between choices and signs. -/
theorem two_le_level_le (op : InfixOp) : 2 ≤ op.level ∧ op.level ≤ 12 := by
  rcases op with (op | op) | op <;> cases op <;> decide

/-- An operand binds no looser than its operator. -/
theorem level_le_leftLevel (op : InfixOp) : op.level ≤ op.leftLevel := by
  unfold leftLevel
  split <;> omega

theorem level_le_rightLevel (op : InfixOp) : op.level ≤ op.rightLevel := by
  unfold rightLevel
  split <;> omega

/-- No operand has to bind tighter than a signed one. -/
theorem leftLevel_le (op : InfixOp) : op.leftLevel ≤ 13 := by
  have hlevel := op.two_le_level_le.2
  unfold leftLevel
  split <;> omega

theorem rightLevel_le (op : InfixOp) : op.rightLevel ≤ 13 := by
  have hlevel := op.two_le_level_le.2
  unfold rightLevel
  split <;> omega

/-- The levels of right operands are those that operators in them are looked for at. -/
theorem rightLevel_eq (op : InfixOp) : op.rightLevel = op.rightPrecedence + 1 := by
  unfold rightLevel rightPrecedence level
  split <;> rfl

/-- An operator whose left operand may be one of `op` without parentheses does not go on with the right
operand of `op`. -/
theorem level_lt_rightLevel {op next : InfixOp} (h : next.leftLevel ≤ op.level) :
    next.level < op.rightLevel := by
  unfold leftLevel level isRightAssociative at h
  unfold rightLevel level isRightAssociative
  simp only [decide_eq_true_eq] at h ⊢
  split at h <;> split <;> omega

end InfixOp

/-! ## Tokens that begin or go on with an expression -/

/-- Tokens that the smallest expressions begin with. -/
def Token.startsPrimary : Token → Bool
  | .ident _ | .number _ | .bigInt _ | .string _ => true
  | .punctuation mark =>
    match mark with
    | .openParen | .openBracket | .openBrace => true
    | _ => false
  | .keyword word =>
    match word with
    | .trueWord | .falseWord | .nullWord | .undefinedWord => true
    | _ => false
  | _ => false

def Token.startsExpression (token : Token) : Bool :=
  token.startsPrimary || (Parse.PrefixSign.ofToken? token).isSome

/-- The level of what a token behind an expression would make of it. -/
def Token.continuation? : Token → Option Nat
  | .punctuation mark =>
    match mark with
    | .point | .openBracket | .openParen => some 15
    | .comma => some 0
    | _ => none
  | .sign kind =>
    match kind with
    | .update _ => some 14
    | .binary op => some (InfixOp.binary op).level
    | .logical op => some (InfixOp.logical op).level
    | .question | .assign _ => some 1
    | .bitNot | .not => none
  | _ => none

/-- The token that follows does not go on with an expression of the level `min`. -/
def Stops (min : Nat) (next : Option Token) : Prop :=
  ∀ token level, next = some token → token.continuation? = some level → level < min

variable {primary : Bool} {e : Expr} {min : Nat} {next : Option Token} {token : Token}

/-- What stops an expression stops all those that bind tighter. -/
theorem Stops.mono {min' : Nat} (h : Stops min next) (hle : min ≤ min') : Stops min' next :=
  fun token level hnext hlevel => Nat.lt_of_lt_of_le (h token level hnext hlevel) hle

theorem stops_some {level : Nat} (hlevel : token.continuation? = some level) (hlt : level < min) :
    Stops min (some token) := by
  intro token' level' htoken hlevel'
  cases htoken
  cases hlevel.symm.trans hlevel'
  exact hlt

/-- A token that goes on with nothing stops everything. -/
theorem stops_of_none (hlevel : token.continuation? = none) : Stops min (some token) := by
  intro token' level' htoken hlevel'
  cases htoken
  cases hlevel.symm.trans hlevel'

theorem Stops.ne {level : Nat} (h : Stops min next) (hlevel : token.continuation? = some level)
    (hle : min ≤ level) : next ≠ some token := by
  intro hnext
  have hlt := h token level hnext hlevel
  omega

/-- What stops an assignment stops a choice as well. -/
theorem Stops.not_question (h : Stops 1 next) : Stops 2 next ∧ next ≠ some (.sign .question) :=
  ⟨h.mono (Nat.le_succ 1), h.ne rfl (Nat.le_refl 1)⟩

theorem InfixOp.not_le_level (op : InfixOp) : ¬13 ≤ op.level :=
  Nat.not_le_of_lt (Nat.lt_succ_of_le op.two_le_level_le.2)

/-- An operator stops what binds tighter. -/
theorem stops_of_level {op : InfixOp} (h : op.level < min) : Stops min (some op.token) := by
  cases op with
  | binary op => exact stops_some rfl h
  | logical op => exact stops_some rfl h

/-! ## First tokens -/

/-- Tokens of which the first one begins an expression, and a smallest one if `primary`. -/
def Starts (primary : Bool) (tokens : List Token) : Prop :=
  ∃ token rest, tokens = token :: rest ∧ token.startsExpression = true ∧
    (primary = true → token.startsPrimary = true)

theorem Starts.weaken {primary' : Bool} {tokens : List Token} (h : Starts primary tokens)
    (himp : primary' = true → primary = true) : Starts primary' tokens := by
  obtain ⟨token, rest, rfl, hstart, hprimary⟩ := h
  exact ⟨token, rest, rfl, hstart, fun h' => hprimary (himp h')⟩

theorem Starts.append {tokens : List Token} (h : Starts primary tokens) (more : List Token) :
    Starts primary (tokens ++ more) := by
  obtain ⟨token, rest, rfl, hstart, hprimary⟩ := h
  exact ⟨token, rest ++ more, rfl, hstart, hprimary⟩

/-- A token that begins an operand begins an expression. -/
theorem starts_of_primary (h : token.startsPrimary = true) (primary : Bool) (rest : List Token) :
    Starts primary (token :: rest) :=
  ⟨token, rest, rfl, by rw [Token.startsExpression, h, Bool.true_or], fun _ => h⟩

theorem starts_sign (h : (Parse.PrefixSign.ofToken? token).isSome = true) (rest : List Token) :
    Starts false (token :: rest) :=
  ⟨token, rest, rfl, by rw [Token.startsExpression, h, Bool.or_true],
    fun h => absurd h Bool.false_ne_true⟩

/-- What is in parentheses begins like a smallest expression. -/
theorem starts_bracket (h : Starts (decide (14 ≤ e.level)) e.tokens)
    (hmin : primary = true → 14 ≤ min) : Starts primary (bracket min e e.tokens) := by
  unfold bracket
  split
  · exact starts_of_primary rfl _ _
  · rename_i hlevel
    refine h.weaken fun hprimary => ?_
    have hle := hmin hprimary
    rw [decide_eq_true_eq]
    omega

mutual

/-- The first token of an expression is that of its leftmost operand, or a sign. -/
theorem Expr.starts_tokens (e : Expr) (h : e.isWritable = true) :
    Starts (decide (14 ≤ e.level)) e.tokens := by
  -- an induction along the left operands
  cases e with
  | literal value span =>
    unfold Expr.tokens
    cases value with
    | boolean value => cases value <;> exact starts_of_primary rfl _ _
    | _ => exact starts_of_primary rfl _ _
  | place p =>
    unfold Expr.tokens
    exact (p.starts_tokens h).weaken fun _ => rfl
  | array elements span | object entries span =>
    unfold Expr.tokens
    exact starts_of_primary rfl _ _
  | unary op operand span =>
    unfold Expr.tokens
    exact starts_sign (by cases op <;> rfl) _
  | updateBefore op span inner target =>
    unfold Expr.tokens
    exact starts_sign rfl _
  | updateAfter op target span =>
    unfold Expr.tokens
    exact (target.starts_tokens h).append _
  | binary op left right span | logical op left right span =>
    unfold Expr.tokens
    rw [Expr.isWritable, Bool.and_eq_true] at h
    -- no operator has a level of 14, so its left operand may begin with a sign
    refine (starts_bracket (left.starts_tokens h.1) fun hprimary => ?_).append _
    exact absurd (Nat.le_of_succ_le (of_decide_eq_true hprimary)) (InfixOp.not_le_level _)
  | assign op target value span =>
    unfold Expr.tokens
    rw [Expr.isWritable, Bool.and_eq_true] at h
    exact ((target.starts_tokens h.1).append _).weaken fun _ => rfl
  | conditional test consequent alternate span =>
    unfold Expr.tokens
    rw [Expr.isWritable, Bool.and_eq_true, Bool.and_eq_true] at h
    have htest : Starts false (bracket 2 test test.tokens) :=
      starts_bracket (test.starts_tokens h.1.1) fun h => absurd h Bool.false_ne_true
    exact htest.append _
  | sequence parts span =>
    unfold Expr.tokens
    rw [Expr.isWritable, Bool.and_eq_true] at h
    cases parts with
    | nil => cases h.1
    | cons part parts =>
      rw [allWritable, Bool.and_eq_true] at h
      rw [tokensAll, separate]
      have hpart : Starts false (bracket 1 part part.tokens) :=
        starts_bracket (part.starts_tokens h.2.1) fun h => absurd h Bool.false_ne_true
      exact hpart.append _
  | call callee arguments span =>
    unfold Expr.tokens
    rw [Expr.isWritable, Bool.and_eq_true] at h
    exact (starts_bracket (callee.starts_tokens h.1) fun _ => (by decide)).append _

/-- A place begins with no sign. -/
theorem Place.starts_tokens (p : Place) (h : p.isWritable = true) : Starts true p.tokens := by
  cases p with
  | ident name span =>
    unfold Place.tokens
    exact starts_of_primary rfl _ _
  | member object name span =>
    unfold Place.tokens
    exact (starts_bracket (object.starts_tokens h) fun _ => (by decide)).append _
  | index object key span =>
    unfold Place.tokens
    rw [Place.isWritable, Bool.and_eq_true] at h
    exact (starts_bracket (object.starts_tokens h.1) fun _ => (by decide)).append _

end

/-- Parentheses begin an operand as well. -/
theorem Expr.starts_tokensAt (h : e.isWritable = true) (hmin : primary = true → 14 ≤ min) :
    Starts primary (e.tokensAt min) :=
  starts_bracket (e.starts_tokens h) hmin

theorem Expr.exists_first_token (h : e.isWritable = true) (min : Nat) :
    ∃ token rest, e.tokensAt min = token :: rest ∧ token.startsExpression = true := by
  have hstarts : Starts false (e.tokensAt min) :=
    starts_tokensAt h fun h => absurd h Bool.false_ne_true
  obtain ⟨token, rest, htokens, hstart, _⟩ := hstarts
  exact ⟨token, rest, htokens, hstart⟩

/-! ## Parentheses -/

/-- An expression that binds tightly enough is written as it is. -/
theorem Expr.tokensAt_of_le (h : min ≤ e.level) : e.tokensAt min = e.tokens :=
  if_neg (Nat.not_lt.mpr h)

theorem Expr.tokensAt_of_lt (h : e.level < min) : e.tokensAt min = inParens e.tokens :=
  if_pos h

theorem Expr.tokensAt_congr {min' : Nat} (h : min ≤ e.level ↔ min' ≤ e.level) :
    e.tokensAt min = e.tokensAt min' := by
  rcases Nat.lt_or_ge e.level min with hlt | hle
  · have hlt' : e.level < min' := by
      rw [← Nat.not_le] at hlt ⊢
      exact fun h' => hlt (h.mpr h')
    rw [tokensAt_of_lt hlt, tokensAt_of_lt hlt']
  · rw [tokensAt_of_le hle, tokensAt_of_le (h.mp hle)]

theorem Expr.tokensAt_zero (e : Expr) : e.tokensAt 0 = e.tokens :=
  tokensAt_of_le (Nat.zero_le _)

/-! ## Expressions by their level -/

/-- What an expression below the signs is by its level. -/
theorem Expr.level_cases (e : Expr) :
    (e.level = 0 ∧ ∃ parts span, e = .sequence parts span) ∨
      (e.level = 1 ∧ ((∃ op target value span, e = .assign op target value span) ∨
        ∃ test consequent alternate span, e = .conditional test consequent alternate span)) ∨
      (∃ op left right span, e = InfixOp.join op left right span ∧ e.level = op.level) ∨
      13 ≤ e.level := by
  cases e with
  | sequence parts span => exact .inl ⟨rfl, parts, span, rfl⟩
  | assign op target value span =>
    exact .inr (.inl ⟨rfl, .inl ⟨op, target, value, span, rfl⟩⟩)
  | conditional test consequent alternate span =>
    exact .inr (.inl ⟨rfl, .inr ⟨test, consequent, alternate, span, rfl⟩⟩)
  | binary op left right span =>
    exact .inr (.inr (.inl ⟨.binary op, left, right, span, rfl, rfl⟩))
  | logical op left right span =>
    exact .inr (.inr (.inl ⟨.logical op, left, right, span, rfl, rfl⟩))
  | place p => cases p <;> exact .inr (.inr (.inr (by simp [Expr.level, Place.level])))
  | _ => exact .inr (.inr (.inr (by simp [Expr.level])))

theorem Expr.sequence_of_level (h : e.level = 0) : ∃ parts span, e = .sequence parts span := by
  rcases e.level_cases with ⟨_, hsequence⟩ | ⟨h', _⟩ | ⟨op, _, _, _, _, h'⟩ | h'
  · exact hsequence
  · omega
  · have hop := op.two_le_level_le
    omega
  · omega

/-- Assignments and choices share a level. -/
theorem Expr.cases_of_level (h : e.level = 1) :
    (∃ op target value span, e = .assign op target value span) ∨
      ∃ test consequent alternate span, e = .conditional test consequent alternate span := by
  rcases e.level_cases with ⟨h', _⟩ | ⟨_, hcases⟩ | ⟨op, _, _, _, _, h'⟩ | h'
  · omega
  · exact hcases
  · have hop := op.two_le_level_le
    omega
  · omega

theorem Expr.join_of_level (h : 2 ≤ e.level) (h' : e.level < 13) :
    ∃ op left right span, e = InfixOp.join op left right span := by
  rcases e.level_cases with ⟨h₀, _⟩ | ⟨h₁, _⟩ | ⟨op, left, right, span, hjoin, _⟩ | h₁₃
  · omega
  · omega
  · exact ⟨op, left, right, span, hjoin⟩
  · omega

/-- Places bind tighter than all operators. -/
theorem Place.level_ge (p : Place) : 15 ≤ (Expr.place p).level := by
  cases p <;> simp [Expr.level, Place.level]

/-- What the smallest expressions are, those in parentheses apart. -/
theorem Expr.cases_of_le_level (h : 16 ≤ e.level) :
    (∃ value span, e = .literal value span) ∨ (∃ name span, e = .place (.ident name span)) ∨
      (∃ elements span, e = .array elements span) ∨ ∃ entries span, e = .object entries span := by
  cases e with
  | literal value span => exact .inl ⟨value, span, rfl⟩
  | place p =>
    cases p with
    | ident name span => exact .inr (.inl ⟨name, span, rfl⟩)
    | _ => simp [Expr.level, Place.level] at h
  | array elements span => exact .inr (.inr (.inl ⟨elements, span, rfl⟩))
  | object entries span => exact .inr (.inr (.inr ⟨entries, span, rfl⟩))
  | binary op left right span | logical op left right span =>
    exact absurd (Nat.le_trans (by decide) h) (InfixOp.not_le_level _)
  | _ => simp [Expr.level] at h

theorem Expr.updateAfter_of_level (h : e.level = 14) :
    ∃ op target span, e = .updateAfter op target span := by
  cases e with
  | updateAfter op target span => exact ⟨op, target, span, rfl⟩
  | place p => cases p <;> simp [Expr.level, Place.level] at h
  | binary op left right span | logical op left right span =>
    exact absurd (Nat.le_trans (by decide) (Nat.le_of_eq h.symm)) (InfixOp.not_le_level _)
  | _ => simp [Expr.level] at h

end MeteredScript
