import MeteredScript.Tree.Infix

namespace MeteredScript

/-! # Writing programs as tokens

The tokens of a program tree, with parentheses only where the way operators bind demands them. Every
expression has a level, and every place that holds an expression demands one; an expression of a lower
level goes into parentheses there. The levels are

* 0 for commas,
* 1 for assignments and choices,
* 2 to 12 for infix operators, by their precedence,
* 13 for signs in front of an operand, 14 for `++` and `--` behind one,
* 15 for chains of properties, indices and calls,
* 16 for the smallest expressions.
-/

/-! ## Single tokens -/

def UnaryOp.token : UnaryOp → Token
  | plus => .sign (.binary (.arith .add))
  | minus => .sign (.binary (.arith .sub))
  | not => .sign .not
  | bitNot => .sign .bitNot
  | typeof => .keyword .typeofWord
  | void => .keyword .voidWord

def InfixOp.token : InfixOp → Token
  | binary op => .sign (.binary op)
  | logical op => .sign (.logical op)

def Literal.token : Literal → Token
  | number value => .number value
  | string value => .string value
  | boolean true => .keyword .trueWord
  | boolean false => .keyword .falseWord
  | null => .keyword .nullWord
  | undefined => .keyword .undefinedWord

/-- The token of a property behind a point: reserved words are tokens of their own. -/
def nameToken (name : String) : Token :=
  match Keyword.ofText? name with
  | some word => .keyword word
  | none => .ident name

/-! ## Levels -/

namespace InfixOp

/-- The level of what an operator joins. -/
def level (op : InfixOp) : Nat := op.precedence + 1

/-- The level that an operator demands of its left operand. -/
def leftLevel (op : InfixOp) : Nat := if op.isRightAssociative then op.level + 1 else op.level

/-- The level that an operator demands of its right operand. -/
def rightLevel (op : InfixOp) : Nat := if op.isRightAssociative then op.level else op.level + 1

end InfixOp

def Place.level : Place → Nat
  | .ident _ _ => 16
  | .member _ _ _ | .index _ _ _ => 15

def Expr.level : Expr → Nat
  | .sequence _ _ => 0
  | .assign _ _ _ _ | .conditional _ _ _ _ => 1
  | .binary op _ _ _ => (InfixOp.binary op).level
  | .logical op _ _ _ => (InfixOp.logical op).level
  | .unary _ _ _ | .updateBefore _ _ _ _ => 13
  | .updateAfter _ _ _ => 14
  | .call _ _ _ => 15
  | .place p => p.level
  | .literal _ _ | .array _ _ | .object _ _ => 16

/-! ## Expressions -/

def inParens (tokens : List Token) : List Token :=
  .punctuation .openParen :: (tokens ++ [.punctuation .closeParen])

/-- The tokens of an expression where a level is demanded. -/
def bracket (min : Nat) (e : Expr) (tokens : List Token) : List Token :=
  if e.level < min then inParens tokens else tokens

/-- Tokens of several things with commas between them. -/
def separate : List (List Token) → List Token
  | [] => []
  | first :: rest => first ++ rest.flatMap (.punctuation .comma :: ·)

mutual

def Expr.tokens : Expr → List Token
  | .literal value _ => [value.token]
  | .place p => p.tokens
  | .array elements _ =>
    .punctuation .openBracket :: (separate (tokensAll elements) ++ [.punctuation .closeBracket])
  | .object entries _ =>
    .punctuation .openBrace :: (separate (tokensEntries entries) ++ [.punctuation .closeBrace])
  | .unary op operand _ => op.token :: bracket 13 operand operand.tokens
  | .updateBefore op _ inner target =>
    .sign (.update op) :: (inner.map (fun step => .sign (.update step.1)) ++ target.tokens)
  | .updateAfter op target _ => target.tokens ++ [.sign (.update op)]
  | .binary op left right _ =>
    bracket (InfixOp.binary op).leftLevel left left.tokens ++ (InfixOp.binary op).token ::
      bracket (InfixOp.binary op).rightLevel right right.tokens
  | .logical op left right _ =>
    bracket (InfixOp.logical op).leftLevel left left.tokens ++ (InfixOp.logical op).token ::
      bracket (InfixOp.logical op).rightLevel right right.tokens
  | .assign op target value _ => target.tokens ++ .sign (.assign op) :: bracket 1 value value.tokens
  | .conditional test consequent alternate _ =>
    bracket 2 test test.tokens ++ .sign .question :: (bracket 1 consequent consequent.tokens ++
      .punctuation .colon :: bracket 1 alternate alternate.tokens)
  | .sequence parts _ => separate (tokensAll parts)
  | .call callee arguments _ =>
    bracket 15 callee callee.tokens ++ inParens (separate (tokensAll arguments))

def Place.tokens : Place → List Token
  | .ident name _ => [.ident name]
  | .member object name _ =>
    bracket 15 object object.tokens ++ [.punctuation .point, nameToken name]
  | .index object key _ =>
    bracket 15 object object.tokens ++
      .punctuation .openBracket :: (key.tokens ++ [.punctuation .closeBracket])

/-- The tokens of each expression of a list, written between commas. -/
def tokensAll : List Expr → List (List Token)
  | [] => []
  | e :: es => bracket 1 e e.tokens :: tokensAll es

/-- The tokens of each entry of an object. -/
def tokensEntries : List (String × Expr) → List (List Token)
  | [] => []
  | (key, e) :: entries =>
    (.string key :: .punctuation .colon :: bracket 1 e e.tokens) :: tokensEntries entries

end

/-- The tokens of an expression where the level `min` is demanded. -/
def Expr.tokensAt (min : Nat) (e : Expr) : List Token := bracket min e e.tokens

theorem tokensAll_eq_map (es : List Expr) : tokensAll es = es.map (Expr.tokensAt 1) := by
  induction es with
  | nil => rfl
  | cons e es ih => rw [tokensAll, ih, List.map_cons, Expr.tokensAt]

def entryTokens (entry : String × Expr) : List Token :=
  .string entry.1 :: .punctuation .colon :: entry.2.tokensAt 1

theorem tokensEntries_eq_map (entries : List (String × Expr)) :
    tokensEntries entries = entries.map entryTokens := by
  induction entries with
  | nil => rfl
  | cons entry entries ih => rw [tokensEntries, ih, List.map_cons, entryTokens, Expr.tokensAt]

mutual

/-- Whether an expression can be written: a comma needs something on both sides. -/
def Expr.isWritable : Expr → Bool
  | .literal _ _ => true
  | .place p => p.isWritable
  | .array elements _ => allWritable elements
  | .object entries _ => entriesWritable entries
  | .unary _ operand _ => operand.isWritable
  | .updateBefore _ _ _ target => target.isWritable
  | .updateAfter _ target _ => target.isWritable
  | .binary _ left right _ => left.isWritable && right.isWritable
  | .logical _ left right _ => left.isWritable && right.isWritable
  | .assign _ target value _ => target.isWritable && value.isWritable
  | .conditional test consequent alternate _ =>
    test.isWritable && consequent.isWritable && alternate.isWritable
  | .sequence parts _ => decide (2 ≤ parts.length) && allWritable parts
  | .call callee arguments _ => callee.isWritable && allWritable arguments

/-- Whether the expressions inside a place can be written. -/
def Place.isWritable : Place → Bool
  | .ident _ _ => true
  | .member object _ _ => object.isWritable
  | .index object key _ => object.isWritable && key.isWritable

/-- Whether all expressions of a list can be written. -/
def allWritable : List Expr → Bool
  | [] => true
  | e :: es => e.isWritable && allWritable es

/-- Whether the values of all entries of an object can be written. -/
def entriesWritable : List (String × Expr) → Bool
  | [] => true
  | (_, e) :: entries => e.isWritable && entriesWritable entries

end

theorem allWritable_iff {es : List Expr} : allWritable es = true ↔ ∀ e ∈ es, e.isWritable = true := by
  induction es with
  | nil => exact ⟨fun _ _ h => absurd h List.not_mem_nil, fun _ => rfl⟩
  | cons e es ih => rw [allWritable, Bool.and_eq_true, ih, List.forall_mem_cons]

theorem entriesWritable_iff {entries : List (String × Expr)} :
    entriesWritable entries = true ↔ ∀ entry ∈ entries, entry.2.isWritable = true := by
  induction entries with
  | nil => exact ⟨fun _ _ h => absurd h List.not_mem_nil, fun _ => rfl⟩
  | cons entry entries ih => rw [entriesWritable, Bool.and_eq_true, ih, List.forall_mem_cons]

/-! ## Statements -/

/-- The tokens of an initial value that may be absent. -/
def initializerTokens : Option Expr → List Token
  | some e => .sign (.assign .plain) :: e.tokensAt 1
  | none => []

/-- The tokens of a name with its optional initial value. -/
def declaredTokens (name : String) (init : Option Expr) : List Token :=
  .ident name :: initializerTokens init

/-- The tokens of a declaration, without the semicolon. -/
def declarationTokens (declarators : List Declarator) : List Token :=
  .keyword .varWord :: separate (declarators.map fun d => declaredTokens d.name d.init)

/-- The tokens of an expression that may be absent. -/
def optionTokens : Option Expr → List Token
  | some e => e.tokensAt 0
  | none => []

def ForInit.tokens : ForInit → List Token
  | declare declarators _ => declarationTokens declarators
  | evaluate e => e.tokensAt 0

/-- The tokens of an expression as a statement: a brace in front would open a block. -/
def statementTokens (e : Expr) : List Token :=
  if e.tokens.head? = some (.punctuation .openBrace) then inParens e.tokens else e.tokens

mutual

def Stmt.tokens : Stmt → List Token
  | .declare declarators _ => declarationTokens declarators ++ [.punctuation .semicolon]
  | .block body _ => .punctuation .openBrace :: (tokensStmts body ++ [.punctuation .closeBrace])
  | .ifThen test consequent _ => .keyword .ifWord :: (inParens test.tokens ++ consequent.tokens)
  | .ifElse test consequent alternate _ =>
    .keyword .ifWord :: (inParens test.tokens ++ (consequent.tokens ++
      .keyword .elseWord :: alternate.tokens))
  | .forLoop init test update body _ =>
    .keyword .forWord :: .punctuation .openParen :: ((init.map ForInit.tokens).getD [] ++
      .punctuation .semicolon :: (optionTokens test ++ .punctuation .semicolon ::
        (optionTokens update ++ .punctuation .closeParen :: body.tokens)))
  | .whileLoop test body _ => .keyword .whileWord :: (inParens test.tokens ++ body.tokens)
  | .breakLoop _ => [.keyword .breakWord, .punctuation .semicolon]
  | .continueLoop _ => [.keyword .continueWord, .punctuation .semicolon]
  | .returnValue argument _ =>
    .keyword .returnWord :: (optionTokens argument ++ [.punctuation .semicolon])
  | .empty _ => [.punctuation .semicolon]
  | .expression e _ => statementTokens e ++ [.punctuation .semicolon]

def tokensStmts : List Stmt → List Token
  | [] => []
  | s :: rest => s.tokens ++ tokensStmts rest

end

/-- Whether an `else` behind a statement would belong to an `if` inside it. -/
def Stmt.endsOpen : Stmt → Bool
  | .ifThen _ _ _ => true
  | .ifElse _ _ alternate _ => alternate.endsOpen
  | .forLoop _ _ _ body _ => body.endsOpen
  | .whileLoop _ body _ => body.endsOpen
  | _ => false

/-- Whether an expression that may be absent can be written. -/
def optionWritable : Option Expr → Bool
  | some e => e.isWritable
  | none => true

/-- Whether a declaration can be written: it declares something. -/
def declarationWritable (declarators : List Declarator) : Bool :=
  !declarators.isEmpty && declarators.all fun d => optionWritable d.init

def ForInit.isWritable : ForInit → Bool
  | declare declarators _ => declarationWritable declarators
  | evaluate e => e.isWritable

mutual

/-- Whether a statement can be written: no `else` falls to an `if` inside the other branch. -/
def Stmt.isWritable : Stmt → Bool
  | .declare declarators _ => declarationWritable declarators
  | .block body _ => stmtsWritable body
  | .ifThen test consequent _ => test.isWritable && consequent.isWritable
  | .ifElse test consequent alternate _ =>
    test.isWritable && consequent.isWritable && alternate.isWritable && !consequent.endsOpen
  | .forLoop init test update body _ =>
    (init.map ForInit.isWritable).getD true && optionWritable test && optionWritable update &&
      body.isWritable
  | .whileLoop test body _ => test.isWritable && body.isWritable
  | .returnValue argument _ => optionWritable argument
  | .breakLoop _ | .continueLoop _ | .empty _ => true
  | .expression e _ => e.isWritable

/-- Whether all statements can be written. -/
def stmtsWritable : List Stmt → Bool
  | [] => true
  | s :: rest => s.isWritable && stmtsWritable rest

end

theorem stmtsWritable_iff {body : List Stmt} :
    stmtsWritable body = true ↔ ∀ s ∈ body, s.isWritable = true := by
  induction body with
  | nil => exact ⟨fun _ _ h => absurd h List.not_mem_nil, fun _ => rfl⟩
  | cons s body ih => rw [stmtsWritable, Bool.and_eq_true, ih, List.forall_mem_cons]

theorem tokensStmts_eq_flatMap (body : List Stmt) : tokensStmts body = body.flatMap Stmt.tokens := by
  induction body with
  | nil => rfl
  | cons s body ih => rw [tokensStmts, ih, List.flatMap_cons]

def Function.tokens (f : Function) : List Token :=
  .keyword .functionWord :: .ident f.name ::
    (inParens (separate (f.params.map fun p => declaredTokens p.name p.fallback)) ++
      .punctuation .openBrace :: (tokensStmts f.body ++ [.punctuation .closeBrace]))

def Item.tokens : Item → List Token
  | function f => f.tokens
  | statement s => s.tokens

def Program.tokens (program : Program) : List Token := program.items.flatMap Item.tokens

def Item.isWritable : Item → Bool
  | function f => (f.params.all fun p => optionWritable p.fallback) && stmtsWritable f.body
  | statement s => s.isWritable

/-- Whether a program can be written as tokens. -/
def Program.isWritable (program : Program) : Bool := program.items.all Item.isWritable

end MeteredScript
