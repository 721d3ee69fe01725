import MeteredScript.Proofs.Printer
import MeteredScript.Tree.Parser

namespace MeteredScript

/-! # The leaves of a program tree

A program tree holds the tokens that it was read from, in their order, except for parentheses,
commas and semicolons: `Program.leaves` walks through the tree and gives them. A leaf is a token, the
key of an entry or the name of a property, since keys and names are kept as texts. The tokens that
the tree is written with are these leaves too, once parentheses, commas and semicolons are left out
(`Program.traces_tokens`).
-/

/-! ## Leaves and tokens -/

/-- Whether a token is seen in a tree: parentheses, commas and semicolons leave no trace. -/
def Token.isTraced : Token → Bool
  | .punctuation .openParen | .punctuation .closeParen => false
  | .punctuation .comma | .punctuation .semicolon => false
  | _ => true

/-- The tokens of a list that are seen in a tree. -/
def traces (tokens : List Token) : List Token := tokens.filter Token.isTraced

/-- What a token is in a tree. All words that declare are one, and so are both kinds of numbers;
regexes and comments are in no tree. -/
def Token.normal? : Token → Option Token
  | .keyword .letWord | .keyword .constWord => some (.keyword .varWord)
  | .bigInt value => some (.number value)
  | .regex _ _ | .comment => none
  | t => some t

/-- What a tree has in the place of one token. -/
inductive Leaf where
  | plain (token : Token)
  /-- The key of an entry of an object. -/
  | key (text : String)
  /-- The name of a property behind a point. -/
  | property (name : String)
deriving DecidableEq, Repr

/-- Whether a tree has a leaf in the place of a token. -/
def Leaf.ReadFrom : Leaf → Token → Prop
  | plain leaf, token => token.normal? = some leaf
  | key text, token => Parse.entryKey? token = some text
  | property name, token => Parse.memberName? token = some name

def Leaf.token : Leaf → Token
  | plain token => token
  | key text => .string text
  | property name => nameToken name

/-! ## Trees -/

mutual

def Expr.leaves : Expr → List Leaf
  | .literal value _ => [.plain value.token]
  | .place p => p.leaves
  | .array elements _ =>
    .plain (.punctuation .openBracket) ::
      (leavesAll elements ++ [.plain (.punctuation .closeBracket)])
  | .object entries _ =>
    .plain (.punctuation .openBrace) ::
      (leavesEntries entries ++ [.plain (.punctuation .closeBrace)])
  | .unary op operand _ => .plain op.token :: operand.leaves
  | .updateBefore op _ inner target =>
    .plain (.sign (.update op)) ::
      (inner.map (fun step => .plain (.sign (.update step.1))) ++ target.leaves)
  | .updateAfter op target _ => target.leaves ++ [.plain (.sign (.update op))]
  | .binary op left right _ => left.leaves ++ .plain (.sign (.binary op)) :: right.leaves
  | .logical op left right _ => left.leaves ++ .plain (.sign (.logical op)) :: right.leaves
  | .assign op target value _ => target.leaves ++ .plain (.sign (.assign op)) :: value.leaves
  | .conditional test consequent alternate _ =>
    test.leaves ++ .plain (.sign .question) ::
      (consequent.leaves ++ .plain (.punctuation .colon) :: alternate.leaves)
  | .sequence parts _ => leavesAll parts
  | .call callee arguments _ => callee.leaves ++ leavesAll arguments

def Place.leaves : Place → List Leaf
  | .ident name _ => [.plain (.ident name)]
  | .member object name _ => object.leaves ++ [.plain (.punctuation .point), .property name]
  | .index object key _ =>
    object.leaves ++ .plain (.punctuation .openBracket) ::
      (key.leaves ++ [.plain (.punctuation .closeBracket)])

def leavesAll : List Expr → List Leaf
  | [] => []
  | e :: es => e.leaves ++ leavesAll es

def leavesEntries : List (String × Expr) → List Leaf
  | [] => []
  | (key, e) :: entries =>
    .key key :: .plain (.punctuation .colon) :: (e.leaves ++ leavesEntries entries)

end

/-- The leaves of an expression that may be absent. -/
def optionLeaves : Option Expr → List Leaf
  | some e => e.leaves
  | none => []

/-- The leaves of a name with its optional initial value. -/
def declaredLeaves (name : String) : Option Expr → List Leaf
  | some e => .plain (.ident name) :: .plain (.sign (.assign .plain)) :: e.leaves
  | none => [.plain (.ident name)]

def declarationLeaves (declarators : List Declarator) : List Leaf :=
  .plain (.keyword .varWord) :: declarators.flatMap fun d => declaredLeaves d.name d.init

def ForInit.leaves : ForInit → List Leaf
  | declare declarators _ => declarationLeaves declarators
  | evaluate e => e.leaves

mutual

def Stmt.leaves : Stmt → List Leaf
  | .declare declarators _ => declarationLeaves declarators
  | .block body _ =>
    .plain (.punctuation .openBrace) :: (leavesStmts body ++ [.plain (.punctuation .closeBrace)])
  | .ifThen test consequent _ => .plain (.keyword .ifWord) :: (test.leaves ++ consequent.leaves)
  | .ifElse test consequent alternate _ =>
    .plain (.keyword .ifWord) :: (test.leaves ++ (consequent.leaves ++
      .plain (.keyword .elseWord) :: alternate.leaves))
  | .forLoop init test update body _ =>
    .plain (.keyword .forWord) :: ((init.map ForInit.leaves).getD [] ++ (optionLeaves test ++
      (optionLeaves update ++ body.leaves)))
  | .whileLoop test body _ => .plain (.keyword .whileWord) :: (test.leaves ++ body.leaves)
  | .breakLoop _ => [.plain (.keyword .breakWord)]
  | .continueLoop _ => [.plain (.keyword .continueWord)]
  | .returnValue argument _ => .plain (.keyword .returnWord) :: optionLeaves argument
  | .empty _ => []
  | .expression e _ => e.leaves

def leavesStmts : List Stmt → List Leaf
  | [] => []
  | s :: rest => s.leaves ++ leavesStmts rest

end

def Function.leaves (f : Function) : List Leaf :=
  .plain (.keyword .functionWord) :: .plain (.ident f.name) ::
    ((f.params.flatMap fun p => declaredLeaves p.name p.fallback) ++
      .plain (.punctuation .openBrace) ::
        (leavesStmts f.body ++ [.plain (.punctuation .closeBrace)]))

def Item.leaves : Item → List Leaf
  | function f => f.leaves
  | statement s => s.leaves

def Program.leaves (program : Program) : List Leaf := program.items.flatMap Item.leaves

/-! ## Lists and operators -/

theorem leavesAll_eq_flatMap (es : List Expr) : leavesAll es = es.flatMap Expr.leaves := by
  induction es with
  | nil => rfl
  | cons e es ih => rw [leavesAll, ih, List.flatMap_cons]

def entryLeaves (entry : String × Expr) : List Leaf :=
  .key entry.1 :: .plain (.punctuation .colon) :: entry.2.leaves

theorem leavesEntries_eq_flatMap (entries : List (String × Expr)) :
    leavesEntries entries = entries.flatMap entryLeaves := by
  induction entries with
  | nil => rfl
  | cons entry entries ih =>
    rw [leavesEntries, ih, List.flatMap_cons]
    rfl

theorem leavesStmts_eq_flatMap (body : List Stmt) :
    leavesStmts body = body.flatMap Stmt.leaves := by
  induction body with
  | nil => rfl
  | cons s body ih => rw [leavesStmts, ih, List.flatMap_cons]

/-- An operator is between the leaves of its operands. -/
theorem InfixOp.leaves_join (op : InfixOp) (left right : Expr) (span : Span) :
    (op.join left right span).leaves = left.leaves ++ .plain op.token :: right.leaves := by
  cases op <;> rfl

/-! ## Leaves and written trees -/

@[simp] theorem traces_nil : traces [] = [] := rfl

@[simp] theorem traces_append (front back : List Token) :
    traces (front ++ back) = traces front ++ traces back :=
  List.filter_append front back

@[simp] theorem traces_cons (t : Token) (rest : List Token) :
    traces (t :: rest) = (if t.isTraced then t :: traces rest else traces rest) :=
  List.filter_cons

@[simp] theorem traces_inParens (tokens : List Token) :
    traces (inParens tokens) = traces tokens := by
  simp [inParens, Token.isTraced]

/-- Parentheses leave no trace, whether they are needed or not. -/
@[simp] theorem traces_bracket (min : Nat) (e : Expr) (tokens : List Token) :
    traces (bracket min e tokens) = traces tokens := by
  unfold bracket
  split
  · exact traces_inParens tokens
  · rfl

/-- Nor do commas. -/
theorem traces_separate (parts : List (List Token)) :
    traces (separate parts) = parts.flatMap traces := by
  have hrest : ∀ rest : List (List Token),
      traces (rest.flatMap (.punctuation .comma :: ·)) = rest.flatMap traces := by
    intro rest
    induction rest with
    | nil => rfl
    | cons part rest ih => simp [ih, Token.isTraced]
  cases parts with
  | nil => rfl
  | cons first rest => rw [separate, traces_append, hrest, List.flatMap_cons]

theorem isTraced_unary (op : UnaryOp) : op.token.isTraced = true := by
  cases op <;> rfl

/-- Literals leave a trace. -/
theorem isTraced_literal (value : Literal) : value.token.isTraced = true := by
  cases value with
  | boolean value => cases value <;> rfl
  | _ => rfl

/-- So do names of properties, written as words or not. -/
theorem isTraced_nameToken (name : String) : (nameToken name).isTraced = true := by
  unfold nameToken
  split <;> rfl

@[simp] theorem Leaf.token_plain (t : Token) : (Leaf.plain t).token = t := rfl

/-- So do steps in front of a place. -/
theorem traces_updates (inner : List (UpdateOp × Span)) :
    traces (inner.map fun step => .sign (.update step.1)) =
      inner.map fun step => .sign (.update step.1) := by
  induction inner with
  | nil => rfl
  | cons step inner ih => simp [ih, Token.isTraced]

mutual

/-- An expression is written with its leaves. -/
theorem Expr.traces_tokens (e : Expr) : traces e.tokens = e.leaves.map Leaf.token := by
  cases e with
  | literal value span => simp [Expr.tokens, Expr.leaves, isTraced_literal]
  | place p => exact p.traces_tokens
  | array elements span =>
    have helements := traces_tokensAll elements
    simp [Expr.tokens, Expr.leaves, Token.isTraced, traces_separate, helements]
  | object entries span =>
    have hentries := traces_tokensEntries entries
    simp [Expr.tokens, Expr.leaves, Token.isTraced, traces_separate, hentries]
  | unary op operand span =>
    have hoperand := operand.traces_tokens
    simp [Expr.tokens, Expr.leaves, isTraced_unary, hoperand]
  | updateBefore op span inner target =>
    have htarget := target.traces_tokens
    simp [Expr.tokens, Expr.leaves, Token.isTraced, traces_updates, htarget]
  | updateAfter op target span =>
    have htarget := target.traces_tokens
    simp [Expr.tokens, Expr.leaves, Token.isTraced, htarget]
  | binary op left right span =>
    have hleft := left.traces_tokens
    have hright := right.traces_tokens
    simp [Expr.tokens, Expr.leaves, InfixOp.token, Token.isTraced, hleft, hright]
  | logical op left right span =>
    have hleft := left.traces_tokens
    have hright := right.traces_tokens
    simp [Expr.tokens, Expr.leaves, InfixOp.token, Token.isTraced, hleft, hright]
  | assign op target value span =>
    have htarget := target.traces_tokens
    have hvalue := value.traces_tokens
    simp [Expr.tokens, Expr.leaves, Token.isTraced, htarget, hvalue]
  | conditional test consequent alternate span =>
    have htest := test.traces_tokens
    have hconsequent := consequent.traces_tokens
    have halternate := alternate.traces_tokens
    simp [Expr.tokens, Expr.leaves, Token.isTraced, htest, hconsequent, halternate]
  | sequence parts span =>
    have hparts := traces_tokensAll parts
    simp [Expr.tokens, Expr.leaves, traces_separate, hparts]
  | call callee arguments span =>
    have hcallee := callee.traces_tokens
    have harguments := traces_tokensAll arguments
    simp [Expr.tokens, Expr.leaves, traces_separate, hcallee, harguments]

/-- The same holds of places, -/
theorem Place.traces_tokens (p : Place) : traces p.tokens = p.leaves.map Leaf.token := by
  cases p with
  | ident name span => rfl
  | member object name span =>
    have hobject := object.traces_tokens
    have hpoint : (Token.punctuation .point).isTraced = true := rfl
    simp [Place.tokens, Place.leaves, hpoint, isTraced_nameToken, Leaf.token, hobject]
  | index object key span =>
    have hobject := object.traces_tokens
    have hkey := key.traces_tokens
    simp [Place.tokens, Place.leaves, Token.isTraced, hobject, hkey]

theorem traces_tokensAll (es : List Expr) :
    (tokensAll es).flatMap traces = (leavesAll es).map Leaf.token := by
  cases es with
  | nil => rfl
  | cons e es =>
    have he := e.traces_tokens
    have hes := traces_tokensAll es
    simp [tokensAll, leavesAll, he, hes]

theorem traces_tokensEntries (entries : List (String × Expr)) :
    (tokensEntries entries).flatMap traces = (leavesEntries entries).map Leaf.token := by
  cases entries with
  | nil => rfl
  | cons entry entries =>
    obtain ⟨key, e⟩ := entry
    have he := e.traces_tokens
    have hentries := traces_tokensEntries entries
    simp [tokensEntries, leavesEntries, Token.isTraced, Leaf.token, he, hentries]

end

/-- Parentheses around an expression make no difference. -/
theorem traces_tokensAt (min : Nat) (e : Expr) :
    traces (e.tokensAt min) = e.leaves.map Leaf.token := by
  rw [Expr.tokensAt, traces_bracket, e.traces_tokens]

/-- What is missing has neither tokens nor leaves. -/
theorem traces_optionTokens (argument : Option Expr) :
    traces (optionTokens argument) = (optionLeaves argument).map Leaf.token := by
  cases argument with
  | none => rfl
  | some e => exact traces_tokensAt 0 e

/-- A name and its initial value. -/
theorem traces_declaredTokens (name : String) (init : Option Expr) :
    traces (declaredTokens name init) = (declaredLeaves name init).map Leaf.token := by
  cases init with
  | none => rfl
  | some e =>
    have he := traces_tokensAt 1 e
    simp [declaredTokens, declaredLeaves, initializerTokens, Token.isTraced, he]

/-- A declaration, with the word it begins with. -/
theorem traces_declarationTokens (declarators : List Declarator) :
    traces (declarationTokens declarators) = (declarationLeaves declarators).map Leaf.token := by
  simp [declarationTokens, declarationLeaves, Token.isTraced, traces_separate, List.flatMap_map,
    List.map_flatMap, traces_declaredTokens]

theorem ForInit.traces_tokens (init : ForInit) :
    traces init.tokens = init.leaves.map Leaf.token := by
  cases init with
  | declare declarators span => exact traces_declarationTokens declarators
  | evaluate e => exact traces_tokensAt 0 e

/-- Parentheses around a statement make no difference either. -/
theorem traces_statementTokens (e : Expr) :
    traces (statementTokens e) = e.leaves.map Leaf.token := by
  unfold statementTokens
  split
  · rw [traces_inParens, e.traces_tokens]
  · exact e.traces_tokens

mutual

/-- The traces of a written statement are its leaves. -/
theorem Stmt.traces_tokens (s : Stmt) : traces s.tokens = s.leaves.map Leaf.token := by
  cases s with
  | declare declarators span =>
    have hdeclaration := traces_declarationTokens declarators
    simp [Stmt.tokens, Stmt.leaves, Token.isTraced, hdeclaration]
  | block body span =>
    have hbody := traces_tokensStmts body
    simp [Stmt.tokens, Stmt.leaves, Token.isTraced, hbody]
  | ifThen test consequent span =>
    have htest := test.traces_tokens
    have hconsequent := consequent.traces_tokens
    simp [Stmt.tokens, Stmt.leaves, Token.isTraced, htest, hconsequent]
  | ifElse test consequent alternate span =>
    have htest := test.traces_tokens
    have hconsequent := consequent.traces_tokens
    have halternate := alternate.traces_tokens
    simp [Stmt.tokens, Stmt.leaves, Token.isTraced, htest, hconsequent, halternate]
  | forLoop init test update body span =>
    -- the start of the loop may be missing, on both sides
    have hinit : traces ((init.map ForInit.tokens).getD []) =
        ((init.map ForInit.leaves).getD []).map Leaf.token := by
      cases init with
      | none => rfl
      | some init => exact init.traces_tokens
    have htest := traces_optionTokens test
    have hupdate := traces_optionTokens update
    have hbody := body.traces_tokens
    simp [Stmt.tokens, Stmt.leaves, Token.isTraced, hinit, htest, hupdate, hbody]
  | whileLoop test body span =>
    have htest := test.traces_tokens
    have hbody := body.traces_tokens
    simp [Stmt.tokens, Stmt.leaves, Token.isTraced, htest, hbody]
  | breakLoop span => rfl
  | continueLoop span => rfl
  | returnValue argument span =>
    have hargument := traces_optionTokens argument
    simp [Stmt.tokens, Stmt.leaves, Token.isTraced, hargument]
  | empty span => rfl
  | expression e span =>
    have he := traces_statementTokens e
    simp [Stmt.tokens, Stmt.leaves, Token.isTraced, he]

/-- The same holds of statements in a row. -/
theorem traces_tokensStmts (body : List Stmt) :
    traces (tokensStmts body) = (leavesStmts body).map Leaf.token := by
  cases body with
  | nil => rfl
  | cons s body =>
    have hs := s.traces_tokens
    have hbody := traces_tokensStmts body
    simp [tokensStmts, leavesStmts, hs, hbody]

end

theorem Item.traces_tokens (item : Item) : traces item.tokens = item.leaves.map Leaf.token := by
  cases item with
  | function f =>
    have hbody := traces_tokensStmts f.body
    simp [Item.tokens, Item.leaves, Function.tokens, Function.leaves, Token.isTraced,
      traces_separate, List.flatMap_map, List.map_flatMap, traces_declaredTokens, hbody]
  | statement s => exact s.traces_tokens

/-- A program is written with its leaves. -/
theorem Program.traces_tokens (program : Program) :
    traces program.tokens = program.leaves.map Leaf.token := by
  have hitems : ∀ items : List Item,
      traces (items.flatMap Item.tokens) = (items.flatMap Item.leaves).map Leaf.token := by
    intro items
    induction items with
    | nil => rfl
    | cons item items ih => simp [item.traces_tokens, ih]
  exact hitems program.items

end MeteredScript
