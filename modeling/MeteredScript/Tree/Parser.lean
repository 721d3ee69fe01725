import MeteredScript.Nesting
import MeteredScript.Token.Lexer
import MeteredScript.Tree.Arena
import MeteredScript.Tree.Cursor
import MeteredScript.Tree.Infix

namespace MeteredScript

/-! # Reading program trees

The grammar, one function a rule. A rule for expressions takes as `sub` the reader of the expressions
inside it, which it calls only behind a token of its own; `bound` is at least the number of tokens
left. The reader itself, `Parse.assignment`, ties the knot by recursion on that bound: with no token
left there is nothing to read.
-/

namespace Parse

/-! ## Expressions -/

/-- A sign in front of an operand. -/
inductive PrefixSign where
  | unary (op : UnaryOp)
  | update (op : UpdateOp)
deriving DecidableEq, Repr, Inhabited

/-- The sign in front of an operand that a token stands for. -/
def PrefixSign.ofToken? : Token → Option PrefixSign
  | .sign (.binary (.arith .add)) => some (unary .plus)
  | .sign (.binary (.arith .sub)) => some (unary .minus)
  | .sign .not => some (unary .not)
  | .sign .bitNot => some (unary .bitNot)
  | .keyword .typeofWord => some (unary .typeof)
  | .keyword .voidWord => some (unary .void)
  | .sign (.update op) => some (update op)
  | _ => none

/-- The assignment that a token stands for. -/
def assignOp? : Token → Option AssignOp
  | .sign (.assign op) => some op
  | _ => none

def literal? : Token → Option Literal
  | .number value => some (.number value)
  | .bigInt value => some (.number value)
  | .string body => some (.string body)
  | .keyword .trueWord => some (.boolean true)
  | .keyword .falseWord => some (.boolean false)
  | .keyword .nullWord => some .null
  | .keyword .undefinedWord => some .undefined
  | _ => none

/-- The name that a token gives a property behind a point. -/
def memberName? : Token → Option String
  | .ident name => some name
  | .keyword word => some word.text
  | _ => none

/-- The key that a token gives an entry of an object. -/
def entryKey? : Token → Option String
  | .ident name => some name
  | .string body => some body
  | .number value => some value.text
  | .bigInt value => some value.text
  | .keyword word => some word.text
  | _ => none

section Parts

-- rules that make nothing of their parts
variable {m : Type → Type} [Monad m] [MonadLiftT Parse m] {α : Type}

/-- One element of an array and the comma behind it, or just a comma. -/
def arrayStep (sub : m α) (read : List α) : m (List α × Bool) := do
  if ← check (.punctuation .closeBracket) then return (read, false)
  else if ← eat (.punctuation .comma) then return (read, true)
  else
    let e ← sub
    let more ← eat (.punctuation .comma)
    return (e :: read, more)

def entry (sub : m α) : m (String × α) := do
  match (← peek).bind entryKey? with
  | some key =>
    advance
    let _ ← expect (.punctuation .colon)
    return (key, ← sub)
  | none => unexpected

/-- One statement of a block, unless a brace closes the block. -/
def blockStep (sub : m α) (read : List α) : m (List α × Bool) := do
  match ← peek with
  | none | some (.punctuation .closeBrace) => return (read, false)
  | some _ =>
    let s ← sub
    return (s :: read, true)

def initializerOf (value : m α) : m (Option α) := do
  if ← eat (.sign (.assign .plain)) then return some (← value) else return none

/-- A declared name with its optional initial value. -/
def declaratorOf (value : m α) : m (DeclaratorOf α) := do
  let name ← name
  return ⟨name, ← initializerOf value⟩

/-- A parameter with its optional fallback. -/
def paramOf (value : m α) : m (ParamOf α) := do
  let name ← name
  return ⟨name, ← initializerOf value⟩

/-- What is absent if the token ahead is `closer`. -/
def unlessAt (closer : Token) (part : m α) : m (Option α) := do
  if ← check closer then return none else return some (← part)

def returnedOf (value : m α) : m (Option α) := do
  match ← peek with
  | none | some (.punctuation .semicolon) | some (.punctuation .closeBrace) => return none
  | some _ => return some (← value)

end Parts

section Expressions

variable (bound : Nat) (sub : Parse Expr)

/-- Expressions separated by commas; a single one stands for itself. -/
def sequence : Parse Expr := do
  let start ← here
  let first ← sub
  if ← check (.punctuation .comma) then
    let parts ← commaRest bound sub first
    return .sequence parts (← spanFrom start)
  else return first

/-- An array. Commas without an element in front of them are passed over. -/
def array : Parse Expr := do
  let start ← expect (.punctuation .openBracket)
  let read ← iterate (arrayStep sub) bound []
  let _ ← expect (.punctuation .closeBracket)
  return .array read.reverse (← spanFrom start)

def object : Parse Expr := do
  let start ← expect (.punctuation .openBrace)
  let entries ← commaSeparated bound (.punctuation .closeBrace) (entry sub)
  return .object entries (← spanFrom start)

/-- An expression in parentheses, which leave no trace of their own. -/
def parenthesized : Parse Expr := do
  let _ ← expect (.punctuation .openParen)
  let e ← sequence bound sub
  let _ ← expect (.punctuation .closeParen)
  return e

/-- The smallest expressions: names, literals, and whatever is in brackets. -/
def primary : Parse Expr := do
  let start ← here
  match ← peek with
  | some (.ident name) =>
    advance
    return .place (.ident name start)
  | some (.punctuation .openParen) => parenthesized bound sub
  | some (.punctuation .openBracket) => array bound sub
  | some (.punctuation .openBrace) => object bound sub
  | some token =>
    match literal? token with
    | some value =>
      advance
      return .literal value start
    | none => unexpected
  | none => unexpected

/-- One link of a chain: a property, an index or a call behind `e`. -/
def link (start : Span) (e : Expr) : Parse (Expr × Bool) := do
  match ← peek with
  | some (.punctuation .point) =>
    advance
    match (← peek).bind memberName? with
    | some name =>
      advance
      return (.place (.member e name (← spanFrom start)), true)
    | none => unexpected
  | some (.punctuation .openBracket) =>
    advance
    let key ← sequence bound sub
    let _ ← expect (.punctuation .closeBracket)
    return (.place (.index e key (← spanFrom start)), true)
  | some (.punctuation .openParen) =>
    advance
    let arguments ← commaSeparated bound (.punctuation .closeParen) sub
    return (.call e arguments (← spanFrom start), true)
  | _ => return (e, false)

/-- A smallest expression with the links behind it. -/
def chain : Parse Expr := do
  let start ← here
  let e ← primary bound sub
  iterate (link bound sub start) bound e

/-- A chain with an optional `++` or `--` behind it. -/
def postfixed : Parse Expr := do
  let start ← here
  let e ← chain bound sub
  match ← peek with
  | some (.sign (.update op)) =>
    match e with
    | .place target =>
      advance
      return .updateAfter op target (← spanFrom start)
    | _ => throw (.parse .updateTarget e.span)
  | _ => return e

/-- Puts a sign in front of an expression. A `++` or `--` needs a place, or steps in front of one. -/
def applySign (e : Expr) (sign : PrefixSign × Span) : Parse Expr := do
  let span ← spanFrom sign.2
  match sign.1 with
  | .unary op => return .unary op e span
  | .update op =>
    match e with
    | .place target => return .updateBefore op span [] target
    | .updateBefore op' span' inner target =>
      return .updateBefore op span ((op', span') :: inner) target
    | _ => throw (.parse .updateTarget e.span)

/-- A sign with the operand behind it, or just a chain. -/
def signRule (inside : Parse Expr) : Parse Expr := do
  match (← peek).bind PrefixSign.ofToken? with
  | some sign =>
    let start ← here
    advance
    let e ← inside
    applySign e (sign, start)
  | none => postfixed bound sub

/-- An operand of infix operators, with fewer than `signs` signs in front of it. -/
def signed (level : Nat) : Nat → Parse Expr
  | 0 => unexpected
  | signs + 1 => signRule bound sub fun cursor => deepen level fun _ => signed (level + 1) signs cursor

/-- An operand of infix operators. -/
def unary : Parse Expr := signed bound sub 0 (bound + 1)

/-- An infix operator behind `left`, unless it binds looser than `least`, with its right operand. -/
def infixStep (right : Nat → Parse Expr) (start : Span) (least : Nat) (left : Expr) :
    Parse (Expr × Bool) := do
  match (← peek).bind InfixOp.ofToken? with
  | some op =>
    -- left for whoever reads the left operand of it
    if op.precedence < least then return (left, false)
    else
      advance
      let right ← right op.rightPrecedence
      return (op.join left right (← spanFrom start), true)
  | none => return (left, false)

/-- Operands joined by infix operators that bind at least as tight as `least`. -/
def climbRule (right : Nat → Parse Expr) (least : Nat) : Parse Expr := do
  let start ← here
  let left ← unary bound sub
  iterate (infixStep right start least) bound left

/-- Operands joined by infix operators, fewer than `depth` of which stand inside of each other. -/
def climb (level : Nat) : Nat → Nat → Parse Expr
  | 0, _ => unexpected
  | depth + 1, least =>
    climbRule bound sub (fun least cursor => deepen level fun _ => climb (level + 1) depth least cursor)
      least

/-- Operands joined by infix operators. -/
def infixed : Parse Expr := climb bound sub 0 (bound + 1) 1

/-- A choice between two expressions, or just the expression that would decide it. -/
def conditional : Parse Expr := do
  let start ← here
  let test ← infixed bound sub
  if ← eat (.sign .question) then
    let consequent ← sub
    let _ ← expect (.punctuation .colon)
    let alternate ← sub
    return .conditional test consequent alternate (← spanFrom start)
  else return test

/-- An assignment, or just the expression that would be its target. -/
def assignmentRule : Parse Expr := do
  let start ← here
  let e ← conditional bound sub
  -- a target is not told from an expression before the sign is seen
  match (← peek).bind assignOp? with
  | some op =>
    match e with
    | .place target =>
      advance
      let value ← sub
      return .assign op target value (← spanFrom start)
    | _ => throw (.parse .assignmentTarget e.span)
  | none => return e

end Expressions

/-- An expression without commas outside of brackets. -/
def assignment (level : Nat) : Nat → Parse Expr
  | 0 => unexpected
  | bound + 1 => fun cursor =>
    deepen level fun _ => assignmentRule (bound + 1) (assignment (level + 1) bound) cursor

def expression (bound : Nat) : Parse Expr := sequence bound (assignment 0 bound)

/-! ## Statements -/

/-- Whether a token starts a declaration. -/
def isDeclarationWord : Token → Bool
  | .keyword .varWord | .keyword .letWord | .keyword .constWord => true
  | _ => false

/-- Passes an optional semicolon. -/
def semicolon : Parse Unit := do
  let _ ← eat (.punctuation .semicolon)

/-- An optional `=` with an expression. -/
def initializer (bound : Nat) : Parse (Option Expr) := initializerOf (assignment 0 bound)

/-- A declared name with its optional initial value. -/
def declarator (bound : Nat) : Parse Declarator := declaratorOf (assignment 0 bound)

/-- A declaration without the semicolon behind it. -/
def declaration (bound : Nat) : Parse (List Declarator × Span) := do
  let start ← here
  advance
  let first ← declarator bound
  let declarators ← commaRest bound (declarator bound) first
  return (declarators, ← spanFrom start)

/-- What a `for` loop does first, up to and without the semicolon. -/
def forInit (bound : Nat) : Parse (Option ForInit) := do
  match ← peek with
  | some (.punctuation .semicolon) => return none
  | token =>
    if (token.map isDeclarationWord).getD false then
      let (declarators, span) ← declaration bound
      return some (.declare declarators span)
    else return some (.evaluate (← expression bound))

/-- An expression that is absent if the token ahead is `closer`. -/
def expressionUnless (bound : Nat) (closer : Token) : Parse (Option Expr) :=
  unlessAt closer (expression bound)

section Statements

variable (bound : Nat) (sub : Parse Stmt)

/-- Statements in braces, with the range of the braces and what is between them. -/
def block : Parse (List Stmt × Span) := do
  let start ← expect (.punctuation .openBrace)
  let read ← iterate (blockStep sub) bound []
  -- a missing brace is reported at the opening one
  if (← peek).isNone then throw (.parse .unterminatedBlock start)
  else
    let _ ← expect (.punctuation .closeBrace)
    return (read.reverse, ← spanFrom start)

def ifStatement : Parse Stmt := do
  let start ← expect (.keyword .ifWord)
  let _ ← expect (.punctuation .openParen)
  let test ← expression bound
  let _ ← expect (.punctuation .closeParen)
  let consequent ← sub
  -- an `else` belongs to the nearest `if`
  if ← eat (.keyword .elseWord) then
    let alternate ← sub
    return .ifElse test consequent alternate (← spanFrom start)
  else return .ifThen test consequent (← spanFrom start)

def forStatement : Parse Stmt := do
  let start ← expect (.keyword .forWord)
  let _ ← expect (.punctuation .openParen)
  let init ← forInit bound
  let _ ← expect (.punctuation .semicolon)
  let test ← expressionUnless bound (.punctuation .semicolon)
  let _ ← expect (.punctuation .semicolon)
  let update ← expressionUnless bound (.punctuation .closeParen)
  let _ ← expect (.punctuation .closeParen)
  let body ← sub
  return .forLoop init test update body (← spanFrom start)

def whileStatement : Parse Stmt := do
  let start ← expect (.keyword .whileWord)
  let _ ← expect (.punctuation .openParen)
  let test ← expression bound
  let _ ← expect (.punctuation .closeParen)
  let body ← sub
  return .whileLoop test body (← spanFrom start)

/-- The optional value of a `return`. -/
def returnArgument : Parse (Option Expr) := returnedOf (expression bound)

/-- A `return` with its optional value. -/
def returnStatement : Parse Stmt := do
  let start ← expect (.keyword .returnWord)
  let argument ← returnArgument bound
  semicolon
  return .returnValue argument (← spanFrom start)

def expressionStatement : Parse Stmt := do
  let start ← here
  let e ← expression bound
  semicolon
  return .expression e (← spanFrom start)

/-- A declaration as a statement; its range is without the semicolon. -/
def declarationStatement : Parse Stmt := do
  let (declarators, span) ← declaration bound
  semicolon
  return .declare declarators span

def wordStatement (make : Span → Stmt) : Parse Stmt := do
  let start ← here
  advance
  semicolon
  return make start

def statementRule : Parse Stmt := do
  match ← peek with
  | some (.keyword word) =>
    match word with
    | .functionWord => throw (.parse .nestedFunction (← here))
    | .varWord | .letWord | .constWord => declarationStatement bound
    | .ifWord => ifStatement bound sub
    | .forWord => forStatement bound sub
    | .whileWord => whileStatement bound sub
    | .breakWord => wordStatement .breakLoop
    | .continueWord => wordStatement .continueLoop
    | .returnWord => returnStatement bound
    | _ => expressionStatement bound
  | some (.punctuation .openBrace) =>
    let (body, span) ← block bound sub
    return .block body span
  | some (.punctuation .semicolon) =>
    let start ← here
    advance
    return .empty start
  | some _ => expressionStatement bound
  | none => unexpected

end Statements

def statement (level : Nat) : Nat → Parse Stmt
  | 0 => unexpected
  | bound + 1 => fun cursor =>
    deepen level fun _ => statementRule (bound + 1) (statement (level + 1) bound) cursor

/-! ## Programs -/

/-- A parameter with its optional fallback. -/
def param (bound : Nat) : Parse Param := paramOf (assignment 0 bound)

def function (bound : Nat) : Parse Function := do
  let start ← expect (.keyword .functionWord)
  let name ← name
  let _ ← expect (.punctuation .openParen)
  let params ← commaSeparated bound (.punctuation .closeParen) (param bound)
  let (body, bodySpan) ← block bound (statement 0 bound)
  return ⟨name, params, body, bodySpan, ← spanFrom start⟩

/-- A function or a statement. -/
def item (bound : Nat) : Parse Item := do
  if ← check (.keyword .functionWord) then return .function (← function bound)
  else return .statement (← statement 0 bound)

/-- One more function or statement, if there is a token left. -/
def itemStep (bound : Nat) (read : List Item) : Parse (List Item × Bool) := do
  if (← peek).isNone then return (read, false)
  else
    let i ← item bound
    return (i :: read, true)

/-- Everything up to the last token. -/
def items (bound : Nat) : Parse (List Item) := do
  let read ← iterate (itemStep bound) bound []
  return read.reverse

end Parse

def Program.ofTokens? (tokens : List Lexeme) : Except Error Program := do
  let (items, cursor) ← Parse.items tokens.length |>.run ⟨tokens, 0⟩
  return ⟨items, ⟨0, cursor.reached⟩⟩

/-- The program that a source text spells. -/
def Program.parse (source : String) : Except Error Program :=
  tokenize source >>= Program.ofTokens?

/-! # Building arenas

The grammar once more, for readers that add a node to an arena for each thing they read and give its
number. Parts that nothing is made of are read by the rules of `Parse`, and the bounds are the same.
What a node is that was read before is asked of the arena.
-/

/-- A computation that reads tokens and adds nodes. -/
abbrev Build := StateT Arena (StateT Cursor (Except Halt))

namespace Build

open Parse

/-- Reads tokens and adds no node. -/
def ofParse {α : Type} (p : Parse α) : Build α := fun arena cursor =>
  match p cursor with
  | .ok (a, cursor) => .ok ((a, arena), cursor)
  | .error e => .error (.failed e)

instance : MonadLift Parse Build := ⟨ofParse⟩

def push (node : Node) (span : Span) : Build NodeId := modifyGet fun arena => arena.push node span

def node (id : NodeId) : Build Node := fun arena cursor =>
  match arena.node id with
  | .ok node => .ok ((node, arena), cursor)
  | .error crash => .error (.crashed crash)

/-- Fails because of the node with a number. -/
def failAt {α : Type} (fault : ParseFault) (id : NodeId) : Build α := do
  throw (.failed (.parse fault ((← get).span id)))

/-! ## Expressions -/

section Expressions

variable (bound : Nat) (sub : Build NodeId)

/-- Expressions separated by commas; a single one stands for itself. -/
def sequence : Build NodeId := do
  let start ← here
  let first ← sub
  if ← check (.punctuation .comma) then
    let parts ← commaRest bound sub first
    push (.sequence parts) (← spanFrom start)
  else return first

/-- An array. Commas without an element in front of them are passed over. -/
def array : Build NodeId := do
  let start ← expect (.punctuation .openBracket)
  let read ← iterate (arrayStep sub) bound []
  let _ ← expect (.punctuation .closeBracket)
  push (.array read.reverse) (← spanFrom start)

def object : Build NodeId := do
  let start ← expect (.punctuation .openBrace)
  let entries ← commaSeparated bound (.punctuation .closeBrace) (entry sub)
  push (.object entries) (← spanFrom start)

/-- An expression in parentheses, for which no node is added. -/
def parenthesized : Build NodeId := do
  let _ ← expect (.punctuation .openParen)
  let e ← sequence bound sub
  let _ ← expect (.punctuation .closeParen)
  return e

/-- The smallest expressions: names, literals, and whatever is in brackets. -/
def primary : Build NodeId := do
  let start ← here
  match ← peek with
  | some (.ident name) =>
    advance
    push (.ident name) start
  | some (.punctuation .openParen) => parenthesized bound sub
  | some (.punctuation .openBracket) => array bound sub
  | some (.punctuation .openBrace) => object bound sub
  | some token =>
    match literal? token with
    | some value =>
      advance
      push (.literal value) start
    | none => unexpected
  | none => unexpected

/-- One link of a chain: a property, an index or a call behind `e`. -/
def link (start : Span) (e : NodeId) : Build (NodeId × Bool) := do
  match ← peek with
  | some (.punctuation .point) =>
    advance
    match (← peek).bind memberName? with
    | some name =>
      advance
      return (← push (.member e (.named name)) (← spanFrom start), true)
    | none => unexpected
  | some (.punctuation .openBracket) =>
    advance
    let key ← sequence bound sub
    let _ ← expect (.punctuation .closeBracket)
    return (← push (.member e (.computed key)) (← spanFrom start), true)
  | some (.punctuation .openParen) =>
    advance
    let arguments ← commaSeparated bound (.punctuation .closeParen) sub
    return (← push (.call e arguments) (← spanFrom start), true)
  | _ => return (e, false)

/-- A smallest expression with the links behind it. -/
def chain : Build NodeId := do
  let start ← here
  let e ← primary bound sub
  iterate (link bound sub start) bound e

/-- A chain with an optional `++` or `--` behind it. -/
def postfixed : Build NodeId := do
  let start ← here
  let e ← chain bound sub
  match ← peek with
  | some (.sign (.update op)) =>
    if (← node e).isAssignable then
      advance
      push (.update op false e) (← spanFrom start)
    else failAt .updateTarget e
  | _ => return e

/-- Puts a sign in front of an expression. A `++` or `--` needs something that can be stepped. -/
def applySign (e : NodeId) (sign : PrefixSign × Span) : Build NodeId := do
  let span ← spanFrom sign.2
  match sign.1 with
  | .unary op => push (.unary op e) span
  | .update op =>
    if (← node e).isSteppable then push (.update op true e) span else failAt .updateTarget e

/-- A sign with the operand behind it, or just a chain. -/
def signRule (inside : Build NodeId) : Build NodeId := do
  match (← peek).bind PrefixSign.ofToken? with
  | some sign =>
    let start ← here
    advance
    let e ← inside
    applySign e (sign, start)
  | none => postfixed bound sub

/-- An operand of infix operators, with fewer than `signs` signs in front of it. -/
def signed (level : Nat) : Nat → Build NodeId
  | 0 => unexpected
  | signs + 1 =>
    signRule bound sub fun arena cursor => deepen level fun _ => signed (level + 1) signs arena cursor

/-- An operand of infix operators. -/
def unary : Build NodeId := signed bound sub 0 (bound + 1)

def joined (op : InfixOp) (left right : NodeId) : Node :=
  match op with
  | .binary op => .binary op left right
  | .logical op => .logical op left right

/-- An infix operator behind `left`, unless it binds looser than `least`, with its right operand. -/
def infixStep (right : Nat → Build NodeId) (start : Span) (least : Nat) (left : NodeId) :
    Build (NodeId × Bool) := do
  match (← peek).bind InfixOp.ofToken? with
  | some op =>
    if op.precedence < least then return (left, false)
    else
      advance
      let right ← right op.rightPrecedence
      return (← push (joined op left right) (← spanFrom start), true)
  | none => return (left, false)

/-- Operands joined by infix operators that bind at least as tight as `least`. -/
def climbRule (right : Nat → Build NodeId) (least : Nat) : Build NodeId := do
  let start ← here
  let left ← unary bound sub
  iterate (infixStep right start least) bound left

/-- Operands joined by infix operators, fewer than `depth` of which stand inside of each other. -/
def climb (level : Nat) : Nat → Nat → Build NodeId
  | 0, _ => unexpected
  | depth + 1, least =>
    climbRule bound sub
      (fun least arena cursor => deepen level fun _ => climb (level + 1) depth least arena cursor) least

/-- Operands joined by infix operators. -/
def infixed : Build NodeId := climb bound sub 0 (bound + 1) 1

/-- A choice between two expressions, or just the expression that would decide it. -/
def conditional : Build NodeId := do
  let start ← here
  let test ← infixed bound sub
  if ← eat (.sign .question) then
    let consequent ← sub
    let _ ← expect (.punctuation .colon)
    let alternate ← sub
    push (.conditional test consequent alternate) (← spanFrom start)
  else return test

/-- An assignment, or just the expression that would be its target. -/
def assignmentRule : Build NodeId := do
  let start ← here
  let e ← conditional bound sub
  match (← peek).bind assignOp? with
  | some op =>
    if (← node e).isAssignable then
      advance
      let value ← sub
      push (.assign op e value) (← spanFrom start)
    else failAt .assignmentTarget e
  | none => return e

end Expressions

/-- An expression without commas outside of brackets. -/
def assignment (level : Nat) : Nat → Build NodeId
  | 0 => unexpected
  | bound + 1 => fun arena cursor =>
    deepen level fun _ => assignmentRule (bound + 1) (assignment (level + 1) bound) arena cursor

def expression (bound : Nat) : Build NodeId := sequence bound (assignment 0 bound)

/-! ## Statements -/

/-- A declaration without the semicolon behind it. -/
def declaration (bound : Nat) : Build NodeId := do
  let start ← here
  advance
  let first ← declaratorOf (assignment 0 bound)
  let declarators ← commaRest bound (declaratorOf (assignment 0 bound)) first
  push (.declare declarators) (← spanFrom start)

/-- What a `for` loop does first, up to and without the semicolon. -/
def forInit (bound : Nat) : Build (Option NodeId) := do
  match ← peek with
  | some (.punctuation .semicolon) => return none
  | token =>
    if (token.map isDeclarationWord).getD false then return some (← declaration bound)
    else return some (← expression bound)

section Statements

variable (bound : Nat) (sub : Build NodeId)

/-- Statements in braces. -/
def block : Build NodeId := do
  let start ← expect (.punctuation .openBrace)
  let read ← iterate (blockStep sub) bound []
  if (← peek).isNone then throw (.failed (.parse .unterminatedBlock start))
  else
    let _ ← expect (.punctuation .closeBrace)
    push (.block read.reverse) (← spanFrom start)

def ifStatement : Build NodeId := do
  let start ← expect (.keyword .ifWord)
  let _ ← expect (.punctuation .openParen)
  let test ← expression bound
  let _ ← expect (.punctuation .closeParen)
  let consequent ← sub
  if ← eat (.keyword .elseWord) then
    let alternate ← sub
    push (.branch test consequent (some alternate)) (← spanFrom start)
  else push (.branch test consequent none) (← spanFrom start)

def forStatement : Build NodeId := do
  let start ← expect (.keyword .forWord)
  let _ ← expect (.punctuation .openParen)
  let init ← forInit bound
  let _ ← expect (.punctuation .semicolon)
  let test ← unlessAt (.punctuation .semicolon) (expression bound)
  let _ ← expect (.punctuation .semicolon)
  let update ← unlessAt (.punctuation .closeParen) (expression bound)
  let _ ← expect (.punctuation .closeParen)
  let body ← sub
  push (.forLoop init test update body) (← spanFrom start)

def whileStatement : Build NodeId := do
  let start ← expect (.keyword .whileWord)
  let _ ← expect (.punctuation .openParen)
  let test ← expression bound
  let _ ← expect (.punctuation .closeParen)
  let body ← sub
  push (.whileLoop test body) (← spanFrom start)

/-- A `return` with its optional value. -/
def returnStatement : Build NodeId := do
  let start ← expect (.keyword .returnWord)
  let argument ← returnedOf (expression bound)
  semicolon
  push (.returnValue argument) (← spanFrom start)

def expressionStatement : Build NodeId := do
  let start ← here
  let e ← expression bound
  semicolon
  push (.expression e) (← spanFrom start)

/-- A declaration as a statement; its range is without the semicolon. -/
def declarationStatement : Build NodeId := do
  let declaration ← declaration bound
  semicolon
  return declaration

def wordStatement (node : Node) : Build NodeId := do
  let start ← here
  advance
  semicolon
  push node start

def statementRule : Build NodeId := do
  match ← peek with
  | some (.keyword word) =>
    match word with
    | .functionWord => throw (.failed (.parse .nestedFunction (← here)))
    | .varWord | .letWord | .constWord => declarationStatement bound
    | .ifWord => ifStatement bound sub
    | .forWord => forStatement bound sub
    | .whileWord => whileStatement bound sub
    | .breakWord => wordStatement .breakLoop
    | .continueWord => wordStatement .continueLoop
    | .returnWord => returnStatement bound
    | _ => expressionStatement bound
  | some (.punctuation .openBrace) => block bound sub
  | some (.punctuation .semicolon) =>
    let start ← here
    advance
    push .empty start
  | some _ => expressionStatement bound
  | none => unexpected

end Statements

def statement (level : Nat) : Nat → Build NodeId
  | 0 => unexpected
  | bound + 1 => fun arena cursor =>
    deepen level fun _ => statementRule (bound + 1) (statement (level + 1) bound) arena cursor

/-! ## Programs -/

def function (bound : Nat) : Build NodeId := do
  let start ← expect (.keyword .functionWord)
  let name ← name
  let _ ← expect (.punctuation .openParen)
  let params ← commaSeparated bound (.punctuation .closeParen) (paramOf (assignment 0 bound))
  let body ← block bound (statement 0 bound)
  push (.function ⟨name, params, body⟩) (← spanFrom start)

/-- A function or a statement. -/
def item (bound : Nat) : Build NodeId := do
  if ← check (.keyword .functionWord) then function bound else statement 0 bound

/-- One more function or statement, if there is a token left. -/
def itemStep (bound : Nat) (read : List NodeId) : Build (List NodeId × Bool) := do
  if (← peek).isNone then return (read, false)
  else
    let i ← item bound
    return (i :: read, true)

/-- Everything up to the last token. -/
def items (bound : Nat) : Build (List NodeId) := do
  let read ← iterate (itemStep bound) bound []
  return read.reverse

end Build

/-- The arena of the program that a token list spells. The program itself is finished last, when its
body is known. -/
def Arena.ofTokens? (tokens : List Lexeme) : Except Halt Arena := do
  let ((body, arena), cursor) ← (Build.items tokens.length).run .start |>.run ⟨tokens, 0⟩
  (arena.replace 0 (.program body) ⟨0, cursor.reached⟩).mapError .crashed

/-- The arena of the program that a source text spells. -/
def Arena.parse (source : String) : Except Halt Arena := do
  Arena.ofTokens? (← (tokenize source).mapError .failed)

end MeteredScript
