import MeteredScript.Error
import MeteredScript.Tree.Infix

namespace MeteredScript

/-! # Trees with other source ranges

`mapSpans σ` puts `σ r` in place of every source range `r` of a tree and leaves everything else as it
is; `eraseSpans` makes all ranges alike, so that two trees with the same erasure spell the same
program.
-/

variable (σ : Span → Span)

/-! ## Expressions -/

mutual

/-- An expression with other source ranges. -/
def Expr.mapSpans : Expr → Expr
  | .literal value span => .literal value (σ span)
  | .place p => .place p.mapSpans
  | .array elements span => .array (mapSpansAll elements) (σ span)
  | .object entries span => .object (mapSpansEntries entries) (σ span)
  | .unary op operand span => .unary op operand.mapSpans (σ span)
  | .updateBefore op span inner target =>
    .updateBefore op (σ span) (inner.map (Prod.map id σ)) target.mapSpans
  | .updateAfter op target span => .updateAfter op target.mapSpans (σ span)
  | .binary op left right span => .binary op left.mapSpans right.mapSpans (σ span)
  | .logical op left right span => .logical op left.mapSpans right.mapSpans (σ span)
  | .assign op target value span => .assign op target.mapSpans value.mapSpans (σ span)
  | .conditional test consequent alternate span =>
    .conditional test.mapSpans consequent.mapSpans alternate.mapSpans (σ span)
  | .sequence parts span => .sequence (mapSpansAll parts) (σ span)
  | .call callee arguments span => .call callee.mapSpans (mapSpansAll arguments) (σ span)

/-- A place with other source ranges. -/
def Place.mapSpans : Place → Place
  | .ident name span => .ident name (σ span)
  | .member object name span => .member object.mapSpans name (σ span)
  | .index object key span => .index object.mapSpans key.mapSpans (σ span)

/-- Expressions with other source ranges. -/
def mapSpansAll : List Expr → List Expr
  | [] => []
  | e :: es => e.mapSpans :: mapSpansAll es

/-- Entries of an object with other source ranges. -/
def mapSpansEntries : List (String × Expr) → List (String × Expr)
  | [] => []
  | (key, e) :: es => (key, e.mapSpans) :: mapSpansEntries es

end

/-- Other ranges in a list, one expression after the other. -/
@[simp] theorem mapSpansAll_eq_map (es : List Expr) :
    mapSpansAll σ es = es.map (Expr.mapSpans σ) := by
  induction es with
  | nil => rfl
  | cons e es ih => simp [mapSpansAll, ih]

/-- Other ranges in entries; names have none. -/
@[simp] theorem mapSpansEntries_eq_map (entries : List (String × Expr)) :
    mapSpansEntries σ entries = entries.map (Prod.map id (Expr.mapSpans σ)) := by
  induction entries with
  | nil => rfl
  | cons entry entries ih => simp [mapSpansEntries, ih, Prod.map]

@[simp] theorem Place.span_mapSpans (p : Place) : (p.mapSpans σ).span = σ p.span := by
  cases p <;> rfl

/-! ## Statements and programs -/

def Declarator.mapSpans (d : Declarator) : Declarator :=
  ⟨d.name, d.init.map (Expr.mapSpans σ)⟩

def ForInit.mapSpans : ForInit → ForInit
  | .declare declarators span => .declare (declarators.map (Declarator.mapSpans σ)) (σ span)
  | .evaluate e => .evaluate (e.mapSpans σ)

mutual

/-- A statement with other source ranges. -/
def Stmt.mapSpans : Stmt → Stmt
  | .declare declarators span => .declare (declarators.map (Declarator.mapSpans σ)) (σ span)
  | .block body span => .block (mapSpansStmts body) (σ span)
  | .ifThen test consequent span => .ifThen (test.mapSpans σ) consequent.mapSpans (σ span)
  | .ifElse test consequent alternate span =>
    .ifElse (test.mapSpans σ) consequent.mapSpans alternate.mapSpans (σ span)
  | .forLoop init test update body span =>
    .forLoop (init.map (ForInit.mapSpans σ)) (test.map (Expr.mapSpans σ))
      (update.map (Expr.mapSpans σ)) body.mapSpans (σ span)
  | .whileLoop test body span => .whileLoop (test.mapSpans σ) body.mapSpans (σ span)
  | .breakLoop span => .breakLoop (σ span)
  | .continueLoop span => .continueLoop (σ span)
  | .returnValue argument span => .returnValue (argument.map (Expr.mapSpans σ)) (σ span)
  | .empty span => .empty (σ span)
  | .expression e span => .expression (e.mapSpans σ) (σ span)

/-- Statements with other source ranges. -/
def mapSpansStmts : List Stmt → List Stmt
  | [] => []
  | s :: rest => s.mapSpans :: mapSpansStmts rest

end

@[simp] theorem mapSpansStmts_eq_map (body : List Stmt) :
    mapSpansStmts σ body = body.map (Stmt.mapSpans σ) := by
  induction body with
  | nil => rfl
  | cons s rest ih => simp [mapSpansStmts, ih]

def Param.mapSpans (p : Param) : Param := ⟨p.name, p.fallback.map (Expr.mapSpans σ)⟩

def Function.mapSpans (f : Function) : Function :=
  ⟨f.name, f.params.map (Param.mapSpans σ), f.body.map (Stmt.mapSpans σ), σ f.bodySpan, σ f.span⟩

def Item.mapSpans : Item → Item
  | .function f => .function (f.mapSpans σ)
  | .statement s => .statement (s.mapSpans σ)

def Program.mapSpans (program : Program) : Program :=
  ⟨program.items.map (Item.mapSpans σ), σ program.span⟩

/-- A failure that points at another source range. -/
def Error.mapSpan : Error → Error
  | .lex fault span => .lex fault (σ span)
  | .parse fault span => .parse fault (σ span)
  | .range fault span => .range fault (σ span)
  | .reference fault span => .reference fault (σ span)
  | .exhausted cause => .exhausted cause
  | .collaborator fault => .collaborator fault

/-! ## The same ranges -/

mutual

/-- With the same ranges an expression is the same. -/
theorem Expr.mapSpans_id : ∀ e : Expr, e.mapSpans id = e
  | .literal _ _ => rfl
  | .place p => by rw [Expr.mapSpans, p.mapSpans_id]
  | .array elements _ => by rw [Expr.mapSpans, mapSpansAll_id elements, id]
  | .object entries _ => by rw [Expr.mapSpans, mapSpansEntries_id entries, id]
  | .unary _ operand _ => by rw [Expr.mapSpans, operand.mapSpans_id, id]
  | .updateBefore _ _ inner target => by
    rw [Expr.mapSpans, target.mapSpans_id, Prod.map_id, List.map_id, id]
  | .updateAfter _ target _ => by rw [Expr.mapSpans, target.mapSpans_id, id]
  | .binary _ left right _ => by rw [Expr.mapSpans, left.mapSpans_id, right.mapSpans_id, id]
  | .logical _ left right _ => by rw [Expr.mapSpans, left.mapSpans_id, right.mapSpans_id, id]
  | .assign _ target value _ => by rw [Expr.mapSpans, target.mapSpans_id, value.mapSpans_id, id]
  | .conditional test consequent alternate _ => by
    rw [Expr.mapSpans, test.mapSpans_id, consequent.mapSpans_id, alternate.mapSpans_id, id]
  | .sequence parts _ => by rw [Expr.mapSpans, mapSpansAll_id parts, id]
  | .call callee arguments _ => by
    rw [Expr.mapSpans, callee.mapSpans_id, mapSpansAll_id arguments, id]

theorem Place.mapSpans_id : ∀ p : Place, p.mapSpans id = p
  | .ident _ _ => rfl
  | .member object _ _ => by rw [Place.mapSpans, object.mapSpans_id, id]
  | .index object key _ => by rw [Place.mapSpans, object.mapSpans_id, key.mapSpans_id, id]

theorem mapSpansAll_id : ∀ es : List Expr, mapSpansAll id es = es
  | [] => rfl
  | e :: es => by rw [mapSpansAll, e.mapSpans_id, mapSpansAll_id es]

theorem mapSpansEntries_id : ∀ entries : List (String × Expr), mapSpansEntries id entries = entries
  | [] => rfl
  | (_, e) :: es => by rw [mapSpansEntries, e.mapSpans_id, mapSpansEntries_id es]

end

theorem Expr.mapSpans_id_eq : Expr.mapSpans id = id := funext Expr.mapSpans_id

theorem Declarator.mapSpans_id_eq : Declarator.mapSpans id = id := by
  funext d
  simp [Declarator.mapSpans, Expr.mapSpans_id_eq]

theorem ForInit.mapSpans_id_eq : ForInit.mapSpans id = id := by
  funext init
  cases init with
  | declare declarators span => simp [ForInit.mapSpans, Declarator.mapSpans_id_eq]
  | evaluate e => simp [ForInit.mapSpans, Expr.mapSpans_id]

mutual

/-- With the same ranges a statement is the same. -/
theorem Stmt.mapSpans_id : ∀ s : Stmt, s.mapSpans id = s
  | .declare _ _ => by simp [Stmt.mapSpans, Declarator.mapSpans_id_eq]
  | .block body _ => by rw [Stmt.mapSpans, mapSpansStmts_id body, id]
  | .ifThen _ consequent _ => by
    rw [Stmt.mapSpans, Expr.mapSpans_id, consequent.mapSpans_id, id]
  | .ifElse _ consequent alternate _ => by
    rw [Stmt.mapSpans, Expr.mapSpans_id, consequent.mapSpans_id, alternate.mapSpans_id, id]
  | .forLoop _ _ _ body _ => by
    rw [Stmt.mapSpans, Expr.mapSpans_id_eq, ForInit.mapSpans_id_eq, body.mapSpans_id]
    simp
  | .whileLoop _ body _ => by rw [Stmt.mapSpans, Expr.mapSpans_id, body.mapSpans_id, id]
  | .breakLoop _ => rfl
  | .continueLoop _ => rfl
  | .returnValue _ _ => by simp [Stmt.mapSpans, Expr.mapSpans_id_eq]
  | .empty _ => rfl
  | .expression _ _ => by rw [Stmt.mapSpans, Expr.mapSpans_id, id]

theorem mapSpansStmts_id : ∀ body : List Stmt, mapSpansStmts id body = body
  | [] => rfl
  | s :: rest => by rw [mapSpansStmts, s.mapSpans_id, mapSpansStmts_id rest]

end

/-- So is a function, -/
theorem Function.mapSpans_id (f : Function) : f.mapSpans id = f := by
  have hparam : Param.mapSpans id = id := by
    funext p
    simp [Param.mapSpans, Expr.mapSpans_id_eq]
  have hstmt : Stmt.mapSpans id = id := funext Stmt.mapSpans_id
  simp [Function.mapSpans, hparam, hstmt]

/-- and an error. -/
theorem Error.mapSpan_id (e : Error) : e.mapSpan id = e := by
  cases e <;> rfl

/-! ## No ranges -/

/-- All source ranges made alike. -/
def noSpan : Span → Span := fun _ => {}

abbrev Expr.eraseSpans (e : Expr) : Expr := e.mapSpans noSpan

abbrev Place.eraseSpans (p : Place) : Place := p.mapSpans noSpan

abbrev Declarator.eraseSpans (d : Declarator) : Declarator := d.mapSpans noSpan

abbrev ForInit.eraseSpans (init : ForInit) : ForInit := init.mapSpans noSpan

abbrev Param.eraseSpans (p : Param) : Param := p.mapSpans noSpan

abbrev Stmt.eraseSpans (s : Stmt) : Stmt := s.mapSpans noSpan

abbrev Item.eraseSpans (i : Item) : Item := i.mapSpans noSpan

/-- The program without the places where its parts were written. -/
abbrev Program.eraseSpans (program : Program) : Program := program.mapSpans noSpan

/-- Operands are joined the same way wherever they stand. -/
theorem InfixOp.eraseSpans_join (op : InfixOp) (left right : Expr) (span : Span) :
    (op.join left right span).eraseSpans = op.join left.eraseSpans right.eraseSpans {} := by
  cases op with
  | binary op => rfl
  | logical op => rfl

end MeteredScript
