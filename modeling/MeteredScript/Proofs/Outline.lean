import MeteredScript.Proofs.Spans
import MeteredScript.Tree.Outline

namespace MeteredScript

/-! # Outlines and their parts

The outline of a tree does not depend on the level it is made at, the outlines of lists are those of
their members, and a tree with other source ranges has the same outline with these ranges.
-/

/-! ## Outlines at a level -/

mutual

/-- The number of the level shows in nothing that an outline has. -/
theorem Expr.outline_level (level : Nat) (e : Expr) : e.outline level = e.outline 0 := by
  unfold Expr.outline
  -- the level is there to be counted down only: both sides are one rule, a level further
  rw [deepen_eq, deepen_eq]
  cases e with
  | literal value span => rfl
  | place p => exact (p.outline_level (level + 1)).trans (p.outline_level (0 + 1)).symm
  | array elements span | sequence elements span =>
    dsimp only
    rw [outlineAll_level (level + 1), outlineAll_level (0 + 1)]
  | object entries span =>
    dsimp only
    rw [outlineEntries_level (level + 1), outlineEntries_level (0 + 1)]
  | unary op operand span =>
    dsimp only
    rw [operand.outline_level (level + 1), operand.outline_level (0 + 1)]
  | updateBefore op span inner target =>
    dsimp only
    rw [target.outline_level (level + 1), target.outline_level (0 + 1)]
  | updateAfter op target span =>
    dsimp only
    rw [target.outline_level (level + 1), target.outline_level (0 + 1)]
  | binary op left right span | logical op left right span =>
    dsimp only
    rw [left.outline_level (level + 1), left.outline_level (0 + 1),
      right.outline_level (level + 1), right.outline_level (0 + 1)]
  | assign op target value span =>
    dsimp only
    rw [target.outline_level (level + 1), target.outline_level (0 + 1),
      value.outline_level (level + 1), value.outline_level (0 + 1)]
  | conditional test consequent alternate span =>
    dsimp only
    rw [test.outline_level (level + 1), test.outline_level (0 + 1),
      consequent.outline_level (level + 1), consequent.outline_level (0 + 1),
      alternate.outline_level (level + 1), alternate.outline_level (0 + 1)]
  | call callee arguments span =>
    dsimp only
    rw [callee.outline_level (level + 1), callee.outline_level (0 + 1),
      outlineAll_level (level + 1), outlineAll_level (0 + 1)]

/-- So does that of a place not depend on the level. -/
theorem Place.outline_level (level : Nat) (p : Place) : p.outline level = p.outline 0 := by
  unfold Place.outline
  cases p with
  | ident name span => rfl
  | member object name span =>
    dsimp only
    rw [object.outline_level level]
  | index object key span =>
    dsimp only
    rw [object.outline_level level, key.outline_level level]

/-- Nor do those of a list of expressions. -/
theorem outlineAll_level (level : Nat) (es : List Expr) : outlineAll level es = outlineAll 0 es := by
  cases es with
  | nil => rfl
  | cons e es => rw [outlineAll, outlineAll, e.outline_level level, outlineAll_level level es]

/-- Nor do those of the entries of an object. -/
theorem outlineEntries_level (level : Nat) (entries : List (String × Expr)) :
    outlineEntries level entries = outlineEntries 0 entries := by
  cases entries with
  | nil => rfl
  | cons entry entries =>
    rw [outlineEntries, outlineEntries, entry.2.outline_level level,
      outlineEntries_level level entries]

end

/-- A place is its own node, not one below an expression. -/
theorem Expr.outline_place (p : Place) : (Expr.place p).outline 0 = p.outline 0 := by
  unfold Expr.outline
  rw [deepen_eq]
  exact p.outline_level (0 + 1)

/-- The outlines of a list, member by member. -/
theorem outlineAll_eq_map (es : List Expr) : outlineAll 0 es = es.map (Expr.outline 0) := by
  induction es with
  | nil => rfl
  | cons e es ih => rw [outlineAll, ih, List.map_cons]

/-- The outlines of entries are those of their values; the names are in the label above them. -/
theorem outlineEntries_eq_map (entries : List (String × Expr)) :
    outlineEntries 0 entries = entries.map fun entry => entry.2.outline 0 := by
  induction entries with
  | nil => rfl
  | cons entry entries ih => rw [outlineEntries, ih, List.map_cons]

namespace Expr

theorem outline_literal (value : Literal) (span : Span) :
    (literal value span).outline 0 = .node (.literal value) span [] :=
  rfl

theorem outline_array (elements : List Expr) (span : Span) :
    (array elements span).outline 0 = .node .array span (elements.map (Expr.outline 0)) := by
  change Outline.node .array span (outlineAll 1 elements) = _
  rw [outlineAll_level 1, outlineAll_eq_map]

theorem outline_object (entries : List (String × Expr)) (span : Span) :
    (object entries span).outline 0 =
      .node (.object (entries.map Prod.fst)) span (entries.map fun entry => entry.2.outline 0) := by
  change Outline.node (.object (entries.map Prod.fst)) span (outlineEntries 1 entries) = _
  rw [outlineEntries_level 1, outlineEntries_eq_map]

theorem outline_unary (op : UnaryOp) (operand : Expr) (span : Span) :
    (unary op operand span).outline 0 = .node (.unary op) span [operand.outline 0] := by
  change Outline.node (.unary op) span [operand.outline 1] = _
  rw [operand.outline_level 1]

/-- Each step in front of a place is a node of its own, the last one directly above the place. -/
theorem outline_updateBefore (op : UpdateOp) (span : Span) (inner : List (UpdateOp × Span))
    (target : Place) :
    (updateBefore op span inner target).outline 0 =
      updateOutline op span (target.outline 0) inner := by
  change updateOutline op span (target.outline 1) inner = _
  rw [target.outline_level 1]

theorem outline_updateAfter (op : UpdateOp) (target : Place) (span : Span) :
    (updateAfter op target span).outline 0 = .node (.update op false) span [target.outline 0] := by
  change Outline.node (.update op false) span [target.outline 1] = _
  rw [target.outline_level 1]

theorem outline_binary (op : BinaryOp) (left right : Expr) (span : Span) :
    (binary op left right span).outline 0 =
      .node (.binary op) span [left.outline 0, right.outline 0] := by
  change Outline.node (.binary op) span [left.outline 1, right.outline 1] = _
  rw [left.outline_level 1, right.outline_level 1]

theorem outline_logical (op : LogicalOp) (left right : Expr) (span : Span) :
    (logical op left right span).outline 0 =
      .node (.logical op) span [left.outline 0, right.outline 0] := by
  change Outline.node (.logical op) span [left.outline 1, right.outline 1] = _
  rw [left.outline_level 1, right.outline_level 1]

theorem outline_assign (op : AssignOp) (target : Place) (value : Expr) (span : Span) :
    (assign op target value span).outline 0 =
      .node (.assign op) span [target.outline 0, value.outline 0] := by
  change Outline.node (.assign op) span [target.outline 1, value.outline 1] = _
  rw [target.outline_level 1, value.outline_level 1]

theorem outline_conditional (test consequent alternate : Expr) (span : Span) :
    (conditional test consequent alternate span).outline 0 =
      .node .conditional span [test.outline 0, consequent.outline 0, alternate.outline 0] := by
  change Outline.node .conditional span
    [test.outline 1, consequent.outline 1, alternate.outline 1] = _
  rw [test.outline_level 1, consequent.outline_level 1, alternate.outline_level 1]

theorem outline_sequence (parts : List Expr) (span : Span) :
    (sequence parts span).outline 0 = .node .sequence span (parts.map (Expr.outline 0)) := by
  change Outline.node .sequence span (outlineAll 1 parts) = _
  rw [outlineAll_level 1, outlineAll_eq_map]

theorem outline_call (callee : Expr) (arguments : List Expr) (span : Span) :
    (call callee arguments span).outline 0 =
      .node .call span (callee.outline 0 :: arguments.map (Expr.outline 0)) := by
  change Outline.node .call span (callee.outline 1 :: outlineAll 1 arguments) = _
  rw [callee.outline_level 1, outlineAll_level 1, outlineAll_eq_map]

/-- An expression has the range of its node. -/
theorem span_outline (e : Expr) : (e.outline 0).span = e.span := by
  cases e with
  | place p =>
    cases p with
    | _ => rfl
  | updateBefore op span inner target =>
    cases inner with
    | _ => rfl
  | _ => rfl

end Expr

mutual

/-- The outline of a statement does not depend on the level either. -/
theorem Stmt.outline_level (level : Nat) (s : Stmt) : s.outline level = s.outline 0 := by
  unfold Stmt.outline
  rw [deepen_eq, deepen_eq]
  cases s with
  | block body span =>
    dsimp only
    rw [outlineStmts_level (level + 1), outlineStmts_level (0 + 1)]
  | ifThen test consequent span | whileLoop test consequent span =>
    dsimp only
    rw [consequent.outline_level (level + 1), consequent.outline_level (0 + 1)]
  | ifElse test consequent alternate span =>
    dsimp only
    rw [consequent.outline_level (level + 1), consequent.outline_level (0 + 1),
      alternate.outline_level (level + 1), alternate.outline_level (0 + 1)]
  -- Only the body is a statement; what stands at the head is laid out from level zero.
  | forLoop init test update body span =>
    dsimp only
    rw [body.outline_level (level + 1), body.outline_level (0 + 1)]
  | _ => rfl

theorem outlineStmts_level (level : Nat) (body : List Stmt) :
    outlineStmts level body = outlineStmts 0 body := by
  cases body with
  | nil => rfl
  | cons s rest => rw [outlineStmts, outlineStmts, s.outline_level level, outlineStmts_level level rest]

end

/-- The outlines of statements, one by one. -/
theorem outlineStmts_eq_map (body : List Stmt) : outlineStmts 0 body = body.map (Stmt.outline 0) := by
  induction body with
  | nil => rfl
  | cons s rest ih => rw [outlineStmts, ih, List.map_cons]

namespace Stmt

theorem outline_declare (declarators : List Declarator) (span : Span) :
    (declare declarators span).outline 0 = declareOutline declarators span :=
  rfl

theorem outline_block (body : List Stmt) (span : Span) :
    (block body span).outline 0 = .node .block span (body.map (Stmt.outline 0)) := by
  change Outline.node .block span (outlineStmts 1 body) = _
  rw [outlineStmts_level 1, outlineStmts_eq_map]

/-- Branches have one label, with or without an `else`: the number of nodes below tells them apart. -/
theorem outline_ifThen (test : Expr) (consequent : Stmt) (span : Span) :
    (ifThen test consequent span).outline 0 =
      .node .branch span [test.outline 0, consequent.outline 0] := by
  change Outline.node .branch span [test.outline 0, consequent.outline 1] = _
  rw [consequent.outline_level 1]

theorem outline_ifElse (test : Expr) (consequent alternate : Stmt) (span : Span) :
    (ifElse test consequent alternate span).outline 0 =
      .node .branch span [test.outline 0, consequent.outline 0, alternate.outline 0] := by
  change Outline.node .branch span [test.outline 0, consequent.outline 1, alternate.outline 1] = _
  rw [consequent.outline_level 1, alternate.outline_level 1]

/-- The parts of a `for` loop may be missing; the label says which of them are there. -/
theorem outline_forLoop (init : Option ForInit) (test update : Option Expr) (body : Stmt)
    (span : Span) :
    (forLoop init test update body span).outline 0 =
      .node (.forLoop init.isSome test.isSome update.isSome) span
        ((init.map ForInit.outline).toList ++ outlineOption test ++ outlineOption update ++
          [body.outline 0]) := by
  rw [← body.outline_level 1]
  rfl

theorem outline_whileLoop (test : Expr) (body : Stmt) (span : Span) :
    (whileLoop test body span).outline 0 = .node .whileLoop span [test.outline 0, body.outline 0] := by
  change Outline.node .whileLoop span [test.outline 0, body.outline 1] = _
  rw [body.outline_level 1]

theorem outline_returnValue (argument : Option Expr) (span : Span) :
    (returnValue argument span).outline 0 = .node .returnValue span (outlineOption argument) :=
  rfl

theorem outline_expression (e : Expr) (span : Span) :
    (expression e span).outline 0 = .node .expression span [e.outline 0] :=
  rfl

theorem outline_breakLoop (span : Span) : (breakLoop span).outline 0 = .node .breakLoop span [] :=
  rfl

theorem outline_continueLoop (span : Span) :
    (continueLoop span).outline 0 = .node .continueLoop span [] :=
  rfl

theorem outline_empty (span : Span) : (empty span).outline 0 = .node .empty span [] :=
  rfl

end Stmt

/-! ## Other source ranges -/

mutual

/-- An outline with other source ranges. -/
def Outline.mapSpans (σ : Span → Span) : Outline → Outline
  | .node label span children => .node label (σ span) (mapSpansOutlines σ children)

/-- Outlines with other source ranges. -/
def mapSpansOutlines (σ : Span → Span) : List Outline → List Outline
  | [] => []
  | outline :: rest => outline.mapSpans σ :: mapSpansOutlines σ rest

end

abbrev Outline.eraseSpans (outline : Outline) : Outline := outline.mapSpans noSpan

variable (σ : Span → Span)

theorem mapSpansOutlines_eq_map (outlines : List Outline) :
    mapSpansOutlines σ outlines = outlines.map (Outline.mapSpans σ) := by
  induction outlines with
  | nil => rfl
  | cons outline rest ih => rw [mapSpansOutlines, ih, List.map_cons]

/-- Other ranges below a node. -/
theorem Outline.mapSpans_node (label : Label) (span : Span) (children : List Outline) :
    (Outline.node label span children).mapSpans σ =
      .node label (σ span) (children.map (Outline.mapSpans σ)) := by
  rw [Outline.mapSpans, mapSpansOutlines_eq_map]

/-- Steps in front of a place with other ranges. -/
theorem updateOutline_mapSpans (op : UpdateOp) (span : Span) (target : Outline)
    (inner : List (UpdateOp × Span)) :
    updateOutline op (σ span) (target.mapSpans σ) (inner.map (Prod.map id σ)) =
      (updateOutline op span target inner).mapSpans σ := by
  induction inner generalizing op span with
  | nil => rfl
  | cons step inner ih =>
    obtain ⟨op', span'⟩ := step
    rw [List.map_cons, Prod.map_apply, id, updateOutline, updateOutline, ih]
    rfl

mutual

/-- The outline of an expression with other ranges is its outline with these ranges. -/
theorem Expr.outline_mapSpans (level : Nat) (e : Expr) :
    (e.mapSpans σ).outline level = (e.outline level).mapSpans σ := by
  unfold Expr.outline
  rw [deepen_eq, deepen_eq]
  cases e with
  | literal value span => rfl
  | place p => exact p.outline_mapSpans (level + 1)
  | array elements span | sequence elements span =>
    dsimp only [Expr.mapSpans]
    rw [outlineAll_mapSpans, Outline.mapSpans_node]
  | object entries span =>
    dsimp only [Expr.mapSpans]
    rw [outlineEntries_mapSpans, Outline.mapSpans_node, mapSpansEntries_eq_map, List.map_map]
    rfl
  | unary op operand span =>
    dsimp only [Expr.mapSpans]
    rw [operand.outline_mapSpans]
    rfl
  | updateBefore op span inner target =>
    dsimp only [Expr.mapSpans]
    rw [target.outline_mapSpans, updateOutline_mapSpans]
  | updateAfter op target span =>
    dsimp only [Expr.mapSpans]
    rw [target.outline_mapSpans]
    rfl
  | binary op left right span | logical op left right span =>
    dsimp only [Expr.mapSpans]
    rw [left.outline_mapSpans, right.outline_mapSpans]
    rfl
  | assign op target value span =>
    dsimp only [Expr.mapSpans]
    rw [target.outline_mapSpans, value.outline_mapSpans]
    rfl
  | conditional test consequent alternate span =>
    dsimp only [Expr.mapSpans]
    rw [test.outline_mapSpans, consequent.outline_mapSpans, alternate.outline_mapSpans]
    rfl
  | call callee arguments span =>
    dsimp only [Expr.mapSpans]
    rw [callee.outline_mapSpans, outlineAll_mapSpans, Outline.mapSpans_node, List.map_cons]

/-- The same holds of places, -/
theorem Place.outline_mapSpans (level : Nat) (p : Place) :
    (p.mapSpans σ).outline level = (p.outline level).mapSpans σ := by
  unfold Place.outline
  cases p with
  | ident name span => rfl
  | member object name span =>
    dsimp only [Place.mapSpans]
    rw [object.outline_mapSpans]
    rfl
  | index object key span =>
    dsimp only [Place.mapSpans]
    rw [object.outline_mapSpans, key.outline_mapSpans]
    rfl

/-- of lists of expressions -/
theorem outlineAll_mapSpans (level : Nat) (es : List Expr) :
    outlineAll level (mapSpansAll σ es) = (outlineAll level es).map (Outline.mapSpans σ) := by
  cases es with
  | nil => rfl
  | cons e es =>
    rw [mapSpansAll, outlineAll, outlineAll, e.outline_mapSpans, outlineAll_mapSpans level es,
      List.map_cons]

theorem outlineEntries_mapSpans (level : Nat) (entries : List (String × Expr)) :
    outlineEntries level (mapSpansEntries σ entries) =
      (outlineEntries level entries).map (Outline.mapSpans σ) := by
  cases entries with
  | nil => rfl
  | cons entry entries =>
    rw [mapSpansEntries, outlineEntries, outlineEntries, entry.2.outline_mapSpans,
      outlineEntries_mapSpans level entries, List.map_cons]

end

/-- Expressions that may be missing. -/
theorem outlineOption_mapSpans (e : Option Expr) :
    outlineOption (e.map (Expr.mapSpans σ)) = (outlineOption e).map (Outline.mapSpans σ) := by
  cases e with
  | none => rfl
  | some e => exact congrArg (fun outline => [outline]) (e.outline_mapSpans σ 0)

/-- The optional expressions of a list. -/
theorem flatMap_outlineOption_mapSpans {α : Type} (value : α → Option Expr) {change : α → α}
    (hchange : ∀ a, value (change a) = (value a).map (Expr.mapSpans σ)) (l : List α) :
    ((l.map change).flatMap fun a => outlineOption (value a)) =
      (l.flatMap fun a => outlineOption (value a)).map (Outline.mapSpans σ) := by
  rw [List.flatMap_map, List.map_flatMap]
  simp only [hchange, outlineOption_mapSpans]

/-- A declaration has its initial values below it, and nothing for a name without one. -/
theorem declareOutline_mapSpans (declarators : List Declarator) (span : Span) :
    declareOutline (declarators.map (Declarator.mapSpans σ)) (σ span) =
      (declareOutline declarators span).mapSpans σ := by
  have hnames : ((declarators.map (Declarator.mapSpans σ)).map fun d => (d.name, d.init.isSome)) =
      declarators.map fun d => (d.name, d.init.isSome) := by
    rw [List.map_map]
    refine List.map_congr_left fun d _ => ?_
    simp [Declarator.mapSpans]
  have hvalues := flatMap_outlineOption_mapSpans σ DeclaratorOf.init
    (fun (d : Declarator) => (rfl : (d.mapSpans σ).init = _)) declarators
  unfold declareOutline
  rw [hnames, hvalues, Outline.mapSpans_node]

/-- What a `for` loop starts with. -/
theorem ForInit.outline_mapSpans (init : ForInit) :
    (init.mapSpans σ).outline = init.outline.mapSpans σ := by
  cases init with
  | declare declarators span => exact declareOutline_mapSpans σ declarators span
  | evaluate e => exact e.outline_mapSpans σ 0

mutual

/-- The outline of a statement with other ranges. -/
theorem Stmt.outline_mapSpans (level : Nat) (s : Stmt) :
    (s.mapSpans σ).outline level = (s.outline level).mapSpans σ := by
  unfold Stmt.outline
  rw [deepen_eq, deepen_eq]
  cases s with
  | declare declarators span => exact declareOutline_mapSpans σ declarators span
  | block body span =>
    dsimp only [Stmt.mapSpans]
    rw [outlineStmts_mapSpans, Outline.mapSpans_node]
  | ifThen test consequent span | whileLoop test consequent span =>
    dsimp only [Stmt.mapSpans]
    rw [test.outline_mapSpans, consequent.outline_mapSpans]
    rfl
  | ifElse test consequent alternate span =>
    dsimp only [Stmt.mapSpans]
    rw [test.outline_mapSpans, consequent.outline_mapSpans, alternate.outline_mapSpans]
    rfl
  | forLoop init test update body span =>
    dsimp only [Stmt.mapSpans]
    -- the start may be missing, and is mapped as an option before it is put into a list
    have hinit : ((init.map (ForInit.mapSpans σ)).map ForInit.outline).toList =
        (init.map ForInit.outline).toList.map (Outline.mapSpans σ) := by
      cases init with
      | none => rfl
      | some init => exact congrArg (fun outline => [outline]) (init.outline_mapSpans σ)
    rw [hinit, outlineOption_mapSpans, outlineOption_mapSpans, body.outline_mapSpans,
      Outline.mapSpans_node]
    simp
  | returnValue argument span =>
    dsimp only [Stmt.mapSpans]
    rw [outlineOption_mapSpans, Outline.mapSpans_node]
  | expression e span =>
    dsimp only [Stmt.mapSpans]
    rw [e.outline_mapSpans]
    rfl
  | breakLoop span | continueLoop span | empty span => rfl

/-- The outlines of statements with other ranges. -/
theorem outlineStmts_mapSpans (level : Nat) (body : List Stmt) :
    outlineStmts level (mapSpansStmts σ body) = (outlineStmts level body).map (Outline.mapSpans σ) := by
  cases body with
  | nil => rfl
  | cons s rest =>
    rw [mapSpansStmts, outlineStmts, outlineStmts, s.outline_mapSpans, outlineStmts_mapSpans level rest,
      List.map_cons]

end

/-- The outline of a function has the fallbacks first and the body last. -/
theorem Function.outline_mapSpans (f : Function) : (f.mapSpans σ).outline = f.outline.mapSpans σ := by
  have hparams : ((f.params.map (Param.mapSpans σ)).map fun p => (p.name, p.fallback.isSome)) =
      f.params.map fun p => (p.name, p.fallback.isSome) := by
    rw [List.map_map]
    refine List.map_congr_left fun p _ => ?_
    simp [Param.mapSpans]
  have hfallbacks := flatMap_outlineOption_mapSpans σ ParamOf.fallback
    (fun (p : Param) => (rfl : (p.mapSpans σ).fallback = _)) f.params
  unfold Function.outline Function.mapSpans
  dsimp only
  rw [hparams, hfallbacks, ← mapSpansStmts_eq_map, outlineStmts_mapSpans, Outline.mapSpans_node,
    List.map_append, List.map_cons, List.map_nil, Outline.mapSpans_node]

/-- A program with other source ranges has the same outline with these ranges. -/
theorem Program.outline_mapSpans (program : Program) :
    (program.mapSpans σ).outline = program.outline.mapSpans σ := by
  unfold Program.outline Program.mapSpans
  rw [Outline.mapSpans_node, List.map_map, List.map_map]
  congr 1
  refine List.map_congr_left fun i _ => ?_
  cases i with
  | function f => exact f.outline_mapSpans σ
  | statement s => exact s.outline_mapSpans σ 0

end MeteredScript
