import MeteredScript.Proofs.NodeTable

namespace MeteredScript

/-! # The kinds of nodes

What stands below a node is of a kind that the node's label calls for: an expression, a statement,
something to assign to, and so on. Kinds are defined on labels, so that the discipline can be stated,
and checked, on the flat table of nodes without reference to the trees it came from; the table of
every program keeps it.
-/

/-- What a place below a node can hold. -/
inductive Kind where
  /-- A part of the top level: a function or a statement. -/
  | item
  | statement
  | expression
  /-- Something that can be assigned to. -/
  | place
  /-- A place, or steps in front of a place. -/
  | stepped
  /-- What a `for` loop does first. -/
  | initializer
  /-- The body of a function. -/
  | body
deriving DecidableEq, Repr

namespace Label

def isPlace : Label → Bool
  | ident _ | member _ | index => true
  | _ => false

def isExpression : Label → Bool
  | binary _ | logical _ | unary _ | update _ _ | assign _ | conditional | sequence | call
  | member _ | index | array | object _ | ident _ | literal _ => true
  | _ => false

def isStatement : Label → Bool
  | declare _ | block | branch | forLoop _ _ _ | whileLoop | breakLoop | continueLoop
  | returnValue | empty | expression => true
  | _ => false

def isFunction : Label → Bool
  | function _ _ => true
  | _ => false

/-- Labels of `++` and `--` in front of something. -/
def isStep : Label → Bool
  | update _ before => before
  | _ => false

def isDeclaration : Label → Bool
  | declare _ => true
  | _ => false

end Label

/-- Whether a node with a label is of a kind. -/
def Kind.admits : Kind → Label → Bool
  | item, label => label.isFunction || label.isStatement
  | statement, label => label.isStatement
  | expression, label => label.isExpression
  | place, label => label.isPlace
  | stepped, label => label.isPlace || label.isStep
  | initializer, label => label.isDeclaration || label.isExpression
  | body, label => label = .block

def Kind.expressions (names : List (String × Bool)) : List Kind :=
  (names.filter Prod.snd).map fun _ => .expression

/-- The kinds of the nodes below a node, of which there are `count`. -/
def Label.slots (label : Label) (count : Nat) : List Kind :=
  match label with
  | .program => List.replicate count .item
  | .function _ params => Kind.expressions params ++ [.body]
  | .declare names => Kind.expressions names
  | .block => List.replicate count .statement
  | .branch => .expression :: .statement :: if count = 3 then [.statement] else []
  | .forLoop hasInit hasTest hasUpdate =>
    (if hasInit then [.initializer] else []) ++ (if hasTest then [.expression] else []) ++
      (if hasUpdate then [.expression] else []) ++ [.statement]
  | .whileLoop => [.expression, .statement]
  | .breakLoop | .continueLoop | .empty | .ident _ | .literal _ => []
  | .returnValue => if count = 0 then [] else [.expression]
  | .expression | .unary _ | .member _ => [.expression]
  | .binary _ | .logical _ | .index => [.expression, .expression]
  | .update _ before => if before then [.stepped] else [.place]
  | .assign _ => [.place, .expression]
  | .conditional => [.expression, .expression, .expression]
  | .array | .sequence => List.replicate count .expression
  | .object keys => keys.map fun _ => .expression
  | .call => .expression :: List.replicate (count - 1) .expression

/-- Whether labels are of the given kinds, one by one. -/
def Kind.admitsAll : List Kind → List Label → Bool
  | [], [] => true
  | kind :: kinds, label :: labels => kind.admits label && admitsAll kinds labels
  | _, _ => false

/-- Whether a node with this label may have nodes with the labels `below` below it. -/
def Label.accepts (label : Label) (below : List Label) : Bool :=
  Kind.admitsAll (label.slots below.length) below

/-- Every node has below it, inside the table, nodes of the kinds that its label calls for. -/
def NodeTable.WellKinded (table : NodeTable) : Prop :=
  ∀ (number : Nat) (node : NumberedNode), table[number]? = some node →
    ∃ below : List NumberedNode, node.children.map (table[·]?) = below.map some ∧
      node.label.accepts (below.map NumberedNode.label) = true

/-! ## Outlines -/

/-- An outline all of whose nodes have nodes of the right kinds below them. -/
inductive Outline.WellKinded : Outline → Prop
  | node {label : Label} {span : Span} {children : List Outline}
      (haccepts : label.accepts (children.map Outline.label) = true)
      (hchildren : ∀ child ∈ children, WellKinded child) :
      WellKinded (.node label span children)

/-- What is below a node that keeps the discipline keeps it. -/
theorem Outline.inherited_wellKinded : NodeTable.Inherited Outline.WellKinded := by
  intro outline h
  cases h with
  | node _ hchildren => exact hchildren

/-- An outline of a kind, with nodes of the right kinds below it and further down. -/
structure Outline.HasKind (outline : Outline) (kind : Kind) : Prop where
  wellKinded : outline.WellKinded
  admits : kind.admits outline.label = true

/-- Outlines of the given kinds, one by one. -/
inductive Outline.HaveKinds : List Outline → List Kind → Prop
  | nil : HaveKinds [] []
  | cons {outline : Outline} {outlines : List Outline} {kind : Kind} {kinds : List Kind}
      (hfirst : outline.HasKind kind) (hrest : HaveKinds outlines kinds) :
      HaveKinds (outline :: outlines) (kind :: kinds)

namespace Outline.HaveKinds

variable {outlines outlines' : List Outline} {kinds kinds' : List Kind}

/-- Outlines of the right kinds keep the discipline. -/
theorem wellKinded (h : HaveKinds outlines kinds) : ∀ child ∈ outlines, child.WellKinded := by
  induction h with
  | nil => exact fun _ h => absurd h List.not_mem_nil
  | cons hfirst _ ih =>
    intro child hchild
    rcases List.mem_cons.mp hchild with rfl | hmem
    · exact hfirst.wellKinded
    · exact ih child hmem

theorem admitsAll (h : HaveKinds outlines kinds) :
    Kind.admitsAll kinds (outlines.map Outline.label) = true := by
  induction h with
  | nil => rfl
  | cons hfirst _ ih =>
    rw [List.map_cons, Kind.admitsAll, hfirst.admits, ih]
    rfl

theorem single {outline : Outline} {kind : Kind} (h : outline.HasKind kind) :
    HaveKinds [outline] [kind] :=
  .cons h .nil

theorem append (h : HaveKinds outlines kinds) (h' : HaveKinds outlines' kinds') :
    HaveKinds (outlines ++ outlines') (kinds ++ kinds') := by
  induction h with
  | nil => exact h'
  | cons hfirst _ ih => exact .cons hfirst ih

theorem replicate {kind : Kind} (h : ∀ outline ∈ outlines, outline.HasKind kind) :
    HaveKinds outlines (List.replicate outlines.length kind) := by
  induction outlines with
  | nil => exact .nil
  | cons outline outlines ih =>
    refine .cons (h outline List.mem_cons_self) (ih fun o ho => ?_)
    exact h o (List.mem_cons_of_mem outline ho)

/-- The step of every argument about kinds: a node whose children fill the slots of its label. -/
theorem node {label : Label} {span : Span} {kind : Kind}
    (h : HaveKinds outlines (label.slots outlines.length)) (hlabel : kind.admits label = true) :
    (Outline.node label span outlines).HasKind kind := by
  refine ⟨.node ?_ h.wellKinded, hlabel⟩
  rw [Label.accepts, List.length_map]
  exact h.admitsAll

end Outline.HaveKinds

/-! ## Programs -/

open Outline (HaveKinds HasKind)

theorem Label.isExpression_of_isPlace {label : Label} (h : label.isPlace = true) :
    label.isExpression = true := by
  cases label with
  | ident name | member name | index => rfl
  | _ => cases h

theorem Outline.HasKind.place_expression {outline : Outline} (h : outline.HasKind .place) :
    outline.HasKind .expression :=
  ⟨h.wellKinded, Label.isExpression_of_isPlace h.admits⟩

/-- Steps in front of a place are steps, and an expression. -/
theorem hasKind_updateOutline {target : Outline} (htarget : target.HasKind .place) (op : UpdateOp)
    (span : Span) (inner : List (UpdateOp × Span)) :
    (updateOutline op span target inner).HasKind .stepped ∧
      (updateOutline op span target inner).HasKind .expression := by
  induction inner generalizing op span with
  | nil =>
    have hstepped : target.HasKind .stepped := by
      refine ⟨htarget.wellKinded, ?_⟩
      have hplace : target.label.isPlace = true := htarget.admits
      show (target.label.isPlace || target.label.isStep) = true
      rw [hplace]
      rfl
    exact ⟨(HaveKinds.single hstepped).node rfl, (HaveKinds.single hstepped).node rfl⟩
  | cons step inner ih =>
    have hinner := (ih step.1 step.2).1
    exact ⟨(HaveKinds.single hinner).node rfl, (HaveKinds.single hinner).node rfl⟩

mutual

/-- Expressions are expressions, all the way down. -/
theorem Expr.hasKind_outline (level : Nat) (e : Expr) : (e.outline level).HasKind .expression := by
  unfold Expr.outline
  rw [deepen_eq]
  cases e with
  | literal value span => exact HaveKinds.nil.node rfl
  | place p => exact (p.hasKind_outline (level + 1)).place_expression
  | array elements span =>
    have helements := hasKind_outlineAll (level + 1) elements
    exact (HaveKinds.replicate helements).node rfl
  | object entries span => exact (haveKinds_outlineEntries (level + 1) entries).node rfl
  | unary op operand span =>
    exact (HaveKinds.single (operand.hasKind_outline (level + 1))).node rfl
  -- each step but the last has a step below it, the last one a place
  | updateBefore op span inner target =>
    exact (hasKind_updateOutline (target.hasKind_outline (level + 1)) op span inner).2
  | updateAfter op target span =>
    exact (HaveKinds.single (target.hasKind_outline (level + 1))).node rfl
  | binary op left right span | logical op left right span =>
    have hright := HaveKinds.single (right.hasKind_outline (level + 1))
    exact (HaveKinds.cons (left.hasKind_outline (level + 1)) hright).node rfl
  | assign op target value span =>
    have hvalue := HaveKinds.single (value.hasKind_outline (level + 1))
    exact (HaveKinds.cons (target.hasKind_outline (level + 1)) hvalue).node rfl
  | conditional test consequent alternate span =>
    have halternate := HaveKinds.single (alternate.hasKind_outline (level + 1))
    have hbranches := HaveKinds.cons (consequent.hasKind_outline (level + 1)) halternate
    exact (HaveKinds.cons (test.hasKind_outline (level + 1)) hbranches).node rfl
  | sequence parts span =>
    have hparts := hasKind_outlineAll (level + 1) parts
    exact (HaveKinds.replicate hparts).node rfl
  | call callee arguments span =>
    have harguments := HaveKinds.replicate (hasKind_outlineAll (level + 1) arguments)
    exact (HaveKinds.cons (callee.hasKind_outline (level + 1)) harguments).node rfl

theorem Place.hasKind_outline (level : Nat) (p : Place) : (p.outline level).HasKind .place := by
  unfold Place.outline
  cases p with
  | ident name span => exact HaveKinds.nil.node rfl
  | member object name span => exact (HaveKinds.single (object.hasKind_outline level)).node rfl
  | index object key span =>
    have hkey := HaveKinds.single (key.hasKind_outline level)
    exact (HaveKinds.cons (object.hasKind_outline level) hkey).node rfl

/-- Lists of expressions are such. -/
theorem hasKind_outlineAll (level : Nat) (es : List Expr) :
    ∀ outline ∈ outlineAll level es, outline.HasKind .expression := by
  cases es with
  | nil => exact fun _ h => absurd h List.not_mem_nil
  | cons e es =>
    intro outline hmem
    rw [outlineAll] at hmem
    rcases List.mem_cons.mp hmem with rfl | hmem
    · exact e.hasKind_outline level
    · exact hasKind_outlineAll level es outline hmem

theorem haveKinds_outlineEntries (level : Nat) (entries : List (String × Expr)) :
    HaveKinds (outlineEntries level entries) ((entries.map Prod.fst).map fun _ => .expression) := by
  cases entries with
  | nil => exact .nil
  | cons entry entries =>
    obtain ⟨key, e⟩ := entry
    exact .cons (e.hasKind_outline level) (haveKinds_outlineEntries level entries)

end

/-- Optional expressions of names fill one slot for each name that has one. -/
theorem haveKinds_optional {α : Type} (name : α → String) (value : α → Option Expr) (l : List α) :
    HaveKinds (l.flatMap fun a => outlineOption (value a))
      (Kind.expressions (l.map fun a => (name a, (value a).isSome))) := by
  induction l with
  | nil => exact .nil
  | cons a l ih =>
    rw [List.flatMap_cons, List.map_cons, outlineOption]
    cases hvalue : value a with
    | none => exact ih
    | some e => exact .cons (e.hasKind_outline 0) ih

/-- There is an expression for each name with an initial value. -/
theorem hasKind_declareOutline {kind : Kind} (declarators : List Declarator) (span : Span)
    (hkind : ∀ names, kind.admits (.declare names) = true) :
    (declareOutline declarators span).HasKind kind :=
  (haveKinds_optional DeclaratorOf.name DeclaratorOf.init declarators).node (hkind _)

/-- A loop starts with a declaration or an expression. -/
theorem ForInit.hasKind_outline (init : ForInit) : init.outline.HasKind .initializer := by
  cases init with
  | declare declarators span => exact hasKind_declareOutline declarators span fun _ => rfl
  | evaluate e =>
    have he := e.hasKind_outline 0
    refine ⟨he.wellKinded, ?_⟩
    have hexpression : (e.outline 0).label.isExpression = true := he.admits
    show ((e.outline 0).label.isDeclaration || (e.outline 0).label.isExpression) = true
    rw [hexpression, Bool.or_true]

/-- What may be absent fills the slot that it has if it is there. -/
theorem haveKinds_toList {α : Type} {kind : Kind} (outline : α → Outline) (o : Option α)
    (h : ∀ a, (outline a).HasKind kind) :
    HaveKinds (o.map outline).toList (if o.isSome then [kind] else []) := by
  cases o with
  | none => exact .nil
  | some a => exact .single (h a)

mutual

/-- Statements are statements, all the way down. -/
theorem Stmt.hasKind_outline (level : Nat) (s : Stmt) : (s.outline level).HasKind .statement := by
  unfold Stmt.outline
  rw [deepen_eq]
  cases s with
  | declare declarators span => exact hasKind_declareOutline declarators span fun _ => rfl
  | block body span =>
    exact (HaveKinds.replicate (hasKind_outlineStmts (level + 1) body)).node rfl
  | ifThen test consequent span | whileLoop test consequent span =>
    have hbody := HaveKinds.single (consequent.hasKind_outline (level + 1))
    exact (HaveKinds.cons (test.hasKind_outline 0) hbody).node rfl
  | ifElse test consequent alternate span =>
    have halternate := HaveKinds.single (alternate.hasKind_outline (level + 1))
    have hbranches := HaveKinds.cons (consequent.hasKind_outline (level + 1)) halternate
    exact (HaveKinds.cons (test.hasKind_outline 0) hbranches).node rfl
  -- Each part that is there brings one child of its kind, in the order of the source.
  | forLoop init test update body span =>
    have hinit := haveKinds_toList ForInit.outline init ForInit.hasKind_outline
    have htest := haveKinds_toList (Expr.outline 0) test (Expr.hasKind_outline 0)
    have hupdate := haveKinds_toList (Expr.outline 0) update (Expr.hasKind_outline 0)
    have hbody := HaveKinds.single (body.hasKind_outline (level + 1))
    exact (((hinit.append htest).append hupdate).append hbody).node rfl
  | breakLoop span | continueLoop span | empty span => exact HaveKinds.nil.node rfl
  | returnValue argument span =>
    cases argument with
    | none => exact HaveKinds.nil.node rfl
    | some e => exact (HaveKinds.single (e.hasKind_outline 0)).node rfl
  | expression e span => exact (HaveKinds.single (e.hasKind_outline 0)).node rfl

theorem hasKind_outlineStmts (level : Nat) (body : List Stmt) :
    ∀ outline ∈ outlineStmts level body, outline.HasKind .statement := by
  cases body with
  | nil => exact fun _ h => absurd h List.not_mem_nil
  | cons s rest =>
    intro outline hmem
    rw [outlineStmts] at hmem
    rcases List.mem_cons.mp hmem with rfl | hmem
    · exact s.hasKind_outline level
    · exact hasKind_outlineStmts level rest outline hmem

end

/-- Items are functions or statements. -/
theorem Item.hasKind_outline (i : Item) : i.outline.HasKind .item := by
  cases i with
  | function f =>
    have hparams := haveKinds_optional ParamOf.name ParamOf.fallback f.params
    have hbody : (Outline.node .block f.bodySpan (outlineStmts 0 f.body)).HasKind .body :=
      (HaveKinds.replicate (hasKind_outlineStmts 0 f.body)).node rfl
    exact (hparams.append (.single hbody)).node rfl
  | statement s =>
    have hs := s.hasKind_outline 0
    refine ⟨hs.wellKinded, ?_⟩
    have hstatement : (s.outline 0).label.isStatement = true := hs.admits
    show ((s.outline 0).label.isFunction || (s.outline 0).label.isStatement) = true
    rw [hstatement, Bool.or_true]

/-- A program keeps the discipline. -/
theorem Program.wellKinded_outline (program : Program) : program.outline.WellKinded := by
  have hitems : ∀ outline ∈ program.items.map Item.outline, outline.HasKind .item := by
    intro outline hmem
    obtain ⟨i, _, rfl⟩ := List.mem_map.mp hmem
    exact i.hasKind_outline
  refine .node ?_ (HaveKinds.replicate hitems).wellKinded
  rw [Label.accepts, List.length_map]
  exact (HaveKinds.replicate hitems).admitsAll

/-! ## Tables -/

theorem NodeTable.UnfoldsAll.labels {table : NodeTable} {numbers : List Nat} {outlines : List Outline}
    (h : table.UnfoldsAll numbers outlines) :
    ∃ below : List NumberedNode, numbers.map (table[·]?) = below.map some ∧
      below.map NumberedNode.label = outlines.map Outline.label := by
  induction outlines generalizing numbers with
  | nil =>
    cases h
    exact ⟨[], rfl, rfl⟩
  | cons outline outlines ih =>
    cases h with
    | cons hfirst hrest =>
      obtain ⟨below, hbelow, hlabels⟩ := ih hrest
      cases hfirst with
      | @node _ label span own _ hnode _ =>
        refine ⟨⟨label, span, own⟩ :: below, ?_, ?_⟩
        · rw [List.map_cons, List.map_cons, hnode, hbelow]
        · rw [List.map_cons, List.map_cons, hlabels]
          rfl

theorem Program.wellKinded_nodeTable (program : Program) : program.nodeTable.WellKinded := by
  intro number node hnode
  have hcovered := (NodeTable.ofOutline_spec Outline.inherited_wellKinded program.outline
    program.wellKinded_outline).2
  have hlt : number < program.nodeTable.size := (Array.getElem?_eq_some_iff.mp hnode).1
  obtain ⟨outline, hunfolds, hkinds⟩ := hcovered number (Nat.zero_le _) hlt
  cases hunfolds with
  | node hnode' hchildren =>
    cases hnode.symm.trans hnode'
    obtain ⟨below, hbelow, hlabels⟩ := hchildren.labels
    cases hkinds with
    | node haccepts _ => exact ⟨below, hbelow, hlabels ▸ haccepts⟩

end MeteredScript
