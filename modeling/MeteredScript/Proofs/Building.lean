import MeteredScript.Proofs.Arenas
import MeteredScript.Proofs.Outline

namespace MeteredScript

/-! # Arenas of program trees

Every rule that builds nodes is alike to the rule that reads trees: the nodes that it adds are those of
the tree. There is one lemma for each rule of the grammar. Main statement: for any tokens, building an
arena fails as reading a program does, or gives an arena whose table is that of the program.
-/

namespace Build

/-! ## Parts -/

section Parts

variable {α β κ : Type} {view : View α β κ} {sub : Parse α} {sub' : Build β}
  (hsub : ∀ arena, Builds arena sub sub' (view.Grown arena)) (arena : Arena)
include hsub

/-- A round of an array: a comma without an element adds no node. -/
theorem builds_arrayStep {start : Arena} {read : List α} {read' : List β} {arena : Arena}
    (h : view.list.Grown start read.reverse read'.reverse arena) :
    Builds arena (Parse.arrayStep sub read) (Parse.arrayStep sub' read')
      fun r r' arena' => r'.2 = r.2 ∧ view.list.Grown start r.1.reverse r'.1.reverse arena' := by
  refine .step fun closed => ?_
  cases closed with
  | true => exact .result ⟨rfl, h⟩
  | false =>
    refine .step fun comma => ?_
    cases comma with
    | true => exact .result ⟨rfl, h⟩
    | false =>
      refine (hsub arena).bind fun a b arena' hgrown => .step fun more => .result ⟨rfl, ?_⟩
      rw [List.reverse_cons, List.reverse_cons]
      exact h.concat hgrown

/-- A round of a block adds the nodes of one statement behind those already there. -/
theorem builds_blockStep {start : Arena} {read : List α} {read' : List β} {arena : Arena}
    (h : view.list.Grown start read.reverse read'.reverse arena) :
    Builds arena (Parse.blockStep sub read) (Parse.blockStep sub' read')
      fun r r' arena' => r'.2 = r.2 ∧ view.list.Grown start r.1.reverse r'.1.reverse arena' := by
  refine .step fun next => ?_
  split
  · exact .result ⟨rfl, h⟩
  · exact .result ⟨rfl, h⟩
  · refine (hsub arena).bind fun a b arena' hgrown => .result ⟨rfl, ?_⟩
    rw [List.reverse_cons, List.reverse_cons]
    exact h.concat hgrown

/-- An initial value, or nothing. -/
theorem builds_initializerOf :
    Builds arena (Parse.initializerOf sub) (Parse.initializerOf sub') (view.option.Grown arena) := by
  refine .step fun equals => ?_
  cases equals with
  | true => exact (hsub arena).bind fun a b arena' hgrown => .result hgrown.some
  | false => exact .result View.grown_none

/-- A part that a token may stand in the place of. -/
theorem builds_unlessAt (closer : Token) :
    Builds arena (Parse.unlessAt closer sub) (Parse.unlessAt closer sub') (view.option.Grown arena) := by
  refine .step fun closed => ?_
  cases closed with
  | true => exact .result View.grown_none
  | false => exact (hsub arena).bind fun a b arena' hgrown => .result hgrown.some

theorem builds_returnedOf :
    Builds arena (Parse.returnedOf sub) (Parse.returnedOf sub') (view.option.Grown arena) := by
  refine .step fun next => ?_
  split
  · exact .result View.grown_none
  · exact .result View.grown_none
  · exact .result View.grown_none
  · exact (hsub arena).bind fun a b arena' hgrown => .result hgrown.some

end Parts

/-! ## Expressions -/

abbrev expr : View Expr NodeId Unit := .single (Expr.outline 0)

/-- An entry of an object. -/
def property : View (String × Expr) (String × NodeId) String where
  outlines entry := [entry.2.outline 0]
  ids entry := [entry.2]
  key := Prod.fst
  builtKey := Prod.fst

variable {α : Type} {arena arena' : Arena} {outline : α → Outline}

theorem grown_labelled {a : α} {node : Node} {label : Label} {span : Span} {outlines : List Outline}
    (hlabel : node.label = label) (h : arena.Grows outlines node.children arena')
    (houtline : outline a = .node label span outlines) :
    (View.single outline).Grown arena a arena'.nodes.size (arena'.push node span).2 := by
  refine ⟨rfl, ?_⟩
  show arena.Grows [outline a] [arena'.nodes.size] _
  rw [houtline, ← hlabel]
  exact .node span h

/-- A node behind the nodes below it: its number is how many nodes there were. -/
theorem grown_node {a : α} {node : Node} {span : Span} {outlines : List Outline}
    (h : arena.Grows outlines node.children arena')
    (houtline : outline a = .node node.label span outlines) :
    (View.single outline).Grown arena a arena'.nodes.size (arena'.push node span).2 :=
  grown_labelled rfl h houtline

theorem isAssignable_eq (node : Node) : node.isAssignable = node.label.isPlace := by
  cases node with
  | member object key => cases key <;> rfl
  | _ => rfl

theorem isSteppable_eq (node : Node) : node.isSteppable = (node.label.isPlace || node.label.isStep) := by
  cases node with
  | member object key => cases key <;> rfl
  | update op before operand => cases before <;> rfl
  | _ => rfl

theorem isPlace_outline (target : Place) : (target.outline 0).label.isPlace = true :=
  (target.hasKind_outline 0).admits

theorem exists_node_of_grown {start : Arena} {e : Expr} {id : NodeId}
    (h : expr.Grown start e id arena) :
    ∃ node, arena.node id = .ok node ∧ node.label = (e.outline 0).label ∧ arena.span id = e.span := by
  obtain ⟨node, hnode, hlabel, hspan⟩ := h.2.exists_node
  exact ⟨node, hnode, hlabel, hspan.trans e.span_outline⟩

/-- A place adds the nodes of the expression that it is. -/
theorem grows_of_place {start : Arena} {target : Place} {id : NodeId}
    (h : expr.Grown start (.place target) id arena) :
    start.Grows [target.outline 0] [id] arena := by
  rw [← Expr.outline_place]
  exact h.2

section Expressions

variable {sub : Parse Expr} {sub' : Build NodeId}
  (hsub : ∀ arena, Builds arena sub sub' (expr.Grown arena)) (bound : Nat) (arena : Arena)
include hsub

/-- A single expression is not made a sequence: no node is added for it. -/
theorem builds_sequence :
    Builds arena (Parse.sequence bound sub) (sequence bound sub') (expr.Grown arena) := by
  refine .step fun start => (hsub arena).bind fun first id arena' hfirst => .step fun comma => ?_
  cases comma with
  | true =>
    refine (Builds.commaRest hsub bound hfirst).bind fun parts ids arena'' hparts => ?_
    exact .step fun span => .push (grown_node hparts.nodes (Expr.outline_sequence parts span))
  | false => exact .result hfirst

theorem builds_array : Builds arena (Parse.array bound sub) (array bound sub') (expr.Grown arena) := by
  refine .step fun start => ?_
  refine (Builds.iterate (fun _ _ _ h => builds_arrayStep hsub h) bound View.grown_nil).bind
    fun read read' arena' hread => .step fun _ => .step fun span => .push ?_
  exact grown_node hread.nodes (Expr.outline_array read.reverse span)

/-- The name of an entry is part of the node above, the value has nodes of its own. -/
theorem builds_entry : Builds arena (Parse.entry sub) (Parse.entry sub') (property.Grown arena) := by
  refine .step fun next => ?_
  cases next.bind Parse.entryKey? with
  | some key =>
    refine .step fun _ => .step fun _ => (hsub arena).bind fun e id arena' he => .result ?_
    exact ⟨rfl, he.2⟩
  | none => exact .unexpected

/-- Objects are added behind the values of their entries. -/
theorem builds_object :
    Builds arena (Parse.object bound sub) (object bound sub') (expr.Grown arena) := by
  refine .step fun start => ?_
  refine (Builds.commaSeparated (builds_entry hsub) arena bound _).bind
    fun entries entries' arena' hentries => .step fun span => .push ?_
  have hlabel : (Node.object entries').label = .object (entries.map Prod.fst) :=
    congrArg Label.object hentries.1.symm
  refine grown_labelled hlabel ?_ (Expr.outline_object entries span)
  simpa only [View.list, property, List.map_eq_flatMap, Node.children] using hentries.2

theorem builds_parenthesized :
    Builds arena (Parse.parenthesized bound sub) (parenthesized bound sub') (expr.Grown arena) := by
  refine .step fun _ => (builds_sequence hsub bound arena).bind fun e id arena' he => ?_
  exact .step fun _ => .result he

/-- What begins an expression, token by token. -/
theorem builds_primary :
    Builds arena (Parse.primary bound sub) (primary bound sub') (expr.Grown arena) := by
  refine .step fun start => .step fun next => ?_
  split
  · exact .step fun _ => .push (grown_node (.nil arena) (Expr.outline_place _))
  · exact builds_parenthesized hsub bound arena
  · exact builds_array hsub bound arena
  · exact builds_object hsub bound arena
  · rename_i token _ _ _ _
    cases Parse.literal? token with
    | some value =>
      exact .step fun _ => .push (grown_node (.nil arena) (Expr.outline_literal value start))
    | none => exact .unexpected
  · exact .unexpected

variable {start : Arena} {id : NodeId}

/-- A link adds its node behind what it is a link of. -/
theorem builds_link {span : Span} {e : Expr} {arena : Arena} (h : expr.Grown start e id arena) :
    Builds arena (Parse.link bound sub span e) (link bound sub' span id)
      fun r r' arena' => r'.2 = r.2 ∧ expr.Grown start r.1 r'.1 arena' := by
  refine .step fun next => ?_
  split
  · refine .step fun _ => .step fun next => ?_
    -- the name behind a dot is part of the node itself, and has none of its own
    cases next.bind Parse.memberName? with
    | some name =>
      refine .step fun _ => .step fun span => .push_bind (.result ⟨rfl, grown_node h.2 ?_⟩)
      rw [Expr.outline_place, Place.outline]
      rfl
    | none => exact .unexpected
  · refine .step fun _ => (builds_sequence hsub bound arena).bind fun key keyId arena' hkey => ?_
    refine .step fun _ => .step fun span => .push_bind (.result ⟨rfl, grown_node (h.2.append hkey.2) ?_⟩)
    rw [Expr.outline_place, Place.outline]
    rfl
  · refine .step fun _ => (Builds.commaSeparated hsub arena bound _).bind
      fun arguments ids arena' harguments => .step fun span => .push_bind (.result ⟨rfl, ?_⟩)
    exact grown_node (h.2.append harguments.nodes) (Expr.outline_call e arguments span)
  · exact .result ⟨rfl, h⟩

theorem builds_chain : Builds arena (Parse.chain bound sub) (chain bound sub') (expr.Grown arena) := by
  refine .step fun start => (builds_primary hsub bound arena).bind fun e id arena' he => ?_
  exact .iterate (fun _ _ _ h => builds_link hsub bound h) bound he

/-- A step behind a chain is refused where reading refuses it. -/
theorem builds_postfixed :
    Builds arena (Parse.postfixed bound sub) (postfixed bound sub') (expr.Grown arena) := by
  refine .step fun start => (builds_chain hsub bound arena).bind fun e id arena' he =>
      .step fun next => ?_
  split
  · rename_i op
    obtain ⟨node, hnode, hlabel, hspan⟩ := exists_node_of_grown he
    refine .node_bind hnode ?_
    -- Whether the operand is a place is seen from the label that was laid down for it.
    rw [isAssignable_eq, hlabel]
    cases e with
    | place target =>
      rw [Expr.outline_place, if_pos (isPlace_outline target)]
      refine .step fun _ => .step fun span => .push ?_
      exact grown_node (grows_of_place he) (Expr.outline_updateAfter op target span)
    | updateBefore op span inner target =>
      cases inner with
      | _ => exact .failAt hspan _
    | _ => exact .failAt hspan _
  · exact .result he

omit hsub in
/-- A sign adds its node, or is refused. Building looks at the node that is there, reading at the
tree. -/
theorem builds_applySign {e : Expr} {arena : Arena} (h : expr.Grown start e id arena)
    (sign : Parse.PrefixSign × Span) :
    Builds arena (Parse.applySign e sign) (applySign id sign) (expr.Grown start) := by
  obtain ⟨sign, before⟩ := sign
  refine .step fun span => ?_
  cases sign with
  | unary op => exact .push (grown_node h.2 (Expr.outline_unary op e span))
  | update op =>
    obtain ⟨node, hnode, hlabel, hspan⟩ := exists_node_of_grown h
    refine .node_bind hnode ?_
    rw [isSteppable_eq, hlabel]
    cases e with
    -- A place is wrapped directly; a step in front of a step is added to the run of steps.
    | place target =>
      rw [Expr.outline_place, isPlace_outline target]
      exact .push (grown_node (grows_of_place h) (Expr.outline_updateBefore op span [] target))
    | updateBefore op' span' inner target =>
      have hstep : ((Expr.updateBefore op' span' inner target).outline 0).label.isStep = true := by
        cases inner with
        | _ => rfl
      rw [hstep, Bool.or_true]
      refine .push (grown_node h.2 ?_)
      show _ = Outline.node (.update op true) span [(Expr.updateBefore op' span' inner target).outline 0]
      rw [Expr.outline_updateBefore, Expr.outline_updateBefore, updateOutline]
    -- Nothing else can be stepped, and both grammars point at the operand.
    | _ => exact .failAt hspan _

theorem builds_signRule {inside : Parse Expr} {inside' : Build NodeId}
    (hinside : ∀ arena, Builds arena inside inside' (expr.Grown arena)) :
    Builds arena (Parse.signRule bound sub inside) (signRule bound sub' inside') (expr.Grown arena) := by
  refine .step fun next => ?_
  cases next.bind Parse.PrefixSign.ofToken? with
  | some sign =>
    refine .step fun start => .step fun _ => (hinside arena).bind fun e id arena' he => ?_
    exact builds_applySign he (sign, start)
  | none => exact builds_postfixed hsub bound arena

/-- Any number of signs, by induction on how many there may be. -/
theorem builds_signed (level signs : Nat) :
    Builds arena (Parse.signed bound sub level signs) (signed bound sub' level signs)
      (expr.Grown arena) := by
  induction signs generalizing level arena with
  | zero => exact .unexpected
  | succ signs ih =>
    refine builds_signRule hsub bound arena fun arena cursor => ?_
    rw [deepen_eq, deepen_eq]
    exact ih arena (level + 1) cursor

theorem builds_unary : Builds arena (Parse.unary bound sub) (unary bound sub') (expr.Grown arena) :=
  builds_signed hsub bound arena 0 (bound + 1)

omit hsub in
/-- The node of an operator is added behind those of both operands. -/
theorem builds_infixStep {right : Nat → Parse Expr} {right' : Nat → Build NodeId}
    (hright : ∀ least arena, Builds arena (right least) (right' least) (expr.Grown arena))
    {span : Span} (least : Nat) {left : Expr} {arena : Arena} (h : expr.Grown start left id arena) :
    Builds arena (Parse.infixStep right span least left) (infixStep right' span least id)
      fun r r' arena' => r'.2 = r.2 ∧ expr.Grown start r.1 r'.1 arena' := by
  refine .step fun next => ?_
  cases next.bind InfixOp.ofToken? with
  | none => exact .result ⟨rfl, h⟩
  | some op =>
    dsimp only
    split
    · exact .result ⟨rfl, h⟩
    · refine .step fun _ => (hright op.rightPrecedence arena).bind fun e id' arena' he => ?_
      refine .step fun span => .push_bind (.result ⟨rfl, ?_⟩)
      cases op with
      | binary op => exact grown_node (h.2.append he.2) (Expr.outline_binary op left e span)
      | logical op => exact grown_node (h.2.append he.2) (Expr.outline_logical op left e span)

/-- Operators that bind tightly enough, one after the other. -/
theorem builds_climbRule {right : Nat → Parse Expr} {right' : Nat → Build NodeId}
    (hright : ∀ least arena, Builds arena (right least) (right' least) (expr.Grown arena))
    (least : Nat) :
    Builds arena (Parse.climbRule bound sub right least) (climbRule bound sub' right' least)
      (expr.Grown arena) := by
  refine .step fun start => (builds_unary hsub bound arena).bind fun left id arena' hleft => ?_
  exact .iterate (fun _ _ _ h => builds_infixStep hright least h) bound hleft

/-- Right operands of right operands, by induction on how deep they may be. -/
theorem builds_climb (level depth least : Nat) :
    Builds arena (Parse.climb bound sub level depth least) (climb bound sub' level depth least)
      (expr.Grown arena) := by
  induction depth generalizing level least arena with
  | zero => exact .unexpected
  | succ depth ih =>
    refine builds_climbRule hsub bound arena (fun least arena cursor => ?_) least
    rw [deepen_eq, deepen_eq]
    exact ih arena (level + 1) least cursor

theorem builds_infixed :
    Builds arena (Parse.infixed bound sub) (infixed bound sub') (expr.Grown arena) :=
  builds_climb hsub bound arena 0 (bound + 1) 1

/-- The test is added first, then both branches. -/
theorem builds_conditional :
    Builds arena (Parse.conditional bound sub) (conditional bound sub') (expr.Grown arena) := by
  refine .step fun start => (builds_infixed hsub bound arena).bind fun test id arena' htest => ?_
  refine .step fun question => ?_
  cases question with
  | false => exact .result htest
  | true =>
    refine (hsub arena').bind fun consequent id' arena'' hconsequent => .step fun _ => ?_
    refine (hsub arena'').bind fun alternate id'' last halternate => .step fun span => .push ?_
    exact grown_node (htest.2.append (hconsequent.2.append halternate.2))
      (Expr.outline_conditional test consequent alternate span)

/-- The target of an assignment is added before its value, and refused before it. -/
theorem builds_assignmentRule :
    Builds arena (Parse.assignmentRule bound sub) (assignmentRule bound sub') (expr.Grown arena) := by
  refine .step fun start => (builds_conditional hsub bound arena).bind fun e id arena' he => ?_
  refine .step fun next => ?_
  cases next.bind Parse.assignOp? with
  | none => exact .result he
  | some op =>
    obtain ⟨node, hnode, hlabel, hspan⟩ := exists_node_of_grown he
    refine .node_bind hnode ?_
    -- Whether the left side is a place is seen from the label that was laid down for it.
    rw [isAssignable_eq, hlabel]
    cases e with
    | place target =>
      rw [Expr.outline_place, if_pos (isPlace_outline target)]
      refine .step fun _ => (hsub arena').bind fun value id' arena'' hvalue => .step fun span => .push ?_
      exact grown_node ((grows_of_place he).append hvalue.2) (Expr.outline_assign op target value span)
    | updateBefore op span inner target =>
      cases inner with
      | _ => exact .failAt hspan _
    | _ => exact .failAt hspan _

end Expressions

/-- Expressions inside expressions, by induction on how deep they may be. -/
theorem builds_assignment (level bound : Nat) (arena : Arena) :
    Builds arena (Parse.assignment level bound) (assignment level bound) (expr.Grown arena) := by
  induction bound generalizing level arena with
  | zero => exact .unexpected
  | succ bound ih =>
    intro cursor
    show Alike _ (deepen level _) (deepen level _)
    rw [deepen_eq, deepen_eq]
    exact builds_assignmentRule (fun arena => ih (level + 1) arena) (bound + 1) arena cursor

theorem builds_expression (bound : Nat) (arena : Arena) :
    Builds arena (Parse.expression bound) (expression bound) (expr.Grown arena) :=
  builds_sequence (builds_assignment 0 bound) bound arena

/-! ## Statements -/

/-- A declared name, whose initial value may have a node. -/
def declared : View Declarator (DeclaratorOf NodeId) (String × Bool) where
  outlines d := outlineOption d.init
  ids d := d.init.toList
  key d := (d.name, d.init.isSome)
  builtKey d := (d.name, d.init.isSome)

def parameter : View Param (ParamOf NodeId) (String × Bool) where
  outlines p := outlineOption p.fallback
  ids p := p.fallback.toList
  key p := (p.name, p.fallback.isSome)
  builtKey p := (p.name, p.fallback.isSome)

abbrev declaring : View (List Declarator × Span) NodeId Unit :=
  .single fun declaration => declareOutline declaration.1 declaration.2

abbrev initializing : View ForInit NodeId Unit := .single ForInit.outline

abbrev braced : View (List Stmt × Span) NodeId Unit :=
  .single fun block => .node .block block.2 (block.1.map (Stmt.outline 0))

abbrev stmt : View Stmt NodeId Unit := .single (Stmt.outline 0)

theorem isSome_of_grown {a : Option α} {id : Option NodeId}
    (h : (View.single outline).option.Grown arena a id arena') : a.isSome = id.isSome := by
  have hkey := congrArg Option.isSome h.1
  simpa only [View.option, Option.isSome_map] using hkey

/-- A part that may be missing adds at most one tree. -/
theorem grows_of_option {a : Option α} {id : Option NodeId}
    (h : (View.single outline).option.Grown arena a id arena') :
    arena.Grows (a.map outline).toList id.toList arena' := by
  have hgrows := h.2
  simp only [View.option, View.single] at hgrows
  rwa [List.flatMap_singleton', ← List.map_eq_flatMap, ← Option.toList_map] at hgrows

theorem builds_declaratorOf (bound : Nat) (arena : Arena) :
    Builds arena (Parse.declarator bound) (Parse.declaratorOf (assignment 0 bound))
      (declared.Grown arena) := by
  refine .step fun name => ?_
  refine (builds_initializerOf (builds_assignment 0 bound) arena).bind fun init id arena' hinit => ?_
  refine .result ⟨?_, grows_of_option hinit⟩
  exact congrArg (Prod.mk name) (isSome_of_grown hinit)

theorem builds_paramOf (bound : Nat) (arena : Arena) :
    Builds arena (Parse.param bound) (Parse.paramOf (assignment 0 bound)) (parameter.Grown arena) := by
  refine .step fun name => ?_
  refine (builds_initializerOf (builds_assignment 0 bound) arena).bind fun init id arena' hinit => ?_
  refine .result ⟨?_, grows_of_option hinit⟩
  exact congrArg (Prod.mk name) (isSome_of_grown hinit)

/-- A declaration is one node above all its initial values. -/
theorem builds_declaration (bound : Nat) (arena : Arena) :
    Builds arena (Parse.declaration bound) (declaration bound) (declaring.Grown arena) := by
  refine .step fun start => .step fun _ => ?_
  refine (builds_declaratorOf bound arena).bind fun first first' arena' hfirst => ?_
  refine (Builds.commaRest (builds_declaratorOf bound) bound hfirst).bind
    fun declarators declarators' arena'' hdeclarators => .step fun span => ?_
  have hlabel : (Node.declare declarators').label =
      .declare (declarators.map fun d => (d.name, d.init.isSome)) :=
    congrArg Label.declare hdeclarators.1.symm
  refine .push (grown_labelled hlabel ?_ rfl)
  rw [Node.children, List.filterMap_eq_flatMap_toList]
  exact hdeclarators.2

/-- A declaration or an expression that a loop starts with. -/
theorem builds_forInit (bound : Nat) (arena : Arena) :
    Builds arena (Parse.forInit bound) (forInit bound) (initializing.option.Grown arena) := by
  refine .step fun next => ?_
  split
  · exact .result View.grown_none
  · split
    · refine (builds_declaration bound arena).bind fun declaration id arena' h => .result ?_
      exact View.Grown.some h
    · refine (builds_expression bound arena).bind fun e id arena' h => .result ?_
      exact View.Grown.some h

section Statements

variable {sub : Parse Stmt} {sub' : Build NodeId}
  (hsub : ∀ arena, Builds arena sub sub' (stmt.Grown arena)) (bound : Nat) (arena : Arena)
include hsub

theorem builds_block : Builds arena (Parse.block bound sub) (block bound sub') (braced.Grown arena) := by
  refine .step fun start => ?_
  refine (Builds.iterate (fun _ _ _ h => builds_blockStep hsub h) bound View.grown_nil).bind
    fun read read' arena' hread => .step fun next => ?_
  cases next with
  | none => exact .fail _
  | some token =>
    exact .step fun _ => .step fun span => .push (grown_node hread.nodes rfl)

/-- Branches, with or without an `else`. -/
theorem builds_ifStatement :
    Builds arena (Parse.ifStatement bound sub) (ifStatement bound sub') (stmt.Grown arena) := by
  refine .step fun start => .step fun _ => ?_
  refine (builds_expression bound arena).bind fun test id arena' htest => .step fun _ => ?_
  refine (hsub arena').bind fun consequent id' arena'' hconsequent => .step fun more => ?_
  cases more with
  | true =>
    refine (hsub arena'').bind fun alternate id'' last halternate => .step fun span => .push ?_
    exact grown_node (htest.2.append (hconsequent.2.append halternate.2))
      (Stmt.outline_ifElse test consequent alternate span)
  | false =>
    refine .step fun span => .push ?_
    exact grown_node (htest.2.append hconsequent.2) (Stmt.outline_ifThen test consequent span)

/-- The parts of a `for` loop are added in source order, and the body last. -/
theorem builds_forStatement :
    Builds arena (Parse.forStatement bound sub) (forStatement bound sub') (stmt.Grown arena) := by
  refine .step fun start => .step fun _ => ?_
  refine (builds_forInit bound arena).bind fun init init' arena₁ hinit => .step fun _ => ?_
  refine (builds_unlessAt (builds_expression bound) arena₁ _).bind
    fun test test' arena₂ htest => .step fun _ => ?_
  refine (builds_unlessAt (builds_expression bound) arena₂ _).bind
    fun update update' arena₃ hupdate => .step fun _ => ?_
  refine (hsub arena₃).bind fun body id arena₄ hbody => .step fun span => .push ?_
  have hlabel : (Node.forLoop init' test' update' id).label =
      .forLoop init.isSome test.isSome update.isSome := by
    rw [Node.label, isSome_of_grown hinit, isSome_of_grown htest, isSome_of_grown hupdate]
  refine grown_labelled hlabel ?_ (Stmt.outline_forLoop init test update body span)
  exact (((grows_of_option hinit).append (grows_of_option htest)).append
    (grows_of_option hupdate)).append hbody.2

theorem builds_whileStatement :
    Builds arena (Parse.whileStatement bound sub) (whileStatement bound sub') (stmt.Grown arena) := by
  refine .step fun start => .step fun _ => ?_
  refine (builds_expression bound arena).bind fun test id arena' htest => .step fun _ => ?_
  refine (hsub arena').bind fun body id' arena'' hbody => .step fun span => .push ?_
  exact grown_node (htest.2.append hbody.2) (Stmt.outline_whileLoop test body span)

omit hsub

theorem builds_returnStatement :
    Builds arena (Parse.returnStatement bound) (returnStatement bound) (stmt.Grown arena) := by
  refine .step fun start => ?_
  refine (builds_returnedOf (builds_expression bound) arena).bind fun argument argument' arena' h => ?_
  refine .step fun _ => .step fun span => .push ?_
  exact grown_node (grows_of_option h) (Stmt.outline_returnValue argument span)

theorem builds_expressionStatement :
    Builds arena (Parse.expressionStatement bound) (expressionStatement bound) (stmt.Grown arena) := by
  refine .step fun start => (builds_expression bound arena).bind fun e id arena' he => ?_
  exact .step fun _ => .step fun span => .push (grown_node he.2 (Stmt.outline_expression e span))

theorem builds_declarationStatement :
    Builds arena (Parse.declarationStatement bound) (declarationStatement bound) (stmt.Grown arena) := by
  refine (builds_declaration bound arena).bind fun declaration id arena' h => .step fun _ => .result ?_
  exact h

theorem builds_wordStatement {make : Span → Stmt} {node : Node} (hnode : node.children = [])
    (houtline : ∀ span, (make span).outline 0 = .node node.label span []) :
    Builds arena (Parse.wordStatement make) (wordStatement node) (stmt.Grown arena) := by
  refine .step fun start => .step fun _ => .step fun _ => .push (grown_node ?_ (houtline start))
  rw [hnode]
  exact .nil arena

include hsub

/-- Statements, by the token they begin with. -/
theorem builds_statementRule :
    Builds arena (Parse.statementRule bound sub) (statementRule bound sub') (stmt.Grown arena) := by
  refine .step fun next => ?_
  split
  · rename_i word
    cases word with
    | functionWord => exact .step fun span => .fail _
    | varWord | letWord | constWord => exact builds_declarationStatement bound arena
    | ifWord => exact builds_ifStatement hsub bound arena
    | forWord => exact builds_forStatement hsub bound arena
    | whileWord => exact builds_whileStatement hsub bound arena
    | breakWord => exact builds_wordStatement arena rfl Stmt.outline_breakLoop
    | continueWord => exact builds_wordStatement arena rfl Stmt.outline_continueLoop
    | returnWord => exact builds_returnStatement bound arena
    | _ => exact builds_expressionStatement bound arena
  · refine (builds_block hsub bound arena).wrap fun block id arena' h => ⟨rfl, ?_⟩
    show arena.Grows [(Stmt.block block.1 block.2).outline 0] [id] arena'
    rw [Stmt.outline_block]
    exact h.2
  · exact .step fun start => .step fun _ => .push (grown_node (.nil arena) (Stmt.outline_empty start))
  · exact builds_expressionStatement bound arena
  · exact .unexpected

end Statements

/-- Statements inside statements, by induction on how deep they may be. -/
theorem builds_statement (level bound : Nat) (arena : Arena) :
    Builds arena (Parse.statement level bound) (statement level bound) (stmt.Grown arena) := by
  induction bound generalizing level arena with
  | zero => exact .unexpected
  | succ bound ih =>
    intro cursor
    show Alike _ (deepen level _) (deepen level _)
    rw [deepen_eq, deepen_eq]
    exact builds_statementRule (fun arena => ih (level + 1) arena) (bound + 1) arena cursor

/-! ## Programs -/

/-- A function or a statement and its node. -/
abbrev part : View Item NodeId Unit := .single Item.outline

theorem Function.outline_eq (name : String) (params : List Param) (body : List Stmt)
    (bodySpan span : Span) :
    (Function.mk name params body bodySpan span).outline =
      .node (.function name (params.map fun p => (p.name, p.fallback.isSome))) span
        (parameter.list.outlines params ++ braced.outlines (body, bodySpan)) := by
  unfold Function.outline
  rw [outlineStmts_eq_map]
  rfl

/-- A function is added behind its body. -/
theorem builds_function (bound : Nat) (arena : Arena) :
    Builds arena (Parse.function bound) (function bound)
      ((View.single Function.outline).Grown arena) := by
  refine .step fun start => .step fun name => .step fun _ => ?_
  refine (Builds.commaSeparated (builds_paramOf bound) arena bound _).bind
    fun params params' arena' hparams => ?_
  refine (builds_block (builds_statement 0 bound) bound arena').bind fun body id arena'' hbody => ?_
  refine .step fun span => .push ?_
  have hlabel : (Node.function ⟨name, params', id⟩).label =
      .function name (params.map fun p => (p.name, p.fallback.isSome)) :=
    congrArg (Label.function name) hparams.1.symm
  refine grown_labelled hlabel ?_ (Function.outline_eq name params body.1 body.2 span)
  rw [Node.children, List.filterMap_eq_flatMap_toList]
  exact hparams.2.append hbody.2

theorem builds_item (bound : Nat) (arena : Arena) :
    Builds arena (Parse.item bound) (item bound) (part.Grown arena) := by
  refine .step fun function => ?_
  cases function with
  | true => exact (builds_function bound arena).wrap fun f id arena' h => h
  | false => exact (builds_statement 0 bound arena).wrap fun s id arena' h => h

theorem builds_items (bound : Nat) (arena : Arena) :
    Builds arena (Parse.items bound) (items bound) (part.list.Grown arena) := by
  have hround : ∀ read read' arena', part.list.Grown arena read.reverse read'.reverse arena' →
      Builds arena' (Parse.itemStep bound read) (itemStep bound read')
        fun r r' arena'' => r'.2 = r.2 ∧ part.list.Grown arena r.1.reverse r'.1.reverse arena'' := by
    intro read read' arena' h
    refine .step fun next => ?_
    cases next with
    | none => exact .result ⟨rfl, h⟩
    | some token =>
      refine (builds_item bound arena').bind fun i id arena'' hitem => .result ⟨rfl, ?_⟩
      -- the list is collected last item first, so the numbers are turned around with the items
      rw [List.reverse_cons, List.reverse_cons]
      exact h.concat hitem
  exact (Builds.iterate hround bound View.grown_nil).bind fun read read' arena' h => .result h

end Build

/-! ## Arenas of programs -/

/-- The table of an outline begins with the node at its top, which learns its numbers last. -/
theorem NodeTable.ofOutline_node {label : Label} {span : Span} {children : List Outline}
    {added : NodeTable} {numbers : List Nat}
    (h : addAll 0 #[⟨label, span, []⟩] [] children = (#[⟨label, span, []⟩] ++ added, numbers)) :
    ofOutline (.node label span children) = #[⟨label, span, numbers⟩] ++ added := by
  unfold ofOutline
  dsimp only [Outline.label, Outline.span, Outline.children]
  rw [h]
  apply Array.toList_inj.mp
  simp

/-- The first node of an arena that has grown from the start is finished last. -/
theorem Arena.table_replace_start {program : Program} {ids : List NodeId} {arena : Arena}
    (h : Arena.start.Grows (program.items.map Item.outline) ids arena) :
    ∃ arena', arena.replace 0 (.program ids) program.span = .ok arena' ∧
      arena'.table = program.nodeTable := by
  obtain ⟨added, htable, hadds⟩ := h.exists_added
  have hsize : 0 < arena.nodes.size := h.size_le
  refine ⟨_, if_pos hsize, ?_⟩
  have hprogram : program.nodeTable = #[⟨.program, program.span, ids⟩] ++ added :=
    NodeTable.ofOutline_node (hadds 0 #[⟨.program, program.span, []⟩] [] rfl)
  have hreplaced : (Arena.mk (arena.nodes.setIfInBounds 0 ⟨.program ids, program.span⟩)).table =
      arena.table.setIfInBounds 0 ⟨.program, program.span, ids⟩ :=
    Array.map_setIfInBounds
  rw [hprogram, hreplaced, htable]
  apply Array.toList_inj.mp
  simp [Arena.table, Arena.start]

/-- Building an arena fails as reading a program does, or gives an arena with the table of the
program. -/
theorem Arena.ofTokens?_alike (tokens : List Lexeme) :
    (∃ e, Program.ofTokens? tokens = .error e ∧ Arena.ofTokens? tokens = .error (.failed e)) ∨
    ∃ program arena, Program.ofTokens? tokens = .ok program ∧ Arena.ofTokens? tokens = .ok arena ∧
      arena.table = program.nodeTable := by
  have halike := Build.builds_items tokens.length .start ⟨tokens, 0⟩
  unfold Program.ofTokens? Arena.ofTokens? StateT.run
  revert halike
  cases Parse.items tokens.length ⟨tokens, 0⟩ with
  | error e =>
    cases Build.items tokens.length .start ⟨tokens, 0⟩ with
    | error halt =>
      rintro rfl
      exact .inl ⟨e, rfl, rfl⟩
    | ok built => exact fun h => h.elim
  | ok read =>
    cases Build.items tokens.length .start ⟨tokens, 0⟩ with
    | error halt => exact fun h => h.elim
    | ok built =>
      obtain ⟨items, cursor⟩ := read
      obtain ⟨⟨ids, arena⟩, cursor'⟩ := built
      rintro ⟨hcursor, hgrown⟩
      cases hcursor
      -- The arena starts with an empty program, which is put right once the items are read.
      obtain ⟨arena', hreplace, htable⟩ :=
        @table_replace_start ⟨items, ⟨0, cursor.reached⟩⟩ _ _ hgrown.nodes
      refine .inr ⟨_, arena', rfl, ?_, htable⟩
      show (arena.replace 0 (.program ids) ⟨0, cursor.reached⟩).mapError Halt.crashed = _
      rw [hreplace]
      rfl

theorem Arena.exists_program_of_ofTokens? {tokens : List Lexeme} {arena : Arena}
    (h : Arena.ofTokens? tokens = .ok arena) :
    ∃ program, Program.ofTokens? tokens = .ok program ∧ arena.table = program.nodeTable := by
  rcases ofTokens?_alike tokens with ⟨e, _, herror⟩ | ⟨program, arena', hprogram, harena, htable⟩
  · cases herror.symm.trans h
  · cases harena.symm.trans h
    exact ⟨program, hprogram, htable⟩

end MeteredScript
