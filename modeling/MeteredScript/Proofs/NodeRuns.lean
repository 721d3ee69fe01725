import MeteredScript.Eval.Nodes
import MeteredScript.Proofs.PostOrder

namespace MeteredScript

/-! # Runs of arenas

Evaluation that follows numbers through the arena of a program is evaluation of the program tree.
There is one lemma for each rule: where a number unfolds to the outline of an expression, a statement
or a function, the node with this number is of the right kind and has what is inside of it below it.
So none of the fallbacks for other nodes is ever reached. Main statement: `Arena.runWith_eq_run`.
-/

/-! ## Nodes by their labels -/

/-- The node with a label and the numbers below it, where it takes no more to know it. -/
def Node.ofLabel? : Label → List NodeId → Option Node
  | .block, body => some (.block body)
  | .branch, [test, consequent] => some (.branch test consequent none)
  | .branch, [test, consequent, alternate] => some (.branch test consequent (some alternate))
  | .whileLoop, [test, body] => some (.whileLoop test body)
  | .breakLoop, [] => some .breakLoop
  | .continueLoop, [] => some .continueLoop
  | .returnValue, [] => some (.returnValue none)
  | .returnValue, [argument] => some (.returnValue (some argument))
  | .empty, [] => some .empty
  | .expression, [e] => some (.expression e)
  | .binary op, [left, right] => some (.binary op left right)
  | .logical op, [left, right] => some (.logical op left right)
  | .unary op, [operand] => some (.unary op operand)
  | .update op before, [operand] => some (.update op before operand)
  | .assign op, [target, value] => some (.assign op target value)
  | .conditional, [test, consequent, alternate] => some (.conditional test consequent alternate)
  | .sequence, parts => some (.sequence parts)
  | .call, callee :: arguments => some (.call callee arguments)
  | .member name, [e] => some (.member e (.named name))
  | .index, [e, key] => some (.member e (.computed key))
  | .array, elements => some (.array elements)
  | .object keys, values => some (.object (keys.zip values))
  | .ident name, [] => some (.ident name)
  | .literal value, [] => some (.literal value)
  | _, _ => none

variable {arena : Arena} {node : Node} {id : NodeId}

/-- A node is known from its label and its numbers, for all labels that have one such node. -/
theorem Node.eq_of_ofLabel? {made : Node} (h : ofLabel? node.label node.children = some made) :
    node = made := by
  cases node with
  | branch test consequent alternate => cases alternate <;> exact Option.some.inj h
  | returnValue argument => cases argument <;> exact Option.some.inj h
  | member object key => cases key <;> exact Option.some.inj h
  | object entries =>
    have hentries : (entries.map Prod.fst).zip (entries.map Prod.snd) = entries := by
      rw [← List.unzip_fst, ← List.unzip_snd, List.zip_unzip]
    rw [← Option.some.inj h]
    exact congrArg object hentries.symm
  | program body | function f | declare declarators | forLoop init test update body => cases h
  | _ => exact Option.some.inj h

/-- A declaration keeps its names with its numbers, so it is not made from its label. -/
theorem Node.exists_declare_of_label {names : List (String × Bool)}
    (h : node.label = .declare names) : ∃ declarators, node = .declare declarators := by
  cases node with
  | declare declarators => exact ⟨declarators, rfl⟩
  | member object key => cases key <;> cases h
  | _ => cases h

theorem Node.exists_forLoop_of_label {hasInit hasTest hasUpdate : Bool}
    (h : node.label = .forLoop hasInit hasTest hasUpdate) :
    ∃ init test update body, node = .forLoop init test update body := by
  cases node with
  | forLoop init test update body => exact ⟨init, test, update, body, rfl⟩
  | member object key => cases key <;> cases h
  | _ => cases h

theorem Arena.exists_node_of_unfolds {outline : Outline} (h : arena.table.Unfolds id outline) :
    ∃ node, arena.node id = .ok node ∧ node.label = outline.label ∧ arena.span id = outline.span ∧
      arena.table.UnfoldsAll node.children outline.children := by
  rcases h with ⟨hnumbered, hchildren⟩
  obtain ⟨node, hnode, hsame⟩ := exists_node_of_table hnumbered
  obtain ⟨hlabel, hspan, rfl⟩ := NumberedNode.mk.inj hsame
  exact ⟨node, hnode, hlabel.symm, hspan.symm, hchildren⟩

theorem Arena.exists_function_of_unfolds {f : Function} (h : arena.table.Unfolds id f.outline) :
    ∃ g, arena.node id = .ok (.function g) ∧ (Node.function g).label = f.outline.label ∧
      arena.table.UnfoldsAll (Node.function g).children f.outline.children := by
  obtain ⟨node, hnode, hlabel, _, hchildren⟩ := exists_node_of_unfolds h
  have hfunction : node.function?.isSome = true := by
    rw [← node.isFunction_label, hlabel]
    rfl
  obtain ⟨g, hg⟩ := Option.isSome_iff_exists.mp hfunction
  obtain rfl := Node.function?_eq_some.mp hg
  exact ⟨g, hnode, hlabel, hchildren⟩

theorem Arena.exists_ids_of_unfolds {label : Label} {span : Span} {outlines : List Outline}
    (h : arena.table.Unfolds id (.node label span outlines)) :
    ∃ ids, arena.table.UnfoldsAll ids outlines ∧ arena.span id = span ∧
      ∀ node, Node.ofLabel? label ids = some node → arena.node id = .ok node := by
  obtain ⟨node, hnode, hlabel, hspan, hchildren⟩ := exists_node_of_unfolds h
  refine ⟨node.children, hchildren, hspan, fun made hmade => ?_⟩
  have hmade' : Node.ofLabel? node.label node.children = some made := by rwa [hlabel]
  rw [hnode, Node.eq_of_ofLabel? hmade']

namespace NodeTable

variable {table : NodeTable}

variable {α : Type}

theorem UnfoldsAll.forall₂ {outline : α → Outline} {ids : List Nat} {as : List α}
    (h : table.UnfoldsAll ids (as.map outline)) :
    List.Forall₂ (fun id a => table.Unfolds id (outline a)) ids as := by
  induction as generalizing ids with
  | nil =>
    cases h
    exact .nil
  | cons a as ih =>
    rcases h with _ | ⟨hfirst, hrest⟩
    exact .cons hfirst (ih hrest)

/-- Numbers of two lists in a row are those of the first and those of the second. -/
theorem UnfoldsAll.of_append {ids ids' : List Nat} {outlines outlines' : List Outline}
    (hlength : ids.length = outlines.length)
    (h : table.UnfoldsAll (ids ++ ids') (outlines ++ outlines')) :
    table.UnfoldsAll ids outlines ∧ table.UnfoldsAll ids' outlines' := by
  induction ids generalizing outlines with
  | nil =>
    obtain rfl := List.eq_nil_of_length_eq_zero hlength.symm
    exact ⟨.nil, h⟩
  | cons id ids ih =>
    cases outlines with
    | nil => cases hlength
    | cons outline outlines =>
      rcases h with _ | ⟨hfirst, hrest⟩
      obtain ⟨hids, hids'⟩ := ih (Nat.succ.inj hlength) hrest
      exact ⟨.cons hfirst hids, hids'⟩

theorem length_optional {outline : α → Outline} {id : Option Nat} {a : Option α}
    (h : id.isSome = a.isSome) : id.toList.length = (a.map outline).toList.length := by
  cases id <;> cases a <;> first | rfl | cases h

/-- Numbers below a list of names, of which each may have an expression. -/
theorem UnfoldsAll.forall₂_optional {β : Type} {name : α → String} {value : α → Option Expr}
    {builtName : β → String} {number : β → Option Nat} {as : List α} {bs : List β}
    (hnames : (bs.map fun b => (builtName b, (number b).isSome)) =
      as.map fun a => (name a, (value a).isSome))
    (h : table.UnfoldsAll (bs.filterMap number) (as.flatMap fun a => outlineOption (value a))) :
    List.Forall₂ (fun b a => builtName b = name a ∧
      table.UnfoldsAll (number b).toList (outlineOption (value a))) bs as := by
  rw [List.filterMap_eq_flatMap_toList] at h
  induction bs generalizing as with
  | nil =>
    obtain rfl := List.map_eq_nil_iff.mp hnames.symm
    exact .nil
  | cons b bs ih =>
    cases as with
    | nil => cases hnames
    | cons a as =>
      obtain ⟨hfirst, hrest⟩ := List.cons.inj hnames
      obtain ⟨hname, hsome⟩ := Prod.mk.inj hfirst
      rw [List.flatMap_cons, List.flatMap_cons] at h
      -- Both lists have a value at the same places, so the numbers are split where the outlines are.
      obtain ⟨hvalue, hvalues⟩ := h.of_append (length_optional hsome)
      exact .cons ⟨hname, hvalue⟩ (ih hrest hvalues)

end NodeTable

/-! ## Rules for what evaluates alike

A rule for what is inside of a construct depends on nothing but how it is evaluated.
-/

namespace Run

section Rules

variable {ε σ φ ε' σ' φ' : Type}

/-- Two expressions are evaluated alike. -/
abbrev EvalAlike (sub : EvaluatorsOf ε σ φ) (sub' : EvaluatorsOf ε' σ' φ') (e : ε) (e' : ε') : Prop :=
  sub.eval e = sub'.eval e'

/-- Two statements are run alike. -/
abbrev ExecAlike (sub : EvaluatorsOf ε σ φ) (sub' : EvaluatorsOf ε' σ' φ') (s : σ) (s' : σ') : Prop :=
  sub.exec s = sub'.exec s'

variable {sub : EvaluatorsOf ε σ φ} {sub' : EvaluatorsOf ε' σ' φ'}

variable {es : List ε} {es' : List ε'}

theorem evalAll_eq (h : List.Forall₂ (EvalAlike sub sub') es es') :
    evalAll sub es = evalAll sub' es' := by
  unfold evalAll
  induction h with
  | nil => rfl
  | cons hfirst _ ih => rw [List.mapM_cons, List.mapM_cons, hfirst, ih]

theorem evalArray_eq (h : List.Forall₂ (EvalAlike sub sub') es es') :
    evalArray sub es = evalArray sub' es' := by
  unfold evalArray
  rw [evalAll_eq h]

theorem evalSequence_eq (h : List.Forall₂ (EvalAlike sub sub') es es') (last : Value) :
    evalSequence sub last es = evalSequence sub' last es' := by
  induction h generalizing last with
  | nil => rfl
  | cons hfirst _ ih =>
    rw [evalSequence, evalSequence, hfirst]
    exact bind_congr fun v => ih v

/-- Objects with the same names, and values that evaluate alike. -/
theorem evalObject_eq {entries : List (String × ε)} {entries' : List (String × ε')}
    (h : List.Forall₂ (fun entry entry' => entry.1 = entry'.1 ∧ sub.eval entry.2 = sub'.eval entry'.2)
      entries entries') :
    evalObject sub entries = evalObject sub' entries' := by
  have hvalues : (entries.mapM fun entry => do return (entry.1, ← sub.eval entry.2)) =
      entries'.mapM fun entry => do return (entry.1, ← sub'.eval entry.2) := by
    induction h with
    | nil => rfl
    | cons hfirst _ ih => rw [List.mapM_cons, List.mapM_cons, hfirst.1, hfirst.2, ih]
  unfold evalObject
  rw [hvalues]

/-- Both operands evaluate alike, whether the second one is evaluated or not. -/
theorem evalLogical_eq (op : LogicalOp) {left right : ε} {left' right' : ε'}
    (hleft : sub.eval left = sub'.eval left') (hright : sub.eval right = sub'.eval right') :
    evalLogical sub op left right = evalLogical sub' op left' right' := by
  unfold evalLogical
  rw [hleft, hright]

/-- What is assigned depends on the environment only in how long a text may be. -/
theorem assigned_eq {α α' : Type} {env : EnvOf α} {env' : EnvOf α'}
    (henv : env.maxStringLength = env'.maxStringLength) (op : AssignOp) (location : Location)
    {value : ε} {value' : ε'} (h : sub.eval value = sub'.eval value') (span : Span) :
    assigned env sub op location value span = assigned env' sub' op location value' span := by
  unfold assigned
  rw [h, henv]

/-- Blocks of what is executed alike. -/
theorem execBlock_eq {body : List σ} {body' : List σ'}
    (h : List.Forall₂ (ExecAlike sub sub') body body') :
    execBlock sub body = execBlock sub' body' := by
  induction h with
  | nil => rfl
  | cons hfirst _ ih => rw [execBlock, execBlock, hfirst, ih]

/-- The same name, and an initial value that evaluates alike or is missing on both sides. -/
theorem declareOne_eq {d : DeclaratorOf ε} {d' : DeclaratorOf ε'} (hname : d.name = d'.name)
    (hinit : Option.Rel (EvalAlike sub sub') d.init d'.init) :
    declareOne sub d = declareOne sub' d' := by
  obtain ⟨name, init⟩ := d
  obtain ⟨name', init'⟩ := d'
  cases hname
  unfold declareOne
  cases hinit with
  | none => rfl
  | some h =>
    dsimp only
    rw [h]

theorem declare_eq {ds : List (DeclaratorOf ε)} {ds' : List (DeclaratorOf ε')}
    (h : List.Forall₂ (fun d d' => d.name = d'.name ∧
      Option.Rel (EvalAlike sub sub') d.init d'.init) ds ds') :
    declare sub ds = declare sub' ds' := by
  induction h with
  | nil => rfl
  | cons hfirst _ ih =>
    show (declareOne sub _ >>= fun _ => declare sub _) = declareOne sub' _ >>= fun _ => declare sub' _
    rw [declareOne_eq hfirst.1 hfirst.2, ih]

theorem fallback_eq {p : ParamOf ε} {p' : ParamOf ε'}
    (h : Option.Rel (EvalAlike sub sub') p.fallback p'.fallback) :
    fallback sub p = fallback sub' p' := by
  obtain ⟨name, value⟩ := p
  obtain ⟨name', value'⟩ := p'
  cases h with
  | none => rfl
  | some h => exact h

/-- Parameters of the same names, with fallbacks that evaluate alike. -/
theorem bindParams_eq {params : List (ParamOf ε)} {params' : List (ParamOf ε')}
    (h : List.Forall₂ (fun p p' => p.name = p'.name ∧
      Option.Rel (EvalAlike sub sub') p.fallback p'.fallback) params params')
    (args : List Value) : bindParams sub params args = bindParams sub' params' args := by
  induction h generalizing args with
  | nil => rfl
  | cons hfirst _ ih =>
    cases args with
    | nil => rw [bindParams, bindParams, hfirst.1, fallback_eq hfirst.2, ih]
    | cons arg args => rw [bindParams, bindParams, hfirst.1, ih]

theorem returned_eq {argument : Option ε} {argument' : Option ε'}
    (h : Option.Rel (EvalAlike sub sub') argument argument') :
    returned sub argument = returned sub' argument' := by
  cases h with
  | none => rfl
  | some h => rw [returned, returned, h]

/-- Rounds of a loop with parts that evaluate alike. -/
theorem loopRound_eq {test update : Option ε} {test' update' : Option ε'} {body : σ} {body' : σ'}
    (htest : Option.Rel (EvalAlike sub sub') test test')
    (hupdate : Option.Rel (EvalAlike sub sub') update update')
    (hbody : sub.exec body = sub'.exec body') :
    loopRound sub test update body = loopRound sub' test' update' body' := by
  have hholds : holds sub test = holds sub' test' := by
    cases htest with
    | none => rfl
    | some h => rw [holds, holds, h]
  have hfinish : finishRound sub update = finishRound sub' update' := by
    cases hupdate with
    | none => rfl
    | some h => rw [finishRound, finishRound, h]
  unfold loopRound
  rw [hholds, hbody, hfinish]

theorem repeatLoop_eq {test update : Option ε} {test' update' : Option ε'} {body : σ} {body' : σ'}
    (htest : Option.Rel (EvalAlike sub sub') test test')
    (hupdate : Option.Rel (EvalAlike sub sub') update update')
    (hbody : sub.exec body = sub'.exec body') (rounds : Nat) :
    repeatLoop sub test update body rounds = repeatLoop sub' test' update' body' rounds := by
  induction rounds with
  | zero => rfl
  | succ rounds ih => rw [repeatLoop, repeatLoop, loopRound_eq htest hupdate hbody, ih]

end Rules

/-! ## What unfolds to what -/

/-- Evaluation of nodes, where they unfold to outlines, is evaluation of what has these outlines. -/
structure Mirrors (table : NodeTable) (sub : NodeEvaluators) (tree : Evaluators) : Prop where
  eval {id : NodeId} {e : Expr} : table.Unfolds id (e.outline 0) → sub.eval id = tree.eval e
  exec {id : NodeId} {s : Stmt} : table.Unfolds id (s.outline 0) → sub.exec id = tree.exec s
  call {id : NodeId} {f : Function} :
    table.Unfolds id f.outline → ∀ span args, sub.call (id, span) args = tree.call f args
  rounds : sub.rounds = tree.rounds

namespace Mirrors

variable {table : NodeTable} {sub : NodeEvaluators} {tree : Evaluators} (h : Mirrors table sub tree)
include h

theorem evalList {ids : List NodeId} {es : List Expr}
    (hes : table.UnfoldsAll ids (es.map (Expr.outline 0))) :
    List.Forall₂ (EvalAlike sub tree) ids es :=
  hes.forall₂.imp fun _ _ he => h.eval he

/-- Numbers of statements are executed as these are. -/
theorem execList {ids : List NodeId} {body : List Stmt}
    (hbody : table.UnfoldsAll ids (body.map (Stmt.outline 0))) :
    List.Forall₂ (ExecAlike sub tree) ids body :=
  hbody.forall₂.imp fun _ _ hs => h.exec hs

/-- A number is there if and only if the expression is. -/
theorem evalOption {id : Option NodeId} {e : Option Expr}
    (he : table.UnfoldsAll id.toList (outlineOption e)) : Option.Rel (EvalAlike sub tree) id e := by
  cases id with
  | none =>
    cases e with
    | none => exact .none
    | some e => cases he
  | some id =>
    cases e with
    | none => cases he
    | some e =>
      rcases he with _ | ⟨hfirst, _⟩
      exact .some (h.eval hfirst)

end Mirrors

/-- What stays the same throughout a run is the same for the arena and for the tree. -/
structure Represents (env : NodeEnv) (tenv : Env) : Prop where
  below {id : NodeId} {node : Node} : env.arena.node id = .ok node → node.label ≠ .program →
    ∀ child ∈ node.children, child < id
  functions (name : String) : Option.Rel (fun id f => env.arena.table.Unfolds id (Function.outline f))
    (env.function? name) (tenv.function? name)
  collaborators : env.collaborators = tenv.collaborators
  maxStringLength : env.maxStringLength = tenv.maxStringLength

section Nodes

variable {env : NodeEnv} {tenv : Env} {sub : NodeEvaluators} {tree : Evaluators}

variable {inner : List (UpdateOp × Span)} {node : Node} {id operand : NodeId} {target : Place}
  {span : Span} {op : UpdateOp}

theorem nodeAt_eq (h : env.arena.node id = .ok node) : nodeAt env id = pure node := by
  rw [nodeAt, h]

variable (hsub : Mirrors env.arena.table sub tree)
include hsub

/-! ### Places -/

/-- Places by number. -/
theorem locateNode_eq (h : env.arena.table.Unfolds id (target.outline 0)) :
    locateNode env sub id = locate tree target := by
  unfold locateNode
  cases target with
  | ident name span =>
    obtain ⟨ids, hids, _, hnode⟩ := Arena.exists_ids_of_unfolds h
    cases hids
    rw [nodeAt_eq (hnode _ rfl)]
    rfl
  | member object name span =>
    obtain ⟨ids, hids, _, hnode⟩ := Arena.exists_ids_of_unfolds h
    rcases hids with _ | ⟨hobject, _ | _⟩
    rw [nodeAt_eq (hnode _ rfl), locate, ← hsub.eval hobject]
    rfl
  | index object key span =>
    obtain ⟨ids, hids, _, hnode⟩ := Arena.exists_ids_of_unfolds h
    rcases hids with _ | ⟨hobject, _ | ⟨hkey, _ | _⟩⟩
    rw [nodeAt_eq (hnode _ rfl), locate, ← hsub.eval hobject, ← hsub.eval hkey]
    rfl

theorem assignNode_eq (henv : Represents env tenv) (op : AssignOp) {id' : NodeId} {value : Expr}
    (span : Span) (htarget : env.arena.table.Unfolds id (target.outline 0))
    (hvalue : env.arena.table.Unfolds id' (value.outline 0)) :
    assignNode env sub op id id' span = assign tenv tree op target value span := by
  unfold assignNode assign
  rw [locateNode_eq hsub htarget]
  refine bind_congr fun location => ?_
  rw [assigned_eq henv.maxStringLength op location (hsub.eval hvalue) span]

/-! ### Updates -/

omit hsub in
theorem stepNode_of_isPlace (hnode : env.arena.node id = .ok node)
    (hplace : node.label.isPlace = true) (op : UpdateOp) (span : Span) (depth : Nat) :
    stepNode env sub op id span (depth + 1) = do
      let location ← locateNode env sub id
      return (location, ← stepLocation op location span) := by
  unfold stepNode
  rw [nodeAt_eq hnode]
  cases node with
  | update op' before operand => cases hplace
  | _ => rfl

omit hsub in
theorem stepNode_of_update {op' : UpdateOp} {before : Bool}
    (hnode : env.arena.node id = .ok (.update op' before operand)) (op : UpdateOp) (span : Span)
    (depth : Nat) :
    stepNode env sub op id span (depth + 1) = do
      enter
      let stepped ← stepNode env sub op' operand (env.arena.span id) depth
      return (stepped.1, ← stepLocation op stepped.1 span) := by
  rw [stepNode, nodeAt_eq hnode]
  simp only [pure_bind]

theorem stepNode_place (h : env.arena.table.Unfolds id (target.outline 0)) (op : UpdateOp)
    (span : Span) (depth : Nat) :
    stepNode env sub op id span (depth + 1) = do
      let location ← locate tree target
      return (location, ← stepLocation op location span) := by
  obtain ⟨node, hnode, hlabel, _, _⟩ := Arena.exists_node_of_unfolds h
  have hplace : node.label.isPlace = true := by
    rw [hlabel]
    exact (target.hasKind_outline 0).admits
  rw [← locateNode_eq hsub h]
  exact stepNode_of_isPlace hnode hplace op span depth

/-- The steps behind the first one, in front of a place. -/
def stepsOutline (target : Outline) : List (UpdateOp × Span) → Outline
  | [] => target
  | (op, span) :: inner => updateOutline op span target inner

omit hsub in
/-- Steps in front of a place are one node above the remaining ones. -/
theorem updateOutline_eq (op : UpdateOp) (span : Span) (target : Outline)
    (inner : List (UpdateOp × Span)) :
    updateOutline op span target inner = .node (.update op true) span [stepsOutline target inner] := by
  cases inner with
  | nil => rfl
  | cons step inner => rfl

/-- Steps in front of a place, each in a node of its own. -/
theorem stepNode_before (h : env.arena.table.Unfolds id (stepsOutline (target.outline 0) inner))
    (op : UpdateOp) (span : Span) {depth : Nat} (hdepth : inner.length < depth) :
    (do let stepped ← stepNode env sub op id span depth
        return (stepped.1, stepped.2.2)) = stepBefore tree op span target inner := by
  induction inner generalizing id op span depth with
  | nil =>
    obtain ⟨depth, rfl⟩ := Nat.exists_eq_add_one_of_ne_zero (Nat.ne_zero_of_lt hdepth)
    rw [stepNode_place hsub h]
    simp only [stepBefore, bind_assoc, pure_bind]
  | cons step inner ih =>
    obtain ⟨op', span'⟩ := step
    obtain ⟨depth, rfl⟩ := Nat.exists_eq_add_one_of_ne_zero (Nat.ne_zero_of_lt hdepth)
    rw [stepsOutline, updateOutline_eq] at h
    obtain ⟨ids, hids, hspan, hnode⟩ := Arena.exists_ids_of_unfolds h
    rcases hids with _ | ⟨hoperand, _ | _⟩
    -- The inner step is run first, and what it gives is stepped again.
    rw [stepNode_of_update (hnode _ rfl), hspan, stepBefore,
      ← ih hoperand op' span' (Nat.lt_of_succ_lt_succ hdepth)]
    simp only [bind_assoc, pure_bind]

omit hsub in
/-- The numbers of steps in front of a place go down, so there are no more of them than nodes. -/
theorem length_lt_of_updateOutline (henv : Represents env tenv) {target : Outline}
    (h : env.arena.table.Unfolds id (updateOutline op span target inner)) : inner.length < id := by
  induction inner generalizing op span id with
  | nil =>
    obtain ⟨ids, hids, _, hnode⟩ := Arena.exists_ids_of_unfolds h
    rcases hids with _ | ⟨hoperand, _ | _⟩
    exact Nat.zero_lt_of_lt (henv.below (hnode _ rfl) (by simp [Node.label]) _ List.mem_cons_self)
  | cons step inner ih =>
    obtain ⟨ids, hids, _, hnode⟩ := Arena.exists_ids_of_unfolds h
    rcases hids with _ | ⟨hoperand, _ | _⟩
    have hbelow := henv.below (hnode _ rfl) (by simp [Node.label]) _ List.mem_cons_self
    exact Nat.lt_of_le_of_lt (ih hoperand) hbelow

/-- There are no more steps than nodes, so the depth that is allowed for suffices. -/
theorem updateNode_before (henv : Represents env tenv)
    (h : env.arena.table.Unfolds id (updateOutline op span (target.outline 0) inner))
    (hoperand : env.arena.table.Unfolds operand (stepsOutline (target.outline 0) inner)) :
    updateNode env sub op true operand span = do
      return (← stepBefore tree op span target inner).2 := by
  have hdepth : inner.length < env.arena.nodes.size := by
    obtain ⟨node, hnode, _⟩ := Arena.exists_node_of_unfolds h
    exact Nat.lt_trans (length_lt_of_updateOutline henv h) (Arena.lt_size_of_node hnode)
  rw [← stepNode_before hsub hoperand op span hdepth, updateNode]
  simp only [bind_assoc, pure_bind]
  rfl

theorem updateNode_after (h : env.arena.table.Unfolds operand (target.outline 0)) :
    updateNode env sub op false operand span = stepAfter tree op target span := by
  have hsize : env.arena.nodes.size ≠ 0 := by
    obtain ⟨node, hnode, _⟩ := Arena.exists_node_of_unfolds h
    exact Nat.ne_zero_of_lt (Arena.lt_size_of_node hnode)
  obtain ⟨depth, hdepth⟩ := Nat.exists_eq_add_one_of_ne_zero hsize
  rw [updateNode, hdepth, stepNode_place hsub h, stepAfter]
  simp only [bind_assoc, pure_bind]
  rfl

/-! ### Calls -/

/-- A name is looked up among functions with the same names, which unfold to those of the program. -/
theorem callNodeName_eq (henv : Represents env tenv) (name : String) (args : List Value) (span : Span) :
    callNodeName env sub name args span = callName tenv tree name args span := by
  unfold callNodeName callName
  have hfunctions := henv.functions name
  revert hfunctions
  generalize env.function? name = id
  generalize tenv.function? name = f
  intro hfunctions
  cases hfunctions with
  | none =>
    cases Builtin.ofName? name with
    | none => rfl
    | some builtin =>
      show callBuiltin env.collaborators builtin args span =
        callBuiltin tenv.collaborators builtin args span
      rw [henv.collaborators]
  | some h => exact hsub.call h span args

omit hsub in
/-- Nothing but names and members is called. -/
theorem evalCallNode_of_not_isPlace {callee : NodeId} (hnode : env.arena.node callee = .ok node)
    (hplace : node.label.isPlace = false) (arguments : List NodeId) (span : Span) :
    evalCallNode env sub callee arguments span =
      fail (.reference (.undefined "<callee expression>") span) := by
  unfold evalCallNode
  rw [nodeAt_eq hnode]
  cases node with
  | ident name => cases hplace
  | member object key => cases key <;> cases hplace
  | _ => rfl

/-- Calls by number. What is called is decided by the node on one side, by the tree on the other. -/
theorem evalCallNode_eq (henv : Represents env tenv) {callee : Expr} {ids : List NodeId}
    {arguments : List Expr} (span : Span) (hcallee : env.arena.table.Unfolds id (callee.outline 0))
    (harguments : env.arena.table.UnfoldsAll ids (arguments.map (Expr.outline 0))) :
    evalCallNode env sub id ids span = evalCall tenv tree callee arguments span := by
  have hargs := evalAll_eq (hsub.evalList harguments)
  cases callee with
  | place target =>
    rw [Expr.outline_place] at hcallee
    cases target with
    | ident name range =>
      obtain ⟨below, hids, _, hnode⟩ := Arena.exists_ids_of_unfolds hcallee
      cases hids
      rw [evalCallNode, nodeAt_eq (hnode _ rfl), evalCall, pure_bind, hargs]
      exact bind_congr fun args => callNodeName_eq hsub henv name args span
    | member object method range =>
      obtain ⟨below, hids, _, hnode⟩ := Arena.exists_ids_of_unfolds hcallee
      rcases hids with _ | ⟨hobject, _ | _⟩
      rw [evalCallNode, nodeAt_eq (hnode _ rfl), evalCall, pure_bind, hargs, ← hsub.eval hobject]
      rfl
    | index object key range =>
      obtain ⟨below, hids, _, hnode⟩ := Arena.exists_ids_of_unfolds hcallee
      rcases hids with _ | ⟨hobject, _ | ⟨hkey, _ | _⟩⟩
      rw [evalCallNode, nodeAt_eq (hnode _ rfl), evalCall, pure_bind, hargs, ← hsub.eval hobject,
        ← hsub.eval hkey]
      simp only [methodName, bind_assoc]
  -- everything else is no place, and is refused on both sides
  | updateBefore op range inner target =>
    obtain ⟨node, hnode, hlabel, _, _⟩ := Arena.exists_node_of_unfolds hcallee
    refine evalCallNode_of_not_isPlace hnode ?_ ids span
    rw [hlabel, Expr.outline_updateBefore, updateOutline_eq]
    rfl
  | _ =>
    obtain ⟨node, hnode, hlabel, _, _⟩ := Arena.exists_node_of_unfolds hcallee
    refine evalCallNode_of_not_isPlace hnode ?_ ids span
    rw [hlabel]
    rfl

/-- The body of a function is the last of its numbers, those of the fallbacks are in front of it. -/
theorem callNode_eq {f : Function} (h : env.arena.table.Unfolds id f.outline) (span : Span)
    (args : List Value) : callNode env sub id span args = callFunction tree f args := by
  obtain ⟨g, hnode, hlabel, hchildren⟩ := Arena.exists_function_of_unfolds h
  obtain ⟨_, hnames⟩ := Label.function.inj hlabel
  -- the numbers of the fallbacks are in front of that of the body
  have hlength : (g.params.filterMap ParamOf.fallback).length =
      (f.params.flatMap fun p => outlineOption p.fallback).length := by
    have hlengths := hchildren.length_eq
    rw [Node.children, Function.outline, Outline.children, List.length_append,
      List.length_append] at hlengths
    exact Nat.succ.inj hlengths
  obtain ⟨hfallbacks, hbody⟩ := hchildren.of_append hlength
  rcases hbody with _ | ⟨hbody, _⟩
  have hparams := (NodeTable.UnfoldsAll.forall₂_optional hnames hfallbacks).imp
    fun p p' hp => And.intro hp.1 (hsub.evalOption hp.2)
  rw [outlineStmts_eq_map, ← Stmt.outline_block] at hbody
  have hcall : callNodeBody sub g args = callBody tree f args := by
    unfold callNodeBody callBody
    rw [bindParams_eq hparams args, hsub.exec hbody]
  unfold callNode callFunction
  rw [nodeAt_eq hnode, ← hcall]
  rfl

/-! ### Expressions -/

omit hsub in
theorem typeofNode_of_not_ident (hnode : env.arena.node id = .ok node)
    (hlabel : ∀ name, node.label ≠ .ident name) :
    typeofNode env sub id = sub.eval id >>= unary .typeof := by
  unfold typeofNode
  rw [nodeAt_eq hnode]
  cases node with
  | ident name => exact absurd rfl (hlabel name)
  | _ => rfl

/-- `typeof` by number. -/
theorem typeofNode_eq {operand : Expr} (h : env.arena.table.Unfolds id (operand.outline 0)) :
    typeofNode env sub id = evalTypeof tree operand := by
  have heval := hsub.eval h
  cases operand with
  | place target =>
    cases target with
    | ident name range =>
      obtain ⟨ids, hids, _, hnode⟩ := Arena.exists_ids_of_unfolds h
      cases hids
      -- Only a name is looked at before it is evaluated: one that is not bound is no failure here.
      rw [typeofNode, nodeAt_eq (hnode _ rfl), evalTypeof, ← heval]
      rfl
    | _ =>
      obtain ⟨node, hnode, hlabel, _, _⟩ := Arena.exists_node_of_unfolds h
      rw [typeofNode_of_not_ident hnode (fun name => by rw [hlabel]; exact Label.noConfusion), heval]
      rfl
  | updateBefore op range inner target =>
    obtain ⟨node, hnode, hlabel, _, _⟩ := Arena.exists_node_of_unfolds h
    rw [Expr.outline_updateBefore, updateOutline_eq] at hlabel
    rw [typeofNode_of_not_ident hnode (fun name => by rw [hlabel]; exact Label.noConfusion), heval]
    rfl
  | _ =>
    obtain ⟨node, hnode, hlabel, _, _⟩ := Arena.exists_node_of_unfolds h
    rw [typeofNode_of_not_ident hnode (fun name => by rw [hlabel]; exact Label.noConfusion), heval]
    rfl

theorem placeValue_eq (h : env.arena.table.Unfolds id (target.outline 0)) :
    (do nodeValue env sub (← nodeAt env id) (env.arena.span id)) = readPlace tree target := by
  cases target with
  | ident name span =>
    obtain ⟨ids, hids, hspan, hnode⟩ := Arena.exists_ids_of_unfolds h
    cases hids
    rw [nodeAt_eq (hnode _ rfl), hspan]
    rfl
  | member object name span =>
    obtain ⟨ids, hids, hspan, hnode⟩ := Arena.exists_ids_of_unfolds h
    rcases hids with _ | ⟨hobject, _ | _⟩
    rw [nodeAt_eq (hnode _ rfl), hspan, readPlace, locate, ← hsub.eval hobject]
    simp only [bind_assoc, pure_bind]
    rfl
  | index object key span =>
    obtain ⟨ids, hids, hspan, hnode⟩ := Arena.exists_ids_of_unfolds h
    rcases hids with _ | ⟨hobject, _ | ⟨hkey, _ | _⟩⟩
    rw [nodeAt_eq (hnode _ rfl), hspan, readPlace, locate, ← hsub.eval hobject, ← hsub.eval hkey]
    simp only [bind_assoc, pure_bind]
    rfl

theorem unaryValue_eq {operand : Expr} (op : UnaryOp) (span span' : Span)
    (h : env.arena.table.Unfolds id (operand.outline 0)) :
    nodeValue env sub (.unary op id) span = exprBody tenv tree (.unary op operand span') := by
  cases op with
  | typeof => exact typeofNode_eq hsub h
  | _ =>
    show (sub.eval id >>= _) = tree.eval operand >>= _
    rw [hsub.eval h]

/-- The names of the entries are in the node, their values below it. -/
theorem objectValue_eq {ids : List NodeId} {entries : List (String × Expr)}
    (h : env.arena.table.UnfoldsAll ids (entries.map fun entry => entry.2.outline 0)) :
    evalObject sub ((entries.map Prod.fst).zip ids) = evalObject tree entries := by
  apply evalObject_eq
  have hids := h.forall₂
  clear h
  induction hids with
  | nil => exact .nil
  | cons hfirst _ ih => exact .cons ⟨rfl, hsub.eval hfirst⟩ ih

/-- Expressions by number: the node is of the kind of the expression, and each number below it is one of
its parts. -/
theorem evalNode_eq (henv : Represents env tenv) {e : Expr}
    (h : env.arena.table.Unfolds id (e.outline 0)) :
    evalNode env sub id = evalExpr tenv tree e := by
  unfold evalNode evalExpr
  refine bind_congr fun _ => ?_
  -- the label names the kind, and the numbers unfold to the parts, one for one
  cases e with
  | literal value span =>
    obtain ⟨ids, hids, hspan, hnode⟩ := Arena.exists_ids_of_unfolds h
    cases hids
    rw [nodeAt_eq (hnode _ rfl)]
    rfl
  | place target => exact placeValue_eq hsub (Expr.outline_place target ▸ h)
  | array elements span =>
    rw [Expr.outline_array] at h
    obtain ⟨ids, hids, _, hnode⟩ := Arena.exists_ids_of_unfolds h
    rw [nodeAt_eq (hnode _ rfl)]
    exact evalArray_eq (hsub.evalList hids)
  | object entries span =>
    rw [Expr.outline_object] at h
    obtain ⟨ids, hids, _, hnode⟩ := Arena.exists_ids_of_unfolds h
    rw [nodeAt_eq (hnode _ rfl)]
    exact objectValue_eq hsub hids
  | unary op operand span =>
    rw [Expr.outline_unary] at h
    obtain ⟨ids, hids, _, hnode⟩ := Arena.exists_ids_of_unfolds h
    rcases hids with _ | ⟨hoperand, _ | _⟩
    rw [nodeAt_eq (hnode _ rfl)]
    exact unaryValue_eq hsub op _ span hoperand
  | updateBefore op span inner target =>
    rw [Expr.outline_updateBefore] at h
    have hsteps := h
    rw [updateOutline_eq] at hsteps
    obtain ⟨ids, hids, hspan, hnode⟩ := Arena.exists_ids_of_unfolds hsteps
    rcases hids with _ | ⟨hoperand, _ | _⟩
    rw [nodeAt_eq (hnode _ rfl), hspan]
    exact updateNode_before hsub henv h hoperand
  | updateAfter op target span =>
    rw [Expr.outline_updateAfter] at h
    obtain ⟨ids, hids, hspan, hnode⟩ := Arena.exists_ids_of_unfolds h
    rcases hids with _ | ⟨hoperand, _ | _⟩
    rw [nodeAt_eq (hnode _ rfl), hspan]
    exact updateNode_after hsub hoperand
  | binary op left right span =>
    rw [Expr.outline_binary] at h
    obtain ⟨ids, hids, _, hnode⟩ := Arena.exists_ids_of_unfolds h
    rcases hids with _ | ⟨hleft, _ | ⟨hright, _ | _⟩⟩
    rw [nodeAt_eq (hnode _ rfl), exprBody, ← hsub.eval hleft, ← hsub.eval hright, ← henv.maxStringLength]
    rfl
  | logical op left right span =>
    rw [Expr.outline_logical] at h
    obtain ⟨ids, hids, _, hnode⟩ := Arena.exists_ids_of_unfolds h
    rcases hids with _ | ⟨hleft, _ | ⟨hright, _ | _⟩⟩
    rw [nodeAt_eq (hnode _ rfl)]
    exact evalLogical_eq op (hsub.eval hleft) (hsub.eval hright)
  | assign op target value span =>
    rw [Expr.outline_assign] at h
    obtain ⟨ids, hids, hspan, hnode⟩ := Arena.exists_ids_of_unfolds h
    rcases hids with _ | ⟨htarget, _ | ⟨hvalue, _ | _⟩⟩
    rw [nodeAt_eq (hnode _ rfl), hspan]
    exact assignNode_eq hsub henv op span htarget hvalue
  | conditional test consequent alternate span =>
    rw [Expr.outline_conditional] at h
    obtain ⟨ids, hids, _, hnode⟩ := Arena.exists_ids_of_unfolds h
    rcases hids with _ | ⟨htest, _ | ⟨hconsequent, _ | ⟨halternate, _ | _⟩⟩⟩
    rw [nodeAt_eq (hnode _ rfl), exprBody, ← hsub.eval htest, ← hsub.eval hconsequent,
      ← hsub.eval halternate]
    rfl
  | sequence parts span =>
    rw [Expr.outline_sequence] at h
    obtain ⟨ids, hids, _, hnode⟩ := Arena.exists_ids_of_unfolds h
    rw [nodeAt_eq (hnode _ rfl)]
    exact evalSequence_eq (hsub.evalList hids) .undefined
  | call callee arguments span =>
    rw [Expr.outline_call] at h
    obtain ⟨ids, hids, hspan, hnode⟩ := Arena.exists_ids_of_unfolds h
    rcases hids with _ | ⟨hcallee, harguments⟩
    rw [nodeAt_eq (hnode _ rfl), hspan]
    exact evalCallNode_eq hsub henv span hcallee harguments

/-! ### Statements -/

omit hsub in
theorem startLoopNode_of_not_declare (hnode : env.arena.node id = .ok node)
    (hlabel : node.label.isExpression = true) :
    startLoopNode env sub (some id) = sub.eval id >>= fun _ => pure () := by
  rw [startLoopNode, nodeAt_eq hnode]
  cases node with
  | declare declarators => cases hlabel
  | _ => rfl

/-- A loop may start with a declaration or with an expression: the node tells which. -/
theorem startLoopNode_eq {id : Option NodeId} {init : Option ForInit}
    (h : env.arena.table.UnfoldsAll id.toList (init.map ForInit.outline).toList) :
    startLoopNode env sub id = startLoop tree init := by
  cases init with
  | none =>
    cases id with
    | none => rfl
    | some id => cases h
  | some init =>
    cases id with
    | none => cases h
    | some id =>
      rcases h with _ | ⟨hfirst, _⟩
      cases init with
      | declare declarators span =>
        obtain ⟨node, hnode, hlabel, _, _⟩ := Arena.exists_node_of_unfolds hfirst
        obtain ⟨built, rfl⟩ := Node.exists_declare_of_label hlabel
        -- A declaration at the head of a loop is laid out like a statement of its own.
        have hstmt : env.arena.table.Unfolds id ((Stmt.declare declarators span).outline 0) := hfirst
        rw [startLoopNode, nodeAt_eq hnode, startLoop, ← hsub.exec hstmt]
        rfl
      | evaluate e =>
        have hexpr : env.arena.table.Unfolds id (e.outline 0) := hfirst
        obtain ⟨node, hnode, hlabel, _, _⟩ := Arena.exists_node_of_unfolds hexpr
        have hexpression : node.label.isExpression = true := by
          rw [hlabel]
          exact (e.hasKind_outline 0).admits
        rw [startLoopNode_of_not_declare hnode hexpression, startLoop, hsub.eval hexpr]

omit hsub in
/-- What stands below a `for` loop. -/
theorem unfolds_forLoop {init' test' update' : Option NodeId} {body' : NodeId} {init : Option ForInit}
    {test update : Option Expr} {body : Outline} {table : NodeTable}
    (hinit : init'.isSome = init.isSome) (htest : test'.isSome = test.isSome)
    (hupdate : update'.isSome = update.isSome)
    (h : table.UnfoldsAll (init'.toList ++ test'.toList ++ update'.toList ++ [body'])
      ((init.map ForInit.outline).toList ++ outlineOption test ++ outlineOption update ++ [body])) :
    table.UnfoldsAll init'.toList (init.map ForInit.outline).toList ∧
      table.UnfoldsAll test'.toList (outlineOption test) ∧
      table.UnfoldsAll update'.toList (outlineOption update) ∧ table.Unfolds body' body := by
  simp only [List.append_assoc] at h
  obtain ⟨hinit, h⟩ := h.of_append (NodeTable.length_optional hinit)
  obtain ⟨htest, h⟩ := h.of_append (NodeTable.length_optional htest)
  obtain ⟨hupdate, h⟩ := h.of_append (NodeTable.length_optional hupdate)
  rcases h with _ | ⟨hbody, _⟩
  exact ⟨hinit, htest, hupdate, hbody⟩

/-- Statements by number. -/
theorem execNode_eq {s : Stmt} (h : env.arena.table.Unfolds id (s.outline 0)) :
    execNode env sub id = execStmt tree s := by
  unfold execNode execStmt
  refine bind_congr fun _ => ?_
  cases s with
  | declare declarators span =>
    rw [Stmt.outline_declare] at h
    obtain ⟨node, hnode, hlabel, _, hchildren⟩ := Arena.exists_node_of_unfolds h
    obtain ⟨built, rfl⟩ := Node.exists_declare_of_label hlabel
    have hdeclared := (NodeTable.UnfoldsAll.forall₂_optional (Label.declare.inj hlabel) hchildren).imp
      fun d d' hd => And.intro hd.1 (hsub.evalOption hd.2)
    rw [nodeAt_eq hnode, stmtBody, ← declare_eq hdeclared]
    rfl
  | block body span =>
    rw [Stmt.outline_block] at h
    obtain ⟨ids, hids, _, hnode⟩ := Arena.exists_ids_of_unfolds h
    rw [nodeAt_eq (hnode _ rfl)]
    exact execBlock_eq (hsub.execList hids)
  | ifThen test consequent span =>
    rw [Stmt.outline_ifThen] at h
    obtain ⟨ids, hids, _, hnode⟩ := Arena.exists_ids_of_unfolds h
    rcases hids with _ | ⟨htest, _ | ⟨hconsequent, _ | _⟩⟩
    rw [nodeAt_eq (hnode _ rfl), stmtBody, ← hsub.eval htest, ← hsub.exec hconsequent]
    rfl
  | ifElse test consequent alternate span =>
    rw [Stmt.outline_ifElse] at h
    obtain ⟨ids, hids, _, hnode⟩ := Arena.exists_ids_of_unfolds h
    rcases hids with _ | ⟨htest, _ | ⟨hconsequent, _ | ⟨halternate, _ | _⟩⟩⟩
    rw [nodeAt_eq (hnode _ rfl), stmtBody, ← hsub.eval htest, ← hsub.exec hconsequent,
      ← hsub.exec halternate]
    rfl
  -- parts that are missing have no number, so the four parts are told apart by the label
  | forLoop init test update body span =>
    rw [Stmt.outline_forLoop] at h
    obtain ⟨node, hnode, hlabel, _, hchildren⟩ := Arena.exists_node_of_unfolds h
    obtain ⟨init', test', update', body', rfl⟩ := Node.exists_forLoop_of_label hlabel
    obtain ⟨hinit, htest, hupdate⟩ := Label.forLoop.inj hlabel
    obtain ⟨hinit, htest, hupdate, hbody⟩ := unfolds_forLoop hinit htest hupdate hchildren
    rw [nodeAt_eq hnode, stmtBody, ← startLoopNode_eq hsub hinit, ← hsub.rounds,
      ← repeatLoop_eq (hsub.evalOption htest) (hsub.evalOption hupdate) (hsub.exec hbody) sub.rounds]
    rfl
  | whileLoop test body span =>
    rw [Stmt.outline_whileLoop] at h
    obtain ⟨ids, hids, _, hnode⟩ := Arena.exists_ids_of_unfolds h
    rcases hids with _ | ⟨htest, _ | ⟨hbody, _ | _⟩⟩
    rw [nodeAt_eq (hnode _ rfl), stmtBody, ← hsub.rounds]
    exact repeatLoop_eq (.some (hsub.eval htest)) .none (hsub.exec hbody) sub.rounds
  | returnValue argument span =>
    rw [Stmt.outline_returnValue] at h
    obtain ⟨ids, hids, _, hnode⟩ := Arena.exists_ids_of_unfolds h
    cases argument with
    | none =>
      cases hids
      rw [nodeAt_eq (hnode _ rfl)]
      rfl
    | some e =>
      rcases hids with _ | ⟨he, _ | _⟩
      rw [nodeAt_eq (hnode _ rfl)]
      exact returned_eq (.some (hsub.eval he))
  | expression e span =>
    rw [Stmt.outline_expression] at h
    obtain ⟨ids, hids, _, hnode⟩ := Arena.exists_ids_of_unfolds h
    rcases hids with _ | ⟨he, _ | _⟩
    rw [nodeAt_eq (hnode _ rfl), stmtBody, ← hsub.eval he]
    rfl
  | breakLoop span | continueLoop span | empty span =>
    obtain ⟨ids, hids, _, hnode⟩ := Arena.exists_ids_of_unfolds h
    cases hids
    rw [nodeAt_eq (hnode _ rfl)]
    rfl

end Nodes

/-- Down to any level nodes are evaluated as the tree is. -/
theorem mirrors_nodeEvaluators {env : NodeEnv} {tenv : Env} (henv : Represents env tenv)
    (level levels : Nat) :
    Mirrors env.arena.table (nodeEvaluators env level levels) (evaluators tenv level levels) := by
  induction levels generalizing level with
  | zero => exact ⟨fun _ => rfl, fun _ => rfl, fun _ _ _ => rfl, rfl⟩
  | succ levels ih =>
    have hsub := ih (level + 1)
    rw [nodeEvaluators, evaluators]
    refine ⟨fun he => ?_, fun hs => ?_, fun hf span args => ?_, rfl⟩
    · simp only [deepen_eq]
      exact evalNode_eq hsub henv he
    · simp only [deepen_eq]
      exact execNode_eq hsub hs
    · simp only [deepen_eq]
      exact callNode_eq hsub hf span args

end Run

/-! ## Programs -/

theorem forall₂_of_map_fst {α β : Type} {R : Nat × α → Nat × β → Prop} {l : List (Nat × α)}
    {l' : List (Nat × β)} (hsame : l.map Prod.fst = l'.map Prod.fst)
    (hR : ∀ a ∈ l, ∀ b ∈ l', a.1 = b.1 → R a b) : List.Forall₂ R l l' := by
  have hnumbers : List.Forall₂ (fun a b => a.1 = b.1) l l' := by
    rw [← List.forall₂_map_right_iff, ← List.forall₂_map_left_iff, hsame]
    exact List.forall₂_refl _
  refine List.forall₂_iff_zip.mpr ⟨hnumbers.length_eq, fun hmem => ?_⟩
  obtain ⟨ha, hb⟩ := List.of_mem_zip hmem
  exact hR _ ha _ hb (List.forall₂_zip hnumbers hmem)

/-- The last function with a name is found in either table. -/
theorem rel_foldl_insert {R : NodeId → Function → Prop} {functions : List (NodeId × FunctionNode)}
    {fs : List Function}
    (h : List.Forall₂ (fun entry f => entry.2.name = f.name ∧ R entry.1 f) functions fs)
    {table : Std.TreeMap String NodeId} {table' : FunctionTable}
    (htable : ∀ name : String, Option.Rel R table[name]? table'[name]?) (name : String) :
    Option.Rel R (functions.foldl (fun table f => table.insert f.2.name f.1) table)[name]?
      (fs.foldl (fun table f => table.insert f.name f) table')[name]? := by
  induction h generalizing table table' with
  | nil => exact htable name
  | @cons entry f functions fs hfirst _ ih =>
    refine ih fun other => ?_
    rw [Std.TreeMap.getElem?_insert, Std.TreeMap.getElem?_insert, hfirst.1]
    split
    · exact .some hfirst.2
    · exact htable other

namespace Arena

variable {arena : Arena} {program : Program} (htable : arena.table = program.nodeTable)
include htable

theorem forall₂_functions :
    ∃ functions, arena.functions = .ok functions ∧
      List.Forall₂ (fun entry f => entry.2.name = f.name ∧
        arena.table.Unfolds entry.1 (Function.outline f))
        functions program.functions := by
  obtain ⟨body, hbody, hin⟩ := exists_body htable
  obtain ⟨functions, hfunctions, hnumbers, hnodes⟩ :=
      functions_of_body hbody fun id hid => (hin id hid).2
  have hroot := getElem?_table_of_node hbody
  rw [htable] at hroot
  obtain ⟨hlisted, hunfolds⟩ := program.numberedFunctions_spec hroot
  refine ⟨functions, hfunctions, ?_⟩
  rw [← program.map_snd_numberedFunctions, List.forall₂_map_right_iff]
  rw [htable] at hnumbers ⊢
  -- Both lists go through the items of the program in order, so they name the same numbers.
  have hsame : functions.map Prod.fst = program.numberedFunctions.map Prod.fst :=
    hnumbers.trans hlisted.symm
  refine forall₂_of_map_fst hsame fun entry hentry numbered hnumbered hid => ?_
  have hunfolds' := hunfolds numbered hnumbered
  rw [← hid] at hunfolds'
  refine ⟨?_, hunfolds'⟩
  rw [← htable] at hunfolds'
  obtain ⟨g, hnode, hlabel, _⟩ := exists_function_of_unfolds hunfolds'
  cases (hnodes entry hentry).symm.trans hnode
  exact (Label.function.inj hlabel).1

variable {functions : List (NodeId × FunctionNode)}

theorem represents
    (h : List.Forall₂ (fun entry f => entry.2.name = f.name ∧
      arena.table.Unfolds entry.1 (Function.outline f)) functions program.functions)
    (fallbacks : Fallbacks) (collaborators : Collaborators) (maxStringLength : Nat) :
    Run.Represents ⟨⟨functionTable functions, collaborators, maxStringLength⟩, arena, fallbacks⟩
      ⟨FunctionTable.ofList program.functions, collaborators, maxStringLength⟩ where
  below {id node} hnode hlabel child hchild := by
    -- Number zero is the program's, and only the program has larger numbers below it.
    have hpos : 0 < id := by
      apply Nat.pos_of_ne_zero
      rintro rfl
      obtain ⟨body, hbody, _⟩ := exists_body htable
      cases hbody.symm.trans hnode
      exact hlabel rfl
    have hnumbered := getElem?_table_of_node hnode
    rw [htable] at hnumbered
    exact (program.child_bounds hnumbered hchild).2.2 hpos
  functions name := by
    refine rel_foldl_insert h (fun other => ?_) name
    simp
  collaborators := rfl
  maxStringLength := rfl

theorem span_eq (id : NodeId) :
    arena.span id = (program.nodeTable[id]?.map NumberedNode.span).getD {} := by
  rw [← htable, getElem?_table, Arena.span, Option.map_map]
  rfl

/-- The function with a number, in the arena and in the program. -/
theorem rel_function (id : NodeId) :
    Option.Rel (fun id f => arena.table.Unfolds id (Function.outline f))
      (arena.nodes[id]?.bind fun spanned => spanned.node.function?.map fun _ => id)
      ((program.numberedFunctions.find? fun f => f.1 == id).map Prod.snd) := by
  cases hfind : program.numberedFunctions.find? fun f => f.1 == id with
  | none =>
    -- every function of the arena is listed with its number
    have hnone : (arena.nodes[id]?.bind fun spanned =>
          spanned.node.function?.map fun _ => id) = none := by
      rw [Option.bind_eq_none_iff]
      intro spanned hspanned
      rw [Option.map_eq_none_iff, ← Option.not_isSome_iff_eq_none]
      intro hfunction
      have hnode : arena.node id = .ok spanned.node := by rw [Arena.node, hspanned]
      have hlisted : id ∈ program.numberedFunctions.map Prod.fst := by
        rw [program.map_fst_numberedFunctions, List.mem_filter, List.mem_range, ← htable, size_table]
        exact ⟨lt_size_of_node hnode, (holdsFunction_table hnode).trans hfunction⟩
      obtain ⟨numbered, hnumbered, hid⟩ := List.mem_map.mp hlisted
      exact List.find?_eq_none.mp hfind numbered hnumbered (beq_iff_eq.mpr hid)
    rw [hnone]
    exact .none
  | some numbered =>
    have hid := List.find?_some hfind
    obtain rfl := beq_iff_eq.mp hid
    obtain ⟨body, hbody, _⟩ := exists_body htable
    have hroot := getElem?_table_of_node hbody
    rw [htable] at hroot
    have hunfolds := (program.numberedFunctions_spec hroot).2 numbered (List.mem_of_find?_eq_some hfind)
    rw [← htable] at hunfolds
    obtain ⟨g, hnode, _⟩ := exists_function_of_unfolds hunfolds
    obtain ⟨spanned, hspanned, hfunction⟩ := exists_spanned_of_node hnode
    rw [hspanned, Option.bind_some, hfunction]
    exact .some hunfolds

/-- A run starts with the same function. -/
theorem rel_entry
    (h : List.Forall₂ (fun entry f => entry.2.name = f.name ∧
      arena.table.Unfolds entry.1 (Function.outline f)) functions program.functions)
    (start : NodeId) :
    (∃ e, arena.entry functions start = .error e ∧ program.entry start = .error e) ∨
      ∃ id f, arena.entry functions start = .ok id ∧ program.entry start = .ok f ∧
        arena.table.Unfolds id f.outline := by
  have hspan : arena.span start = if start = 0 then program.span
      else (program.nodeTable[start]?.map NumberedNode.span).getD {} := by
    rw [span_eq htable]
    split
    · rename_i hzero
      rcases program.nodeTable_unfolds with ⟨hroot, _⟩
      rw [hzero, hroot]
      rfl
    · rfl
  have hfound : Option.Rel (fun id f => arena.table.Unfolds id (Function.outline f))
      (if start = 0 then functions.head?.map Prod.fst
        else arena.nodes[start]?.bind fun spanned => spanned.node.function?.map fun _ => start)
      (if start = 0 then program.functions.head?
        else (program.numberedFunctions.find? fun f => f.1 == start).map Prod.snd) := by
    split
    · revert h
      generalize program.functions = fs
      intro h
      cases h with
      | nil => exact .none
      | cons hfirst _ => exact .some hfirst.2
    · exact rel_function htable start
  -- both sides now ask for one function, and name the same range if there is none
  unfold Arena.entry Program.entry
  dsimp only
  revert hfound
  generalize (if start = 0 then functions.head?.map Prod.fst
    else arena.nodes[start]?.bind fun spanned => spanned.node.function?.map fun _ => start) = found
  generalize (if start = 0 then program.functions.head?
    else (program.numberedFunctions.find? fun f => f.1 == start).map Prod.snd) = found'
  intro hfound
  cases hfound with
  | none => exact .inl ⟨_, rfl, by rw [hspan]⟩
  | some hunfolds => exact .inr ⟨_, _, rfl, rfl, hunfolds⟩

theorem runBy_eq
    (h : List.Forall₂ (fun entry f => entry.2.name = f.name ∧
      arena.table.Unfolds entry.1 (Function.outline f)) functions program.functions)
    {sub : NodeEvaluators} {tree : Evaluators} (hsub : Run.Mirrors arena.table sub tree)
    (context : RunContext) :
    arena.runBy functions context sub.call = Run.programBy program context tree.call := by
  unfold Arena.runBy Run.programBy
  refine bind_congr fun _ => ?_
  rcases rel_entry htable h context.start with ⟨e, hentry, hentry'⟩ | ⟨id, f, hentry, hentry', hunfolds⟩
  · rw [hentry, hentry']
    rfl
  · obtain ⟨_, _, _, hspan, _⟩ := exists_node_of_unfolds hunfolds
    rw [hentry, hentry']
    show (context.args.mapM _ >>= fun args => sub.call (id, arena.span id) args >>= fun v =>
      Run.exportDatum v (arena.span id)) = _
    simp only [hsub.call hunfolds, hspan]
    rfl

/-- The arena of a program is run as the program is, whatever is done at nodes of the wrong kind. -/
theorem runWith_eq_run (fallbacks : Fallbacks) (context : RunContext) (limits : Limits)
    (collaborators : Collaborators) :
    arena.runWith fallbacks context limits collaborators = program.run context limits collaborators := by
  obtain ⟨functions, hfunctions, hlisted⟩ := forall₂_functions htable
  have hmirrors := Run.mirrors_nodeEvaluators
    (represents htable hlisted fallbacks collaborators limits.maxStringLength) 0 (limits.stepBudget + 1)
  have hrun : arena.runBy functions context _ = Run.programBy program context _ :=
    runBy_eq htable hlisted hmirrors context
  unfold Arena.runWith Program.run Program.runWithin Run.program
  rw [hfunctions]
  exact congrArg Outcome.ofResult (congrFun hrun _)

end Arena

/-- A program with the nodes of one that was read runs as that does, since both run as its arena. -/
theorem Program.run_eq_of_nodeTable {tokens : List Lexeme} {program program' : Program}
    (h : Program.ofTokens? tokens = .ok program) (htable : program'.nodeTable = program.nodeTable)
    (context : RunContext) (limits : Limits) (collaborators : Collaborators) :
    program'.run context limits collaborators = program.run context limits collaborators := by
  rcases Arena.ofTokens?_alike tokens with ⟨e, he, _⟩ | ⟨read, arena, hread, _, harena⟩
  · cases he.symm.trans h
  · cases hread.symm.trans h
    rw [← Arena.runWith_eq_run harena {}, ← Arena.runWith_eq_run (harena.trans htable.symm) {}]

end MeteredScript
