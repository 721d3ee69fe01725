import MeteredScript.Proofs.Congruence
import MeteredScript.Proofs.NodeTable
import MeteredScript.Proofs.Outline

namespace MeteredScript

/-! # Nodes below a node

Evaluation goes from an expression or a statement to what is inside of it. In the outline of a program
this is below it, so a property that the nodes below a node inherit from it is kept on the way down.
One such property is to be among the nodes that `preorder` lists.
-/

/-! ## What evaluation goes on to is below -/

theorem mem_outlineOption {c : Expr} {e : Option Expr} (hc : c ∈ e.toList) :
    c.outline 0 ∈ outlineOption e := by
  rw [Option.mem_toList] at hc
  rw [outlineOption, hc]
  exact List.mem_cons_self

namespace NodeTable.Inherited

variable {P : Outline → Prop} (hP : Inherited P)
include hP

/-- Steps in front of a place have the place below them. -/
theorem target {op : UpdateOp} {span : Span} {target : Outline} {inner : List (UpdateOp × Span)}
    (h : P (updateOutline op span target inner)) : P target := by
  induction inner generalizing op span with
  | nil => exact hP _ h _ List.mem_cons_self
  | cons step inner ih => exact ih (hP _ h _ List.mem_cons_self)

theorem placeOperands {p : Place} (h : P (p.outline 0)) :
    ∀ c ∈ p.operands, P (c.outline 0) := by
  intro c hc
  refine hP _ h _ ?_
  cases p with
  | ident name span => cases hc
  | member object name span =>
    rcases List.mem_singleton.mp hc with rfl
    exact List.mem_cons_self
  | index object key span =>
    simp only [Place.operands, List.mem_cons, List.not_mem_nil, or_false] at hc
    rcases hc with rfl | rfl
    · exact List.mem_cons_self
    · exact List.mem_cons_of_mem _ List.mem_cons_self

/-- The operands of an expression are below it. -/
theorem exprOperands {e : Expr} (h : P (e.outline 0)) :
    ∀ c ∈ e.operands, P (c.outline 0) := by
  intro c hc
  unfold Expr.outline at h
  rw [deepen_eq] at h
  -- the outlines inside are made one level further down, which makes no difference
  simp only [Expr.outline_level (0 + 1), Place.outline_level (0 + 1), outlineAll_level (0 + 1),
    outlineEntries_level (0 + 1), outlineAll_eq_map, outlineEntries_eq_map] at h
  cases e with
  | literal value span => cases hc
  | place p => exact hP.placeOperands h c hc
  | array elements span | sequence elements span => exact hP _ h _ (List.mem_map_of_mem hc)
  | object entries span =>
    obtain ⟨entry, hentry, rfl⟩ := List.mem_map.mp hc
    exact hP _ h _ (List.mem_map_of_mem hentry)
  | unary op operand span =>
    rcases List.mem_singleton.mp hc with rfl
    exact hP _ h _ List.mem_cons_self
  | updateBefore op span inner target => exact hP.placeOperands (hP.target h) c hc
  | updateAfter op target span => exact hP.placeOperands (hP _ h _ List.mem_cons_self) c hc
  | binary op left right span | logical op left right span =>
    have hmem : c.outline 0 ∈ [left, right].map (Expr.outline 0) := List.mem_map_of_mem hc
    exact hP _ h _ hmem
  | assign op target value span =>
    rcases List.mem_append.mp hc with htarget | hvalue
    · exact hP.placeOperands (hP _ h _ List.mem_cons_self) c htarget
    · rcases List.mem_singleton.mp hvalue with rfl
      exact hP _ h _ (List.mem_cons_of_mem _ List.mem_cons_self)
  | conditional test consequent alternate span =>
    have hmem : c.outline 0 ∈ [test, consequent, alternate].map (Expr.outline 0) :=
      List.mem_map_of_mem hc
    exact hP _ h _ hmem
  | call callee arguments span =>
    rcases List.mem_append.mp hc with hcallee | hargument
    · -- of a callee only the parts of a place are evaluated
      cases callee with
      | place p =>
        have hplace := hP _ h _ List.mem_cons_self
        rw [Expr.outline_place] at hplace
        exact hP.placeOperands hplace c hcallee
      | _ => cases hcallee
    · exact hP _ h _ (List.mem_cons_of_mem _ (List.mem_map_of_mem hargument))

/-- The optional expressions of a list are below a node that has them all below it. -/
theorem optional {α : Type} {value : α → Option Expr} {l : List α} {outline : Outline}
    (h : P outline)
    (hsub : ∀ o ∈ l.flatMap fun a => outlineOption (value a), o ∈ outline.children) :
    ∀ c ∈ l.flatMap fun a => (value a).toList, P (c.outline 0) := by
  intro c hc
  obtain ⟨a, ha, hvalue⟩ := List.mem_flatMap.mp hc
  exact hP _ h _ (hsub _ (List.mem_flatMap.mpr ⟨a, ha, mem_outlineOption hvalue⟩))

/-- The expressions of a statement are below it. -/
theorem stmtOperands {s : Stmt} (h : P (s.outline 0)) :
    ∀ c ∈ s.operands, P (c.outline 0) := by
  intro c hc
  unfold Stmt.outline at h
  rw [deepen_eq] at h
  cases s with
  | declare declarators span => exact hP.optional h (fun o ho => ho) c hc
  | ifThen test consequent span | whileLoop test consequent span =>
    rcases List.mem_singleton.mp hc with rfl
    exact hP _ h _ List.mem_cons_self
  | ifElse test consequent alternate span =>
    rcases List.mem_singleton.mp hc with rfl
    exact hP _ h _ List.mem_cons_self
  | forLoop init test update body span =>
    refine hP _ h _ (List.mem_append_left _ ?_)
    rw [List.append_assoc]
    rcases List.mem_append.mp hc with hinit | hrest
    · -- an initializer that is a declaration is run as a statement
      refine List.mem_append_left _ ?_
      cases init with
      | none => cases hinit
      | some init =>
        cases init with
        | declare declarators span => cases hinit
        | evaluate e =>
          rcases List.mem_singleton.mp hinit with rfl
          exact List.mem_cons_self
    · refine List.mem_append_right _ ?_
      rcases List.mem_append.mp hrest with htest | hupdate
      · exact List.mem_append_left _ (mem_outlineOption htest)
      · exact List.mem_append_right _ (mem_outlineOption hupdate)
  | returnValue argument span =>
    cases argument with
    | none => cases hc
    | some e =>
      rcases List.mem_singleton.mp hc with rfl
      exact hP _ h _ List.mem_cons_self
  | expression e span =>
    rcases List.mem_singleton.mp hc with rfl
    exact hP _ h _ List.mem_cons_self
  | block body span | breakLoop span | continueLoop span | empty span => cases hc

/-- The statements inside a statement are below it. -/
theorem stmtInner {s : Stmt} (h : P (s.outline 0)) :
    ∀ t ∈ s.inner, P (t.outline 0) := by
  intro t ht
  unfold Stmt.outline at h
  rw [deepen_eq] at h
  simp only [Stmt.outline_level (0 + 1), outlineStmts_level (0 + 1), outlineStmts_eq_map] at h
  cases s with
  | block body span => exact hP _ h _ (List.mem_map_of_mem ht)
  | ifThen test consequent span | whileLoop test consequent span =>
    rcases List.mem_singleton.mp ht with rfl
    exact hP _ h _ (List.mem_cons_of_mem _ List.mem_cons_self)
  | ifElse test consequent alternate span =>
    have hmem : t.outline 0 ∈ [consequent, alternate].map (Stmt.outline 0) := List.mem_map_of_mem ht
    exact hP _ h _ (List.mem_cons_of_mem _ hmem)
  | forLoop init test update body span =>
    rcases List.mem_append.mp ht with hinit | hbody
    · -- a declaration has the same outline as an initializer and as a statement
      refine hP _ h _ (List.mem_append_left _ (List.mem_append_left _ (List.mem_append_left _ ?_)))
      cases init with
      | none => cases hinit
      | some init =>
        cases init with
        | declare declarators span =>
          rcases List.mem_singleton.mp hinit with rfl
          unfold Stmt.outline
          rw [deepen_eq]
          exact List.mem_cons_self
        | evaluate e => cases hinit
    · rcases List.mem_singleton.mp hbody with rfl
      exact hP _ h _ (List.mem_append_right _ List.mem_cons_self)
  | _ => cases ht

/-- The fallbacks of a function are below it. -/
theorem fallbacks {f : Function} (h : P f.outline) :
    ∀ c ∈ f.fallbacks, P (c.outline 0) := by
  intro c hc
  exact hP.optional h (fun o ho => List.mem_append_left _ ho) c hc

/-- So is its body, as a block. -/
theorem body {f : Function} (h : P f.outline) :
    P ((Stmt.block f.body f.bodySpan).outline 0) := by
  unfold Stmt.outline
  rw [deepen_eq]
  dsimp only
  rw [outlineStmts_level (0 + 1)]
  exact hP _ h _ (List.mem_append_right _ List.mem_cons_self)

end NodeTable.Inherited

/-! ## Lists of nodes -/

namespace Outline

mutual

/-- Neither the number of the level nor what is behind shows in the nodes listed. -/
theorem preorderOnto_eq (level : Nat) (rest : List Outline) (outline : Outline) :
    preorderOnto level rest outline = preorderOnto 0 [] outline ++ rest := by
  cases outline with
  | node label span children =>
    unfold preorderOnto
    rw [deepen_eq, deepen_eq, preorderAllOnto_eq (level + 1), preorderAllOnto_eq (0 + 1) [],
      List.append_nil, List.cons_append]

theorem preorderAllOnto_eq (level : Nat) (rest outlines : List Outline) :
    preorderAllOnto level rest outlines = outlines.flatMap preorder ++ rest := by
  cases outlines with
  | nil =>
    rw [preorderAllOnto]
    rfl
  | cons outline others =>
    rw [preorderAllOnto, preorderOnto_eq level, preorderAllOnto_eq level rest others,
      List.flatMap_cons, List.append_assoc]
    rfl

end

/-- A node is listed before the nodes below it. -/
theorem preorder_eq (outline : Outline) :
    outline.preorder = outline :: outline.children.flatMap preorder := by
  cases outline with
  | node label span children =>
    rw [preorder, preorderOnto, deepen_eq, preorderAllOnto_eq, List.append_nil, Outline.children]

theorem mem_preorder_self (outline : Outline) : outline ∈ outline.preorder := by
  rw [preorder_eq]
  exact List.mem_cons_self

theorem mem_preorder_of_child {outline child node : Outline} (hchild : child ∈ outline.children)
    (hnode : node ∈ child.preorder) : node ∈ outline.preorder := by
  rw [preorder_eq]
  exact List.mem_cons_of_mem _ (List.mem_flatMap.mpr ⟨child, hchild, hnode⟩)

mutual

theorem inherited_mem_preorder (root : Outline) : NodeTable.Inherited (· ∈ root.preorder) := by
  intro outline houtline child hchild
  cases root with
  | node label span children =>
    rw [preorder_eq] at houtline
    rcases List.mem_cons.mp houtline with rfl | hbelow
    · exact mem_preorder_of_child hchild child.mem_preorder_self
    · rw [preorder_eq]
      exact List.mem_cons_of_mem _ (inherited_mem_preorderAll children outline hbelow child hchild)

theorem inherited_mem_preorderAll (roots : List Outline) :
    NodeTable.Inherited (· ∈ roots.flatMap preorder) := by
  intro outline houtline child hchild
  cases roots with
  | nil => cases houtline
  | cons root others =>
    rw [List.flatMap_cons] at houtline
    rw [List.flatMap_cons]
    rcases List.mem_append.mp houtline with hfirst | hothers
    · exact List.mem_append_left _ (inherited_mem_preorder root outline hfirst child hchild)
    · exact List.mem_append_right _ (inherited_mem_preorderAll others outline hothers child hchild)

end

end Outline

theorem Program.mem_preorder_function {program : Program} {f : Function} (hf : f ∈ program.functions)
    {node : Outline} (hnode : node ∈ f.outline.preorder) : node ∈ program.outline.preorder := by
  rw [Program.mem_functions] at hf
  exact Outline.mem_preorder_of_child (List.mem_map_of_mem hf) hnode

/-! ## Evaluations related below some nodes -/

namespace Run

/-- Two evaluations that are related on everything whose outline has the property. -/
structure RelatedOn (P : Outline → Prop) (R : ∀ {α : Type}, Run α → Run α → Prop)
    (sub sub' : Evaluators) : Prop where
  eval {e : Expr} : P (e.outline 0) → R (sub.eval e) (sub'.eval e)
  exec {s : Stmt} : P (s.outline 0) → R (sub.exec s) (sub'.exec s)
  rounds : sub.rounds = sub'.rounds

namespace RelatedOn

variable {P : Outline → Prop} {names : String → Prop} {R : ∀ {α : Type}, Run α → Run α → Prop}
  {env env' : Env} {sub sub' : Evaluators} (hsub : RelatedOn P R sub sub')
  (h : Correspondence id names env env' R) (hP : NodeTable.Inherited P)
include hsub h hP

omit h hP in
theorem evalId {c : Expr} (hc : P (c.outline 0)) : R (sub.eval c) (sub'.eval (c.mapSpans id)) := by
  rw [Expr.mapSpans_id]
  exact hsub.eval hc

omit h hP in
theorem execId {t : Stmt} (ht : P (t.outline 0)) : R (sub.exec t) (sub'.exec (t.mapSpans id)) := by
  rw [Stmt.mapSpans_id]
  exact hsub.exec ht

omit hP in
/-- Expressions one after the other, all of them below such nodes. -/
theorem evalAll {es : List Expr} (hes : ∀ c ∈ es, P (c.outline 0)) :
    R (Run.evalAll sub es) (Run.evalAll sub' es) := by
  have hall := h.evalAll es fun c hc => hsub.evalId (hes c hc)
  rwa [funext Expr.mapSpans_id, List.map_id'] at hall

theorem evalCall {callee : Expr} {arguments : List Expr} {span : Span}
    (he : P ((Expr.call callee arguments span).outline 0))
    (hnamed : ∀ name range args, callee = .place (.ident name range) →
      R (Run.callName env sub name args span) (Run.callName env' sub' name args span)) :
    R (Run.evalCall env sub callee arguments span) (Run.evalCall env' sub' callee arguments span) := by
  have hcall := h.evalCall callee arguments span
    (fun c hc => hsub.evalId (hP.exprOperands he c hc)) hnamed
  rwa [Expr.mapSpans_id, funext Expr.mapSpans_id, List.map_id'] at hcall

/-- The rule for expressions, if what is below is related. -/
theorem exprBody {e : Expr} (he : P (e.outline 0)) (hname : ∀ name ∈ e.assignedName?, names name)
    (hcall : ∀ callee arguments span, e = .call callee arguments span →
      R (Run.evalCall env sub callee arguments span)
        (Run.evalCall env' sub' callee arguments span)) :
    R (Run.exprBody env sub e) (Run.exprBody env' sub' e) := by
  have hbody := h.exprBody e (fun c hc => hsub.evalId (hP.exprOperands he c hc)) hname (by
    intro callee arguments span heq
    rw [Expr.mapSpans_id, funext Expr.mapSpans_id, List.map_id']
    exact hcall callee arguments span heq)
  rwa [Expr.mapSpans_id] at hbody

omit hP in
theorem declareOne {d : Declarator} (hd : ∀ c ∈ d.init.toList, P (c.outline 0))
    (hname : names d.name) : R (Run.declareOne sub d) (Run.declareOne sub' d) := by
  have hone := h.declareOne d (fun c hc => hsub.evalId (hd c hc)) hname
  rwa [Declarator.mapSpans_id_eq] at hone

/-- The rule for statements, if what is below is related. -/
theorem stmtBody (hstop : R (unfinished : Run Completion) unfinished) {s : Stmt}
    (hs : P (s.outline 0))
    (hdeclare : ∀ d ∈ s.declarators, R (Run.declareOne sub d) (Run.declareOne sub' d)) :
    R (Run.stmtBody sub s) (Run.stmtBody sub' s) := by
  have hbody := h.stmtBody s (fun c hc => hsub.evalId (hP.stmtOperands hs c hc))
    (by
      intro d hd
      rw [Declarator.mapSpans_id_eq]
      exact hdeclare d hd)
    (fun t ht => hsub.execId (hP.stmtInner hs t ht)) (by
      intro test update body hparts hround
      rw [hsub.rounds]
      exact h.repeatLoop hstop test update body hparts hround _)
  rwa [Stmt.mapSpans_id] at hbody

theorem callBody {f : Function} (hf : P f.outline) (hnames : ∀ p ∈ f.params, names p.name)
    (args : List Value) : R (Run.callBody sub f args) (Run.callBody sub' f args) := by
  have hbody := h.callBody f args (fun c hc => hsub.evalId (hP.fallbacks hf c hc)) hnames
    (hsub.execId (hP.body hf))
  rwa [Function.mapSpans_id] at hbody

end RelatedOn

/-! ## The same evaluation below some nodes -/

/-- Equality is kept by all rules. -/
theorem congruence_eq : Congruence id fun x y => x = y where
  pure _ := rfl
  bind hxy hfg := by rw [hxy, funext hfg]
  fail e _ := by rw [Error.mapSpan_id]
  crash _ := rfl
  charge _ := rfl
  enter := rfl
  primitive _ := rfl

/-- Environments with the same functions and the same bound on strings. -/
theorem CongruenceOn.correspondence {names : String → Prop}
    {R : ∀ {α : Type}, Run α → Run α → Prop} (h : CongruenceOn id names R) {env env' : Env}
    (hfunctions : env'.functions = env.functions)
    (hbound : env'.maxStringLength = env.maxStringLength) : Correspondence id names env env' R where
  toCongruenceOn := h
  functions name := by
    have hid : Function.mapSpans id = id := funext Function.mapSpans_id
    rw [hid, Option.map_id, id, EnvOf.function?, EnvOf.function?, hfunctions]
  concat left right := by
    rw [hbound]
    exact h.concat _ left right

/-- From some state on the computation answers with the value. -/
def Gives {α : Type} (x : Run α) (a : α) : Prop := ∃ s t, x s = .ok a t

/-- What follows behind a computation needs to be the same for its answers only. -/
theorem bind_congr_of_gives {α β : Type} {x : Run α} {f g : α → Run β}
    (h : ∀ a, x.Gives a → f a = g a) : x >>= f = x >>= g := by
  funext s
  cases hr : x s with
  | ok a t => rw [bind_of_ok hr, bind_of_ok hr, h a ⟨s, t, hr⟩]
  | error halt t => rw [bind_of_error hr, bind_of_error hr]

end Run

namespace Evaluators

/-- Evaluations that do the same on everything whose outline has the property. -/
structure SameOn (P : Outline → Prop) (sub sub' : Evaluators) : Prop
    extends Run.RelatedOn P (fun x y => x = y) sub sub' where
  call {f : Function} : P f.outline → ∀ args, sub.call f args = sub'.call f args

variable {P : Outline → Prop} {sub sub' : Evaluators} {env env' : Env}

/-- Tying the rules keeps evaluations the same, in environments that have the same functions and the
same bound on strings. What their collaborators do shows only in calls of names. -/
theorem SameOn.tie (hsame : SameOn P sub sub') (hP : NodeTable.Inherited P)
    (hfunctions : env'.functions = env.functions)
    (hbound : env'.maxStringLength = env.maxStringLength)
    (hnamed : ∀ name range arguments span,
      P ((Expr.call (.place (.ident name range)) arguments span).outline 0) →
      ∀ args, (Run.evalAll sub arguments).Gives args →
        Run.callName env sub name args span = Run.callName env' sub' name args span)
    (rounds : Nat) : SameOn P (sub.tie env rounds) (sub'.tie env' rounds) := by
  have hcorr := Run.congruence_eq.correspondence hfunctions hbound
  refine ⟨⟨?_, ?_, rfl⟩, ?_⟩
  · intro e he
    have hbody := hsame.exprBody hcorr hP he (fun _ _ => trivial) (by
      rintro callee arguments span rfl
      rcases Classical.em (∃ name range, callee = .place (.ident name range)) with hname | hother
      · obtain ⟨name, range, rfl⟩ := hname
        have hargs := hsame.evalAll hcorr fun c hc =>
          hP.exprOperands he c (List.mem_append_right _ hc)
        calc Run.evalCall env sub (.place (.ident name range)) arguments span
          _ = Run.evalAll sub arguments >>= fun args => Run.callName env' sub' name args span :=
            Run.bind_congr_of_gives (hnamed name range arguments span he)
          _ = Run.evalCall env' sub' (.place (.ident name range)) arguments span := by
            rw [hargs]
            rfl
      · exact hsame.evalCall hcorr hP he fun name range args hcallee =>
          absurd ⟨name, range, hcallee⟩ hother)
    exact congrArg (Run.enter >>= fun _ => ·) hbody
  · intro s hs
    have hbody := hsame.stmtBody hcorr hP rfl hs fun d hd =>
      hsame.declareOne hcorr (fun c hc => hP.stmtOperands hs c (s.init_mem_operands hd hc)) trivial
    exact congrArg (Run.enter >>= fun _ => ·) hbody
  · intro f hf args
    have hbody := hsame.callBody hcorr hP hf (fun _ _ => trivial) args
    exact congrArg (fun x => Run.enter >>= fun _ => Run.inFrame x) hbody

end Evaluators

end MeteredScript
