import MeteredScript.Proofs.Bindings
import MeteredScript.Proofs.Isolation

namespace MeteredScript

/-! # Resolved constants are the values

`Program.dependencies` resolves names at call sites without looking at the order in which things
happen. What it resolves a name to is what the name evaluates to whenever the name is settled: a
variable of the function once it is declared, another name if the last datum given under it is a
constant. Then the token or the contract that the constant names is listed, and is the one asked.

As with the guard of `Proofs.Safety` this is shown of a run that checks it at every call site and is
the same run. The checks know the function whose body is running. The invariant is that the frame of
this function holds under a name that is known to be a constant nothing else than the constant.
-/

/-! ## Checked runs -/

/-- Collaborators that fail with `stray` when asked about what is not listed. -/
def Collaborators.only (listed : Dependencies) (stray : Error) (c : Collaborators) :
    Collaborators where
  tokenExecutor := c.tokenExecutor.map fun execute id args =>
    if id ∈ listed.tokens then execute id args else .error stray
  contractCaller := c.contractCaller.map fun call address signature returnType args =>
    if address ∈ listed.contracts then call address signature returnType args else .error stray

/-- Whether what a name stands for in a function is settled: for a variable of the function that it
is declared, for another name that the last datum given under it is a constant. -/
def Function.isSettled (f : Function) (context : RunContext) (frames : Frames) (name : String) :
    Bool :=
  match f.bindings[name]? with
  | some _ => frames.isLocal name
  | none => (context.constant? name).isSome

/-- The call that an expression of a function is, where its first argument is a name that is resolved
and settled. -/
def Function.settledCall? (f : Function) (context : RunContext) (frames : Frames) (e : Expr) :
    Option KnownCall := do
  let site ← (e.outline 0).callSite?
  let call ← site.resolved? f.bindings context.constants
  match site.argument with
  | .name name => if f.isSettled context frames name then some call else none
  | .literal _ => none

namespace Run

variable (context : RunContext) (listed : Dependencies) (stray : Error) (env : Env)

/-- Calls the function that a name stands for, at a call site that is resolved and settled. It fails
with `stray` if the first argument is not the constant, and where the constant names a token or a
contract also if something is asked about that is not listed. -/
def callSettled (sub : Evaluators) (call : KnownCall) (name : String) (args : List Value)
    (span : Span) : Run Value :=
  if args.head? = some call.2.value then
    if call.isListable then
      callName { env with collaborators := env.collaborators.only listed stray } sub name args span
    else callName env sub name args span
  else fail stray

/-- The value of an expression of a function that has been entered, with the checks at call sites. -/
def checkedBody (f : Function) (sub : Evaluators) (e : Expr) : Run Value := do
  match f.settledCall? context (← get).frames e, e with
  | some call, .call (.place (.ident name _)) arguments span => do
    let args ← evalAll sub arguments
    callSettled listed stray env sub call name args span
  | _, e => exprBody env sub e

/-- Evaluation inside a function with the checks at call sites. -/
def checkedEvaluators : Nat → Function → Evaluators
  | 0, _ => evaluators env 0 0
  | levels + 1, f =>
    let sub := checkedEvaluators levels f
    { eval := fun e => do
        enter
        checkedBody context listed stray env f sub e
      exec := execStmt sub
      call := fun g args => callFunction (checkedEvaluators levels g) g args
      rounds := levels + 1 }

end Run

/-- Runs a program with the checks at call sites. -/
def Program.runChecked (program : Program) (stray : Error) (context : RunContext) (limits : Limits)
    (collaborators : Collaborators) : Outcome :=
  let env : Env := ⟨FunctionTable.ofList program.functions, collaborators, limits.maxStringLength⟩
  let checked := Run.checkedEvaluators context (program.dependencies context) stray env
    (limits.stepBudget + 1)
  .ofResult (Run.programBy program context (fun f => (checked f).call f)
    { meter := { limit := limits.stepBudget } })

/-! ## Frames that keep constants -/

/-- The names given from outside whose last datum is a constant are bound to the constant. -/
def Frames.Imports (context : RunContext) (frames : Frames) : Prop :=
  ∀ name c, context.constant? name = some c → frames.globals[name]? = some c.value

/-- The latest frame is one of the function: a name that is known to be a constant is bound to the
constant or not at all, and a name that the function does not bind is not bound. -/
structure Frames.Abides (context : RunContext) (f : Function) (frames : Frames) : Prop where
  imports : frames.Imports context
  constant : ∀ frame ∈ frames.top?, ∀ (name : String) (c : Constant) (v : Value),
    f.bindings[name]? = some (.constant c) → frame[name]? = some v → v = c.value
  unbound : ∀ frame ∈ frames.top?, ∀ name : String, f.bindings[name]? = none → frame[name]? = none

namespace Frames

variable {context : RunContext} {f : Function} {frames : Frames}

/-- A frame that was just opened has no variables yet. -/
theorem Imports.push (h : frames.Imports context) : frames.push.Abides context f := by
  refine ⟨h, ?_, ?_⟩
  · rintro frame ⟨⟩ name c v _ hv
    rw [Std.TreeMap.getElem?_emptyc] at hv
    cases hv
  · rintro frame ⟨⟩ name _
    exact Std.TreeMap.getElem?_emptyc

/-- Where no frame is open yet, none is in the way. -/
theorem Imports.abides_of_nil (h : frames.Imports context) (hnil : frames.stack = []) :
    frames.Abides context f := by
  have htop : frames.top? = none := by
    rw [Frames.top?, hnil]
    rfl
  refine ⟨h, ?_, ?_⟩
  · rw [htop]
    rintro frame ⟨⟩
  · rw [htop]
    rintro frame ⟨⟩

theorem Abides.define (h : frames.Abides context f) {name : String} {value : Value}
    (hbound : f.bindings[name]? ≠ none)
    (hvalue : ∀ c, f.bindings[name]? = some (.constant c) → value = c.value) :
    (frames.define name value).Abides context f := by
  obtain ⟨stack, globals⟩ := frames
  cases stack with
  | nil => exact h
  | cons frame rest =>
    refine ⟨h.imports, ?_, ?_⟩
    · rintro _ ⟨⟩ name' c v hc hv
      -- The name that is bound now holds its constant, and the others keep theirs.
      by_cases hname : name = name'
      · subst hname
        rw [Std.TreeMap.getElem?_insert_self] at hv
        cases hv
        exact hvalue c hc
      · rw [Std.TreeMap.getElem?_insert, if_neg (by simpa using hname)] at hv
        exact h.constant frame rfl name' c v hc hv
    · rintro _ ⟨⟩ name' hnone
      have hname : name ≠ name' := by
        rintro rfl
        exact hbound hnone
      rw [Std.TreeMap.getElem?_insert, if_neg (by simpa using hname)]
      exact h.unbound frame rfl name' hnone

/-- A settled name stands for the constant it is resolved to. -/
theorem Abides.get?_of_isSettled (h : frames.Abides context f) {dependee : Dependee} {name : String}
    {call : KnownCall}
    (hcall : CallSite.resolved? f.bindings context.constants ⟨dependee, .name name⟩ = some call)
    (hsettled : f.isSettled context frames name = true) : frames.get? name = some call.2.value := by
  unfold Function.isSettled at hsettled
  unfold CallSite.resolved? at hcall
  obtain ⟨stack, globals⟩ := frames
  cases hbinding : f.bindings[name]? with
  | none =>
    -- the function does not bind the name, so it is one given from outside
    simp only [hbinding] at hsettled hcall
    obtain ⟨c, hc⟩ := Option.isSome_iff_exists.mp hsettled
    rw [RunContext.constants_of_constant? hc] at hcall
    cases hcall
    have hglobal := h.imports name c hc
    cases stack with
    | nil => exact hglobal
    | cons frame rest =>
      unfold Frames.get?
      dsimp only
      rw [h.unbound frame rfl name hbinding, Option.none_or]
      exact hglobal
  | some binding =>
    simp only [hbinding] at hsettled hcall
    cases binding with
    | unknown => cases hcall
    | constant c =>
      cases hcall
      cases stack with
      | nil => cases hsettled
      | cons frame rest =>
        obtain ⟨v, hv⟩ := Option.isSome_iff_exists.mp
          (Std.TreeMap.contains_eq_isSome_getElem?.symm.trans hsettled)
        unfold Frames.get?
        dsimp only
        rw [hv, Option.some_or, h.constant frame rfl name c v hbinding hv]

end Frames

/-! ## Checked computations -/

namespace Run

/-- From a state whose latest frame is one of the function the two computations do the same, and leave
such a frame. -/
def Tracks (context : RunContext) (f : Function) {α : Type} (x y : Run α) : Prop :=
  ∀ s : State, s.frames.Abides context f →
    y s = x s ∧ (final (x s)).frames.Abides context f

/-- Primitive steps leave the frames as they are or bind a variable. -/
theorem Primitive.frames_cases {names : String → Prop} {α : Type} {x : Run α}
    (hx : Primitive names x) :
    (∀ s, (final (x s)).frames = s.frames) ∨
      ∃ name value, names name ∧ ∀ s, (final (x s)).frames = s.frames ∨
        (final (x s)).frames = s.frames.define name value := by
  cases hx with
  | define name value hname => exact .inr ⟨name, value, hname, fun _ => .inr rfl⟩
  | setVariable name value hname =>
    refine .inr ⟨name, value, hname, fun s => ?_⟩
    rw [setVariable_apply]
    split
    · exact .inr rfl
    · exact .inl rfl
  | _ => exact .inl fun _ => rfl

variable {context : RunContext} {f : Function} {α β : Type} {x y : Run α}

theorem Tracks.of_frames_eq (h : ∀ s, (final (x s)).frames = s.frames) : Tracks context f x x := by
  intro s hs
  refine ⟨rfl, ?_⟩
  rw [h]
  exact hs

theorem Tracks.bind {k k' : α → Run β} (hxy : Tracks context f x y)
    (hk : ∀ a, Tracks context f (k a) (k' a)) : Tracks context f (x >>= k) (y >>= k') := by
  intro s hs
  obtain ⟨hsame, habides⟩ := hxy s hs
  cases hr : x s with
  | ok a t =>
    rw [hr] at hsame habides
    rw [bind_of_ok hr, bind_of_ok hsame]
    exact hk a t habides
  | error halt t =>
    rw [hr] at hsame habides
    rw [bind_of_error hr, bind_of_error hsame]
    exact ⟨rfl, habides⟩

/-- Variables that are not known to be constants may be bound to anything. -/
theorem congruence_tracks (context : RunContext) (f : Function) :
    CongruenceOn id (fun name => f.bindings[name]? = some .unknown) (Tracks context f) where
  pure a := .of_frames_eq fun _ => rfl
  bind hxy hk := .bind hxy hk
  fail e _ := by
    rw [Error.mapSpan_id]
    exact .of_frames_eq fun _ => rfl
  crash c := .of_frames_eq fun _ => rfl
  charge units := .of_frames_eq (Sealed.charge units).left
  enter := .of_frames_eq Sealed.enter.left
  primitive hx := by
    -- A primitive either leaves the frames alone or binds a name that is not a constant.
    rcases hx.frames_cases with hkept | ⟨name, value, hname, hframes⟩
    · exact .of_frames_eq hkept
    · intro s hs
      refine ⟨rfl, ?_⟩
      rcases hframes s with hkept | hdefined
      · rw [hkept]
        exact hs
      · rw [hdefined]
        refine hs.define ?_ ?_
        · rw [hname]
          exact Option.some_ne_none _
        · intro c hc
          rw [hname] at hc
          cases hc

/-- A frame of the called function is opened on names that are bound as before, and closed behind the
call. -/
theorem Tracks.inFrame {g : Function} (hxy : Tracks context g x y)
    (hkept : ∀ s : State, (final (Run.inFrame x s)).frames = s.frames) :
    Tracks context f (Run.inFrame x) (Run.inFrame y) := by
  intro s hs
  obtain ⟨hsame, _⟩ := hxy { s with frames := s.frames.push } hs.imports.push
  refine ⟨?_, ?_⟩
  · unfold Run.inFrame
    rw [hsame]
  · rw [hkept]
    exact hs

end Run

/-! ## Call sites -/

variable {e : Expr} {name : String}

theorem Expr.eq_call_of_label (h : (e.outline 0).label = .call) :
    ∃ callee arguments span, e = .call callee arguments span := by
  unfold Expr.outline at h
  rw [deepen_eq] at h
  cases e with
  | call callee arguments span => exact ⟨callee, arguments, span, rfl⟩
  | place p => cases p <;> cases h
  | updateBefore op span inner target => cases inner <;> cases h
  | _ => cases h

theorem Expr.eq_ident_of_label (h : (e.outline 0).label = .ident name) :
    ∃ span, e = .place (.ident name span) := by
  unfold Expr.outline at h
  rw [deepen_eq] at h
  cases e with
  | place p =>
    cases p with
    | ident name' span =>
      cases h
      exact ⟨span, rfl⟩
    | _ => cases h
  | updateBefore op span inner target => cases inner <;> cases h
  | _ => cases h

theorem Outline.label_of_siteArgument? {outline : Outline}
    (h : outline.siteArgument? = some (.name name)) : outline.label = .ident name := by
  unfold siteArgument? at h
  split at h
  · rename_i name' hlabel
    cases h
    exact hlabel
  · obtain ⟨_, _, hliteral⟩ := Option.map_eq_some_iff.mp h
    cases hliteral

theorem Expr.eq_call_of_callSite? {dependee : Dependee} {argument : String}
    (h : (e.outline 0).callSite? = some ⟨dependee, .name argument⟩) :
    ∃ name range range' rest span,
      e = .call (.place (.ident name range)) (.place (.ident argument range') :: rest) span ∧
        Dependee.ofCallee? name = some dependee := by
  -- Only a call has a site; its callee and its first argument are then names.
  have hcall : (e.outline 0).label = .call := by
    unfold Outline.callSite? at h
    split at h
    · assumption
    · cases h
  obtain ⟨callee, arguments, span, rfl⟩ := Expr.eq_call_of_label hcall
  rw [Expr.outline_call] at h
  cases arguments with
  | nil => cases h
  | cons first rest =>
    simp only [Outline.callSite?, Outline.label, Outline.children, List.map_cons] at h
    split at h
    · rename_i name hlabel
      obtain ⟨range, rfl⟩ := Expr.eq_ident_of_label hlabel
      obtain ⟨dependee', hname, hrest⟩ := Option.bind_eq_some_iff.mp h
      obtain ⟨argument', hargument, hpair⟩ := Option.bind_eq_some_iff.mp hrest
      cases hpair
      obtain ⟨range', rfl⟩ := Expr.eq_ident_of_label (Outline.label_of_siteArgument? hargument)
      exact ⟨name, range, range', rest, span, rfl, hname⟩
    · cases h

section

variable {context : RunContext} {f : Function} {frames : Frames} {e : Expr} {call : KnownCall}

theorem CallSite.dependee_of_resolved? {bindings : Bindings} {globals : Constants} {site : CallSite}
    (h : site.resolved? bindings globals = some call) : call.1 = site.dependee := by
  unfold CallSite.resolved? at h
  split at h
  · cases h
  · split at h
    · cases h
      rfl
    · cases h
    · obtain ⟨value, _, rfl⟩ := Option.map_eq_some_iff.mp h
      rfl

theorem Function.settledCall?_eq_some (h : f.settledCall? context frames e = some call) :
    ∃ name range argument range' rest span,
      e = .call (.place (.ident name range)) (.place (.ident argument range') :: rest) span ∧
        Dependee.ofCallee? name = some call.1 ∧
        (e.outline 0).callSite? = some ⟨call.1, .name argument⟩ ∧
        CallSite.resolved? f.bindings context.constants ⟨call.1, .name argument⟩ = some call ∧
        f.isSettled context frames argument = true := by
  obtain ⟨⟨dependee, site⟩, hsite, hrest⟩ := Option.bind_eq_some_iff.mp h
  obtain ⟨call', hcall, hsettled⟩ := Option.bind_eq_some_iff.mp hrest
  cases site with
  | literal value => cases hcall
  | name argument =>
    have hif : (if f.isSettled context frames argument then some call' else none) = some call :=
      hsettled
    split at hif
    · rename_i hyes
      cases hif
      -- Resolving a site keeps the kind of its callee.
      have hdependee : call.1 = dependee := CallSite.dependee_of_resolved? hcall
      subst hdependee
      obtain ⟨name, range, range', rest, span, heq, hname⟩ := Expr.eq_call_of_callSite? hsite
      exact ⟨name, range, argument, range', rest, span, heq, hname, hsite, hcall, hyes⟩
    · cases hif

end

/-! ## The checks never fail -/

theorem Collaborators.agreeOn_only (listed : Dependencies) (stray : Error) (c : Collaborators) :
    c.AgreeOn listed (c.only listed stray) := by
  refine ⟨?_, ?_, ?_, ?_⟩
  · exact (Option.isSome_map ..).symm
  · exact (Option.isSome_map ..).symm
  · intro execute hexecute execute' hexecute' id hid args
    obtain ⟨original, horiginal, rfl⟩ := Option.map_eq_some_iff.mp hexecute'
    cases hexecute.symm.trans horiginal
    exact (if_pos hid).symm
  · intro call hcall call' hcall' address haddress signature returnType args
    obtain ⟨original, horiginal, rfl⟩ := Option.map_eq_some_iff.mp hcall'
    cases hcall.symm.trans horiginal
    exact (if_pos haddress).symm

/-- The value of a name is what it stands for in the latest frame. -/
theorem eval_ident_ok {env : Env} {levels : Nat} {range : Span} {v : Value} {s t : State}
    (h : (evaluators env 0 levels).eval (.place (.ident name range)) s = .ok v t) :
    s.frames.get? name = some v := by
  cases levels with
  | zero => cases h
  | succ levels =>
    rw [evaluators_succ] at h
    have hbind : (Run.enter >>= fun _ => Run.readName name range) s = .ok v t := h
    -- Entering spends a step and leaves the frames alone.
    have hframes := Run.Sealed.enter.left s
    cases he : Run.enter s with
    | error halt u =>
      rw [Run.bind_of_error he] at hbind
      cases hbind
    | ok _ u =>
      rw [Run.bind_of_ok he] at hbind
      rw [he] at hframes
      have hframes' : u.frames = s.frames := hframes
      have hlookup : Run.lookup name u = .ok (u.frames.get? name) u := rfl
      unfold Run.readName at hbind
      rw [Run.bind_of_ok hlookup, hframes'] at hbind
      cases hget : s.frames.get? name with
      | none =>
        rw [hget] at hbind
        cases hbind
      | some w =>
        rw [hget] at hbind
        cases hbind
        rfl

namespace Run

variable {program : Program} {context : RunContext} (stray : Error)

/-- With the constant as its first argument a call does what it does without the checks. -/
theorem callSettled_eq {env : Env} {call : KnownCall} (hcall : call ∈ program.knownCalls context)
    {name : String} (hname : Dependee.ofCallee? name = some call.1) (sub : Evaluators)
    (rest : List Value) (span : Span) :
    callSettled (program.dependencies context) stray env sub call name (call.2.value :: rest) span =
      callName env sub name (call.2.value :: rest) span := by
  unfold callSettled
  rw [if_pos List.head?_cons]
  split
  · rename_i hlistable
    -- The restricted collaborators leave the functions of the program as they are.
    have hfunction : EnvOf.function? { env with
        collaborators := env.collaborators.only (program.dependencies context) stray } name =
          env.function? name := rfl
    unfold callName
    rw [hfunction]
    cases env.function? name with
    | some g => rfl
    | none =>
      cases hb : Builtin.ofName? name with
      | none => rfl
      | some b =>
        -- A listable call is answered alike by both collaborators, as it is among the known calls.
        have hdependee : call.1 = b.dependee :=
          Option.some.inj (hname.symm.trans (Builtin.ofCallee?_of_ofName? hb))
        exact ((env.collaborators.agreeOn_only _ stray).callBuiltin hcall hlistable hdependee rest
          span).symm
  · rfl

variable {env : Env} {f : Function} {levels : Nat} {sub : Evaluators}

/-- Evaluation inside a function, without and with checks. -/
structure Follows (program : Program) (context : RunContext) (f : Function)
    (sub sub' : Evaluators) : Prop
    extends RelatedOn (· ∈ f.outline.preorder) (Tracks context f) sub sub' where
  call {g : Function} : g ∈ program.functions → ∀ args,
    Tracks context f (sub.call g args) (sub'.call g args)

/-- Below the checks an expression is related to itself: variables that are assigned to are not known
to be constants. -/
theorem Follows.exprBody (hsub : Follows program context f (evaluators env 0 levels) sub)
    (hfunctions : ∀ name g, env.function? name = some g → g ∈ program.functions) {e : Expr}
    (he : e.outline 0 ∈ f.outline.preorder) :
    Tracks context f (Run.exprBody env (evaluators env 0 levels) e) (Run.exprBody env sub e) := by
  have hbelow := f.outline.inherited_mem_preorder
  have hcorr := (congruence_tracks context f).correspondence (rfl : env.functions = _)
    (rfl : env.maxStringLength = _)
  refine hsub.toRelatedOn.exprBody hcorr hbelow he
    (fun name hname => Function.bindings_assignedName he hname) ?_
  rintro callee arguments span rfl
  refine hsub.toRelatedOn.evalCall hcorr hbelow he fun name range args _ => ?_
  unfold callName
  cases hg : env.function? name with
  -- The callee is a function of the program, for which the two evaluators agree by assumption.
  | some g => exact hsub.call (hfunctions name g hg) args
  | none =>
    cases Builtin.ofName? name with
    | none => exact .of_frames_eq fun _ => rfl
    | some b =>
      exact (congruence_tracks context f).callBuiltin (fun e _ => .of_frames_eq fun _ => rfl) b args
        span

/-- At a call site that is resolved and settled the first argument is the constant. -/
theorem Follows.checkedBody (hf : f ∈ program.functions)
    (hsub : Follows program context f (evaluators env 0 levels) sub)
    (hfunctions : ∀ name g, env.function? name = some g → g ∈ program.functions) {e : Expr}
    (he : e.outline 0 ∈ f.outline.preorder) :
    Tracks context f (Run.exprBody env (evaluators env 0 levels) e)
      (Run.checkedBody context (program.dependencies context) stray env f sub e) := by
  intro s hs
  obtain ⟨hsame, habides⟩ := hsub.exprBody hfunctions he s hs
  refine ⟨?_, habides⟩
  rw [← hsame]
  have hget : Run.checkedBody context (program.dependencies context) stray env f sub e s =
      (match f.settledCall? context s.frames e, e with
      | some call, .call (.place (.ident name _)) arguments span => do
        let args ← evalAll sub arguments
        callSettled (program.dependencies context) stray env sub call name args span
      | _, e => Run.exprBody env sub e) s := rfl
  rw [hget]
  cases hcall : f.settledCall? context s.frames e with
  | none => rfl
  | some call =>
    obtain ⟨name, range, argument, range', rest, span, rfl, hname, hsite, hresolved, hsettled⟩ :=
      Function.settledCall?_eq_some hcall
    -- A settled call is one that the analysis lists, with the value its argument now has.
    have hknown := Program.resolved_mem_knownCalls hf he hsite hresolved
    have hargument := hs.get?_of_isSettled hresolved hsettled
    have hoperand := f.outline.inherited_mem_preorder.exprOperands he (.place (.ident argument range'))
      (List.mem_append_right _ List.mem_cons_self)
    show (evalAll sub _ >>= _) s = (evalAll sub _ >>= _) s
    cases hargs : evalAll sub (.place (.ident argument range') :: rest) s with
    | error halt t => rw [bind_of_error hargs, bind_of_error hargs]
    | ok args t =>
      obtain ⟨v, vs, u, rfl, hfirst⟩ := evalAll_cons_ok hargs
      rw [(hsub.eval hoperand s hs).1] at hfirst
      -- Evaluating the name gives the constant it was resolved to.
      have hv : v = call.2.value := Option.some.inj ((eval_ident_ok hfirst).symm.trans hargument)
      rw [bind_of_ok hargs, bind_of_ok hargs, hv, callSettled_eq stray hknown hname]

/-- A declaration that makes a variable a constant binds it to the constant. -/
theorem Follows.declareOne (hsub : Follows program context f (evaluators env 0 levels) sub)
    {b : Stmt} (hb : b.outline 0 ∈ f.outline.preorder) {d : Declarator} (hd : d ∈ b.declarators) :
    Tracks context f (Run.declareOne (evaluators env 0 levels) d) (Run.declareOne sub d) := by
  have hcorr := (congruence_tracks context f).correspondence (rfl : env.functions = _)
    (rfl : env.maxStringLength = _)
  have hoperands := fun c hc =>
    f.outline.inherited_mem_preorder.stmtOperands hb c (b.init_mem_operands hd hc)
  -- A name that is declared with a constant keeps it; every other declared name is unknown.
  rcases Function.bindings_declarator hb hd with hunknown | ⟨literal, span, c, hinit, hc, hconstant⟩
  · exact hsub.toRelatedOn.declareOne hcorr hoperands hunknown
  · intro s hs
    have hinitial : Expr.literal literal span ∈ d.init.toList := by
      rw [hinit]
      exact List.mem_cons_self
    obtain ⟨hsame, habides⟩ := hsub.eval (hoperands _ hinitial) s hs
    unfold Run.declareOne
    rw [hinit]
    dsimp only
    cases hr : (evaluators env 0 levels).eval (.literal literal span) s with
    | error halt t =>
      rw [hr] at hsame habides
      rw [bind_of_error hr, bind_of_error hsame]
      exact ⟨rfl, habides⟩
    | ok v t =>
      rw [hr] at hsame habides
      rw [bind_of_ok hr, bind_of_ok hsame]
      refine ⟨rfl, habides.define ?_ ?_⟩
      · rw [hconstant]
        exact Option.some_ne_none _
      · intro c' hc'
        cases hconstant.symm.trans hc'
        rw [eval_literal_ok hr, Constant.value_of_literal hc]

/-- Evaluation with the checks does the same, inside of every function of the program. -/
theorem follows_checkedEvaluators
    (hfunctions : ∀ name g, env.function? name = some g → g ∈ program.functions) (levels : Nat)
    (hf : f ∈ program.functions) :
    Follows program context f (evaluators env 0 levels)
      (checkedEvaluators context (program.dependencies context) stray env levels f) := by
  have hunfinished : ∀ {f : Function} {α : Type},
      Tracks context f (unfinished : Run α) unfinished := .of_frames_eq fun _ => rfl
  induction levels generalizing f with
  | zero => exact ⟨⟨fun _ => hunfinished, fun _ => hunfinished, rfl⟩, fun _ _ => hunfinished⟩
  | succ levels ih =>
    -- The function may change with a call, so the induction is for all functions at once.
    have hsub := ih hf
    have hcongruence := congruence_tracks context f
    rw [evaluators_succ]
    refine ⟨⟨?_, ?_, rfl⟩, ?_⟩
    · intro e he
      exact hcongruence.bind hcongruence.enter fun _ => hsub.checkedBody stray hf hfunctions he
    · intro b hb
      have hcorr := hcongruence.correspondence (rfl : env.functions = _)
        (rfl : env.maxStringLength = _)
      have hbody := hsub.toRelatedOn.stmtBody hcorr f.outline.inherited_mem_preorder hunfinished hb
        fun d hd => hsub.declareOne hb hd
      exact hcongruence.bind hcongruence.enter fun _ => hbody
    · intro g hg args
      have hcorr := (congruence_tracks context g).correspondence (rfl : env.functions = _)
        (rfl : env.maxStringLength = _)
      have hbody := (ih hg).toRelatedOn.callBody hcorr g.outline.inherited_mem_preorder
        g.outline.mem_preorder_self (fun p hp => Function.bindings_param hp) args
      -- The callee runs in a frame of its own and leaves the caller's frames as they were.
      have hkept := (sealed_callBody env levels g args).left
      exact hcongruence.bind hcongruence.enter fun _ => hbody.inFrame hkept

/-! ## Names given from outside -/

theorem frames_importDatum (d : Datum) (s : State) : (final (importDatum d s)).frames = s.frames := by
  have hcharge := (Sealed.charge (1 + d.size)).left s
  unfold importDatum
  cases hr : charge (1 + d.size) s with
  | error halt t =>
    rw [bind_of_error hr]
    rwa [hr] at hcharge
  | ok _ t =>
    rw [bind_of_ok hr]
    rwa [hr] at hcharge

variable {s t : State}

theorem importDatum_constant {d : Datum} {c : Constant} (hc : Constant.ofDatum? d = some c)
    {v : Value} (h : importDatum d s = .ok v t) : v = c.value := by
  unfold importDatum at h
  cases hr : charge (1 + d.size) s with
  | error halt u =>
    rw [bind_of_error hr] at h
    cases h
  | ok _ u =>
    rw [bind_of_ok hr] at h
    have hadded : EStateM.Result.ok (u.heap.importDatum d).2
      { u with heap := (u.heap.importDatum d).1 } = .ok v t := h
    cases hadded
    rw [Heap.importDatum]
    -- Only numbers and texts are constants, and neither goes to the heap.
    cases d with
    | number value | string value =>
      cases hc
      rw [Heap.importAt]
      rfl
    | _ => cases hc

/-- Binding the first of several names, and then the others. -/
theorem bindIdentifiers_cons_ok {given : String × Datum} {rest : List (String × Datum)}
    (h : bindIdentifiers (given :: rest) s = .ok () t) :
    ∃ v u, importDatum given.2 s = .ok v u ∧
      bindIdentifiers rest { u with frames := s.frames.defineGlobal given.1 v } = .ok () t := by
  have hframes := frames_importDatum given.2 s
  unfold bindIdentifiers at h
  cases hr : importDatum given.2 s with
  | error halt u =>
    rw [bind_of_error hr] at h
    cases h
  | ok v u =>
    rw [hr] at hframes
    have hframes' : u.frames = s.frames := hframes
    have hdefine : defineGlobal given.1 v u =
        .ok () { u with frames := u.frames.defineGlobal given.1 v } := rfl
    rw [bind_of_ok hr, bind_of_ok hdefine, hframes'] at h
    exact ⟨v, u, rfl, h⟩

theorem stack_bindIdentifiers {identifiers : List (String × Datum)}
    (h : bindIdentifiers identifiers s = .ok () t) : t.frames.stack = s.frames.stack := by
  induction identifiers generalizing s with
  | nil =>
    cases h
    rfl
  | cons given rest ih =>
    obtain ⟨v, u, _, hrest⟩ := bindIdentifiers_cons_ok h
    have hstack := ih hrest
    exact hstack

/-- The last of several names given from outside is the one that counts. -/
theorem globals_bindIdentifiers {identifiers : List (String × Datum)} {name : String}
    {earlier : Option Datum}
    (hs : ∀ c, earlier.bind Constant.ofDatum? = some c → s.frames.globals[name]? = some c.value)
    (h : bindIdentifiers identifiers s = .ok () t) :
    ∀ c, (((identifiers.reverse.find? fun given => given.1 = name).map Prod.snd).or
        earlier).bind Constant.ofDatum? = some c → t.frames.globals[name]? = some c.value := by
  induction identifiers generalizing s earlier with
  | nil =>
    cases h
    exact hs
  | cons given rest ih =>
    obtain ⟨v, u, hv, hrest⟩ := bindIdentifiers_cons_ok h
    -- The last of the given identifiers with a name wins, as it is bound last.
    have hlatest : ((given :: rest).reverse.find? fun given => given.1 = name).map Prod.snd =
        ((rest.reverse.find? fun given => given.1 = name).map Prod.snd).or
          (if given.1 = name then some given.2 else none) := by
      rw [List.reverse_cons, List.find?_append, Option.map_or]
      by_cases hname : given.1 = name
      · simp [hname]
      · simp [hname]
    rw [hlatest, Option.or_assoc]
    refine ih ?_ hrest
    intro c hc
    show (s.frames.globals.insert given.1 v)[name]? = some c.value
    by_cases hname : given.1 = name
    · subst hname
      rw [if_pos rfl, Option.some_or] at hc
      rw [Std.TreeMap.getElem?_insert_self, importDatum_constant hc hv]
    · rw [if_neg hname, Option.none_or] at hc
      rw [Std.TreeMap.getElem?_insert, if_neg (by simpa using hname)]
      exact hs c hc

theorem imports_bindIdentifiers {context : RunContext}
    (h : bindIdentifiers context.identifiers s = .ok () t) : t.frames.Imports context := by
  intro name c hc
  have hnone : ∀ c, (none : Option Datum).bind Constant.ofDatum? = some c →
      s.frames.globals[name]? = some c.value := by
    intro c hc
    cases hc
  refine globals_bindIdentifiers hnone h c ?_
  rw [Option.or_none]
  exact hc

end Run

/-- Resolved constants are what names evaluate to: no check of a call site that is resolved and
settled ever fails. -/
theorem Program.run_keeps_resolved_constants (program : Program) (stray : Error)
    (context : RunContext) (limits : Limits) (collaborators : Collaborators) :
    program.runChecked stray context limits collaborators =
      program.run context limits collaborators := by
  let env : Env := ⟨FunctionTable.ofList program.functions, collaborators, limits.maxStringLength⟩
  have hfunctions : ∀ name g, env.function? name = some g → g ∈ program.functions :=
    fun name g hg => FunctionTable.mem_of_getElem? hg
  unfold Program.runChecked Program.run Program.runWithin Run.program Run.programBy
  refine congrArg Outcome.ofResult ?_
  let start : State := { meter := { limit := limits.stepBudget } }
  cases hr : Run.bindIdentifiers context.identifiers start with
  | error halt t => rw [Run.bind_of_error hr, Run.bind_of_error hr]
  | ok _ t =>
    rw [Run.bind_of_ok hr, Run.bind_of_ok hr]
    -- Binding the identifiers is common to both runs; they part only at the entry.
    cases hentry : program.entry context.start with
    | error e => rfl
    | ok f =>
      have hf := Program.entry_mem hentry
      have hfollows : Run.Follows program context f _ _ :=
        Run.follows_checkedEvaluators stray hfunctions (limits.stepBudget + 1) hf
      have hcongruence := Run.congruence_tracks context f
      have htracks := hcongruence.bind
        (hcongruence.mapM context.args fun d => hcongruence.importDatum d) fun args =>
          hcongruence.bind (hfollows.call hf args) fun v => hcongruence.exportDatum v f.span
      exact (htracks t ((Run.imports_bindIdentifiers hr).abides_of_nil (Run.stack_bindIdentifiers hr))).1

/-- A function whose body calls a built-in function on `x`, behind some statements and in front of
others. -/
def callsOnX (callee : String) (before behind : List Stmt) : Program :=
  let call : Expr := .call (.place (.ident callee {})) [.place (.ident "x" {})] {}
  ⟨[.function ⟨"f", [], before ++ [.returnValue (some call) {}] ++ behind, {}, {}⟩], {}⟩

def declaresX (value : Decimal) : Stmt := .declare [⟨"x", some (.literal (.number value) {})⟩] {}

/-- Collaborators that answer with the token or the contract they are asked about. -/
def echo : Collaborators where
  tokenExecutor := some fun id _ => .ok (.number id)
  contractCaller := some fun address _ _ _ => .ok (.string address)

/-- The text of the token or the contract that a program asks about and answers with. -/
def asked? (program : Program) (context : RunContext) : Option String :=
  (program.run context ⟨30, 10⟩ echo).result.toOption.map Datum.text

-- The call site is resolved to seven, and it is settled when it is executed, since `x` is declared by
-- then. The checks are made there: with nothing listed they fail, and with what is listed they do not.
example :
    let early := callsOnX "executeToken" [declaresX (.ofInt 7)] []
    let stray : Error := .range .cyclicArray {}
    let unlisted := Run.programBy early {} fun f =>
      (Run.checkedEvaluators {} ⟨[], []⟩ stray
        ⟨FunctionTable.ofList early.functions, echo, 10⟩ 31 f).call f
    early.knownCalls {} = [(.token, .number (.ofInt 7))] ∧
      (Outcome.ofResult (unlisted { meter := ⟨30, 0⟩ })).result.toOption.map Datum.text = none ∧
      (early.runChecked stray {} ⟨30, 10⟩ echo).result.toOption.map Datum.text = some "7" := by
  decide +kernel

/-! ## Names that are not settled

Without the conditions a name may well evaluate to something else than it is resolved to.
-/

/-- A variable that is declared behind its use is resolved to its number, while the token of the name
given from outside is executed. A number is resolved and not listed for a contract, while the contract
with its text is called. Of a name given twice the number is listed, while the token of the last datum
is executed. -/
theorem resolved_constants_missed :
    let seven : Decimal := .ofInt 7
    let late := callsOnX "executeToken" [] [declaresX .one]
    let given : RunContext := { identifiers := [("x", .number seven)] }
    let number := callsOnX "staticcallContract" [declaresX seven] []
    let plain := callsOnX "executeToken" [] []
    let twice : RunContext := { identifiers := [("x", .number seven), ("x", .boolean true)] }
    (late.knownCalls given = [(.token, .number .one)] ∧
        (late.dependencies given).tokens = [.one] ∧ asked? late given = some "7") ∧
      (number.knownCalls {} = [(.contract, .number seven)] ∧
        (number.dependencies {}).contracts = [] ∧ asked? number {} = some "7") ∧
      (plain.knownCalls twice = [(.token, .number seven)] ∧
        (plain.dependencies twice).tokens = [seven] ∧ asked? plain twice = some "1") := by
  decide +kernel

end MeteredScript
