import MeteredScript.Dependency
import MeteredScript.Proofs.Nodes
import MeteredScript.Proofs.Paths

namespace MeteredScript

/-! # Listed dependencies are all there are

A program may name tokens and contracts by literals only. Then a run of it asks the collaborators about
nothing that `Program.dependencies` does not list: collaborators that answer alike about what is listed
cannot be told apart, whatever else they do. The list is read off the nodes of the program, while a run
goes its own way through fallbacks of parameters, loops and calls; `Proofs.Nodes` has shown that it
stays among these nodes.
-/

/-! ## What is listed -/

def Constant.value : Constant → Value
  | number value => .number value
  | string value => .string value

theorem Constant.value_of_literal {literal : Literal} {c : Constant}
    (h : Constant.ofLiteral? literal = some c) : Value.ofLiteral literal = c.value := by
  cases literal with
  | number value | string value =>
    cases h
    rfl
  | _ => cases h

/-- Whether a call names what it reaches in the way it is listed: a token by a number, a contract by
a string. -/
def KnownCall.isListable (call : KnownCall) : Bool := call.tokenId?.isSome || call.address?.isSome

/-- What calls of a built-in function reach. -/
def Run.Builtin.dependee : Run.Builtin → Dependee
  | .executeToken => .token
  | .staticcallContract => .contract

theorem Run.Builtin.ofCallee?_of_ofName? {name : String} {b : Run.Builtin}
    (h : Run.Builtin.ofName? name = some b) : Dependee.ofCallee? name = some b.dependee := by
  unfold Run.Builtin.ofName? at h
  split at h
  · cases h
    rfl
  · cases h
    rfl
  · cases h

section

variable {program : Program} {context : RunContext}

variable {call : KnownCall}

theorem Program.mem_tokens {id : Decimal} (hcall : call ∈ program.knownCalls context)
    (hid : call.tokenId? = some id) : id ∈ (program.dependencies context).tokens :=
  List.mem_eraseDups.mpr (List.mem_filterMap.mpr ⟨call, hcall, hid⟩)

theorem Program.mem_contracts {address : String} (hcall : call ∈ program.knownCalls context)
    (haddress : call.address? = some address) :
    address ∈ (program.dependencies context).contracts :=
  List.mem_eraseDups.mpr (List.mem_filterMap.mpr ⟨call, hcall, haddress⟩)

/-- Call sites with a literal argument are known, in whatever function they are. -/
theorem Program.literal_mem_knownCalls {f : Function} (hf : f ∈ program.functions) {node : Outline}
    (hnode : node ∈ f.outline.preorder) {dependee : Dependee} {value : Constant}
    (hsite : node.callSite? = some ⟨dependee, .literal value⟩) :
    (dependee, value) ∈ program.knownCalls context := by
  refine List.mem_append_left _ (List.mem_flatMap.mpr ⟨f, hf, ?_⟩)
  refine List.mem_filterMap.mpr ⟨⟨dependee, .literal value⟩, ?_, rfl⟩
  exact List.mem_filterMap.mpr ⟨node, hnode, hsite⟩

/-- Call sites with a name for an argument that is resolved are known. -/
theorem Program.resolved_mem_knownCalls {f : Function} (hf : f ∈ program.functions) {node : Outline}
    (hnode : node ∈ f.outline.preorder) {site : CallSite} (hsite : node.callSite? = some site)
    (hcall : site.resolved? f.bindings context.constants = some call) :
    call ∈ program.knownCalls context := by
  refine List.mem_append_right _ (List.mem_flatMap.mpr ⟨f, hf, ?_⟩)
  refine List.mem_filterMap.mpr ⟨site, ?_, hcall⟩
  exact List.mem_filterMap.mpr ⟨node, hnode, hsite⟩

end

/-! ## Calls that name what they reach by a literal -/

/-- Whether a node is a literal name of what calls reach: a number for a token, a string for a
contract. -/
def Dependee.isNamedBy (dependee : Dependee) (node : Outline) : Bool :=
  match dependee, node.label with
  | .token, .literal (.number _) => true
  | .contract, .literal (.string _) => true
  | _, _ => false

/-- Whether a node, if it is a call that reaches outside of the program, has a literal for its first
argument that names what it reaches. -/
def Outline.namesByLiteral (outline : Outline) : Bool :=
  match outline.label, outline.children with
  | .call, callee :: arguments =>
    match callee.label with
    | .ident name =>
      (Dependee.ofCallee? name).all fun dependee => arguments.head?.any dependee.isNamedBy
    | _ => true
  | _, _ => true

/-- All calls that reach outside of the program name what they reach by a literal. -/
def Program.NamesByLiterals (program : Program) : Prop :=
  ∀ node ∈ program.outline.preorder, node.namesByLiteral = true

instance (program : Program) : Decidable program.NamesByLiterals :=
  inferInstanceAs (Decidable (∀ node ∈ program.outline.preorder, node.namesByLiteral = true))

variable {value : Literal}

theorem Expr.eq_literal_of_label {e : Expr} (h : (e.outline 0).label = .literal value) :
    ∃ span, e = .literal value span := by
  unfold Expr.outline at h
  rw [deepen_eq] at h
  cases e with
  | literal value' span =>
    cases h
    exact ⟨span, rfl⟩
  | place p => cases p <;> cases h
  | updateBefore op span inner target => cases inner <;> cases h
  | _ => cases h

theorem Expr.label_literal (value : Literal) (span : Span) :
    ((Expr.literal value span).outline 0).label = .literal value := by
  rw [Expr.outline, deepen_eq]
  rfl

theorem Outline.siteArgument?_of_literal {outline : Outline} (h : outline.label = .literal value) :
    outline.siteArgument? = (Constant.ofLiteral? value).map .literal := by
  unfold siteArgument? constant?
  rw [h]

/-- A literal name of what calls reach is a constant that is listed. -/
theorem Dependee.constant_of_isNamedBy {dependee : Dependee} {node : Outline}
    (h : dependee.isNamedBy node = true) :
    ∃ literal value, node.label = .literal literal ∧ Constant.ofLiteral? literal = some value ∧
      KnownCall.isListable (dependee, value) = true := by
  unfold isNamedBy at h
  split at h
  · exact ⟨_, _, ‹_›, rfl, rfl⟩
  · exact ⟨_, _, ‹_›, rfl, rfl⟩
  · cases h

section

variable {name : String} {range span : Span} {arguments : List Expr} {dependee : Dependee}

/-- A call of a name with a literal for its first argument, as a call site. -/
theorem Expr.callSite?_literal (hname : Dependee.ofCallee? name = some dependee)
    (range span : Span) (value : Literal) (range' : Span) (rest : List Expr) :
    ((Expr.call (.place (.ident name range)) (.literal value range' :: rest) span).outline 0).callSite? =
      (Constant.ofLiteral? value).map fun value => ⟨dependee, .literal value⟩ := by
  have hsite : ((Expr.call (.place (.ident name range)) (.literal value range' :: rest) span).outline
      0).callSite? = do
        let dependee ← Dependee.ofCallee? name
        let argument ← ((Expr.literal value range').outline 0).siteArgument?
        return ⟨dependee, argument⟩ := by
    rw [Expr.outline_call, Expr.outline_place]
    rfl
  rw [hsite, hname, Outline.siteArgument?_of_literal (Expr.label_literal value range')]
  cases Constant.ofLiteral? value <;> rfl

/-- A call that reaches outside of the program and names by a literal what it reaches. -/
theorem Expr.isNamedBy_of_namesByLiteral (hname : Dependee.ofCallee? name = some dependee)
    (h : ((Expr.call (.place (.ident name range)) arguments span).outline 0).namesByLiteral = true) :
    ∃ first rest, arguments = first :: rest ∧ dependee.isNamedBy (first.outline 0) = true := by
  rw [Expr.outline_call, Expr.outline_place] at h
  have hall : (Dependee.ofCallee? name).all (fun dependee =>
      (arguments.map (Expr.outline 0)).head?.any dependee.isNamedBy) = true := h
  rw [hname, List.head?_map, Option.all_some] at hall
  cases arguments with
  | nil => cases hall
  | cons first rest => exact ⟨first, rest, rfl, hall⟩

end

/-! ## Collaborators that agree on what is listed -/

/-- Collaborators that are there or missing alike, and answer alike when asked about what is listed. -/
structure Collaborators.AgreeOn (listed : Dependencies) (c c' : Collaborators) : Prop where
  tokenExecutor : c.tokenExecutor.isSome = c'.tokenExecutor.isSome
  contractCaller : c.contractCaller.isSome = c'.contractCaller.isSome
  token : ∀ execute ∈ c.tokenExecutor, ∀ execute' ∈ c'.tokenExecutor,
    ∀ id ∈ listed.tokens, ∀ args, execute id args = execute' id args
  contract : ∀ call ∈ c.contractCaller, ∀ call' ∈ c'.contractCaller,
    ∀ address ∈ listed.contracts, ∀ signature returnType args,
      call address signature returnType args = call' address signature returnType args

theorem cases_of_isSome_eq {α : Type} {x y : Option α} (h : x.isSome = y.isSome) :
    (x = none ∧ y = none) ∨ ∃ a b, x = some a ∧ y = some b := by
  cases x with
  | none => exact .inl ⟨rfl, Option.isSome_eq_false_iff.mp h.symm |> Option.isNone_iff_eq_none.mp⟩
  | some a =>
    obtain ⟨b, hb⟩ := Option.isSome_iff_exists.mp h.symm
    exact .inr ⟨a, b, rfl, hb⟩

theorem Heap.display_string (heap : Heap) (text : String) : heap.display (.string text) = text := by
  rw [Heap.display_eq, Heap.writeAt, String.empty_append]

theorem Run.argumentText_string (text : String) (rest : List Value) :
    Run.argumentText (.string text :: rest) 0 = pure text := by
  funext s
  have hshown : Run.argumentText (.string text :: rest) 0 s = .ok (s.heap.display (.string text)) s :=
    rfl
  rw [hshown, Heap.display_string]
  rfl

namespace Collaborators.AgreeOn

variable {listed : Dependencies} {c c' : Collaborators} (h : c.AgreeOn listed c')
include h

/-- Collaborators that agree on what is listed answer alike about a listed token. -/
theorem askToken {id : Decimal} (hid : id ∈ listed.tokens) (args : List Datum) :
    Run.askToken c id args = Run.askToken c' id args := by
  unfold Run.askToken
  rcases cases_of_isSome_eq h.tokenExecutor with ⟨hc, hc'⟩ | ⟨execute, execute', hc, hc'⟩
  · rw [hc, hc']
  · rw [hc, hc']
    exact congrArg Run.ofOutcome (h.token execute hc execute' hc' id hid args)

/-- Collaborators that agree on what is listed answer alike about a listed contract. -/
theorem askContract {address : String} (haddress : address ∈ listed.contracts) (signature : String)
    (returnType : Datum) (args : List Datum) :
    Run.askContract c address signature returnType args =
      Run.askContract c' address signature returnType args := by
  unfold Run.askContract
  rcases cases_of_isSome_eq h.contractCaller with ⟨hc, hc'⟩ | ⟨call, call', hc, hc'⟩
  · rw [hc, hc']
  · rw [hc, hc']
    exact congrArg Run.ofOutcome
      (h.contract call hc call' hc' address haddress signature returnType args)

/-- The token that a number as the first argument names. -/
theorem executeToken {id : Decimal} (hid : id ∈ listed.tokens) (rest : List Value) (span : Span) :
    Run.executeToken c (.number id :: rest) span = Run.executeToken c' (.number id :: rest) span := by
  unfold Run.executeToken
  have hnumber : Run.orCrash (Run.tokenId (.number id :: rest)) = pure (some id) := rfl
  rw [hnumber, pure_bind, pure_bind]
  dsimp only
  rw [funext (h.askToken hid)]

/-- The contract that a string as the first argument names. -/
theorem staticcallContract {address : String} (haddress : address ∈ listed.contracts)
    (rest : List Value) (span : Span) :
    Run.staticcallContract c (.string address :: rest) span =
      Run.staticcallContract c' (.string address :: rest) span := by
  unfold Run.staticcallContract
  simp only [Run.argumentText_string, pure_bind, h.askContract haddress]

end Collaborators.AgreeOn

/-! ## Runs -/

theorem eval_literal_ok {env : Env} {levels : Nat} {span : Span} {v : Value} {s t : State}
    (h : (evaluators env 0 levels).eval (.literal value span) s = .ok v t) :
    v = .ofLiteral value := by
  cases levels with
  | zero => cases h
  | succ levels =>
    rw [evaluators_succ] at h
    have hbind : (Run.enter >>= fun _ => pure (.ofLiteral value)) s = .ok v t := h
    cases he : Run.enter s with
    | ok _ u =>
      rw [Run.bind_of_ok he] at hbind
      cases hbind
      rfl
    | error halt u =>
      rw [Run.bind_of_error he] at hbind
      cases hbind

/-- The first of several values is the value of the first expression. -/
theorem Run.evalAll_cons_ok {sub : Evaluators} {first : Expr} {rest : List Expr} {args : List Value}
    {s t : State} (h : Run.evalAll sub (first :: rest) s = .ok args t) :
    ∃ v vs u, args = v :: vs ∧ sub.eval first s = .ok v u := by
  unfold Run.evalAll at h
  rw [List.mapM_cons] at h
  cases hfirst : sub.eval first s with
  | error halt u =>
    rw [Run.bind_of_error hfirst] at h
    cases h
  | ok v u =>
    rw [Run.bind_of_ok hfirst] at h
    cases hrest : rest.mapM sub.eval u with
    | error halt w =>
      rw [Run.bind_of_error hrest] at h
      cases h
    | ok vs w =>
      rw [Run.bind_of_ok hrest] at h
      cases h
      exact ⟨v, vs, u, rfl, rfl⟩

section

variable {program : Program} {context : RunContext} {c c' : Collaborators}

/-- A call of a built-in function does the same if its first argument is a constant that is listed. -/
theorem Collaborators.AgreeOn.callBuiltin (hagree : c.AgreeOn (program.dependencies context) c')
    {call : KnownCall} (hcall : call ∈ program.knownCalls context) (hlistable : call.isListable = true)
    {b : Run.Builtin} (hb : call.1 = b.dependee) (rest : List Value) (span : Span) :
    Run.callBuiltin c b (call.2.value :: rest) span =
      Run.callBuiltin c' b (call.2.value :: rest) span := by
  obtain ⟨dependee, value⟩ := call
  have hdependee : dependee = b.dependee := hb
  subst hdependee
  cases b with
  | executeToken =>
    cases value with
    | number id => exact hagree.executeToken (Program.mem_tokens hcall rfl) rest span
    | string address => cases hlistable
  | staticcallContract =>
    cases value with
    | number id => cases hlistable
    | string address => exact hagree.staticcallContract (Program.mem_contracts hcall rfl) rest span

/-- A call of a built-in function that names by a literal what it reaches, does the same. -/
theorem callBuiltin_of_literal (hagree : c.AgreeOn (program.dependencies context) c')
    {f : Function} (hf : f ∈ program.functions) {name : String} {range span : Span}
    {arguments : List Expr}
    (hnode : (Expr.call (.place (.ident name range)) arguments span).outline 0 ∈ f.outline.preorder)
    (hliteral :
      ((Expr.call (.place (.ident name range)) arguments span).outline 0).namesByLiteral = true)
    {b : Run.Builtin} (hb : Run.Builtin.ofName? name = some b) {env : Env} {levels : Nat}
    {args : List Value} (hargs : (Run.evalAll (evaluators env 0 levels) arguments).Gives args) :
    Run.callBuiltin c b args span = Run.callBuiltin c' b args span := by
  have hdependee := Run.Builtin.ofCallee?_of_ofName? hb
  obtain ⟨first, rest, rfl, hnamed⟩ := Expr.isNamedBy_of_namesByLiteral hdependee hliteral
  obtain ⟨literal, value, hlabel, hvalue, hlistable⟩ := Dependee.constant_of_isNamedBy hnamed
  obtain ⟨range', rfl⟩ := Expr.eq_literal_of_label hlabel
  have hsite := Expr.callSite?_literal hdependee range span literal range' rest
  rw [hvalue, Option.map_some] at hsite
  have hknown : (b.dependee, value) ∈ program.knownCalls context :=
    Program.literal_mem_knownCalls hf hnode hsite
  obtain ⟨s, t, hargs⟩ := hargs
  -- The first argument is the literal itself, so the callee gets the value that is listed.
  obtain ⟨v, vs, u, rfl, hfirst⟩ := Run.evalAll_cons_ok hargs
  rw [eval_literal_ok hfirst, Constant.value_of_literal hvalue]
  exact hagree.callBuiltin hknown hlistable rfl vs span

def Program.InFunctions (program : Program) (node : Outline) : Prop :=
  ∃ f ∈ program.functions, node ∈ f.outline.preorder

theorem Program.inherited_inFunctions (program : Program) :
    NodeTable.Inherited program.InFunctions := by
  rintro node ⟨f, hf, hnode⟩ child hchild
  exact ⟨f, hf, f.outline.inherited_mem_preorder node hnode child hchild⟩

/-- Evaluation does not tell apart collaborators that agree on what is listed. -/
theorem Program.sameOn_evaluators (hliteral : program.NamesByLiterals)
    (hagree : c.AgreeOn (program.dependencies context) c') (maxLength levels : Nat) :
    Evaluators.SameOn program.InFunctions
      (evaluators ⟨FunctionTable.ofList program.functions, c, maxLength⟩ 0 levels)
      (evaluators ⟨FunctionTable.ofList program.functions, c', maxLength⟩ 0 levels) := by
  induction levels with
  | zero => exact ⟨⟨fun _ => rfl, fun _ => rfl, rfl⟩, fun _ _ => rfl⟩
  | succ levels ih =>
    rw [evaluators_succ, evaluators_succ]
    apply ih.tie program.inherited_inFunctions
    · rfl
    · rfl
    rintro name range arguments span ⟨f, hf, hnode⟩ args hargs
    have hnamed := hliteral _ (Program.mem_preorder_function hf hnode)
    unfold Run.callName EnvOf.function?
    cases hg : (FunctionTable.ofList program.functions)[name]? with
    -- A function of the program comes before a builtin of the same name.
    | some g =>
      exact ih.call ⟨g, FunctionTable.mem_of_getElem? hg, g.outline.mem_preorder_self⟩ args
    | none =>
      cases hb : Run.Builtin.ofName? name with
      | some b => exact callBuiltin_of_literal hagree hf hnode hnamed hb hargs
      | none => rfl

/-- Dependencies of a program that names them by literals are complete: a run gives the same result
and uses up the same with any collaborators that agree on what is listed. -/
theorem Program.run_agreeOn_dependencies (hliteral : program.NamesByLiterals)
    (hagree : c.AgreeOn (program.dependencies context) c') (limits : Limits) :
    program.run context limits c = program.run context limits c' := by
  have hsame := Program.sameOn_evaluators hliteral hagree limits.maxStringLength
    (limits.stepBudget + 1)
  have hcall : ∀ f ∈ program.functions, ∀ args, _ := fun f hf args =>
    hsame.call ⟨f, hf, f.outline.mem_preorder_self⟩ args
  have hrun := Run.congruence_eq.programBy (fun _ _ => rfl) program context hcall
  unfold Program.run Program.runWithin
  exact congrArg Outcome.ofResult (congrFun hrun _)

end

/-- Asks for a token in the fallback of a parameter, and for a contract in the body. -/
def askBoth : Program :=
  let ask (name : String) (arguments : List Expr) : Expr :=
    .call (.place (.ident name {})) arguments {}
  ⟨[.function ⟨"f", [⟨"x", some (ask "executeToken" [.literal (.number .one) {}])⟩],
    [.returnValue (some (ask "staticcallContract"
      [.literal (.string "a") {}, .literal (.string "g") {}, .place (.ident "x" {})])) {}], {}, {}⟩], {}⟩

/-- Collaborators that answer with `d` about the token 1 and the contract `a`, and with `stray` about
everything else. -/
def answersOnly (d stray : Datum) : Collaborators where
  tokenExecutor := some fun id _ => .ok (if id = .one then d else stray)
  contractCaller := some fun address _ _ _ => .ok (if address = "a" then d else stray)

/-- What the collaborators do elsewhere does not show. -/
theorem askBoth_run_agreeOn_dependencies :
    askBoth.NamesByLiterals ∧ askBoth.dependencies {} = ⟨["a"], [.one]⟩ ∧
      (askBoth.run {} ⟨20, 10⟩ (answersOnly (.boolean true) .null)).result.toOption.map Datum.text =
        some "true" ∧
      ∀ stray, askBoth.run {} ⟨20, 10⟩ (answersOnly (.boolean true) .null) =
        askBoth.run {} ⟨20, 10⟩ (answersOnly (.boolean true) stray) := by
  have hliteral : askBoth.NamesByLiterals := by decide
  have hlisted : askBoth.dependencies {} = ⟨["a"], [.one]⟩ := by rfl
  -- The two collaborators give the listed token and contract the same answers and differ on all others.
  have hagree : ∀ stray, (answersOnly (.boolean true) .null).AgreeOn (askBoth.dependencies {})
      (answersOnly (.boolean true) stray) := by
    intro stray
    rw [hlisted]
    refine ⟨rfl, rfl, ?_, ?_⟩
    · rintro execute ⟨⟩ execute' ⟨⟩ id hid args
      rw [List.mem_singleton.mp hid]
      dsimp only
      rw [if_pos rfl, if_pos rfl]
    · rintro call ⟨⟩ call' ⟨⟩ address haddress signature returnType args
      rw [List.mem_singleton.mp haddress]
      dsimp only
      rw [if_pos rfl, if_pos rfl]
  refine ⟨hliteral, hlisted, by decide +kernel, ?_⟩
  intro stray
  exact Program.run_agreeOn_dependencies hliteral (hagree stray) ⟨20, 10⟩

end MeteredScript
