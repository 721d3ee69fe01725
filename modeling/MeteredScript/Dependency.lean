import MeteredScript.Eval.Run
import MeteredScript.Json.Basic
import MeteredScript.Tree.Outline
import Std.Data.TreeMap

namespace MeteredScript

/-! # Dependencies

The tokens and contracts that a program names in its calls, found without running it. The first
argument of such a call counts if it is a literal, or a name that stands for one constant throughout
the function: a variable with a single declaration and no assignment, or a name given from outside.
-/

/-- A value known without running a program. -/
inductive Constant where
  | number (value : Decimal)
  | string (value : String)
deriving DecidableEq, Repr, Inhabited

def Constant.ofLiteral? : Literal → Option Constant
  | .number value => some (number value)
  | .string value => some (string value)
  | _ => none

/-- The constant that a piece of data is. -/
def Constant.ofDatum? : Datum → Option Constant
  | .number value => some (number value)
  | .string value => some (string value)
  | _ => none

def Outline.constant? (outline : Outline) : Option Constant :=
  match outline.label with
  | .literal value => Constant.ofLiteral? value
  | _ => none

/-! ## Call sites -/

/-- What a call can reach outside of the program. -/
inductive Dependee where
  | token
  | contract
deriving DecidableEq, Repr, Inhabited

/-- What calls of a function reach. -/
def Dependee.ofCallee? (name : String) : Option Dependee :=
  if name = "executeToken" then some token
  else if name = "staticcallContract" then some contract
  else none

/-- A first argument that can say what a call reaches. -/
inductive SiteArgument where
  | literal (value : Constant)
  | name (name : String)
deriving DecidableEq, Repr, Inhabited

/-- A call that reaches outside of the program. -/
structure CallSite where
  dependee : Dependee
  argument : SiteArgument
deriving DecidableEq, Repr, Inhabited

def Outline.siteArgument? (outline : Outline) : Option SiteArgument :=
  match outline.label with
  | .ident name => some (.name name)
  | _ => outline.constant?.map .literal

def Outline.callSite? (outline : Outline) : Option CallSite :=
  match outline.label, outline.children with
  | .call, callee :: first :: _ =>
    match callee.label with
    | .ident name => do return ⟨← Dependee.ofCallee? name, ← first.siteArgument?⟩
    | _ => none
  | _, _ => none

/-! ## Bindings -/

/-- What is known of a variable of a function. -/
inductive Binding where
  | constant (value : Constant)
  /-- A parameter, or a variable that does not keep one constant. -/
  | unknown
deriving DecidableEq, Repr, Inhabited

/-- What is known of the variables of a function, by their names. -/
abbrev Bindings := Std.TreeMap String Binding

/-- Takes note of a binding. Only the first one of a variable can make it a constant. -/
def Bindings.note (known : Bindings) (bound : String × Option Constant) : Bindings :=
  match known.contains bound.1, bound.2 with
  | false, some value => known.insert bound.1 (.constant value)
  | _, _ => known.insert bound.1 .unknown

/-- Variables with the constants they are declared with; `nodes` are the initial values of those that
have one. -/
def declaredConstants : List (String × Bool) → List Outline → List (String × Option Constant)
  | [], _ => []
  | (name, true) :: rest, init :: nodes => (name, init.constant?) :: declaredConstants rest nodes
  | (name, _) :: rest, nodes => (name, none) :: declaredConstants rest nodes

/-- What a node binds: variables it declares, or the variable it assigns to. -/
def Outline.bound (outline : Outline) : List (String × Option Constant) :=
  match outline.label, outline.children with
  | .declare names, nodes => declaredConstants names nodes
  | .assign _, target :: _ | .update _ _, target :: _ =>
    match target.label with
    | .ident name => [(name, none)]
    | _ => []
  | _, _ => []

/-- What is known of the variables of a function. -/
def Function.bindings (f : Function) : Bindings :=
  let params := f.params.map fun p => (p.name, none)
  (params ++ f.outline.preorder.flatMap Outline.bound).foldl Bindings.note ∅

/-! ## Tracing -/

/-- Constants by the names that stand for them. -/
abbrev Constants := Std.TreeMap String Constant

/-- Takes note of a name given from outside. -/
def Constants.note (known : Constants) (given : String × Datum) : Constants :=
  match Constant.ofDatum? given.2 with
  | some value => known.insert given.1 value
  | none => known

/-- The names given from outside that stand for constants. -/
def RunContext.constants (context : RunContext) : Constants :=
  context.identifiers.foldl Constants.note ∅

abbrev KnownCall := Dependee × Constant

def CallSite.literal? (site : CallSite) : Option KnownCall :=
  match site.argument with
  | .literal value => some (site.dependee, value)
  | .name _ => none

/-- The call that a call site with a name for an argument is, if the name stands for a constant. -/
def CallSite.resolved? (bindings : Bindings) (globals : Constants) (site : CallSite) :
    Option KnownCall :=
  match site.argument with
  | .literal _ => none
  | .name name =>
    match bindings[name]? with
    | some (.constant value) => some (site.dependee, value)
    | some .unknown => none
    | none => globals[name]?.map fun value => (site.dependee, value)

/-- The call sites of a function, in source order. -/
def Function.callSites (f : Function) : List CallSite := f.outline.preorder.filterMap Outline.callSite?

/-- All calls of known destination: those with a literal argument, then those with a name. -/
def Program.knownCalls (program : Program) (context : RunContext) : List KnownCall :=
  let globals := context.constants
  let literal := program.functions.flatMap fun f => f.callSites.filterMap CallSite.literal?
  let resolved := program.functions.flatMap fun f =>
    let bindings := f.bindings
    f.callSites.filterMap (CallSite.resolved? bindings globals)
  literal ++ resolved

/-- The contract addresses and the token ids that a program names, each once. -/
structure Dependencies where
  contracts : List String
  tokens : List Decimal
deriving DecidableEq, Repr, Inhabited

def KnownCall.address? : KnownCall → Option String
  | (.contract, .string address) => some address
  | _ => none

def KnownCall.tokenId? : KnownCall → Option Decimal
  | (.token, .number id) => some id
  | _ => none

/-- What a program depends on, in the order of `knownCalls`. -/
def Program.dependencies (program : Program) (context : RunContext) : Dependencies :=
  let calls := program.knownCalls context
  ⟨(calls.filterMap KnownCall.address?).eraseDups, (calls.filterMap KnownCall.tokenId?).eraseDups⟩

def Dependencies.toJson (d : Dependencies) : Json :=
  .object [("contractDependees", .array (d.contracts.map .string)),
    ("exeTokenDependees", .array (d.tokens.map fun id => .string id.text))]

end MeteredScript
