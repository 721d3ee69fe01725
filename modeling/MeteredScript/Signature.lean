import MeteredScript.Error
import MeteredScript.Tree

namespace MeteredScript

/-! # Signatures -/

/-- The header of a function: its name and the names of its parameters. -/
structure Signature where
  name : String
  params : List String
deriving DecidableEq, Repr, Inhabited

/-- The header of a program's first function. -/
def Program.signature (program : Program) : Except Error Signature :=
  match program.functions.head? with
  | some f => .ok ⟨f.name, f.params.map ParamOf.name⟩
  | none => .error (.parse .noFunction program.span)

/-- Written `name(a, b)`. -/
def Signature.text (s : Signature) : String :=
  s.name ++ "(" ++ ", ".intercalate s.params ++ ")"

end MeteredScript
