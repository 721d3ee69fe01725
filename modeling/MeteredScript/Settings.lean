import MeteredScript.Eval.State
import MeteredScript.Toml.Document

namespace MeteredScript

/-! # Settings

The limits of a run as a TOML text with the keys `step_budget` and `max_string_length`, each of which
may be missing. Other keys and tables are passed over.
-/

namespace Toml

/-- A setting: an integer that is not negative, or `fallback` if there is none. -/
def Table.natural? (t : Table) (key : String) (fallback : Nat) : Option Nat :=
  match t.get? key with
  | none => some fallback
  | some (.value (.integer n)) => if 0 ≤ n then some n.toNat else none
  | some _ => none

end Toml

/-- Reads a settings text. -/
def Limits.parse? (text : String) : Option Limits := do
  let settings ← Toml.parse? text
  let usual : Limits := {}
  return ⟨← settings.natural? "step_budget" usual.stepBudget,
    ← settings.natural? "max_string_length" usual.maxStringLength⟩

end MeteredScript
