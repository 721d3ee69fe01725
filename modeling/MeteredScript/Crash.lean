namespace MeteredScript

/-! # Crashes

A program can end without a result and without an error, where it takes for granted what need not be
so. Nothing that runs inside it notices a crash or goes on behind it.
-/

/-- What a program takes for granted. -/
inductive Crash where
  /-- A text was cut inside a character. -/
  | insideCharacter
  /-- A number of a node was used that no node has. -/
  | outsideArena
deriving DecidableEq, Repr, Inhabited

/-- The line that reports a crash. -/
def Crash.text : Crash → String
  | insideCharacter => "a text was cut inside a character"
  | outsideArena => "there is no such node"

/-- What comes behind something that may crash has a result only if nothing crashed. -/
theorem Crash.exists_of_bind_eq_ok {α β : Type} {x : Except Crash α} {f : α → Except Crash β} {b : β}
    (h : x >>= f = .ok b) : ∃ a, x = .ok a ∧ f a = .ok b := by
  cases x with
  | ok a => exact ⟨a, rfl, h⟩
  | error c => cases h

end MeteredScript
