namespace MeteredScript

/-! # Deep nesting

Programs and data nest without a bound of their own, and the functions over them recurse as deep as
their input nests. `deepen` keeps such a recursion within the machine's stacks: it is the identity
on what it computes, and moves every so many levels onto a stack of their own.
-/

/-- How many levels of a recursion share one stack. -/
def levelsPerStack : Nat := 262144

/-- Computes `f ()`. At every `levelsPerStack`-th level the computation gets a fresh stack. -/
@[inline] def deepen {α : Type} (level : Nat) (f : Unit → α) : α :=
  if (level + 1) % levelsPerStack = 0 then (Task.spawn f .dedicated).get else f ()

/-- Which stack a computation runs on does not show in its result. -/
@[simp] theorem deepen_eq {α : Type} (level : Nat) (f : Unit → α) : deepen level f = f () := by
  unfold deepen
  split <;> rfl

end MeteredScript
