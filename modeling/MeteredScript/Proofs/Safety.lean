import MeteredScript.Proofs.Crashes
import MeteredScript.Proofs.NodeRuns

namespace MeteredScript

/-! # Runs stay inside the arena

An arena says nothing of the kinds of its nodes, and evaluation has branches for numbers that no node
has and for nodes that are no expression, no place or no function. A run of an arena that was built
from tokens comes to none of them: it is the same run whatever these branches do. And a run fails only
with errors that evaluation has a cause for; none of them is an error of reading.
-/

/-! ## Errors of a run -/

/-- Where there is no collaborator, nobody answers with an error. -/
theorem Collaborators.not_mayAnswer (e : Error) : ¬({} : Collaborators).MayAnswer e := by
  rintro (⟨_, _, _, hnone, _⟩ | ⟨_, _, _, _, _, hnone, _⟩) <;> cases hnone

namespace Run

/-- A computation that fails only with errors that satisfy `P`. -/
def FailsOnly (P : Error → Prop) {α : Type} (x : Run α) : Prop :=
  ∀ s e t, x s = .error (.failed e) t → P e

namespace FailsOnly

variable {P : Error → Prop} {α β : Type} {x : Run α}

theorem of_ok (hx : ∀ s, ∃ a t, x s = .ok a t) : FailsOnly P x := by
  intro s e t h
  obtain ⟨a, u, hok⟩ := hx s
  rw [hok] at h
  cases h

/-- A failure of two steps in a row is one of the first or one of the second. -/
theorem bind {f : α → Run β} (hx : FailsOnly P x) (hf : ∀ a, FailsOnly P (f a)) :
    FailsOnly P (x >>= f) := by
  intro s e t h
  cases hr : x s with
  | ok a u =>
    rw [bind_of_ok hr] at h
    exact hf a u e t h
  | error halt u =>
    rw [bind_of_error hr] at h
    cases h
    exact hx s e t hr

theorem fail {e : Error} (he : P e) : FailsOnly P (Run.fail e : Run α) := by
  intro s e' t h
  cases h
  exact he

theorem crash (c : Crash) : FailsOnly P (Run.crash c : Run α) := by
  intro s e t h
  cases h

theorem charge (hP : P (.exhausted .budget)) (units : Nat) : FailsOnly P (Run.charge units) := by
  intro s e t h
  rcases Nat.lt_or_ge s.meter.limit (saturate (s.meter.used + units)) with hlt | hle
  · rw [charge_of_lt hlt] at h
    cases h
    exact hP
  · rw [charge_of_le hle] at h
    cases h

theorem memoryStep (hx : IsMemoryStep x) : FailsOnly P x := by
  obtain ⟨f, hf⟩ := hx
  exact of_ok fun s => ⟨_, _, hf s⟩

/-- The frame is left after a failure as well, which stays the same. -/
theorem inFrame (hx : FailsOnly P x) : FailsOnly P (Run.inFrame x) := by
  intro s e t h
  unfold Run.inFrame at h
  cases hr : x { s with frames := s.frames.push } with
  | ok a u =>
    rw [hr] at h
    cases h
  | error halt u =>
    rw [hr] at h
    cases h
    exact hx _ e u hr

theorem unfinished : FailsOnly P (Run.unfinished : Run α) := by
  intro s e t h
  cases h

end FailsOnly

/-- What all errors of evaluation satisfy, in a tree whose source ranges are changed by `σ`, is
satisfied by all errors of a run. -/
theorem congruence_failsOnly {P : Error → Prop} {σ : Span → Span}
    (hP : ∀ e : Error, e.isRuntime = true → P (e.mapSpan σ)) :
    Congruence σ fun _ y => FailsOnly P y where
  pure a := .of_ok fun s => ⟨a, s, rfl⟩
  bind hx hf := .bind hx hf
  fail e he := .fail (hP e he)
  crash c := .crash c
  charge units := .charge (hP (.exhausted .budget) rfl) units
  enter := fun s =>
    FailsOnly.charge (hP (.exhausted .budget) rfl) 1 { s with entries := s.entries + 1 }
  primitive hx := .memoryStep hx.isMemoryStep

/-- A computation that fails only with errors that have their cause in the run. -/
def RuntimeOnly {α : Type} (x : Run α) : Prop :=
  ∀ s e t, x s = .error (.failed e) t → e.isRuntime = true

/-- Without collaborators a run fails only with errors of its own. -/
theorem runtimeOnly_program (program : Program) {env : Env} (henv : env.collaborators = {})
    (context : RunContext) (levels : Nat) :
    RuntimeOnly (Run.program program env context levels) := by
  -- only collaborators could bring in errors of another kind, and there are none
  have hanswer : ∀ e, ¬env.collaborators.MayAnswer e := by
    rw [henv]
    exact Collaborators.not_mayAnswer
  have hcongruence : Congruence id fun _ y => FailsOnly (fun e => e.isRuntime = true) y :=
    congruence_failsOnly fun e he => by rwa [e.mapSpan_id]
  have hsim := hcongruence.simulation env fun e he => absurd he (hanswer e)
  have hrelated := hsim.evaluators FailsOnly.inFrame FailsOnly.unfinished levels
  let call := (evaluators env 0 levels).call
  exact @Congruence.programBy _ hcongruence
    (fun name v => .memoryStep (isMemoryStep_defineGlobal name v)) program context call call
    fun f _ args => by
      have hcall := hrelated.call f args
      rwa [f.mapSpans_id] at hcall

end Run

theorem Outcome.eq_error_of_result {r : EStateM.Result Halt State Datum} {halt : Halt}
    (h : (Outcome.ofResult r).result = .error halt) : ∃ t, r = .error halt t := by
  cases r with
  | ok d t => cases h
  | error halt' t =>
    cases h
    exact ⟨t, rfl⟩

/-- What a run fails with is of one of four kinds. -/
theorem Error.kind_of_isRuntime {e : Error} (he : e.isRuntime = true) :
    e.kind ∈ ["RangeError", "ReferenceError", "ResourceExhausted", "CollaboratorError"] := by
  cases e with
  | lex fault span | parse fault span => cases he
  | range fault span | reference fault span | exhausted cause | collaborator fault =>
    simp [Error.kind]

/-- Without collaborators a run fails only with errors of its own. -/
theorem Program.isRuntime_of_run_eq (program : Program) {context : RunContext} {limits : Limits}
    {e : Error} (h : (program.run context limits {}).result = .error (.failed e)) :
    e.isRuntime = true := by
  let env : Env := ⟨FunctionTable.ofList program.functions, {}, limits.maxStringLength⟩
  have hruntime := Run.runtimeOnly_program program (show env.collaborators = {} from rfl) context
    (limits.stepBudget + 1) { meter := { limit := limits.stepBudget } }
  obtain ⟨t, ht⟩ := Outcome.eq_error_of_result h
  exact hruntime e t ht

/-- Runs stay inside the arena that was built from tokens: it has nodes of the right kind in all
places, and a run never comes to a number that no node has nor to a node of the wrong kind, so it does
not depend on what would be done there. Without collaborators a run fails only with errors of the
kinds that evaluation has a cause for. -/
theorem Arena.run_stays_in_arena {tokens : List Lexeme} {arena : Arena}
    (h : Arena.ofTokens? tokens = .ok arena) (context : RunContext) (limits : Limits) :
    arena.table.WellKinded ∧
      (∀ fallbacks collaborators, arena.runWith fallbacks context limits collaborators =
        arena.run context limits collaborators) ∧
      (arena.run context limits {}).result ≠ .error (.crashed .outsideArena) ∧
      ∀ e, (arena.run context limits {}).result = .error (.failed e) →
        e.kind ∈ ["RangeError", "ReferenceError", "ResourceExhausted", "CollaboratorError"] := by
  obtain ⟨program, _, htable⟩ := exists_program_of_ofTokens? h
  have hrun : ∀ fallbacks collaborators, arena.runWith fallbacks context limits collaborators =
      program.run context limits collaborators :=
    fun fallbacks collaborators => runWith_eq_run htable fallbacks context limits collaborators
  refine ⟨htable ▸ program.wellKinded_nodeTable,
    fun fallbacks collaborators => (hrun fallbacks collaborators).trans (hrun {} collaborators).symm, ?_⟩
  rw [Arena.run, hrun {} {}]
  refine ⟨fun hcrash => ?_, fun e he => Error.kind_of_isRuntime (program.isRuntime_of_run_eq he)⟩
  cases ((program.run_eq_crashed_iff context limits {} .outsideArena).mp hcrash).1

/-- A run of `function f(a = 1) { return (a); } f();` gives the fallback of the parameter. -/
theorem Arena.run_stays_in_callArena :
    Arena.ofTokens? callTokens = .ok callArena ∧
      ((callArena.run {} {} {}).result = .ok (.number .one)) ∧
      ∀ fallbacks, callArena.runWith fallbacks {} {} {} = callArena.run {} {} {} :=
  ⟨ofTokens?_callTokens, by rfl,
    fun fallbacks => (run_stays_in_arena ofTokens?_callTokens {} {}).2.1 fallbacks {}⟩

end MeteredScript
