import MeteredScript.Proofs.Termination

namespace MeteredScript

/-! # Limits are thresholds

What a run does does not depend on its limits until it meets one of them. Under a smaller budget a
run is the same run if it uses no more than that, and else it is stopped for the budget; under a
larger bound on strings it is the same run unless a limit had stopped it. Nothing reads the budget
that is left, and no rule goes on after a charge that failed.
-/

namespace Run

/-! ## Budgets -/

/-- Changes the state a computation stops in. -/
def mapFinal {α : Type} (f : State → State) : EStateM.Result Halt State α → EStateM.Result Halt State α
  | .ok a s => .ok a (f s)
  | .error halt s => .error halt (f s)

theorem final_mapFinal {α : Type} (f : State → State) (r : EStateM.Result Halt State α) :
    final (mapFinal f r) = f (final r) := by
  cases r <;> rfl

theorem mapFinal_comm {α : Type} {f g : State → State} (hfg : ∀ s, f (g s) = g (f s))
    (r : EStateM.Result Halt State α) : mapFinal f (mapFinal g r) = mapFinal g (mapFinal f r) := by
  cases r <;> simp [mapFinal, hfg]

def withBudget (budget : Nat) (s : State) : State :=
  { s with meter := { s.meter with limit := budget } }

/-- The computation `y` does under `budget` what `x` does under a larger one, as far as the budget
lasts, and is stopped where it ends. -/
structure Threshold (budget : Nat) {α : Type} (x y : Run α) : Prop where
  limit (s : State) : (final (x s)).meter.limit = s.meter.limit
  used_le (s : State) : s.meter.used ≤ maxUnits → s.meter.used ≤ (final (x s)).meter.used
  used_le_max (s : State) : s.meter.used ≤ maxUnits → (final (x s)).meter.used ≤ maxUnits
  within (s : State) : s.meter.used ≤ budget → budget ≤ s.meter.limit →
    (final (x s)).meter.used ≤ budget → y (withBudget budget s) = mapFinal (withBudget budget) (x s)
  above (s : State) : s.meter.used ≤ budget → budget ≤ s.meter.limit →
    budget < (final (x s)).meter.used →
      ∃ t, y (withBudget budget s) = .error (.failed (.exhausted .budget)) t

namespace Threshold

variable {budget : Nat} {α β : Type} {x y : Run α}

/-- A computation that leaves the meter alone meets no budget. -/
theorem of_meter_eq (hmeter : ∀ s, (final (x s)).meter = s.meter)
    (hsame : ∀ s, y (withBudget budget s) = mapFinal (withBudget budget) (x s)) :
    Threshold budget x y where
  limit s := by rw [hmeter]
  used_le s _ := Nat.le_of_eq (congrArg Meter.used (hmeter s).symm)
  used_le_max s hs := by rw [hmeter]; exact hs
  within s _ _ _ := hsame s
  above s hs _ hlt := by
    rw [hmeter] at hlt
    omega

/-- A charge goes through under both budgets, or the smaller one stops it. -/
theorem charge (units : Nat) : Threshold budget (Run.charge units) (Run.charge units) := by
  have hfinal : ∀ s, final (Run.charge units s) = { s with meter := s.meter.charge units } := by
    intro s
    rcases Nat.lt_or_ge s.meter.limit (saturate (s.meter.used + units)) with hlt | hle
    · rw [charge_of_lt hlt, final]
    · rw [charge_of_le hle, final]
  constructor
  · intro s
    rw [hfinal, Meter.charge_limit]
  · intro s hs
    rw [hfinal, Meter.charge_used, saturate]
    omega
  · intro s _
    rw [hfinal, Meter.charge_used, saturate]
    omega
  · intro s _ hlimit hused
    rw [hfinal, Meter.charge_used] at hused
    -- what fits into the smaller budget fits into the larger one
    rw [charge_of_le (Nat.le_trans hused hlimit)]
    exact charge_of_le (show saturate ((withBudget budget s).meter.used + units) ≤ budget from hused)
  · intro s _ _ hused
    rw [hfinal, Meter.charge_used] at hused
    exact ⟨_, charge_of_lt
      (show budget < saturate ((withBudget budget s).meter.used + units) from hused)⟩

/-- If the first of two steps stays within the smaller budget, the second starts alike under both. -/
theorem bind {f g : α → Run β} (hbudget : budget ≤ maxUnits) (hxy : Threshold budget x y)
    (hfg : ∀ a, Threshold budget (f a) (g a)) : Threshold budget (x >>= f) (y >>= g) := by
  constructor
  · intro s
    have hfirst := hxy.limit s
    cases hr : x s with
    | ok a t =>
      rw [hr] at hfirst
      rw [bind_of_ok hr]
      exact ((hfg a).limit t).trans hfirst
    | error halt t =>
      rw [hr] at hfirst
      rw [bind_of_error hr]
      exact hfirst
  · intro s hs
    have hfirst := hxy.used_le s hs
    have hmax := hxy.used_le_max s hs
    cases hr : x s with
    | ok a t =>
      rw [hr] at hfirst hmax
      rw [bind_of_ok hr]
      exact Nat.le_trans hfirst ((hfg a).used_le t hmax)
    | error halt t =>
      rw [hr] at hfirst
      rw [bind_of_error hr]
      exact hfirst
  · intro s hs
    have hmax := hxy.used_le_max s hs
    cases hr : x s with
    | ok a t =>
      rw [hr] at hmax
      rw [bind_of_ok hr]
      exact (hfg a).used_le_max t hmax
    | error halt t =>
      rw [hr] at hmax
      rw [bind_of_error hr]
      exact hmax
  · intro s hs hlimit hused
    have hfirst := hxy.within s hs hlimit
    have hmax := hxy.used_le_max s (Nat.le_trans hs hbudget)
    have hlimit' := hxy.limit s
    cases hr : x s with
    | ok a t =>
      rw [bind_of_ok hr] at hused ⊢
      rw [hr] at hfirst hmax hlimit'
      -- the second computation uses no less than the first
      have hmid : t.meter.used ≤ budget := Nat.le_trans ((hfg a).used_le t hmax) hused
      rw [bind_of_ok (hfirst hmid)]
      exact (hfg a).within t hmid (Nat.le_trans hlimit (Nat.le_of_eq hlimit'.symm)) hused
    | error halt t =>
      rw [bind_of_error hr] at hused ⊢
      rw [hr] at hfirst
      exact bind_of_error (hfirst hused)
  · intro s hs hlimit hused
    have hfirst := hxy.within s hs hlimit
    have habove := hxy.above s hs hlimit
    have hlimit' := hxy.limit s
    cases hr : x s with
    | ok a t =>
      rw [bind_of_ok hr] at hused
      rw [hr] at hfirst habove hlimit'
      rcases Nat.lt_or_ge budget t.meter.used with hlt | hmid
      · -- the budget ends already in the first computation
        obtain ⟨u, hu⟩ := habove hlt
        exact ⟨u, bind_of_error hu⟩
      · rw [bind_of_ok (hfirst hmid)]
        exact (hfg a).above t hmid (Nat.le_trans hlimit (Nat.le_of_eq hlimit'.symm)) hused
    | error halt t =>
      rw [bind_of_error hr] at hused
      rw [hr] at habove
      obtain ⟨u, hu⟩ := habove hused
      exact ⟨u, bind_of_error hu⟩

theorem memoryStep (hx : IsMemoryStep x) : Threshold budget x x := by
  obtain ⟨f, hf⟩ := hx
  refine of_meter_eq (fun s => ?_) fun s => ?_
  · rw [hf s, final]
  · rw [hf s, hf (withBudget budget s), mapFinal]
    rfl

theorem halt (halt : Halt) : Threshold budget (throw halt : Run α) (throw halt) :=
  of_meter_eq (fun _ => rfl) fun _ => rfl

/-- Counting an entry is no matter of the budget. -/
theorem enter (hbudget : budget ≤ maxUnits) : Threshold budget Run.enter Run.enter := by
  let count : Run Unit := modify fun s => { s with entries := s.entries + 1 }
  have hcount : Threshold budget count count := of_meter_eq (fun _ => rfl) fun _ => rfl
  exact bind hbudget hcount fun _ => charge 1

theorem inFrame (hxy : Threshold budget x y) :
    Threshold budget (Run.inFrame x) (Run.inFrame y) := by
  -- opening and closing the frame changes neither the meter nor what the budget is
  let opened (s : State) : State := { s with frames := s.frames.push }
  let closed (s : State) : State := { s with frames := s.frames.pop }
  have hframe : ∀ (z : Run α) s, Run.inFrame z s = mapFinal closed (z (opened s)) := by
    intro z s
    show (match z (opened s) with
      | .ok a t => .ok a (closed t)
      | .error halt t => .error halt (closed t)) = mapFinal closed (z (opened s))
    cases z (opened s) <;> rfl
  have hmeter : ∀ s, (final (Run.inFrame x s)).meter = (final (x (opened s))).meter := by
    intro s
    rw [hframe, final_mapFinal]
  constructor
  · intro s
    rw [hmeter]
    exact hxy.limit (opened s)
  · intro s hs
    rw [hmeter]
    exact hxy.used_le (opened s) hs
  · intro s hs
    rw [hmeter]
    exact hxy.used_le_max (opened s) hs
  · intro s hs hlimit hused
    rw [hmeter] at hused
    have hwithin := hxy.within (opened s) hs hlimit hused
    have hcomm : ∀ t, withBudget budget (closed t) = closed (withBudget budget t) := fun _ => rfl
    rw [hframe, hframe, mapFinal_comm hcomm, ← hwithin]
    rfl
  · intro s hs hlimit hused
    rw [hmeter] at hused
    obtain ⟨t, ht⟩ := hxy.above (opened s) hs hlimit hused
    refine ⟨closed t, ?_⟩
    have hopened : opened (withBudget budget s) = withBudget budget (opened s) := rfl
    rw [hframe, hopened, ht, mapFinal]

end Threshold

/-- Being stopped at a budget only is kept by everything that rules are made of. -/
theorem congruence_threshold {budget : Nat} (hbudget : budget ≤ maxUnits) :
    Congruence id (Threshold budget) where
  pure a := .of_meter_eq (fun _ => rfl) fun _ => rfl
  bind hxy hfg := .bind hbudget hxy hfg
  fail e _ := by
    rw [Error.mapSpan_id]
    exact .halt _
  crash c := .halt _
  charge units := .charge units
  enter := .enter hbudget
  primitive hx := .memoryStep hx.isMemoryStep

/-- Every smaller budget is a threshold for a whole run. -/
theorem threshold_program {budget : Nat} (hbudget : budget ≤ maxUnits) (program : Program) (env : Env)
    (context : RunContext) (levels : Nat) :
    Threshold budget (Run.program program env context levels)
      (Run.program program env context levels) := by
  have hcongr := congruence_threshold hbudget
  have hsim := hcongr.simulation env fun e _ => Threshold.halt _
  have hrelated := hsim.evaluators Threshold.inFrame (Threshold.halt _) levels
  refine hcongr.programBy (fun name v => .memoryStep (isMemoryStep_defineGlobal name v))
      program context ?_
  intro f _ args
  have hcall := hrelated.call f args
  rwa [Function.mapSpans_id] at hcall

/-! ## Bounds on strings -/

/-- Ways to halt for a limit. -/
def IsExhaustion (halt : Halt) : Prop := ∃ cause, halt = .failed (.exhausted cause)

/-- A longer bound on strings shows only where the shorter one stopped the run. -/
theorem simulation_maxStringLength {env : Env} {maxLength : Nat}
    (hle : env.maxStringLength ≤ maxLength) :
    Simulation id env { env with maxStringLength := maxLength } (AgreeUnless IsExhaustion) where
  toCongruenceOn := congruence_agreeUnless IsExhaustion
  functions := (simulation_agreeUnless IsExhaustion env).functions
  concat left right := by
    refine AgreeUnless.bind (.refl _) fun l => AgreeUnless.bind (.refl _) fun r => ?_
    dsimp only
    split
    · exact .of_throw ⟨_, rfl⟩ _
    · rw [if_neg (by omega)]
      exact .refl _
  builtin := (simulation_agreeUnless IsExhaustion env).builtin

theorem agreeUnless_program {env : Env} {maxLength : Nat} (hle : env.maxStringLength ≤ maxLength)
    (program : Program) (context : RunContext) (levels : Nat) :
    AgreeUnless IsExhaustion (Run.program program env context levels)
      (Run.program program { env with maxStringLength := maxLength } context levels) := by
  have hsim := simulation_maxStringLength hle
  have hrelated := hsim.evaluators AgreeUnless.inFrame (.refl _) levels
  have hcongruence := congruence_agreeUnless IsExhaustion
  refine hcongruence.programBy (fun name v => .refl _) program context fun f _ args => ?_
  have hcall := hrelated.call f args
  rwa [Function.mapSpans_id] at hcall

end Run

/-! ## Whole runs -/

theorem Outcome.ofResult_mapFinal (budget : Nat) (r : EStateM.Result Halt State Datum) :
    Outcome.ofResult (Run.mapFinal (Run.withBudget budget) r) = Outcome.ofResult r := by
  cases r <;> rfl

theorem Outcome.used_ofResult (r : EStateM.Result Halt State Datum) :
    (Outcome.ofResult r).used = (Run.final r).meter.used := by
  cases r <;> rfl

section

variable (program : Program) (context : RunContext) (collaborators : Collaborators)

/-- Down to the same number of levels, a run under a smaller budget is the run under the larger one or
is stopped for the budget. -/
theorem Program.runWithin_budget {budget larger : Nat} (hle : budget ≤ larger)
    (hmax : budget ≤ maxUnits) (maxLength levels : Nat) :
    ((program.runWithin levels context ⟨larger, maxLength⟩ collaborators).used ≤ budget →
        program.runWithin levels context ⟨budget, maxLength⟩ collaborators =
          program.runWithin levels context ⟨larger, maxLength⟩ collaborators) ∧
      (budget < (program.runWithin levels context ⟨larger, maxLength⟩ collaborators).used →
        (program.runWithin levels context ⟨budget, maxLength⟩ collaborators).result =
          .error (.failed (.exhausted .budget))) := by
  let env : Env := ⟨FunctionTable.ofList program.functions, collaborators, maxLength⟩
  let start : State := { meter := { limit := larger } }
  have hthreshold := Run.threshold_program hmax program env context levels
  unfold Program.runWithin
  rw [Outcome.used_ofResult]
  constructor
  · intro hused
    have hwithin := hthreshold.within start (Nat.zero_le _) hle hused
    exact (congrArg Outcome.ofResult hwithin).trans (Outcome.ofResult_mapFinal budget _)
  · intro hused
    obtain ⟨t, ht⟩ := hthreshold.above start (Nat.zero_le _) hle hused
    exact congrArg (fun r => (Outcome.ofResult r).result) ht

/-- A run that is stopped by no limit is the same under a larger bound on strings. -/
theorem Program.runWithin_maxStringLength {maxLength longer : Nat} (hle : maxLength ≤ longer)
    (budget levels : Nat)
    (hended : ∀ cause, (program.runWithin levels context ⟨budget, maxLength⟩ collaborators).result ≠
      .error (.failed (.exhausted cause))) :
    program.runWithin levels context ⟨budget, longer⟩ collaborators =
      program.runWithin levels context ⟨budget, maxLength⟩ collaborators := by
  let env : Env := ⟨FunctionTable.ofList program.functions, collaborators, maxLength⟩
  have hagree := Run.agreeUnless_program (show env.maxStringLength ≤ longer from hle) program
    context levels
  unfold Program.runWithin at hended ⊢
  refine congrArg Outcome.ofResult (hagree _ ?_)
  rintro _ t ht ⟨cause, rfl⟩
  apply hended cause
  exact congrArg (fun r => (Outcome.ofResult r).result) ht

end

/-- Limits are transparent: a run under a smaller budget is the same run if that uses no more, and else
is stopped for the budget; a run that no limit stopped is the same under a larger bound on strings. -/
theorem Program.run_limits (program : Program) (context : RunContext) (collaborators : Collaborators)
    {budget larger maxLength longer : Nat} (hbudget : budget ≤ larger) (hmax : larger ≤ maxUnits)
    (hlength : maxLength ≤ longer) :
    ((program.run context ⟨larger, maxLength⟩ collaborators).used ≤ budget →
        program.run context ⟨budget, maxLength⟩ collaborators =
          program.run context ⟨larger, maxLength⟩ collaborators) ∧
      (budget < (program.run context ⟨larger, maxLength⟩ collaborators).used →
        (program.run context ⟨budget, maxLength⟩ collaborators).result =
          .error (.failed (.exhausted .budget))) ∧
      ((∀ cause, (program.run context ⟨budget, maxLength⟩ collaborators).result ≠
          .error (.failed (.exhausted cause))) →
        program.run context ⟨budget, longer⟩ collaborators =
          program.run context ⟨budget, maxLength⟩ collaborators) := by
  -- the run under the smaller budget may as well have the levels of the other one
  have hlevels : program.runWithin (larger + 1) context ⟨budget, maxLength⟩ collaborators =
      program.run context ⟨budget, maxLength⟩ collaborators := by
    rcases Nat.lt_or_ge budget maxUnits with hlt | hge
    · exact program.runWithin_eq_run context collaborators hlt (by show budget < larger + 1; omega)
    · have hsame : larger = budget := by omega
      rw [hsame]
      rfl
  have hthreshold := program.runWithin_budget context collaborators hbudget
    (Nat.le_trans hbudget hmax) maxLength (larger + 1)
  rw [hlevels] at hthreshold
  refine ⟨hthreshold.1, hthreshold.2, fun hended => ?_⟩
  exact program.runWithin_maxStringLength context collaborators hlength budget (budget + 1) hended

def joinTexts : Program :=
  ⟨[.function ⟨"f", [], [.returnValue (some (.binary (.arith .add) (.literal (.string "ab") {})
    (.literal (.string "c") {}) {})) {}], {}, {}⟩], {}⟩

/-- Seven units are enough for it, and six are not. -/
theorem joinTexts_run_limits :
    joinTexts.run {} ⟨7, 3⟩ {} = joinTexts.run {} ⟨100, 3⟩ {} ∧
      (joinTexts.run {} ⟨6, 3⟩ {}).result = .error (.failed (.exhausted .budget)) ∧
      joinTexts.run {} ⟨7, 9⟩ {} = joinTexts.run {} ⟨7, 3⟩ {} := by
  have hused : (joinTexts.run {} ⟨100, 3⟩ {}).used = 7 := by rfl
  have henough := joinTexts.run_limits {} {} (show 7 ≤ 100 by decide) (by decide) (show 3 ≤ 9 by decide)
  have htooFew := joinTexts.run_limits {} {} (show 6 ≤ 100 by decide) (by decide) (show 3 ≤ 9 by decide)
  have hresult : (joinTexts.run {} ⟨7, 3⟩ {}).result = .ok (.string "abc") := by rfl
  refine ⟨henough.1 (by omega), htooFew.2.1 (by omega), henough.2.2 fun cause => ?_⟩
  rw [hresult]
  rintro ⟨⟩

end MeteredScript
