import MeteredScript.Proofs.Congruence

namespace MeteredScript

/-! # Metered runs end

A run recurses through calls, loops and fallbacks of parameters, and none of these gets smaller; what
gets smaller is the budget that is left. Everything that is entered is paid for first, so with a
budget of `B` units nothing lies deeper than `B + 1` levels, no loop has more than `B + 1` rounds, and
at most `B + 1` things are entered in all. The number of levels a run is given is then of no
consequence: with more of them it is the same run (`Program.runWithin_eq_run`).
-/

namespace Run

/-! ## Ending within a number of levels -/

/-- A state that has not exceeded a budget the meter can count, and in which every entry is paid
for. -/
structure Solvent (s : State) : Prop where
  limit_lt : s.meter.limit < maxUnits
  used_le : s.meter.used ≤ s.meter.limit
  entries_le : s.entries ≤ s.meter.used

/-- What may come of a computation that starts in the state `s`: a solvent state in which at least
`cost` more units are used, or a failure or a crash before which not too much was entered. -/
def EndsFrom {α : Type} (s : State) (cost : Nat) : EStateM.Result Halt State α → Prop
  | .ok _ t => Solvent t ∧ t.meter.limit = s.meter.limit ∧ s.meter.used + cost ≤ t.meter.used
  | .error (.failed _) t | .error (.crashed _) t => t.entries ≤ s.meter.limit + 1
  | .error .unfinished _ => False

/-- A computation that ends, and costs at least `cost` units unless it fails, whenever the units that
are left are fewer than `levels`. -/
def Ends (levels cost : Nat) {α : Type} (x : Run α) : Prop :=
  ∀ s, Solvent s → s.meter.limit < levels + s.meter.used → EndsFrom s cost (x s)

/-- How a computation halts does not depend on what it would have cost. -/
theorem EndsFrom.halt {α β : Type} {s t : State} {cost cost' : Nat} {halt : Halt}
    (hend : EndsFrom s cost (.error halt t : EStateM.Result Halt State α)) :
    EndsFrom s cost' (.error halt t : EStateM.Result Halt State β) := by
  cases halt with
  | failed _ | crashed _ | unfinished => exact hend

namespace Ends

variable {α β : Type} {levels cost : Nat} {x : Run α} {f : α → Run β}

/-- What ends within few levels ends within more, and what costs much costs less. -/
theorem weaken {levels' cost' : Nat} (hx : Ends levels cost x) (hl : levels' ≤ levels)
    (hc : cost' ≤ cost) : Ends levels' cost' x := by
  intro s hs hlt
  have hend := hx s hs (by omega)
  cases hr : x s with
  | ok a t =>
    rw [hr] at hend
    obtain ⟨ht, hlimit, hused⟩ := hend
    exact ⟨ht, hlimit, by omega⟩
  | error halt t =>
    rw [hr] at hend
    exact hend.halt

/-- What was paid in the first computation need not be left as levels for the second. -/
theorem bind_paid (paid : Nat) (hx : Ends (levels + paid) paid x) (hf : ∀ a, Ends levels 0 (f a)) :
    Ends (levels + paid) paid (x >>= f) := by
  intro s hs hlt
  have hend := hx s hs hlt
  cases hr : x s with
  | ok a t =>
    rw [hr] at hend
    obtain ⟨ht, hlimit, hused⟩ := hend
    -- what was paid makes up for the levels that the second part lacks
    have hnext := hf a t ht (by omega)
    rw [bind_of_ok hr]
    cases hr' : f a t with
    | ok b u =>
      rw [hr'] at hnext
      obtain ⟨hu, hlimit', hused'⟩ := hnext
      exact ⟨hu, by omega, by omega⟩
    | error halt u =>
      rw [hr'] at hnext
      cases halt with
      | failed _ | crashed _ =>
        have hentries : u.entries ≤ t.meter.limit + 1 := hnext
        show u.entries ≤ s.meter.limit + 1
        omega
      | unfinished => exact hnext
  | error halt t =>
    rw [hr] at hend
    rw [bind_of_error hr]
    exact hend.halt

/-- Without levels there are no units left, so there is nothing to show. -/
theorem of_zero (x : Run α) : Ends 0 cost x := by
  intro s hs hlt
  have hused := hs.used_le
  omega

theorem bind (hx : Ends levels 0 x) (hf : ∀ a, Ends levels 0 (f a)) : Ends levels 0 (x >>= f) :=
  bind_paid 0 hx hf

theorem pure (a : α) : Ends levels 0 (Pure.pure a : Run α) := by
  intro s hs _
  exact ⟨hs, rfl, Nat.le_refl _⟩

/-- An error is an end. -/
theorem fail (e : Error) : Ends levels 0 (Run.fail e : Run α) := by
  intro s hs _
  have hused := hs.used_le
  have hentries := hs.entries_le
  show s.entries ≤ s.meter.limit + 1
  omega

theorem crash (c : Crash) : Ends levels 0 (Run.crash c : Run α) := by
  intro s hs _
  have hused := hs.used_le
  have hentries := hs.entries_le
  show s.entries ≤ s.meter.limit + 1
  omega

theorem charge (units : Nat) : Ends levels 0 (Run.charge units) := by
  intro s hs _
  obtain ⟨hlimit, hused, hentries⟩ := hs
  rcases Nat.lt_or_ge s.meter.limit (saturate (s.meter.used + units)) with hlt | hle
  · rw [charge_of_lt hlt]
    show s.entries ≤ s.meter.limit + 1
    omega
  · have hgrows : s.meter.used ≤ saturate (s.meter.used + units) := by
      unfold saturate
      omega
    rw [charge_of_le hle]
    exact ⟨⟨hlimit, hle, Nat.le_trans hentries hgrows⟩, rfl, hgrows⟩

/-- Entering costs a unit: below the limit the counter of units does not stop. -/
theorem enter : Ends levels 1 Run.enter := by
  intro s hs _
  obtain ⟨hlimit, hused, hentries⟩ := hs
  have hcounted : saturate (s.meter.used + 1) = s.meter.used + 1 := by
    unfold saturate
    omega
  let entered : State := { s with entries := s.entries + 1 }
  show EndsFrom s 1 (Run.charge 1 entered)
  rcases Nat.lt_or_ge s.meter.limit (saturate (s.meter.used + 1)) with hlt | hle
  · -- the entry is counted before it is paid for, which is the one entry above the limit
    have hfails := charge_of_lt (show entered.meter.limit < saturate (entered.meter.used + 1) from hlt)
    rw [hfails]
    show s.entries + 1 ≤ s.meter.limit + 1
    omega
  · have hpaid := charge_of_le (show saturate (entered.meter.used + 1) ≤ entered.meter.limit from hle)
    rw [hpaid]
    refine ⟨⟨hlimit, hle, ?_⟩, rfl, ?_⟩
    · show s.entries + 1 ≤ saturate (s.meter.used + 1)
      omega
    · show s.meter.used + 1 ≤ saturate (s.meter.used + 1)
      omega

theorem memoryStep (hx : IsMemoryStep x) : Ends levels 0 x := by
  intro s hs _
  obtain ⟨f, hf⟩ := hx
  rw [hf s]
  exact ⟨⟨hs.limit_lt, hs.used_le, hs.entries_le⟩, rfl, Nat.le_refl _⟩

/-- A frame changes neither meter nor entries. -/
theorem inFrame (hx : Ends levels cost x) : Ends levels cost (Run.inFrame x) := by
  intro s hs hlt
  -- the state inside differs in its frames only
  have hpushed : Solvent { s with frames := s.frames.push } :=
    ⟨hs.limit_lt, hs.used_le, hs.entries_le⟩
  have hend := hx { s with frames := s.frames.push } hpushed hlt
  unfold Run.inFrame
  cases hr : x { s with frames := s.frames.push } with
  | ok a t =>
    rw [hr] at hend
    obtain ⟨ht, hlimit, hused⟩ := hend
    exact ⟨⟨ht.limit_lt, ht.used_le, ht.entries_le⟩, hlimit, hused⟩
  | error halt t =>
    rw [hr] at hend
    cases halt with
    | failed _ | crashed _ | unfinished => exact hend

theorem enter_bind (hx : Ends levels 0 x) : Ends (levels + 1) 1 (Run.enter >>= fun _ => x) :=
  bind_paid 1 enter fun _ => hx

end Ends

/-- Ending within a number of levels is kept by everything that rules are made of. -/
theorem congruence_ends (levels : Nat) : Congruence id fun x _ => Ends levels 0 x where
  pure a := Ends.pure a
  bind hx hf := Ends.bind hx hf
  fail e _ := Ends.fail e
  crash c := Ends.crash c
  charge units := Ends.charge units
  enter := Ends.enter.weaken (Nat.le_refl levels) (Nat.zero_le 1)
  primitive hx := Ends.memoryStep hx.isMemoryStep

theorem simulation_ends (levels : Nat) (env : Env) :
    Simulation id env env fun x _ => Ends levels 0 x :=
  (congruence_ends levels).simulation env fun e _ => Ends.fail e

/-! ## Loops and levels -/

/-- One round of a loop, then the rest of it. -/
theorem repeatLoop_succ (sub : Evaluators) (test update : Option Expr) (body : Stmt) (rounds : Nat) :
    repeatLoop sub test update body (rounds + 1) = (do
      if ← holds sub test then
        let completion ← sub.exec body
        match completion with
        | .breakLoop => return .normal
        | .returned v => return .returned v
        | .normal | .continueLoop => do
          finishRound sub update
          repeatLoop sub test update body rounds
      else return .normal) := by
  rw [repeatLoop, loopRound, bind_assoc]
  -- Both sides evaluate the test first; from there on they differ in form only.
  congr 1
  funext goesOn
  cases goesOn with
  | false => simp
  | true =>
    simp only [if_true, bind_assoc]
    congr 1
    funext completion
    cases completion <;> simp

/-- Every round runs the body, which costs a unit, so a loop with as many rounds as there are levels
ends. -/
theorem Ends.repeatLoop (env : Env) {sub : Evaluators} {levels : Nat}
    (heval : ∀ e, Ends levels 1 (sub.eval e)) (hexec : ∀ s, Ends levels 1 (sub.exec s))
    (test update : Option Expr) (body : Stmt) (rounds : Nat) (hrounds : rounds ≤ levels) :
    Ends rounds 0 (Run.repeatLoop sub test update body rounds) := by
  induction rounds with
  | zero => exact Ends.of_zero _
  | succ rounds ih =>
    have hrest := ih (by omega)
    have hsim := simulation_ends (rounds + 1) env
    have heval' : ∀ {n}, n ≤ levels → ∀ e, Ends n 0 (sub.eval e) :=
      fun hn e => (heval e).weaken hn (Nat.zero_le 1)
    rw [repeatLoop_succ]
    have htest : Ends (rounds + 1) 0 (holds sub test) :=
      @Correspondence.holds _ _ _ _ _ hsim.toCorrespondence sub sub test fun c _ => heval' hrounds c
    refine Ends.bind htest fun goesOn => ?_
    split
    · -- the body pays for the round, so the rest needs one level less
      have hpaid : Ends (rounds + 1) 1 (sub.exec body) :=
        (hexec body).weaken hrounds (Nat.le_refl 1)
      refine (Ends.bind_paid 1 hpaid fun completion => ?_).weaken (Nat.le_refl _) (Nat.zero_le 1)
      have hnext : Ends rounds 0 (do
          finishRound sub update
          Run.repeatLoop sub test update body rounds) := by
        have hsim' := simulation_ends rounds env
        have hupdate : Ends rounds 0 (finishRound sub update) :=
          @Correspondence.finishRound _ _ _ _ _ hsim'.toCorrespondence sub sub update fun c _ =>
            heval' (by omega) c
        exact Ends.bind hupdate fun _ => hrest
      cases completion with
      | normal | continueLoop => exact hnext
      | breakLoop | returned _ => exact Ends.pure _
    · exact Ends.pure _

/-- Evaluation that ends within as many levels as it is given, and costs a unit. -/
structure EvaluatorsEnd (sub : Evaluators) (levels : Nat) : Prop where
  eval (e : Expr) : Ends levels 1 (sub.eval e)
  exec (s : Stmt) : Ends levels 1 (sub.exec s)
  call (f : Function) (args : List Value) : Ends levels 1 (sub.call f args)

/-- Evaluation ends at every level, by induction on the levels. -/
theorem evaluatorsEnd (env : Env) (levels : Nat) : EvaluatorsEnd (evaluators env 0 levels) levels := by
  induction levels with
  | zero => exact ⟨fun _ => .of_zero _, fun _ => .of_zero _, fun _ _ => .of_zero _⟩
  | succ levels ih =>
    have hsim := simulation_ends levels env
    have heval : ∀ e, Ends levels 0 ((evaluators env 0 levels).eval e) :=
      fun e => (ih.eval e).weaken (Nat.le_refl levels) (Nat.zero_le 1)
    have hexec : ∀ s, Ends levels 0 ((evaluators env 0 levels).exec s) :=
      fun s => (ih.exec s).weaken (Nat.le_refl levels) (Nat.zero_le 1)
    have hcall : ∀ f args, Ends levels 0 ((evaluators env 0 levels).call f args) :=
      fun f args => (ih.call f args).weaken (Nat.le_refl levels) (Nat.zero_le 1)
    let sub := evaluators env 0 levels
    rw [evaluators_succ]
    -- entering pays a unit, so what is inside may do with one level less
    refine ⟨fun e => Ends.enter_bind ?_, fun s => Ends.enter_bind ?_, fun f args => ?_⟩
    · exact @Simulation.exprBody _ _ _ _ hsim sub sub e (fun c _ => heval c)
        fun _ f args _ => hcall f args
    · refine @Simulation.stmtBody _ _ _ _ hsim sub sub s (fun c _ => heval c) (fun t _ => hexec t)
        fun test update body _ _ => ?_
      -- loops need the units that their bodies pay, which `Simulation.repeatLoop` does not know of
      rw [evaluators_rounds]
      exact Ends.repeatLoop env ih.eval ih.exec test update body levels (Nat.le_refl levels)
    · refine Ends.enter_bind (Ends.inFrame ?_)
      exact @Simulation.callBody _ _ _ _ hsim sub sub f args (fun c _ => heval c) (hexec _)

/-! ## More levels -/

/-- A computation that does the same as `x` unless `x` runs out of levels. -/
abbrev Completes {α : Type} (x y : Run α) : Prop := AgreeUnless (· = .unfinished) x y

theorem Completes.unfinished {α : Type} (y : Run α) : Completes Run.unfinished y :=
  @AgreeUnless.of_throw (· = .unfinished) α .unfinished rfl y

/-- A loop that has more rounds does the same unless it ran out of them. -/
theorem Completes.repeatLoop (env : Env) {sub sub' : Evaluators} (hsub : Related id Completes sub sub')
    (test update : Option Expr) (body : Stmt) {rounds rounds' : Nat} (hle : rounds ≤ rounds') :
    Completes (Run.repeatLoop sub test update body rounds)
      (Run.repeatLoop sub' (test.map (Expr.mapSpans id)) (update.map (Expr.mapSpans id))
        (body.mapSpans id) rounds') := by
  induction rounds generalizing rounds' with
  | zero => exact Completes.unfinished _
  | succ rounds ih =>
    obtain ⟨rest, rfl⟩ : ∃ rest, rounds' = rest + 1 := ⟨rounds' - 1, by omega⟩
    have hsim := simulation_agreeUnless (· = .unfinished) env
    have hround := hsim.loopRound test update body (fun c _ => hsub.eval c) (hsub.exec body)
    refine AgreeUnless.bind hround fun ended => ?_
    cases ended with
    | some completion => exact .refl _
    | none => exact ih (by omega)

/-- Evaluation down to more levels does the same unless it ran out of them. -/
theorem related_completes (env : Env) {levels levels' : Nat} (hle : levels ≤ levels') :
    Related id Completes (evaluators env 0 levels) (evaluators env 0 levels') := by
  induction levels generalizing levels' with
  | zero =>
    exact ⟨fun _ => Completes.unfinished _, fun _ => Completes.unfinished _,
      fun _ _ => Completes.unfinished _⟩
  | succ levels ih =>
    obtain ⟨rest, rfl⟩ : ∃ rest, levels' = rest + 1 := ⟨levels' - 1, by omega⟩
    have hsub : Related id Completes (evaluators env 0 levels) (evaluators env 0 rest) :=
      ih (by omega)
    rw [evaluators_succ, evaluators_succ]
    have hsim := simulation_agreeUnless (· = .unfinished) env
    refine hsim.tie AgreeUnless.inFrame hsub _ _ ?_
    -- loops are compared by rounds, of which there may be more as well
    intro test update body
    rw [evaluators_rounds, evaluators_rounds]
    exact Completes.repeatLoop env hsub test update body (by omega)

/-! ## Whole runs -/

theorem ends_program (program : Program) (env : Env) (context : RunContext) (levels : Nat) :
    Ends levels 0 (Run.program program env context levels) := by
  have hglobal : ∀ name v, Ends levels 0 (defineGlobal name v) :=
    fun name v => Ends.memoryStep (isMemoryStep_defineGlobal name v)
  have hcall : ∀ f args, Ends levels 0 ((evaluators env 0 levels).call f args) :=
    fun f args => ((evaluatorsEnd env levels).call f args).weaken (Nat.le_refl levels) (Nat.zero_le 1)
  let call := (evaluators env 0 levels).call
  exact @Congruence.programBy _ (congruence_ends levels) hglobal program context call call
    fun f _ args => hcall f args

theorem completes_program (program : Program) (env : Env) (context : RunContext)
    {levels levels' : Nat} (hle : levels ≤ levels') :
    Completes (Run.program program env context levels) (Run.program program env context levels') := by
  have hcongr := congruence_agreeUnless (· = .unfinished)
  refine hcongr.programBy (fun name v => .refl _) program context fun f _ args => ?_
  have hcall := (related_completes env hle).call f args
  rwa [Function.mapSpans_id] at hcall

end Run

/-- What ends has an outcome, with no more entries than the budget allows. -/
theorem Outcome.ofResult_ends {s : State} {cost : Nat} {r : EStateM.Result Halt State Datum}
    (hend : Run.EndsFrom s cost r) :
    (Outcome.ofResult r).result ≠ .error .unfinished ∧
      (Outcome.ofResult r).entries ≤ s.meter.limit + 1 := by
  cases r with
  | ok d t =>
    obtain ⟨ht, hlimit, _⟩ := hend
    have hused := ht.used_le
    have hentries := ht.entries_le
    refine ⟨by rintro ⟨⟩, ?_⟩
    show t.entries ≤ s.meter.limit + 1
    omega
  | error halt t =>
    cases halt with
    | failed _ | crashed _ => exact ⟨by rintro ⟨⟩, hend⟩
    | unfinished => exact absurd hend id

section

variable (program : Program) (context : RunContext) {limits : Limits} (collaborators : Collaborators)
  (hbudget : limits.stepBudget < maxUnits)
include hbudget

/-- With more levels than units a run ends, and enters at most one thing more than it has units. -/
theorem Program.runWithin_ends {levels : Nat} (hlevels : limits.stepBudget < levels) :
    (program.runWithin levels context limits collaborators).result ≠ .error .unfinished ∧
      (program.runWithin levels context limits collaborators).entries ≤ limits.stepBudget + 1 := by
  have hstart : Run.Solvent { meter := { limit := limits.stepBudget } } :=
    ⟨hbudget, Nat.zero_le _, Nat.le_refl 0⟩
  exact Outcome.ofResult_ends (Run.ends_program program _ context levels _ hstart hlevels)

/-- How many levels a run is given does not matter once they are more than its units. -/
theorem Program.runWithin_eq_run {levels : Nat} (hlevels : limits.stepBudget < levels) :
    program.runWithin levels context limits collaborators =
      program.run context limits collaborators := by
  have hfinished := (program.runWithin_ends context collaborators hbudget
    (Nat.lt_succ_self limits.stepBudget)).1
  unfold Program.run Program.runWithin at *
  dsimp only at *
  -- the run down to one level more than there are units ends, so more levels only repeat it
  rw [Run.completes_program program _ context hlevels]
  intro halt t ht hunfinished
  rw [Nat.succ_eq_add_one, ht, hunfinished] at hfinished
  exact hfinished rfl

end

end MeteredScript
