import MeteredScript.Proofs.Reading
import MeteredScript.Tree.Parser

namespace MeteredScript

/-! # Readers that go forward

Loops and rules of the grammar are given bounds, so that they are defined at all. `Parse.Repeats` is a
loop without a bound and `Parse.Recurs` are rules that read with each other without a bound; both relate
a cursor to what comes of reading there, if the reading comes to an end. That it does is due to the
tokens that are passed on the way: `Parse.Agree left p q ahead P` says that `p` fails with a parse error
or passes tokens, of which there are enough, and that `q` does the same where fewer than `left` tokens
are left. The rules of this module take a pair of readers apart step by step.
-/

namespace Parse

variable {α β ι : Type}

/-! ## Reading without bounds -/

/-- Repeating `step` on `a` for as long as it asks for more, from `c` on, comes to an end with `r`. -/
inductive Repeats (step : α → Parse (α × Bool)) : α → Cursor → Except Error (α × Cursor) → Prop
  | fail {a : α} {c : Cursor} {e : Error} : step a c = .error e → Repeats step a c (.error e)
  | last {a b : α} {c c' : Cursor} : step a c = .ok ((b, false), c') → Repeats step a c (.ok (b, c'))
  | more {a b : α} {c c' : Cursor} {r : Except Error (α × Cursor)} :
      step a c = .ok ((b, true), c') → Repeats step b c' r → Repeats step a c r

/-- The reader `i` of those that are `rule` of each other comes to an end at `c`, with `r`. What is read
inside is `sub`, and all that matters of it is what it does at the cursors that are `asked`, where it
comes to an end. -/
inductive Recurs (rule : (ι → Parse α) → ι → Parse α) : ι → Cursor → Except Error (α × Cursor) → Prop
  | intro {i : ι} {c : Cursor} (sub : ι → Parse α) (asked : ι → Cursor → Prop) :
      (∀ sub' : ι → Parse α, (∀ j c', asked j c' → sub' j c' = sub j c') →
        rule sub' i c = rule sub i c) →
      (∀ j c', asked j c' → Recurs rule j c' (sub j c')) → Recurs rule i c (rule sub i c)

/-- A rule that reads with itself only. -/
def alone (rule : Parse α → Parse α) : (Unit → Parse α) → Unit → Parse α := fun sub _ => rule (sub ())

variable {c : Cursor} {r : Except Error (α × Cursor)}

/-- A loop comes to one end only. -/
theorem Repeats.unique {step : α → Parse (α × Bool)} {a : α} {r' : Except Error (α × Cursor)}
    (h : Repeats step a c r) (h' : Repeats step a c r') : r = r' := by
  induction h with
  -- A round gives one result, so the two runs take the same constructor each time.
  | fail hstep =>
    cases h' with
    | fail hstep' => exact congrArg _ (Except.error.inj (hstep.symm.trans hstep'))
    | last hstep' => cases hstep.symm.trans hstep'
    | more hstep' _ => cases hstep.symm.trans hstep'
  | last hstep =>
    cases h' with
    | fail hstep' => cases hstep.symm.trans hstep'
    | last hstep' =>
      cases hstep.symm.trans hstep'
      rfl
    | more hstep' _ => cases hstep.symm.trans hstep'
  | more hstep _ ih =>
    cases h' with
    | fail hstep' => cases hstep.symm.trans hstep'
    | last hstep' => cases hstep.symm.trans hstep'
    | more hstep' hrest =>
      cases hstep.symm.trans hstep'
      exact ih hrest

/-- A recursion comes to one end only. -/
theorem Recurs.unique {rule : (ι → Parse α) → ι → Parse α} {i : ι} {r' : Except Error (α × Cursor)}
    (h : Recurs rule i c r) (h' : Recurs rule i c r') : r = r' := by
  induction h generalizing r' with
  | @intro i c sub asked honly _ ih =>
    cases h' with
    | intro sub' asked' honly' hasked' =>
      -- readers that are as good as either of the two
      classical
      let both : ι → Parse α := fun j c' => if asked j c' then sub j c' else sub' j c'
      have hfirst : rule both i c = rule sub i c := honly both fun j c' hc' => if_pos hc'
      have hsecond : rule both i c = rule sub' i c := by
        refine honly' both fun j c' hc' => ?_
        by_cases hc : asked j c'
        · exact (if_pos hc).trans (ih j c' hc (hasked' j c' hc'))
        · exact if_neg hc
      exact hfirst.symm.trans hsecond

/-! ## Going forward -/

/-- What comes of reading at `c` is a parse error, or a result behind some tokens that were ahead; their
number and the result satisfy `P`. -/
def GoesFrom (c : Cursor) (P : Nat → α → Prop) : Except Error (α × Cursor) → Prop
  | .ok (a, c') => ∃ n, n ≤ c.rest.length ∧ c'.rest = c.rest.drop n ∧ P n a
  | .error e => ∃ fault span, e = .parse fault span

/-- At least one token is passed. -/
abbrev Moves (n : Nat) (_ : α) : Prop := 0 < n

/-- A reader that passes at least one token, or fails with a parse error. -/
def Advances (p : Parse α) : Prop := ∀ c, GoesFrom c Moves (p c)

/-- Where the token ahead satisfies `ahead`, `p` goes forward by tokens that satisfy `P` with the
result, and `q` does the same as `p` if fewer than `left` tokens are left. -/
structure Agree (left : Nat) (p q : Parse α) (ahead : Option Token → Prop) (P : Nat → α → Prop) :
    Prop where
  goes (c : Cursor) : ahead c.token? → GoesFrom c P (p c)
  same (c : Cursor) : ahead c.token? → c.rest.length < left → q c = p c

/-- What is said of the tokens passed may be less. -/
theorem GoesFrom.imp {P P' : Nat → α → Prop} (h : GoesFrom c P r) (hP : ∀ n a, P n a → P' n a) :
    GoesFrom c P' r := by
  cases r with
  | error e => exact h
  | ok r =>
    obtain ⟨n, hn, hrest, hPa⟩ := h
    exact ⟨n, hn, hrest, hP n r.1 hPa⟩

/-- The tokens of two readers in a row add up, and either may fail. -/
theorem GoesFrom.bind {P : Nat → α → Prop} {Q : Nat → β → Prop} {f : α → Parse β}
    (h : GoesFrom c P r) (hf : ∀ n a c', P n a → GoesFrom c' (fun m => Q (n + m)) (f a c')) :
    GoesFrom c Q (r >>= fun r => f r.1 r.2) := by
  cases r with
  | error e => exact h
  | ok r =>
    obtain ⟨n, hn, hrest, hP⟩ := h
    have hsecond := hf n r.1 r.2 hP
    show GoesFrom c Q (f r.1 r.2)
    cases hread : f r.1 r.2 with
    | error e =>
      rw [hread] at hsecond
      exact hsecond
    | ok r' =>
      rw [hread] at hsecond
      obtain ⟨m, hm, hrest', hQ⟩ := hsecond
      rw [hrest, List.length_drop] at hm
      refine ⟨n + m, by omega, ?_, hQ⟩
      rw [hrest', hrest, List.drop_drop]

theorem iterate_apply (step : α → Parse (α × Bool)) (bound : Nat) (a : α) (c : Cursor) :
    iterate step (bound + 1) a c = step a c >>= fun r =>
      (if r.1.2 then iterate step bound r.1.1 else pure r.1.1 : Parse α) r.2 :=
  rfl

/-- One round of a loop: it passes a token, or it is the last. -/
def Round (n : Nat) (r : α × Bool) : Prop := r.2 = true → 0 < n

section

variable {step : α → Parse (α × Bool)} (hstep : ∀ a c, GoesFrom c Round (step a c))
include hstep

variable {c : Cursor} {bound : Nat} {a : α}

/-- Behind a round that asks for more there are fewer tokens left. -/
theorem length_lt_of_round {b : α} {c' : Cursor} (h : step a c = .ok ((b, true), c')) :
    c'.rest.length < c.rest.length := by
  have hround := hstep a c
  rw [h] at hround
  obtain ⟨n, hn, hrest, hpos⟩ := hround
  have hpos : 0 < n := hpos rfl
  rw [hrest, List.length_drop]
  omega

/-- A loop that may have more rounds than there are tokens left comes to an end by itself. -/
theorem repeats_iterate (hbound : c.rest.length < bound) :
    Repeats step a c (iterate step bound a c) := by
  induction bound generalizing a c with
  | zero => exact absurd hbound (Nat.not_lt_zero _)
  | succ bound ih =>
    rw [iterate_apply]
    cases hread : step a c with
    | error e => exact .fail hread
    | ok r =>
      obtain ⟨⟨b, more⟩, c'⟩ := r
      cases more with
      | true =>
        have hless := length_lt_of_round hstep hread
        exact .more hread (ih (by omega))
      | false => exact .last hread

/-- A loop with a bound beyond the tokens left does what the loop without one does. -/
theorem repeats_iff (hbound : c.rest.length < bound) {r : Except Error (α × Cursor)} :
    Repeats step a c r ↔ r = iterate step bound a c :=
  ⟨fun h => h.unique (repeats_iterate hstep hbound), fun h => h ▸ repeats_iterate hstep hbound⟩

/-- A loop that has nothing to do behind the last token needs no round there. -/
theorem iterate_succ (hquiet : ∀ a c, c.rest = [] → step a c = .ok ((a, false), c))
    (hbound : c.rest.length ≤ bound) : iterate step (bound + 1) a c = iterate step bound a c := by
  induction bound generalizing a c with
  | zero =>
    rw [iterate_apply, hquiet a c (List.length_eq_zero_iff.mp (Nat.le_zero.mp hbound))]
    rfl
  | succ bound ih =>
    rw [iterate_apply, iterate_apply]
    cases hread : step a c with
    | error e => rfl
    | ok r =>
      obtain ⟨⟨b, more⟩, c'⟩ := r
      cases more with
      | true =>
        -- Each round that goes on takes a token, which pays for the bound it uses up.
        have hless := length_lt_of_round hstep hread
        have hleft : c'.rest.length ≤ bound := by omega
        exact ih hleft
      | false => rfl

end

namespace Agree

variable {left : Nat} {p q : Parse α} {ahead : Option Token → Prop} {P : Nat → α → Prop}
  {Q : Nat → β → Prop} {token : Token}

theorem of_anything (h : Agree left p q anything P) : Agree left p q ahead P :=
  ⟨fun c _ => h.goes c trivial, fun c _ => h.same c trivial⟩

/-- Readers that agree on many tokens agree on fewer. -/
theorem of_le {left' : Nat} (h : Agree left p q ahead P) (hle : left' ≤ left) :
    Agree left' p q ahead P :=
  ⟨h.goes, fun c hc hlt => h.same c hc (Nat.lt_of_lt_of_le hlt hle)⟩

theorem imp {P' : Nat → α → Prop} (h : Agree left p q ahead P) (hP : ∀ n a, P n a → P' n a) :
    Agree left p q ahead P' :=
  ⟨fun c hc => (h.goes c hc).imp hP, h.same⟩

theorem result {a : α} (h : P 0 a) : Agree left (pure a) (pure a) ahead P :=
  ⟨fun _ _ => ⟨0, Nat.zero_le _, rfl, h⟩, fun _ _ _ => rfl⟩

theorem fail (fault : ParseFault) (span : Span) :
    Agree left (throw (.parse fault span)) (throw (.parse fault span)) ahead P :=
  ⟨fun _ _ => ⟨fault, span, rfl⟩, fun _ _ _ => rfl⟩

variable {f g : α → Parse β}

/-- What the first reader passes is no longer left for the second. -/
theorem bind_ahead (hp : Agree left p q ahead P)
    (hf : ∀ n a, P n a → Agree (left - n) (f a) (g a) anything fun m => Q (n + m)) :
    Agree left (p >>= f) (q >>= g) ahead Q := by
  constructor
  · intro c hc
    exact (hp.goes c hc).bind fun n a c' hP => (hf n a hP).goes c' trivial
  · intro c hc hlt
    have hfirst := hp.goes c hc
    show (q c >>= fun r => g r.1 r.2) = (p c >>= fun r => f r.1 r.2)
    rw [hp.same c hc hlt]
    cases hread : p c with
    | error e => rfl
    | ok r =>
      rw [hread] at hfirst
      obtain ⟨n, hn, hrest, hP⟩ := hfirst
      refine (hf n r.1 hP).same r.2 trivial ?_
      rw [hrest, List.length_drop]
      omega

/-- The second readers have to agree on what the first ones leave. -/
theorem bind (hp : Agree left p q anything P)
    (hf : ∀ n a, P n a → Agree (left - n) (f a) (g a) anything fun m => Q (n + m)) :
    Agree left (p >>= f) (q >>= g) ahead Q :=
  hp.of_anything.bind_ahead hf

/-! ## Single tokens -/

/-- A step that passes no token. -/
theorem ask {r : Parse α} (hr : ∀ c, ∃ a, r c = .ok (a, c))
    (hf : ∀ a, Agree left (f a) (g a) ahead Q) : Agree left (r >>= f) (r >>= g) ahead Q := by
  constructor
  · intro c hc
    obtain ⟨a, ha⟩ := hr c
    rw [bind_of_ok ha]
    exact (hf a).goes c hc
  · intro c hc hlt
    obtain ⟨a, ha⟩ := hr c
    rw [bind_of_ok ha, bind_of_ok ha]
    exact (hf a).same c hc hlt

/-- The range of the next token is the same for both. -/
theorem here {f g : Span → Parse β} (hf : ∀ span, Agree left (f span) (g span) ahead Q) :
    Agree left (Parse.here >>= f) (Parse.here >>= g) ahead Q :=
  ask (fun c => ⟨c.span, rfl⟩) hf

theorem spanFrom {start : Span} {f g : Span → Parse β}
    (hf : ∀ span, Agree left (f span) (g span) ahead Q) :
    Agree left (Parse.spanFrom start >>= f) (Parse.spanFrom start >>= g) ahead Q :=
  ask (fun c => ⟨start.extendTo c.reached, rfl⟩) hf

theorem peek {f g : Option Token → Parse β}
    (hf : ∀ next, ahead next → Agree left (f next) (g next) (· = next) Q) :
    Agree left (Parse.peek >>= f) (Parse.peek >>= g) ahead Q :=
  ⟨fun c hc => (hf c.token? hc).goes c rfl, fun c hc hlt => (hf c.token? hc).same c rfl hlt⟩

/-- A token is passed, so the rest has to agree on one token less. -/
theorem advance {f g : Unit → Parse β}
    (hf : Agree (left - 1) (f ()) (g ()) anything fun m => Q (m + 1)) :
    Agree left (Parse.advance >>= f) (Parse.advance >>= g) (· = some token) Q := by
  have hpass : Agree left Parse.advance Parse.advance (· = some token) fun n _ => n = 1 := by
    refine ⟨fun c hc => ?_, fun _ _ _ => rfl⟩
    show GoesFrom c _ (.ok ((), c.advance))
    unfold Cursor.token? at hc
    unfold Cursor.advance
    cases hrest : c.rest with
    | nil =>
      rw [hrest] at hc
      cases hc
    | cons lexeme rest => exact ⟨1, by simp [hrest], by simp [hrest], rfl⟩
  refine hpass.bind_ahead ?_
  rintro _ _ rfl
  exact hf.imp fun m b hQ => Nat.add_comm m 1 ▸ hQ

/-- Passes the token ahead, if there is one. -/
theorem advance_any : Agree left Parse.advance Parse.advance ahead fun _ _ => True := by
  refine ⟨fun c _ => ?_, fun _ _ _ => rfl⟩
  show GoesFrom c _ (.ok ((), c.advance))
  unfold Cursor.advance
  cases hrest : c.rest with
  | nil => exact ⟨0, Nat.zero_le _, rfl, trivial⟩
  | cons lexeme rest => exact ⟨1, by simp [hrest], by simp [hrest], trivial⟩

theorem check {f g : Bool → Parse β} (htrue : Agree left (f true) (g true) (· = some token) Q)
    (hfalse : Agree left (f false) (g false) ahead Q) :
    Agree left (Parse.check token >>= f) (Parse.check token >>= g) ahead Q := by
  unfold Parse.check
  rw [bind_assoc, bind_assoc]
  refine peek fun next hnext => ?_
  rw [pure_bind, pure_bind]
  by_cases htoken : next = some token
  · rw [beq_iff_eq.mpr htoken, htoken]
    exact htrue
  · rw [beq_eq_false_iff_ne.mpr htoken]
    exact ⟨fun c hc => hfalse.goes c (hc ▸ hnext), fun c hc => hfalse.same c (hc ▸ hnext)⟩

theorem unexpected : Agree left (Parse.unexpected : Parse α) Parse.unexpected ahead P := by
  refine here fun span => peek fun next _ => ?_
  split <;> exact fail _ _

theorem eat {f g : Bool → Parse β}
    (htrue : Agree (left - 1) (f true) (g true) anything fun m => Q (m + 1))
    (hfalse : Agree left (f false) (g false) ahead Q) :
    Agree left (Parse.eat token >>= f) (Parse.eat token >>= g) ahead Q := by
  unfold Parse.eat
  rw [bind_assoc, bind_assoc]
  refine check ?_ ?_
  · simp only [if_true, bind_assoc, pure_bind]
    exact advance htrue
  · simp only [Bool.false_eq_true, if_false, pure_bind]
    exact hfalse

theorem expect {f g : Span → Parse β}
    (hf : ∀ span, Agree (left - 1) (f span) (g span) anything fun m => Q (m + 1)) :
    Agree left (Parse.expect token >>= f) (Parse.expect token >>= g) ahead Q := by
  unfold Parse.expect
  rw [bind_assoc, bind_assoc]
  refine here fun span => ?_
  rw [bind_assoc, bind_assoc]
  refine eat ?_ ?_
  · simp only [if_true, pure_bind]
    exact hf span
  · have hfail : Agree left (Parse.unexpected : Parse Span) Parse.unexpected anything
        fun _ _ => False := unexpected
    simp only [Bool.false_eq_true, if_false]
    exact hfail.bind fun _ _ h => h.elim

theorem name : Agree left Parse.name Parse.name ahead Moves := by
  refine peek fun next _ => ?_
  split
  · exact advance (result Nat.one_pos)
  · exact unexpected

/-! ## Loops -/

theorem last {a : α} : Agree left (pure (a, false)) (pure (a, false)) ahead Round :=
  result fun hmore => absurd hmore Bool.false_ne_true

theorem self {left' : Nat} (h : Agree left p q ahead P) : Agree left' p p ahead P :=
  ⟨h.goes, fun _ _ _ => rfl⟩

section

variable {step step' : α → Parse (α × Bool)} {bound bound' : Nat}

/-- A loop agrees with itself, within its bound. -/
theorem iterate_self (hstep : ∀ a, Agree left (step a) (step' a) anything Round) (a : α) :
    Agree 0 (Parse.iterate step bound a) (Parse.iterate step bound a) ahead fun _ _ => True := by
  induction bound generalizing a ahead with
  | zero => exact result trivial
  | succ bound ih =>
    refine (hstep a).self.bind fun n r _ => ?_
    obtain ⟨b, more⟩ := r
    cases more with
    | true => exact (ih b).of_le (Nat.sub_le 0 n)
    | false => exact result trivial

/-- Loops agree if their rounds do, and if they may have as many rounds as there are tokens left. -/
theorem iterate (hstep : ∀ a, Agree left (step a) (step' a) anything Round) (hbound : left ≤ bound)
    (hbound' : left ≤ bound') (a : α) :
    Agree left (Parse.iterate step bound a) (Parse.iterate step' bound' a) ahead fun _ _ => True := by
  induction bound generalizing left bound' a ahead with
  | zero =>
    have hnone := Nat.le_zero.mp hbound
    exact ⟨(iterate_self hstep a).goes, fun c _ hlt => by omega⟩
  | succ bound ih =>
    cases bound' with
    | zero =>
      have hnone := Nat.le_zero.mp hbound'
      exact ⟨(iterate_self hstep a).goes, fun c _ hlt => by omega⟩
    | succ bound' =>
      refine (hstep a).bind fun n r hround => ?_
      obtain ⟨b, more⟩ := r
      cases more with
      | true =>
        -- the round has passed a token, which makes up for it
        have hpos : 0 < n := hround rfl
        exact ih (fun b' => (hstep b').of_le (Nat.sub_le left n)) (by omega) (by omega) b
      | false => exact result trivial

/-- Loops that have nothing to do behind the last token agree with one round less. -/
theorem iterate_quiet (hstep : ∀ a, Agree (left + 1) (step a) (step' a) anything Round)
    (hgoes' : ∀ a c, GoesFrom c Round (step' a c))
    (hquiet : ∀ a c, c.rest = [] → step a c = .ok ((a, false), c))
    (hquiet' : ∀ a c, c.rest = [] → step' a c = .ok ((a, false), c))
    (hbound : left ≤ bound) (hbound' : left ≤ bound') (a : α) :
    Agree (left + 1) (Parse.iterate step bound a) (Parse.iterate step' bound' a) ahead
      fun _ _ => True := by
  refine ⟨(iterate_self hstep a).goes, fun c _ hlt => ?_⟩
  have hgoes : ∀ a c, GoesFrom c Round (step a c) := fun a c => (hstep a).goes c trivial
  have hmore : Agree (left + 1) (Parse.iterate step (bound + 1) a)
      (Parse.iterate step' (bound' + 1) a) anything fun _ _ => True :=
    iterate hstep (Nat.succ_le_succ hbound) (Nat.succ_le_succ hbound') a
  have hsame := hmore.same c trivial hlt
  rwa [iterate_succ hgoes hquiet (by omega), iterate_succ hgoes' hquiet' (by omega)] at hsame

end

/-! ## Lists with commas -/

section

variable {item item' : Parse α} {bound bound' : Nat}
  (hitem : Agree left item item' anything Moves)
include hitem

theorem commaStep (closer : Token) (read : List α) :
    Agree left (Parse.commaStep closer item read) (Parse.commaStep closer item' read) ahead Round := by
  refine check last ?_
  refine hitem.bind fun n a hpos => eat (result fun _ => ?_) (result fun _ => ?_)
  · omega
  · omega

/-- Lists in brackets pass at least the closing one. -/
theorem commaSeparated {closer : Token} (hbound : left ≤ bound) (hbound' : left ≤ bound') :
    Agree left (Parse.commaSeparated bound closer item) (Parse.commaSeparated bound' closer item')
      ahead Moves := by
  refine (iterate (commaStep hitem closer) hbound hbound' []).bind fun n read _ => ?_
  exact expect fun _ => result (by omega)

theorem moreStep (read : List α) :
    Agree left (Parse.moreStep item read) (Parse.moreStep item' read) ahead Round := by
  refine eat ?_ last
  refine (hitem.of_le (Nat.sub_le left 1)).bind fun n a hpos => result fun _ => ?_
  omega

/-- Each further item stands behind a comma, so bounds as large as the tokens left suffice. -/
theorem commaRest (hbound : left ≤ bound) (hbound' : left ≤ bound') (first : α) :
    Agree left (Parse.commaRest bound item first) (Parse.commaRest bound' item' first) ahead
      fun _ _ => True :=
  (iterate (moreStep hitem) hbound hbound' [first]).bind fun _ _ _ => result trivial

end

end Agree

/-! ## Rules that read with each other -/

/-- `read` ties `rule` to itself, one level for each unit of its bound. Behind the last token there is
nothing to read. -/
structure Tied (rule : Nat → (ι → Parse α) → ι → Parse α) (read : Nat → Nat → ι → Parse α) : Prop where
  zero (level : Nat) (i : ι) : read level 0 i = unexpected
  succ (level bound : Nat) (i : ι) : read level (bound + 1) i =
      rule (bound + 1) (read (level + 1) bound) i
  nil (bound : Nat) (sub : ι → Parse α) (i : ι) {c : Cursor} : c.rest = [] →
    rule bound sub i c = unexpected c

/-- Rules agree where at most `top` tokens are left, if what they read inside agrees: they pass a token
before they read with each other. -/
def AgreeRules (top : Nat) (rule rule' : Nat → (ι → Parse α) → ι → Parse α) : Prop :=
  ∀ ⦃left bound bound' : Nat⦄ ⦃sub sub' : ι → Parse α⦄, left ≤ top → left ≤ bound → left ≤ bound' →
    (∀ i, Agree left (sub i) (sub' i) anything Moves) →
    ∀ i, Agree (left + 1) (rule bound sub i) (rule' bound' sub' i) anything Moves

namespace Tied

variable {rule rule' : Nat → (ι → Parse α) → ι → Parse α} {read read' : Nat → Nat → ι → Parse α}
  {top left bound bound' : Nat} {ahead : Option Token → Prop}

/-- Rules that move on make readers that move on, at every level. -/
theorem goes (h : Tied rule read) (hrule : AgreeRules top rule rule') (level bound : Nat) (i : ι)
    (c : Cursor) : GoesFrom c Moves (read level bound i c) := by
  -- the rule is tied to itself once less
  induction bound generalizing level i c with
  | zero =>
    have hfail : Agree 0 (unexpected : Parse α) unexpected anything Moves := .unexpected
    rw [h.zero]
    exact hfail.goes c trivial
  | succ bound ih =>
    have hsub : ∀ j, Agree 0 (read (level + 1) bound j) (read (level + 1) bound j) anything Moves :=
      fun j => ⟨fun c _ => ih (level + 1) j c, fun _ _ _ => rfl⟩
    rw [h.succ]
    exact (hrule (Nat.zero_le _) (Nat.zero_le _) (Nat.zero_le (bound + 1)) hsub i).goes c trivial

/-- Where nothing is left, reading fails at once. -/
theorem read_of_nil (h : Tied rule read) (level bound : Nat) (i : ι) {c : Cursor} (hc : c.rest = []) :
    read level bound i c = unexpected c := by
  cases bound with
  | zero => rw [h.zero]
  | succ bound => rw [h.succ, h.nil _ _ _ hc]

/-- Bounds that are no less than the number of tokens left make no difference. -/
theorem read_eq (h : Tied rule read) (h' : Tied rule' read') (hrule : AgreeRules top rule rule')
    (level level' : Nat) (i : ι) {c : Cursor} (htop : c.rest.length ≤ top)
    (hbound : c.rest.length ≤ bound) (hbound' : c.rest.length ≤ bound') :
    read' level' bound' i c = read level bound i c := by
  induction bound generalizing level level' bound' i c with
  | zero =>
    have hc : c.rest = [] := List.length_eq_zero_iff.mp (Nat.le_zero.mp hbound)
    rw [h'.read_of_nil level' bound' i hc, h.read_of_nil level 0 i hc]
  | succ bound ih =>
    cases bound' with
    | zero =>
      have hc : c.rest = [] := List.length_eq_zero_iff.mp (Nat.le_zero.mp hbound')
      rw [h'.read_of_nil level' 0 i hc, h.read_of_nil level _ i hc]
    | succ bound' =>
      have hsub : ∀ j, Agree c.rest.length (read (level + 1) bound j) (read' (level' + 1) bound' j)
          anything Moves := fun j =>
        ⟨fun c' _ => h.goes hrule _ _ j c', fun c' _ hlt => ih _ _ j (by omega) (by omega) (by omega)⟩
      rw [h.succ, h'.succ]
      exact (hrule htop hbound hbound' hsub i).same c trivial (Nat.lt_succ_self _)

theorem agree_read (h : Tied rule read) (h' : Tied rule' read') (hrule : AgreeRules top rule rule')
    (level level' : Nat) (htop : left ≤ top + 1) (hbound : left ≤ bound + 1)
    (hbound' : left ≤ bound' + 1) (i : ι) :
    Agree left (read level bound i) (read' level' bound' i) ahead Moves :=
  ⟨fun c _ => h.goes hrule level bound i c,
    fun _ _ _ => h.read_eq h' hrule level level' i (by omega) (by omega) (by omega)⟩

section

variable (h : Tied rule read) (hrule : AgreeRules top rule rule)
include h hrule

variable {c : Cursor}

theorem read_eq_rule (level : Nat) (i : ι) (htop : c.rest.length ≤ top)
    (hbound : c.rest.length ≤ bound) :
    read level bound i c = rule bound (read level bound) i c := by
  cases bound with
  | zero =>
    have hc : c.rest = [] := List.length_eq_zero_iff.mp (Nat.le_zero.mp hbound)
    rw [h.nil _ _ _ hc, h.zero]
  | succ bound =>
    have hsub : ∀ j, Agree c.rest.length (read (level + 1) bound j) (read level (bound + 1) j) anything
        Moves :=
      h.agree_read h hrule _ _ (by omega) hbound (Nat.le_succ_of_le hbound)
    have hsame := (hrule htop hbound hbound hsub i).same c trivial (Nat.lt_succ_self _)
    rw [hsame, ← h.succ]

/-- The rules that read with each other come to an end. -/
theorem recurs_read (level : Nat) (i : ι) (htop : c.rest.length ≤ top)
    (hbound : c.rest.length ≤ bound) : Recurs (rule bound) i c (read level bound i c) := by
  -- by induction on the tokens left: what is read inside is behind a token
  induction hlength : c.rest.length using Nat.strongRecOn generalizing i c with
  | ind left ih =>
    rw [h.read_eq_rule hrule level i htop hbound]
    refine .intro _ (fun _ c' => c'.rest.length < left) (fun sub' hsub' => ?_) fun j c' hc' => ?_
    · have hsub : ∀ j, Agree left (read level bound j) (sub' j) anything Moves := fun j =>
        ⟨fun c _ => h.goes hrule _ _ j c, fun c _ hlt => hsub' j c hlt⟩
      exact (hrule (by omega) (by omega) (by omega) hsub i).same c trivial (by omega)
    · exact ih c'.rest.length hc' j (by omega) (by omega) rfl

/-- Recursion with a bound that suffices is recursion without one. -/
theorem recurs_iff (level : Nat) (i : ι) (htop : c.rest.length ≤ top)
    (hbound : c.rest.length ≤ bound) (hbound' : c.rest.length ≤ bound')
    {r : Except Error (α × Cursor)} : Recurs (rule bound) i c r ↔ r = read level bound' i c := by
  have hend := h.recurs_read hrule level i htop hbound
  rw [h.read_eq h hrule level level i htop hbound' hbound] at hend
  exact ⟨fun hr => hr.unique hend, fun hr => hr ▸ hend⟩

end

end Tied

end Parse

end MeteredScript
