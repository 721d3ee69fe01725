import MeteredScript.Proofs.Printer
import MeteredScript.Tree.Cursor

namespace MeteredScript

/-! # What reading a token list gives

Statements about readers leave spans and cursors out: `Reads p bound front stop P` says that `p`, where
the tokens `front` are ahead and the token behind them satisfies `stop`, reads exactly `front` and gives
a result with the property `P`. The rules of this module take a reader apart step by step, with what it
looks at in front of it.
-/

def Cursor.tokens (c : Cursor) : List Token := c.rest.map Lexeme.token

@[simp] theorem Cursor.token?_eq (c : Cursor) : c.token? = c.tokens.head? := by
  rw [Cursor.token?, Cursor.tokens, List.head?_map]

@[simp] theorem Cursor.tokens_advance (c : Cursor) : c.advance.tokens = c.tokens.tail := by
  unfold Cursor.advance Cursor.tokens
  cases hrest : c.rest with
  | nil => simp [hrest]
  | cons lexeme rest => rfl

namespace Parse

variable {α β : Type}

/-- With at most `bound` tokens left, of which `front` come first and the next one satisfies `stop`, the
reader `p` passes `front` and gives a result that satisfies `P`. -/
def Reads (p : Parse α) (bound : Nat) (front : List Token) (stop : Option Token → Prop)
    (P : α → Prop) : Prop :=
  ∀ (c : Cursor) (more : List Token), c.tokens = front ++ more → stop more.head? →
    c.tokens.length ≤ bound → ∃ a c', p c = .ok (a, c') ∧ c'.tokens = more ∧ P a

/-- Whatever token follows. -/
def anything : Option Token → Prop := fun _ => True

/-- A reader with a result goes on with it. -/
theorem bind_of_ok {p : Parse α} {f : α → Parse β} {c c' : Cursor} {a : α} (h : p c = .ok (a, c')) :
    (p >>= f) c = f a c' := by
  show (p c >>= fun r => f r.1 r.2) = f a c'
  rw [h]
  rfl

/-- Two readers in a row both succeed. -/
theorem exists_of_bind_eq_ok {p : Parse α} {f : α → Parse β} {c c' : Cursor} {b : β}
    (h : (p >>= f) c = .ok (b, c')) : ∃ a c'', p c = .ok (a, c'') ∧ f a c'' = .ok (b, c') := by
  have hsplit : (p c >>= fun r => f r.1 r.2) = .ok (b, c') := h
  cases hread : p c with
  | error e =>
    rw [hread] at hsplit
    simp [Bind.bind, Except.bind] at hsplit
  | ok r =>
    rw [hread] at hsplit
    exact ⟨r.1, r.2, rfl, hsplit⟩

/-- Of two readers in a row the first one fails, or the second does where the first one stopped. -/
theorem error_of_bind_eq_error {p : Parse α} {f : α → Parse β} {c : Cursor} {e : Error}
    (h : (p >>= f) c = .error e) :
    p c = .error e ∨ ∃ a c', p c = .ok (a, c') ∧ f a c' = .error e := by
  have hsplit : (p c >>= fun r => f r.1 r.2) = .error e := h
  cases hread : p c with
  | error e' =>
    rw [hread] at hsplit
    cases hsplit
    exact .inl rfl
  | ok r =>
    rw [hread] at hsplit
    exact .inr ⟨r.1, r.2, rfl, hsplit⟩

namespace Reads

variable {p : Parse α} {f : α → Parse β} {bound bound' : Nat} {front back : List Token}
  {stop stop' : Option Token → Prop} {P : α → Prop} {Q : β → Prop} {token : Token}

/-- A result is given without reading. -/
theorem pure {a : α} (ha : P a) : Reads (Pure.pure a) bound [] stop P := by
  intro c more hc _ _
  exact ⟨a, c, rfl, hc, ha⟩

theorem bind (hp : Reads p bound front stop P)
    (hf : ∀ a, P a → Reads (f a) bound' back stop' Q)
    (hbound : bound ≤ bound' + front.length)
    (hstop : ∀ next, stop' next → stop (back.head?.or next)) :
    Reads (p >>= f) bound (front ++ back) stop' Q := by
  intro c more hc hmore hlength
  rw [List.append_assoc] at hc
  have hnext : stop (back ++ more).head? := by
    rw [List.head?_append]
    exact hstop _ hmore
  obtain ⟨a, c', ha, hc', hP⟩ := hp c (back ++ more) hc hnext hlength
  have hlength' : c'.tokens.length ≤ bound' := by
    have hsize := congrArg List.length hc
    rw [List.length_append, ← hc'] at hsize
    omega
  obtain ⟨b, c'', hb, hc'', hQ⟩ := hf a hP c' more hc' hmore hlength'
  exact ⟨b, c'', (bind_of_ok ha).trans hb, hc'', hQ⟩

theorem bind_nil (hp : Reads p bound front stop P) (hf : ∀ a, P a → Reads (f a) bound [] stop Q) :
    Reads (p >>= f) bound front stop Q := by
  have h := bind hp hf (Nat.le_add_right _ _) fun _ hnext => hnext
  rwa [List.append_nil] at h

/-- What is read within a bound is read within a lower one, in front of fewer tokens. -/
theorem mono (hp : Reads p bound front stop P) (hbound : bound' ≤ bound)
    (hstop : ∀ next, stop' next → stop next) : Reads p bound' front stop' P :=
  fun c more hc hmore hlength => hp c more hc (hstop _ hmore) (Nat.le_trans hlength hbound)

theorem of_le (hp : Reads p bound front stop P) (hbound : bound' ≤ bound) :
    Reads p bound' front stop P :=
  hp.mono hbound fun _ hnext => hnext

theorem of_anything (hp : Reads p bound front anything P) : Reads p bound front stop P :=
  hp.mono (Nat.le_refl bound) fun _ _ => trivial

theorem imp {P' : α → Prop} (hp : Reads p bound front stop P) (hP : ∀ a, P a → P' a) :
    Reads p bound front stop P' := by
  intro c more hc hmore hlength
  obtain ⟨a, c', ha, hc', hPa⟩ := hp c more hc hmore hlength
  exact ⟨a, c', ha, hc', hP a hPa⟩

/-! ## Steps that read nothing -/

/-- A step that never fails and leaves the cursor alone, whose answer does not matter. -/
theorem ask (hp : ∀ c, ∃ a, p c = .ok (a, c)) (hf : ∀ a, Reads (f a) bound front stop Q) :
    Reads (p >>= f) bound front stop Q := by
  intro c more hc hmore hlength
  obtain ⟨a, ha⟩ := hp c
  rw [bind_of_ok ha]
  exact hf a c more hc hmore hlength

/-- The range of the next token may be anything. -/
theorem here {f : Span → Parse β} (hf : ∀ span, Reads (f span) bound front stop Q) :
    Reads (here >>= f) bound front stop Q :=
  ask (fun c => ⟨c.span, rfl⟩) hf

theorem spanFrom {start : Span} {f : Span → Parse β} (hf : ∀ span, Reads (f span) bound front stop Q) :
    Reads (spanFrom start >>= f) bound front stop Q :=
  ask (fun c => ⟨start.extendTo c.reached, rfl⟩) hf

/-! ## The token ahead -/

theorem peek_cons {f : Option Token → Parse β}
    (hf : Reads (f (some token)) bound (token :: back) stop Q) :
    Reads (peek >>= f) bound (token :: back) stop Q := by
  intro c more hc hmore hlength
  have hpeek : peek c = .ok (some token, c) := by
    show Except.ok (c.token?, c) = _
    rw [Cursor.token?_eq, hc]
    rfl
  rw [bind_of_ok hpeek]
  exact hf c more hc hmore hlength

/-- Where all was read, the token that follows is ahead. -/
theorem peek_nil {f : Option Token → Parse β}
    (hf : ∀ next, stop next → Reads (f next) bound [] (· = next) Q) :
    Reads (peek >>= f) bound [] stop Q := by
  intro c more hc hmore hlength
  have hpeek : peek c = .ok (more.head?, c) := by
    show Except.ok (c.token?, c) = _
    rw [Cursor.token?_eq, hc]
    rfl
  rw [bind_of_ok hpeek]
  exact hf more.head? hmore c more hc rfl hlength

/-- Passing a token leaves the others, and a bound that is one lower. -/
theorem advance_cons {f : Unit → Parse β} (hf : Reads (f ()) bound back stop Q) :
    Reads (advance >>= f) (bound + 1) (token :: back) stop Q := by
  intro c more hc hmore hlength
  have hadvance : advance c = .ok ((), c.advance) := rfl
  have hc' : c.advance.tokens = back ++ more := by
    rw [Cursor.tokens_advance, hc]
    rfl
  rw [bind_of_ok hadvance]
  refine hf c.advance more hc' hmore ?_
  rw [hc'] at *
  rw [hc] at hlength
  exact Nat.le_of_succ_le_succ hlength

variable {γ : Type} {wanted : Token} {view : α → γ}

theorem check_cons {f : Bool → Parse β}
    (hf : Reads (f (token == wanted)) bound (token :: back) stop Q) :
    Reads (check wanted >>= f) bound (token :: back) stop Q := by
  unfold check
  rw [bind_assoc]
  refine peek_cons ?_
  rw [pure_bind]
  exact hf

/-- What follows is none of the tokens that are looked for. -/
theorem check_nil {f : Bool → Parse β} (hstop : ∀ next, stop next → next ≠ some wanted)
    (hf : Reads (f false) bound [] stop Q) : Reads (check wanted >>= f) bound [] stop Q := by
  unfold check
  rw [bind_assoc]
  refine peek_nil fun next hnext => ?_
  have hne : (next == some wanted) = false := beq_false_of_ne (hstop next hnext)
  rw [pure_bind, hne]
  exact hf.mono (Nat.le_refl _) fun n hn => hn ▸ hnext

/-- The wanted token stands behind what is read, and stays there. -/
theorem check_ahead {f : Bool → Parse β} (hf : Reads (f true) bound [] (· = some wanted) Q) :
    Reads (check wanted >>= f) bound [] (· = some wanted) Q := by
  unfold check
  rw [bind_assoc]
  refine peek_nil fun next hnext => ?_
  rw [pure_bind, hnext, beq_self_eq_true]
  exact hf

/-- The token that is looked for is passed. -/
theorem eat_same {f : Bool → Parse β} (hf : Reads (f true) bound back stop Q) :
    Reads (eat token >>= f) (bound + 1) (token :: back) stop Q := by
  unfold eat
  rw [bind_assoc]
  refine check_cons ?_
  rw [beq_self_eq_true]
  simp only [if_true, bind_assoc, pure_bind]
  exact advance_cons hf

/-- Another token is left alone. -/
theorem eat_other {f : Bool → Parse β} (hne : token ≠ wanted)
    (hf : Reads (f false) bound (token :: back) stop Q) :
    Reads (eat wanted >>= f) bound (token :: back) stop Q := by
  unfold eat
  rw [bind_assoc]
  refine check_cons ?_
  rw [beq_false_of_ne hne]
  simpa using hf

theorem eat_nil {f : Bool → Parse β} (hstop : ∀ next, stop next → next ≠ some wanted)
    (hf : Reads (f false) bound [] stop Q) : Reads (eat wanted >>= f) bound [] stop Q := by
  unfold eat
  rw [bind_assoc]
  refine check_nil hstop ?_
  simpa using hf

theorem expect_cons {f : Span → Parse β} (hf : ∀ span, Reads (f span) bound back stop Q) :
    Reads (expect token >>= f) (bound + 1) (token :: back) stop Q := by
  unfold expect
  rw [bind_assoc]
  refine here fun span => ?_
  rw [bind_assoc]
  refine eat_same ?_
  simpa using hf span

theorem bind_expect {g : α → Parse γ} {R : γ → Prop} (hp : Reads p bound front stop P)
    (hclose : stop (some token)) (hg : ∀ a, P a → Reads (g a) bound back stop' R) :
    Reads (p >>= fun a => expect token >>= fun _ => g a) bound (front ++ token :: back) stop' R :=
  bind hp (fun a ha => expect_cons fun _ => hg a ha) (by omega) fun _ _ => hclose

theorem name_cons {name : String} {f : String → Parse β} (hf : Reads (f name) bound back stop Q) :
    Reads (Parse.name >>= f) (bound + 1) (.ident name :: back) stop Q := by
  unfold Parse.name
  rw [bind_assoc]
  refine peek_cons ?_
  dsimp only
  rw [bind_assoc]
  refine advance_cons ?_
  rw [pure_bind]
  exact hf

/-- Where there is too much in front of it nothing is claimed of a reader. -/
theorem of_bound_lt (h : bound < front.length) : Reads p bound front stop P := by
  intro c more hc _ hlength
  have hsize := congrArg List.length hc
  rw [List.length_append] at hsize
  omega

/-! ## Repetition -/

section

variable {step : α → Parse (α × Bool)} {a : α} {n : Nat}

/-- One round of a repetition, and what is done with the result in the end. -/
theorem iterate_more_bind (hstep : Reads (step a) bound front stop fun r => r.2 = true ∧ P r.1)
    (hrest : ∀ a', P a' → Reads (iterate step n a' >>= f) bound' back stop' Q)
    (hbound : bound ≤ bound' + front.length)
    (hstop : ∀ next, stop' next → stop (back.head?.or next)) :
    Reads (iterate step (n + 1) a >>= f) bound (front ++ back) stop' Q := by
  rw [iterate, bind_assoc]
  refine bind hstep (fun r hr => ?_) hbound hstop
  obtain ⟨a', more⟩ := r
  obtain ⟨rfl, ha'⟩ := hr
  exact hrest a' ha'

/-- A round that asks for more, and the rounds behind it. -/
theorem iterate_more {Q : α → Prop}
    (hstep : Reads (step a) bound front stop fun r => r.2 = true ∧ P r.1)
    (hrest : ∀ a', P a' → Reads (iterate step n a') bound' back stop' Q)
    (hbound : bound ≤ bound' + front.length)
    (hstop : ∀ next, stop' next → stop (back.head?.or next)) :
    Reads (iterate step (n + 1) a) bound (front ++ back) stop' Q := by
  rw [← bind_pure (iterate step (n + 1) a)]
  refine iterate_more_bind hstep (fun a' ha' => ?_) hbound hstop
  rw [bind_pure]
  exact hrest a' ha'

theorem iterate_last {Q : α → Prop}
    (hstep : Reads (step a) bound front stop fun r => r.2 = false ∧ Q r.1) :
    Reads (iterate step (n + 1) a) bound front stop Q := by
  refine bind_nil hstep fun r hr => ?_
  obtain ⟨a', more⟩ := r
  obtain ⟨rfl, ha'⟩ := hr
  exact pure ha'

/-- A repetition that has nothing to do gives back what it was given. -/
theorem iterate_stop {Q : α → Prop} (n : Nat)
    (hstep : Reads (step a) bound [] stop fun r => r.2 = false ∧ r.1 = a) (ha : Q a) :
    Reads (iterate step n a) bound [] stop Q := by
  cases n with
  | zero => exact pure ha
  | succ n => exact iterate_last (hstep.imp fun r hr => ⟨hr.1, hr.2 ▸ ha⟩)

end

/-- Repeating a step that reads one item, up to a token at which it stops. The items come out in
reverse, and `view` is what is to be seen of them. -/
theorem iterate_all {step : List α → Parse (List α × Bool)} {written : α → List Token}
    (items : List α)
    (hitem : ∀ i ∈ items, ∀ read, Reads (step read) bound (written i) stop
      fun r => r.2 = true ∧ r.1.map view = view i :: read.map view)
    (hfirst : ∀ i ∈ items, written i ≠ [] ∧ stop (written i).head?)
    (hstop : ∀ next, stop' next → stop next)
    (hend : ∀ read, Reads (step read) bound [] stop' fun r => r.2 = false ∧ r.1 = read) (n : Nat)
    (hn : bound ≤ n) (read : List α) :
    Reads (iterate step n read) bound (items.flatMap written) stop'
      fun r => r.map view = (items.map view).reverse ++ read.map view := by
  induction items generalizing n read bound with
  | nil => exact iterate_stop n (hend read) rfl
  | cons i items ih =>
    have hlength : 0 < (written i).length :=
      List.length_pos_iff.mpr (hfirst i List.mem_cons_self).1
    rw [List.flatMap_cons]
    cases n with
    | zero =>
      -- no round is left only where no token is left, and the item has one
      refine of_bound_lt ?_
      rw [List.length_append]
      omega
    | succ n =>
      -- the item passes a token at least, which makes up for the round
      have hrest : ∀ read' : List α,
          Reads (iterate step n read') (bound - 1) (items.flatMap written) stop'
          fun r => r.map view = (items.map view).reverse ++ read'.map view := by
        intro read'
        refine ih (fun j hj r => ?_) (fun j hj => ?_) (fun r => ?_) n (by omega) read'
        · exact (hitem j (List.mem_cons_of_mem i hj) r).of_le (by omega)
        · exact hfirst j (List.mem_cons_of_mem i hj)
        · exact (hend r).of_le (by omega)
      refine iterate_more (P := fun read' => read'.map view = view i :: read.map view)
        (hitem i List.mem_cons_self read) (fun read' hread' => (hrest read').imp fun r hr => ?_) ?_ ?_
      · rw [hr, hread', List.map_cons, List.reverse_cons, List.append_assoc, List.singleton_append]
      · omega
      · -- behind the item comes the next one, or what is behind them all
        intro next hmore
        rcases items with _ | ⟨second, items⟩
        · exact hstop next hmore
        · have hsecond := hfirst second (List.mem_cons_of_mem i List.mem_cons_self)
          obtain ⟨token, tokens, htokens⟩ := List.exists_cons_of_ne_nil hsecond.1
          rw [htokens] at hsecond
          rw [List.flatMap_cons, htokens]
          exact hsecond.2

theorem map_reverse_of_read {items read : List α}
    (h : read.map view = (items.map view).reverse ++ [].map view) :
    read.reverse.map view = items.map view := by
  rw [List.map_reverse, h, List.map_nil, List.append_nil, List.reverse_reverse]

/-! ## Lists with commas -/

/-- Items behind a first one, each behind a comma. -/
theorem commaRest {item : Parse α} {written : α → List Token} (first : α) (n : Nat) (items : List α)
    (hitem : ∀ i ∈ items, Reads item bound (written i) stop fun a => view a = view i)
    (hcomma : stop (some (.punctuation .comma)))
    (hstop : ∀ next, stop' next → stop next ∧ next ≠ some (.punctuation .comma)) (hn : bound ≤ n) :
    Reads (Parse.commaRest n item first) bound
      (items.flatMap fun i => .punctuation .comma :: written i) stop'
      fun r => r.map view = view first :: items.map view := by
  -- Each item comes with the comma in front of it.
  have hstep : ∀ i ∈ items, ∀ read,
      Reads (moreStep item read) bound (.punctuation .comma :: written i) stop
        fun r => r.2 = true ∧ r.1.map view = view i :: read.map view := by
    intro i hi read
    cases bound with
    | zero => exact of_bound_lt (Nat.succ_pos _)
    | succ bound =>
      refine eat_same (bind_nil ((hitem i hi).of_le (Nat.le_succ _)) fun a ha => ?_)
      exact pure ⟨rfl, by rw [List.map_cons, ha]⟩
  have hend : ∀ read, Reads (moreStep item read) bound [] stop' fun r => r.2 = false ∧ r.1 = read := by
    intro read
    refine eat_nil (fun next hnext => (hstop next hnext).2) ?_
    exact pure ⟨rfl, rfl⟩
  have hall := iterate_all items hstep (fun _ _ => ⟨List.cons_ne_nil _ _, hcomma⟩)
    (fun next hnext => (hstop next hnext).1) hend n hn [first]
  refine bind_nil hall fun read hread => pure ?_
  rw [List.map_reverse, hread, List.reverse_append, List.reverse_reverse]
  rfl

/-- A step of a list that ends at the token `closer`: it stops there, and where an item begins it reads
the item and looks for a comma. -/
structure ListStep (step : List α → Parse (List α × Bool)) (item : Parse α) (closer : Token) : Prop where
  close (bound : Nat) (read : List α) :
    Reads (step read) bound [] (· = some closer) fun r => r.2 = false ∧ r.1 = read
  item {bound : Nat} {token : Token} {back : List Token} {stop : Option Token → Prop} {read : List α}
      {P : List α × Bool → Prop} : token ≠ closer → token ≠ .punctuation .comma →
    Reads (do
      let a ← item
      let more ← eat (.punctuation .comma)
      return (a :: read, more)) bound (token :: back) stop P →
    Reads (step read) bound (token :: back) stop P

/-- Lists in brackets are read item by item, up to the closing token. -/
theorem listStep_commaStep (item : Parse α) {closer : Token} :
    ListStep (commaStep closer item) item closer where
  close bound read := check_ahead (pure ⟨rfl, rfl⟩)
  item hcloser _ hread := by
    unfold commaStep
    refine check_cons ?_
    rw [beq_false_of_ne hcloser]
    exact hread

section

variable {γ : Type} {step : List α → Parse (List α × Bool)} {item : Parse α} {closer : Token}
  {view : α → γ} {g : γ} {read : List α}

theorem ListStep.last (hstep : ListStep step item closer) (hne : closer ≠ .punctuation .comma)
    (hitem : Reads item bound (token :: back) stop fun a => view a = g) (hstop : stop (some closer))
    (hcloser : token ≠ closer) (hcomma : token ≠ .punctuation .comma) :
    Reads (step read) bound (token :: back) (· = some closer)
      fun r => r.2 = false ∧ r.1.map view = g :: read.map view := by
  refine hstep.item hcloser hcomma ?_
  refine bind_nil (hitem.mono (Nat.le_refl _) fun next hnext => hnext ▸ hstop) fun a ha => ?_
  refine eat_nil (fun next hnext => ?_) (pure ⟨rfl, by rw [List.map_cons, ha]⟩)
  rw [hnext]
  exact fun h => hne (Option.some.inj h)

theorem ListStep.more (hstep : ListStep step item closer)
    (hitem : Reads item bound (token :: back) stop fun a => view a = g)
    (hstop : stop (some (.punctuation .comma)))
    (hcloser : token ≠ closer) (hcomma : token ≠ .punctuation .comma) :
    Reads (step read) bound (token :: back ++ [.punctuation .comma]) anything
      fun r => r.2 = true ∧ r.1.map view = g :: read.map view := by
  refine hstep.item hcloser hcomma ?_
  have hcomma' : ∀ a, view a = g → Reads (do
      let more ← eat (.punctuation .comma)
      Pure.pure (a :: read, more)) (bound + 1) [.punctuation .comma] anything
      fun r => r.2 = true ∧ r.1.map view = g :: read.map view :=
    fun a ha => eat_same (pure ⟨rfl, by rw [List.map_cons, ha]⟩)
  exact bind hitem hcomma' (by omega) fun _ _ => hstop

end

theorem separate_cons_cons (first second : List Token) (rest : List (List Token)) :
    separate (first :: second :: rest) =
      first ++ [.punctuation .comma] ++ separate (second :: rest) := by
  simp [separate]

section

variable {γ : Type} {step : List α → Parse (List α × Bool)} {item : Parse α} {closer : Token}
  {view : α → γ} {written : α → List Token}

/-- The items of a list up to its closing token, separated by commas. -/
theorem separated (hstep : ListStep step item closer) (items : List α)
    (hitem : ∀ i ∈ items, Reads item bound (written i) stop fun a => view a = view i)
    (hfirst : ∀ i ∈ items, ∃ token tokens, written i = token :: tokens ∧ token ≠ closer ∧
      token ≠ .punctuation .comma)
    (hcomma : stop (some (.punctuation .comma))) (hcloser : stop (some closer))
    (hne : closer ≠ .punctuation .comma) (n : Nat) (hn : bound ≤ n) (read : List α) :
    Reads (iterate step n read) bound (separate (items.map written)) (· = some closer)
      fun r => r.map view = (items.map view).reverse ++ read.map view := by
  induction items generalizing n read bound with
  | nil => exact iterate_stop n (hstep.close bound read) rfl
  | cons i items ih =>
    obtain ⟨token, back, hwritten, hne₁, hne₂⟩ := hfirst i List.mem_cons_self
    have hread := hitem i List.mem_cons_self
    rw [hwritten] at hread
    -- only an item that is not the last one has a comma behind it, and takes another round
    cases items with
    | nil =>
      rw [List.map_cons, List.map_nil, separate, List.flatMap_nil, List.append_nil, hwritten]
      cases n with
      | zero => exact of_bound_lt (by rw [List.length_cons]; omega)
      | succ n => exact iterate_last (hstep.last hne hread hcloser hne₁ hne₂)
    | cons second items =>
      have hrest : ∀ (n : Nat) (read' : List α), bound - 1 ≤ n → Reads (iterate step n read') (bound - 1)
          (separate ((second :: items).map written)) (· = some closer)
          fun r => r.map view = ((second :: items).map view).reverse ++ read'.map view := by
        intro n read' hn
        refine ih (fun j hj => ?_) (fun j hj => hfirst j (List.mem_cons_of_mem _ hj)) n hn read'
        exact (hitem j (List.mem_cons_of_mem _ hj)).of_le (by omega)
      rw [List.map_cons, List.map_cons, separate_cons_cons, hwritten]
      cases n with
      | zero => exact of_bound_lt (by simp; omega)
      | succ n =>
        refine iterate_more (P := fun read' => read'.map view = view i :: read.map view)
          (hstep.more hread hcomma hne₁ hne₂)
          (fun read' hread' => (hrest n read' (by omega)).imp fun r hr => ?_) ?_ fun _ _ => trivial
        · rw [hr, hread', List.map_cons (a := i), List.reverse_cons, List.append_assoc,
            List.singleton_append]
        · rw [List.length_append, List.length_cons]
          omega

/-- A list in brackets is read back if its items are, and none of them begins like what separates
them. -/
theorem commaSeparated (items : List α)
    (hitem : ∀ i ∈ items, Reads item bound (written i) stop fun a => view a = view i)
    (hfirst : ∀ i ∈ items, ∃ token tokens, written i = token :: tokens ∧ token ≠ closer ∧
      token ≠ .punctuation .comma)
    (hcomma : stop (some (.punctuation .comma))) (hcloser : stop (some closer))
    (hne : closer ≠ .punctuation .comma) (n : Nat) (hn : bound ≤ n) :
    Reads (Parse.commaSeparated n closer item) bound (separate (items.map written) ++ [closer]) anything
      fun r => r.map view = items.map view := by
  have hitems := separated (listStep_commaStep item) items hitem hfirst hcomma hcloser hne n hn []
  exact bind_expect hitems rfl fun read hread => pure (map_reverse_of_read hread)

end

end Reads

end Parse

end MeteredScript
