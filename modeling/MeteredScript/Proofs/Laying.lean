import MeteredScript.Proofs.Flattening
import MeteredScript.Proofs.Partition
import MeteredScript.Proofs.Reading
import MeteredScript.Tree.Outline

namespace MeteredScript

/-! # Trees laid over tokens

The tokens of a list are counted, and a reader goes from one place between them to another
(`Cursor.past`). Outlines and leaves are laid over the tokens between two places (`Laid`) if the leaves
are these tokens, but for parentheses, commas and semicolons, and each outline has tokens of its own,
one after the other, from the first of which to the last its range goes, with what is below it laid over
these tokens in turn. `Parse.Lays` says where a reader stops and what it reads there, and that an error
is about some of the tokens. The rules of this module take a reader apart step by step.
-/

/-! ## Places between tokens -/

theorem lastStop_append (start : Nat) (lexemes lexemes' : List Lexeme) :
    lastStop start (lexemes ++ lexemes') = lastStop (lastStop start lexemes) lexemes' := by
  induction lexemes generalizing start with
  | nil => rfl
  | cons lexeme rest ih => exact ih lexeme.span.stop

/-- The cursor that has passed `i` of the tokens. -/
def Cursor.past (lexemes : List Lexeme) (i : Nat) : Cursor :=
  ⟨lexemes.drop i, lastStop 0 (lexemes.take i)⟩

/-- The range from the token behind `i` others to the one in front of the place `j`. -/
def extent (lexemes : List Lexeme) (i j : Nat) : Span :=
  (Cursor.past lexemes i).span.extendTo (Cursor.past lexemes j).reached

namespace Cursor

variable {lexemes : List Lexeme} {i : Nat}

/-- Past all tokens there is nothing left to read. -/
theorem past_of_length_le (h : lexemes.length ≤ i) : past lexemes i = ⟨[], lastStop 0 lexemes⟩ := by
  unfold past
  rw [List.drop_eq_nil_of_le h, List.take_of_length_le h]

theorem lt_length_of_token? {t : Token} (h : (past lexemes i).token? = some t) :
    i < lexemes.length := by
  rcases Nat.lt_or_ge i lexemes.length with hlt | hge
  · exact hlt
  · rw [past_of_length_le hge] at h
    cases h

/-- The range ahead is that of the next token. -/
theorem span_past (h : i < lexemes.length) : (past lexemes i).span = lexemes[i].span := by
  unfold past span
  rw [List.drop_eq_getElem_cons h]

theorem reached_past_succ (h : i < lexemes.length) :
    (past lexemes (i + 1)).reached = lexemes[i].span.stop := by
  unfold past
  rw [← List.take_append_getElem h, lastStop_append]
  rfl

/-- Passing a token leads one place further. -/
theorem advance_past (h : i < lexemes.length) : (past lexemes i).advance = past lexemes (i + 1) := by
  have hnext : past lexemes (i + 1) = ⟨lexemes.drop (i + 1), lexemes[i].span.stop⟩ :=
    congrArg (Cursor.mk (lexemes.drop (i + 1))) (reached_past_succ h)
  rw [hnext]
  unfold past advance
  rw [List.drop_eq_getElem_cons h]

end Cursor

/-- The range of one token. -/
theorem extent_succ (lexemes : List Lexeme) (i : Nat) :
    extent lexemes i (i + 1) = (Cursor.past lexemes i).span := by
  unfold extent
  by_cases hlt : i < lexemes.length
  · rw [Cursor.reached_past_succ hlt, Cursor.span_past hlt]
    unfold Span.extendTo
    rw [Nat.max_self]
  · have hend := Nat.le_of_not_lt hlt
    rw [Cursor.past_of_length_le hend, Cursor.past_of_length_le (Nat.le_succ_of_le hend)]
    exact congrArg (Span.mk _) (Nat.max_self _)

/-! ## Outlines and leaves -/

/-- The outlines and the leaves are laid over the tokens from the place `i` to the place `j`: a token is
a leaf or leaves no trace, and an outline goes over one token at least. -/
inductive Laid (lexemes : List Lexeme) : Nat → Nat → List Outline → List Leaf → Prop
  | nil (i : Nat) : Laid lexemes i i [] []
  | skip {i j : Nat} {t : Token} {outlines : List Outline} {leaves : List Leaf} :
      (Cursor.past lexemes i).token? = some t → t.isTraced = false →
      Laid lexemes (i + 1) j outlines leaves → Laid lexemes i j outlines leaves
  | leaf {i j : Nat} {t : Token} {first : Leaf} {outlines : List Outline} {leaves : List Leaf} :
      (Cursor.past lexemes i).token? = some t → t.isTraced = true → first.ReadFrom t →
      Laid lexemes (i + 1) j outlines leaves → Laid lexemes i j outlines (first :: leaves)
  | node {i j k : Nat} {label : Label} {children outlines : List Outline}
      {leaves leaves' : List Leaf} : i < k →
      Laid lexemes i k children leaves → Laid lexemes k j outlines leaves' →
      Laid lexemes i j (.node label (extent lexemes i k) children :: outlines) (leaves ++ leaves')

namespace Laid

variable {lexemes : List Lexeme} {i j k : Nat} {outlines outlines' : List Outline}
  {leaves leaves' : List Leaf} {t : Token}

theorem le (h : Laid lexemes i j outlines leaves) : i ≤ j := by
  induction h with
  | nil i => exact Nat.le_refl i
  | skip _ _ _ ih => omega
  | leaf _ _ _ _ ih => omega
  | node _ _ _ _ ih => omega

theorem lt_of_ne_nil (h : Laid lexemes i j outlines leaves) (hne : outlines ≠ []) : i < j := by
  induction h with
  | nil i => exact absurd rfl hne
  | skip _ _ hrest _ => exact hrest.le
  | leaf _ _ _ hrest _ => exact hrest.le
  | node hlt _ hrest _ _ => exact Nat.lt_of_lt_of_le hlt hrest.le

theorem lt {outline : Outline} (h : Laid lexemes i j (outline :: outlines) leaves) : i < j :=
  h.lt_of_ne_nil (List.cons_ne_nil _ _)

theorem append (h : Laid lexemes i j outlines leaves) (h' : Laid lexemes j k outlines' leaves') :
    Laid lexemes i k (outlines ++ outlines') (leaves ++ leaves') := by
  induction h with
  | nil => exact h'
  | skip ht hskip _ ih => exact .skip ht hskip (ih h')
  | leaf ht htraced hread _ ih => exact .leaf ht htraced hread (ih h')
  | node hlt hchildren _ _ ih =>
    rw [List.append_assoc]
    exact .node hlt hchildren (ih h')

/-- Tokens behind that leave no trace. -/
theorem behind (h : Laid lexemes i j outlines leaves) (h' : Laid lexemes j k [] []) :
    Laid lexemes i k outlines leaves := by
  have hboth := h.append h'
  rwa [List.append_nil, List.append_nil] at hboth

theorem skipLast (h : Laid lexemes i j outlines leaves) (ht : (Cursor.past lexemes j).token? = some t)
    (hskip : t.isTraced = false) : Laid lexemes i (j + 1) outlines leaves :=
  h.behind (.skip ht hskip (.nil _))

theorem plain (ht : (Cursor.past lexemes i).token? = some t) (htraced : t.isTraced = true)
    (hnormal : t.normal? = some t) (h : Laid lexemes (i + 1) j outlines leaves) :
    Laid lexemes i j outlines (.plain t :: leaves) :=
  .leaf ht htraced hnormal h

theorem plainLast (h : Laid lexemes i j outlines leaves) (ht : (Cursor.past lexemes j).token? = some t)
    (htraced : t.isTraced = true) (hnormal : t.normal? = some t) :
    Laid lexemes i (j + 1) outlines (leaves ++ [.plain t]) := by
  have hboth := h.append (.plain ht htraced hnormal (.nil _))
  rwa [List.append_nil] at hboth

/-- One outline with all tokens between two places. -/
theorem single {label : Label} {children : List Outline} (hlt : i < j)
    (h : Laid lexemes i j children leaves) :
    Laid lexemes i j [.node label (extent lexemes i j) children] leaves := by
  have hnode : Laid lexemes i j [.node label (extent lexemes i j) children] (leaves ++ []) :=
    .node hlt h (.nil j)
  rwa [List.append_nil] at hnode

theorem token (h : Laid lexemes i (i + 1) [] leaves) (label : Label) :
    Laid lexemes i (i + 1) [.node label (Cursor.past lexemes i).span []] leaves := by
  rw [← extent_succ]
  exact .single (Nat.lt_succ_self i) h

/-- Each of the outlines has tokens of its own, over which what is below it is laid. -/
theorem exists_of_mem (h : Laid lexemes i j outlines leaves) :
    ∀ outline ∈ outlines, ∃ a b leaves', i ≤ a ∧ a < b ∧ b ≤ j ∧
      outline.span = extent lexemes a b ∧ Laid lexemes a b outline.children leaves' := by
  induction h with
  | nil => simp
  | skip _ _ _ ih | leaf _ _ _ _ ih =>
    intro outline hmem
    obtain ⟨a, b, leaves', hle, hbelow⟩ := ih outline hmem
    exact ⟨a, b, leaves', by omega, hbelow⟩
  | node hlt hchildren hrest _ ih =>
    intro outline hmem
    rcases List.mem_cons.mp hmem with rfl | hmem
    · exact ⟨_, _, _, Nat.le_refl _, hlt, hrest.le, rfl, hchildren⟩
    · obtain ⟨a, b, leaves', hle, hbelow⟩ := ih outline hmem
      exact ⟨a, b, leaves', by omega, hbelow⟩

end Laid

/-- The results that were read between two places, the latest first, are laid over the tokens there. -/
def LaidRead {α : Type} (lexemes : List Lexeme) (outlines : α → List Outline) (leaves : α → List Leaf)
    (i j : Nat) (results : List α) : Prop :=
  Laid lexemes i j (results.reverse.flatMap outlines) (results.reverse.flatMap leaves)

namespace LaidRead

variable {α : Type} {lexemes : List Lexeme} {outlines : α → List Outline} {leaves : α → List Leaf}
  {i j k : Nat} {results : List α} {a : α}

theorem cons (h : LaidRead lexemes outlines leaves i j results)
    (ha : Laid lexemes j k (outlines a) (leaves a)) :
    LaidRead lexemes outlines leaves i k (a :: results) := by
  unfold LaidRead
  simp only [List.reverse_cons, List.flatMap_append, List.flatMap_singleton]
  exact h.append ha

theorem single (ha : Laid lexemes i j (outlines a) (leaves a)) :
    LaidRead lexemes outlines leaves i j [a] := by
  unfold LaidRead
  simp only [List.reverse_singleton, List.flatMap_singleton]
  exact ha

end LaidRead

/-! ## Readers -/

namespace Parse

variable {α β : Type}

/-- An error that has a range is about the tokens between two places. -/
def Blames (lexemes : List Lexeme) (e : Error) : Prop :=
  ∀ span, e.span? = some span → ∃ i j, span = extent lexemes i j

/-- Whatever `p` reads from the place `i` on, it stops at a place that satisfies `Q` with the result.
If it fails, this is because of some tokens. -/
def Lays (lexemes : List Lexeme) (p : Parse α) (i : Nat) (Q : Nat → α → Prop) : Prop :=
  i ≤ lexemes.length →
    (∀ a c, p (.past lexemes i) = .ok (a, c) →
      ∃ j, i ≤ j ∧ j ≤ lexemes.length ∧ c = .past lexemes j ∧ Q j a) ∧
    ∀ e, p (.past lexemes i) = .error e → Blames lexemes e

namespace Lays

variable {lexemes : List Lexeme} {p : Parse α} {i : Nat} {P : Nat → α → Prop} {Q : Nat → β → Prop}
  {token : Token}

/-- What is said of place and result may be less. -/
theorem imp {P' : Nat → α → Prop} (h : Lays lexemes p i P) (hP : ∀ j a, i ≤ j → P j a → P' j a) :
    Lays lexemes p i P' := by
  intro hi
  obtain ⟨hok, herror⟩ := h hi
  refine ⟨fun a c ha => ?_, herror⟩
  obtain ⟨j, hij, hj, hc, hPa⟩ := hok a c ha
  exact ⟨j, hij, hj, hc, hP j a hij hPa⟩

variable {a : α} {f : α → Parse β}

/-- A result is given where the reader stands. -/
theorem result (h : P i a) : Lays lexemes (pure a) i P := by
  intro hi
  refine ⟨fun b c hb => ?_, fun e he => ?_⟩
  · rcases Except.ok.inj hb with ⟨rfl, rfl⟩
    exact ⟨i, Nat.le_refl i, hi, rfl, h⟩
  · cases he

/-- A failure has to be about some of the tokens. -/
theorem fail {e : Error} (h : Blames lexemes e) : Lays lexemes (throw e) i P := by
  intro _
  refine ⟨fun a c ha => ?_, fun e' he' => ?_⟩
  · cases ha
  · cases he'
    exact h

/-- The second reader starts where the first one stops. -/
theorem bind (hp : Lays lexemes p i P) (hf : ∀ j a, i ≤ j → P j a → Lays lexemes (f a) j Q) :
    Lays lexemes (p >>= f) i Q := by
  intro hi
  obtain ⟨hok, herror⟩ := hp hi
  constructor
  · intro b c hb
    obtain ⟨a, c', ha, hb⟩ := exists_of_bind_eq_ok hb
    obtain ⟨j, hij, hj, rfl, hPa⟩ := hok a c' ha
    obtain ⟨k, hjk, hk, hc, hQb⟩ := (hf j a hij hPa hj).1 b c hb
    exact ⟨k, Nat.le_trans hij hjk, hk, hc, hQb⟩
  · intro e he
    -- a failure of the first reader is one of the whole
    rcases error_of_bind_eq_error he with he | ⟨a, c', ha, he⟩
    · exact herror e he
    · obtain ⟨j, hij, hj, rfl, hPa⟩ := hok a c' ha
      exact (hf j a hij hPa hj).2 e he

/-! ## Single tokens -/

/-- A step that always goes to a place. -/
theorem move {j : Nat} (hij : i ≤ j) (hj : i ≤ lexemes.length → j ≤ lexemes.length)
    (hp : p (.past lexemes i) = .ok (a, .past lexemes j)) (hf : Lays lexemes (f a) j Q) :
    Lays lexemes (p >>= f) i Q := by
  intro hi
  obtain ⟨hok, herror⟩ := hf (hj hi)
  rw [bind_of_ok hp]
  refine ⟨fun b c hb => ?_, herror⟩
  obtain ⟨k, hjk, hk, hc, hQb⟩ := hok b c hb
  exact ⟨k, Nat.le_trans hij hjk, hk, hc, hQb⟩

theorem ask (hp : p (.past lexemes i) = .ok (a, .past lexemes i)) (hf : Lays lexemes (f a) i Q) :
    Lays lexemes (p >>= f) i Q :=
  move (Nat.le_refl i) (fun hi => hi) hp hf

/-- The range ahead is known from the place. -/
theorem here {f : Span → Parse β} (hf : Lays lexemes (f (Cursor.past lexemes i).span) i Q) :
    Lays lexemes (Parse.here >>= f) i Q :=
  ask rfl hf

theorem spanFrom {start : Span} {f : Span → Parse β}
    (hf : Lays lexemes (f (start.extendTo (Cursor.past lexemes i).reached)) i Q) :
    Lays lexemes (Parse.spanFrom start >>= f) i Q :=
  ask rfl hf

/-- The token ahead is known once it has been looked at. -/
theorem peek {f : Option Token → Parse β}
    (hf : ∀ next, (Cursor.past lexemes i).token? = next → Lays lexemes (f next) i Q) :
    Lays lexemes (Parse.peek >>= f) i Q :=
  ask rfl (hf _ rfl)

/-- Passing a token leads one place further. -/
theorem advance {f : Unit → Parse β} (ht : (Cursor.past lexemes i).token? = some token)
    (hf : Lays lexemes (f ()) (i + 1) Q) : Lays lexemes (Parse.advance >>= f) i Q := by
  have hlt := Cursor.lt_length_of_token? ht
  refine move (Nat.le_succ i) (fun _ => hlt) ?_ hf
  rw [← Cursor.advance_past hlt]
  rfl

/-- Where the token is found, it is the one ahead. -/
theorem check {f : Bool → Parse β}
    (htrue : (Cursor.past lexemes i).token? = some token → Lays lexemes (f true) i Q)
    (hfalse : Lays lexemes (f false) i Q) : Lays lexemes (Parse.check token >>= f) i Q := by
  refine ask rfl ?_
  by_cases hnext : (Cursor.past lexemes i).token? = some token
  · rw [beq_iff_eq.mpr hnext]
    exact htrue hnext
  · rw [beq_eq_false_iff_ne.mpr hnext]
    exact hfalse

/-- The range of the token ahead. -/
theorem blames_here {e : Error} (h : e.span? = some (Cursor.past lexemes i).span) :
    Blames lexemes e := by
  intro span hspan
  rcases Option.some.inj (h.symm.trans hspan) with rfl
  exact ⟨i, i + 1, (extent_succ lexemes i).symm⟩

/-- An unexpected token is blamed by its own range, the end of the tokens by an empty one. -/
theorem unexpected : Lays lexemes (Parse.unexpected : Parse α) i P := by
  refine here (peek fun next _ => ?_)
  split <;> exact fail (blames_here rfl)

/-- A token that is eaten is passed. -/
theorem eat {f : Bool → Parse β}
    (htrue : (Cursor.past lexemes i).token? = some token → Lays lexemes (f true) (i + 1) Q)
    (hfalse : Lays lexemes (f false) i Q) : Lays lexemes (Parse.eat token >>= f) i Q := by
  unfold Parse.eat
  rw [bind_assoc]
  refine check (fun ht => ?_) ?_
  · simp only [if_true, bind_assoc, pure_bind]
    exact advance ht (htrue ht)
  · simp only [Bool.false_eq_true, if_false, pure_bind]
    exact hfalse

/-- A token that is expected is passed, or blamed. -/
theorem expect {f : Span → Parse β}
    (hf : (Cursor.past lexemes i).token? = some token →
      Lays lexemes (f (Cursor.past lexemes i).span) (i + 1) Q) :
    Lays lexemes (Parse.expect token >>= f) i Q := by
  unfold Parse.expect
  rw [bind_assoc]
  refine here ?_
  rw [bind_assoc]
  refine eat (fun ht => ?_) ?_
  · simp only [if_true, pure_bind]
    exact hf ht
  · have hfail : Lays lexemes (Parse.unexpected : Parse Span) i fun _ _ => False := unexpected
    simp only [Bool.false_eq_true, if_false]
    exact hfail.bind fun _ _ _ h => h.elim

theorem name : Lays lexemes Parse.name i fun j name =>
    j = i + 1 ∧ (Cursor.past lexemes i).token? = some (.ident name) := by
  refine peek fun next hnext => ?_
  split
  · exact advance hnext (result ⟨rfl, hnext⟩)
  · exact unexpected

/-! ## Lists -/

/-- A loop keeps what each of its steps keeps. -/
theorem iterate {step : α → Parse (α × Bool)} {inv : Nat → α → Prop}
    (hstep : ∀ j a, inv j a → Lays lexemes (step a) j fun k r => inv k r.1) (bound : Nat) {a : α}
    (h : inv i a) : Lays lexemes (Parse.iterate step bound a) i inv := by
  induction bound generalizing i a with
  | zero => exact result h
  | succ bound ih =>
    refine (hstep i a h).bind fun j r _ hr => ?_
    obtain ⟨a, more⟩ := r
    cases more with
    | true => exact ih hr
    | false => exact result hr

variable {outlines : α → List Outline} {leaves : α → List Leaf} {item : Parse α}
  (hitem : ∀ j, Lays lexemes item j fun k a => Laid lexemes j k (outlines a) (leaves a))
include hitem

theorem commaStep {closer : Token} (j : Nat) (results : List α)
    (h : LaidRead lexemes outlines leaves i j results) :
    Lays lexemes (Parse.commaStep closer item results) j fun k r =>
      LaidRead lexemes outlines leaves i k r.1 := by
  refine check (fun _ => result h) ((hitem j).bind fun k a _ ha => ?_)
  exact eat (fun hcomma => result (h.cons (ha.skipLast hcomma rfl))) (result (h.cons ha))

/-- Items in brackets, laid over the tokens in front of the closing one. -/
theorem commaSeparated {closer : Token} (bound : Nat) :
    Lays lexemes (Parse.commaSeparated bound closer item) i fun j results => ∃ k, j = k + 1 ∧
      (Cursor.past lexemes k).token? = some closer ∧
      Laid lexemes i k (results.flatMap outlines) (results.flatMap leaves) := by
  have hstart : LaidRead lexemes outlines leaves i i [] := Laid.nil i
  refine (iterate (commaStep hitem) bound hstart).bind fun k results _ h => ?_
  exact expect fun hcloser => result ⟨k, rfl, hcloser, h⟩

theorem moreStep (j : Nat) (results : List α) (h : LaidRead lexemes outlines leaves i j results) :
    Lays lexemes (Parse.moreStep item results) j fun k r =>
      LaidRead lexemes outlines leaves i k r.1 := by
  refine eat (fun hcomma => (hitem (j + 1)).bind fun k a _ ha => result ?_) (result h)
  exact h.cons (.skip hcomma rfl ha)

theorem commaRest (bound : Nat) {j : Nat} {first : α}
    (hfirst : Laid lexemes i j (outlines first) (leaves first)) :
    Lays lexemes (Parse.commaRest bound item first) j fun k results =>
      Laid lexemes i k (results.flatMap outlines) (results.flatMap leaves) := by
  refine (iterate (moreStep hitem) bound (.single hfirst)).bind fun k results _ h => ?_
  exact result h

end Lays

end Parse

end MeteredScript
