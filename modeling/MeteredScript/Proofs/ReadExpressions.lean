import MeteredScript.Proofs.ExpressionTokens
import MeteredScript.Proofs.Reading

namespace MeteredScript

/-! # Reading written expressions

Where the tokens of an expression stand, written for the level that the place demands, the reader of
that level reads them and gives the expression, up to source ranges, as long as the token behind them
does not go on with it.

The readers of one level call each other along the spine of an expression, its left operands and the
objects of its links, and call the reader of all expressions only inside brackets or behind a token of
their own. So the proof is an induction on the bound of the reader, and inside it one on spines.
-/

namespace Parse

/-- The reader reads every expression written for the level `min`, and gives it up to source ranges. -/
def ReadsLevel (p : Parse Expr) (bound min : Nat) : Prop :=
  ∀ e : Expr, e.isWritable = true →
    Reads p bound (e.tokensAt min) (Stops min) fun x => x.eraseSpans = e.eraseSpans

/-- What stops an expression of a lower level stops the reader too. -/
theorem Reads.lower {α : Type} {p : Parse α} {bound min min' : Nat} {front : List Token} {P : α → Prop}
    (h : Reads p bound front (Stops min) P) (hle : min' ≤ min) : Reads p bound front (Stops min') P :=
  h.mono (Nat.le_refl bound) fun _ hnext => hnext.mono hle

theorem first_of_mem {es : List Expr} (hes : allWritable es = true) {closer : Token}
    (hcloser : closer.startsExpression = false) {e : Expr} (he : e ∈ es) :
    ∃ token tokens, e.tokensAt 1 = token :: tokens ∧ token ≠ closer ∧ token ≠ .punctuation .comma := by
  obtain ⟨token, tokens, htokens, hstart⟩ := Expr.exists_first_token (allWritable_iff.mp hes e he) 1
  refine ⟨token, tokens, htokens, ?_, ?_⟩
  · rintro rfl
    exact Bool.false_ne_true (hcloser.symm.trans hstart)
  · rintro rfl
    cases hstart

/-! ## Lists and brackets -/

/-- Elements are read as lists are, apart from commas in front of an element, which are never written.
-/
theorem listStep_arrayStep (sub : Parse Expr) :
    Reads.ListStep (arrayStep sub) sub (.punctuation .closeBracket) where
  close bound read := Reads.check_ahead (Reads.pure ⟨rfl, rfl⟩)
  item hcloser hcomma hread := by
    unfold arrayStep
    refine Reads.check_cons ?_
    rw [beq_false_of_ne hcloser]
    exact Reads.eat_other hcomma hread

section

variable {n N bound : Nat} {sub : Parse Expr} {front : List Token} {P : Expr → Prop}

/-- Where no comma follows, what stands between commas stands for itself. -/
theorem reads_sequence_of_sub (h : Reads sub bound front (Stops 1) P) :
    Reads (sequence N sub) bound front (Stops 0) P := by
  unfold sequence
  refine Reads.here fun start => ?_
  refine Reads.bind_nil (h.lower (Nat.zero_le 1)) fun x hx => ?_
  exact Reads.check_nil (fun _ hnext => hnext.ne rfl (Nat.le_refl 0)) (Reads.pure hx)

variable (hsub : ReadsLevel sub n 1)
include hsub

theorem reads_of_mem {es : List Expr} (hes : allWritable es = true) {e : Expr} (he : e ∈ es) :
    Reads sub n (e.tokensAt 1) (Stops 1) fun x => x.eraseSpans = e.eraseSpans :=
  hsub e (allWritable_iff.mp hes e he)

theorem reads_commaRest (hN : n ≤ N) {parts : List Expr} (hparts : allWritable parts = true)
    (first : Expr) :
    Reads (commaRest N sub first) n ((tokensAll parts).flatMap (.punctuation .comma :: ·)) (Stops 0)
      fun r => r.map Expr.eraseSpans = first.eraseSpans :: parts.map Expr.eraseSpans := by
  have hstop : ∀ next, Stops 0 next → Stops 1 next ∧ next ≠ some (.punctuation .comma) :=
    fun next h => ⟨h.mono (Nat.le_succ _), h.ne rfl (Nat.le_refl _)⟩
  rw [tokensAll_eq_map, List.flatMap_map]
  exact Reads.commaRest first N parts (fun e he => reads_of_mem hsub hparts he)
    (stops_some rfl Nat.one_pos) hstop hN

/-- Two or more expressions with commas between them. -/
theorem reads_parts (hN : n ≤ N) {first second : Expr} {rest : List Expr}
    (h : allWritable (first :: second :: rest) = true) (span : Span) :
    Reads (sequence N sub) n (Expr.sequence (first :: second :: rest) span).tokens (Stops 0)
      fun x => x.eraseSpans = (Expr.sequence (first :: second :: rest) span).eraseSpans := by
  rw [allWritable, Bool.and_eq_true] at h
  rw [Expr.tokens, tokensAll, separate]
  unfold sequence
  refine Reads.here fun start => ?_
  have hcomma : Stops 1 (some (.punctuation .comma)) := stops_some rfl Nat.one_pos
  refine Reads.bind (hsub first h.1) (fun x hx => ?_) (Nat.le_add_right _ _) fun _ _ => hcomma
  -- the comma behind the first expression is seen here and passed with the second one
  refine Reads.check_cons ?_
  rw [beq_self_eq_true, if_pos rfl]
  refine Reads.bind_nil (reads_commaRest hsub hN h.2 x) fun read hread => ?_
  refine Reads.spanFrom fun span' => Reads.pure ?_
  rw [hx, ← List.map_cons] at hread
  simp only [Expr.eraseSpans, Expr.mapSpans, mapSpansAll_eq_map] at hread ⊢
  rw [hread]
  rfl

/-- Sequences, and everything else that may stand where one may. -/
theorem reads_sequence (hN : n ≤ N) : ReadsLevel (sequence N sub) n 0 := by
  intro e he
  rw [Expr.tokensAt_zero]
  rcases Nat.eq_zero_or_pos e.level with hlevel | hlevel
  · obtain ⟨parts, span, rfl⟩ := Expr.sequence_of_level hlevel
    rw [Expr.isWritable, Bool.and_eq_true] at he
    match parts, he with
    | first :: second :: rest, ⟨_, hparts⟩ => exact reads_parts hsub hN hparts span
  · rw [← Expr.tokensAt_of_le hlevel]
    exact reads_sequence_of_sub (hsub e he)

/-- An expression in parentheses is read whatever stands behind it. -/
theorem reads_parenthesized (hN : n ≤ N) {e : Expr} (he : e.isWritable = true) :
    Reads (parenthesized N sub) (n + 1) (inParens e.tokens) anything
      fun x => x.eraseSpans = e.eraseSpans := by
  refine Reads.expect_cons fun _ => ?_
  have hread := reads_sequence hsub hN e he
  rw [Expr.tokensAt_zero] at hread
  exact Reads.bind_expect hread (stops_of_none rfl) fun x hx => Reads.pure hx

theorem reads_array (hN : n ≤ N) {elements : List Expr} (hes : allWritable elements = true)
    (span : Span) :
    Reads (array N sub) (n + 1) (Expr.array elements span).tokens anything
      fun x => x.eraseSpans = (Expr.array elements span).eraseSpans := by
  rw [Expr.tokens, tokensAll_eq_map]
  refine Reads.expect_cons fun _ => ?_
  have hread := Reads.separated (listStep_arrayStep sub) elements
    (fun e he => reads_of_mem hsub hes he) (fun e he => first_of_mem hes rfl he)
    (stops_some rfl Nat.one_pos) (stops_of_none rfl) (by decide) N hN []
  refine Reads.bind_expect hread rfl fun read hread => Reads.spanFrom fun span' => Reads.pure ?_
  have herase := Reads.map_reverse_of_read hread
  simp only [Expr.eraseSpans, Expr.mapSpans, mapSpansAll_eq_map] at herase ⊢
  rw [herase]
  rfl

/-- Entries of objects, whose names are written as texts. -/
theorem reads_entry (entry : String × Expr) (he : entry.2.isWritable = true) :
    Reads (Parse.entry sub) (n + 1 + 1) (entryTokens entry) (Stops 1)
      fun r => Prod.map id Expr.eraseSpans r = Prod.map id Expr.eraseSpans entry := by
  unfold Parse.entry
  refine Reads.peek_cons ?_
  refine Reads.advance_cons (Reads.expect_cons fun _ => ?_)
  refine Reads.bind_nil (hsub entry.2 he) fun x hx => Reads.pure ?_
  exact Prod.ext rfl hx

theorem reads_object (hN : n ≤ N) {entries : List (String × Expr)} (hes : entriesWritable entries = true)
    (span : Span) :
    Reads (object N sub) (n + 1) (Expr.object entries span).tokens anything
      fun x => x.eraseSpans = (Expr.object entries span).eraseSpans := by
  have hitem : ∀ entry ∈ entries, Reads (Parse.entry sub) n (entryTokens entry) (Stops 1)
      fun r => Prod.map id Expr.eraseSpans r = Prod.map id Expr.eraseSpans entry := by
    intro entry hentry
    exact (reads_entry hsub entry (entriesWritable_iff.mp hes entry hentry)).of_le (by omega)
  -- Every entry starts with its key, so neither the end nor a comma is mistaken for one.
  have hfirst : ∀ entry ∈ entries, ∃ token tokens, entryTokens entry = token :: tokens ∧
      token ≠ .punctuation .closeBrace ∧ token ≠ .punctuation .comma :=
    fun _ _ => ⟨_, _, rfl, by rintro ⟨⟩, by rintro ⟨⟩⟩
  have hread := Reads.commaSeparated entries hitem hfirst (stops_some rfl Nat.one_pos)
    (stops_of_none rfl) (by decide) N hN
  rw [Expr.tokens, tokensEntries_eq_map]
  refine Reads.expect_cons fun _ => Reads.bind_nil hread fun read herase => ?_
  refine Reads.spanFrom fun span' => Reads.pure ?_
  simp only [Expr.eraseSpans, Expr.mapSpans, mapSpansEntries_eq_map] at herase ⊢
  rw [herase]
  rfl

/-- Whatever is in parentheses is a smallest expression. -/
theorem reads_primary_inParens (hN : n ≤ N) {e : Expr} (he : e.isWritable = true) :
    Reads (primary N sub) (n + 1) (inParens e.tokens) anything fun x => x.eraseSpans = e.eraseSpans :=
  Reads.here fun _ => Reads.peek_cons (reads_parenthesized hsub hN he)

omit hsub in
theorem reads_literal (value : Literal) (span : Span) :
    Reads (primary N sub) (n + 1) (Expr.literal value span).tokens anything
      fun x => x.eraseSpans = (Expr.literal value span).eraseSpans := by
  rw [Expr.tokens]
  refine Reads.here fun start => Reads.peek_cons ?_
  have hread : Reads (do
      advance
      return Expr.literal value start) (n + 1) [value.token] anything
      fun x => x.eraseSpans = (Expr.literal value span).eraseSpans :=
    Reads.advance_cons (Reads.pure rfl)
  rcases value with value | value | (_ | _) | _ | _ <;> exact hread

/-- Whatever is written at the innermost level is one token or in brackets. -/
theorem reads_primary (hN : n ≤ N) {e : Expr} (he : e.isWritable = true) :
    Reads (primary N sub) (n + 1) (e.tokensAt 16) anything fun x => x.eraseSpans = e.eraseSpans := by
  rcases Nat.lt_or_ge e.level 16 with hlevel | hlevel
  · rw [Expr.tokensAt_of_lt hlevel]
    exact reads_primary_inParens hsub hN he
  · rw [Expr.tokensAt_of_le hlevel]
    rcases Expr.cases_of_le_level hlevel with
      ⟨value, span, rfl⟩ | ⟨name, span, rfl⟩ | ⟨elements, span, rfl⟩ | ⟨entries, span, rfl⟩
    · exact reads_literal value span
    · rw [Expr.tokens, Place.tokens]
      exact Reads.here fun _ => Reads.peek_cons (Reads.advance_cons (Reads.pure rfl))
    · have hread := reads_array hsub hN he span
      rw [Expr.tokens] at hread ⊢
      exact Reads.here fun _ => Reads.peek_cons hread
    · have hread := reads_object hsub hN he span
      rw [Expr.tokens] at hread ⊢
      exact Reads.here fun _ => Reads.peek_cons hread

end

/-! ## Chains of properties, indices and calls -/

/-- `Link object e tokens` says that `e` is `object` with one link behind it, written with `tokens`. -/
inductive Link (object : Expr) : Expr → List Token → Prop
  | member (name : String) (span : Span) :
      Link object (.place (.member object name span)) [.punctuation .point, nameToken name]
  | index (key : Expr) (span : Span) :
      Link object (.place (.index object key span))
        (.punctuation .openBracket :: (key.tokens ++ [.punctuation .closeBracket]))
  | call (arguments : List Expr) (span : Span) :
      Link object (.call object arguments span) (inParens (separate (tokensAll arguments)))

namespace Link

variable {object e : Expr} {tokens : List Token}

theorem level_eq (h : Link object e tokens) : e.level = 15 := by
  cases h <;> rfl

/-- A link is written behind its object, at the level of chains. -/
theorem tokens_eq (h : Link object e tokens) : e.tokensAt 15 = object.tokensAt 15 ++ tokens := by
  rw [Expr.tokensAt_of_le (Nat.le_of_eq h.level_eq.symm)]
  cases h with
  | member name span | index key span => rw [Expr.tokens, Place.tokens, Expr.tokensAt]
  | call arguments span => rw [Expr.tokens, Expr.tokensAt]

theorem tokens_pos (h : Link object e tokens) : 0 < tokens.length := by
  cases h <;> exact Nat.succ_pos _

/-- The object is smaller, which the induction along the spine goes by. -/
theorem sizeOf_lt (h : Link object e tokens) : sizeOf object < sizeOf e := by
  cases h <;> simp <;> omega

theorem isWritable (h : Link object e tokens) (he : e.isWritable = true) : object.isWritable = true := by
  cases h with
  | member name span => exact he
  | index key span =>
    rw [Expr.isWritable, Place.isWritable, Bool.and_eq_true] at he
    exact he.1
  | call arguments span =>
    rw [Expr.isWritable, Bool.and_eq_true] at he
    exact he.1

/-- Whatever is of the level of chains is a link. -/
theorem exists_of_level (h : e.level = 15) : ∃ object tokens, Link object e tokens := by
  cases e with
  | place p =>
    cases p with
    | ident name span => simp [Expr.level, Place.level] at h
    | member object name span => exact ⟨_, _, .member name span⟩
    | index object key span => exact ⟨_, _, .index key span⟩
  | call callee arguments span => exact ⟨_, _, .call arguments span⟩
  | binary op left right span | logical op left right span =>
    exact absurd (Nat.le_trans (by decide) (Nat.le_of_eq h.symm)) (InfixOp.not_le_level _)
  | _ => simp [Expr.level] at h

end Link

/-- Words that mean something to the grammar are names behind a dot. -/
theorem memberName?_nameToken (name : String) : memberName? (nameToken name) = some name := by
  unfold nameToken
  split
  · rename_i word hword
    have htext := List.find?_some hword
    exact congrArg some (eq_of_beq htext)
  · rfl

section

variable {x y object key : Expr} {span span' : Span}

theorem eraseSpans_member (h : x.eraseSpans = object.eraseSpans) (name : String) :
    (Expr.place (.member x name span)).eraseSpans =
      (Expr.place (.member object name span')).eraseSpans := by
  simp only [Expr.eraseSpans, Expr.mapSpans, Place.mapSpans] at h ⊢
  rw [h]
  rfl

theorem eraseSpans_index (h : x.eraseSpans = object.eraseSpans) (hkey : y.eraseSpans = key.eraseSpans) :
    (Expr.place (.index x y span)).eraseSpans = (Expr.place (.index object key span')).eraseSpans := by
  simp only [Expr.eraseSpans, Expr.mapSpans, Place.mapSpans] at h hkey ⊢
  rw [h, hkey]
  rfl

theorem eraseSpans_call {arguments arguments' : List Expr} (h : x.eraseSpans = object.eraseSpans)
    (hargs : arguments'.map Expr.eraseSpans = arguments.map Expr.eraseSpans) :
    (Expr.call x arguments' span).eraseSpans = (Expr.call object arguments span').eraseSpans := by
  simp only [Expr.eraseSpans, Expr.mapSpans, mapSpansAll_eq_map] at h hargs ⊢
  rw [h, hargs]
  rfl

end

section

variable {n N bound : Nat} {sub : Parse Expr}

/-- A token that goes on with no chain ends it. -/
theorem reads_link_stop (bound : Nat) (start : Span) (x : Expr) :
    Reads (link N sub start x) bound [] (Stops 15) fun r => r.2 = false ∧ r.1 = x := by
  unfold link
  refine Reads.peek_nil fun next hnext => ?_
  -- each of the three tokens that begin a link would go on with the chain
  split
  · exact absurd rfl (hnext.ne rfl (Nat.le_refl _))
  · exact absurd rfl (hnext.ne rfl (Nat.le_refl _))
  · exact absurd rfl (hnext.ne rfl (Nat.le_refl _))
  · exact Reads.pure ⟨rfl, rfl⟩

theorem reads_chain_of_primary {front : List Token} {P : Expr → Prop}
    (h : Reads (primary N sub) bound front anything P) :
    Reads (chain N sub) bound front (Stops 15) P := by
  unfold chain
  refine Reads.here fun start => ?_
  exact Reads.bind_nil h.of_anything fun x hx =>
    Reads.iterate_stop N (reads_link_stop bound start x) hx

variable (hsub : ReadsLevel sub n 1)
include hsub

theorem reads_arguments (hN : n ≤ N) {arguments : List Expr} (hes : allWritable arguments = true) :
    Reads (commaSeparated N (.punctuation .closeParen) sub) n
      (separate (tokensAll arguments) ++ [.punctuation .closeParen]) anything
      fun r => r.map Expr.eraseSpans = arguments.map Expr.eraseSpans := by
  rw [tokensAll_eq_map]
  have hcloser : Stops 1 (some (.punctuation .closeParen)) := stops_of_none rfl
  exact Reads.commaSeparated arguments (fun e he => reads_of_mem hsub hes he)
    (fun e he => first_of_mem hes rfl he) (stops_some rfl Nat.one_pos) hcloser (by decide) N hN

/-- One link behind what was read of its object. -/
theorem reads_link (hN : n ≤ N) {object e : Expr} {tokens : List Token} (h : Link object e tokens)
    (he : e.isWritable = true) (start : Span) {x : Expr} (hx : x.eraseSpans = object.eraseSpans) :
    Reads (link N sub start x) (n + 1) tokens anything
      fun r => r.2 = true ∧ r.1.eraseSpans = e.eraseSpans := by
  unfold link
  cases h with
  | member name span =>
    -- two tokens are passed here, so the bound is stated one higher than needed
    have hread : Reads (link N sub start x) (n + 1 + 1) [.punctuation .point, nameToken name] anything
        fun r => r.2 = true ∧ r.1.eraseSpans = (Expr.place (.member object name span)).eraseSpans := by
      refine Reads.peek_cons (Reads.advance_cons (Reads.peek_cons ?_))
      rw [Option.bind_some, memberName?_nameToken]
      refine Reads.advance_cons (Reads.spanFrom fun span' => Reads.pure ⟨rfl, ?_⟩)
      exact eraseSpans_member hx name
    exact hread.of_le (Nat.le_succ _)
  | index key span =>
    rw [Expr.isWritable, Place.isWritable, Bool.and_eq_true] at he
    have hkey := reads_sequence hsub hN key he.2
    rw [Expr.tokensAt_zero] at hkey
    refine Reads.peek_cons (Reads.advance_cons ?_)
    refine Reads.bind_expect hkey (stops_of_none rfl) fun y hy => ?_
    exact Reads.spanFrom fun span' => Reads.pure ⟨rfl, eraseSpans_index hx hy⟩
  | call arguments span =>
    rw [Expr.isWritable, Bool.and_eq_true] at he
    have harguments := reads_arguments hsub hN he.2
    refine Reads.peek_cons (Reads.advance_cons (Reads.bind_nil harguments fun read hread => ?_))
    exact Reads.spanFrom fun span' => Reads.pure ⟨rfl, eraseSpans_call hx hread⟩

/-- A chain in front of something that its links go on with. The induction is along the objects of the
links; what is left behind the chain is behind its last link too. -/
theorem reads_links (hN : n + 1 ≤ N) (e : Expr) (he : e.isWritable = true) (start : Span) {bound m : Nat}
    {back : List Token} {stop : Option Token → Prop} {Q : Expr → Prop} (hbound : bound ≤ n + 1)
    (hm : bound ≤ m)
    (hrest : ∀ x m', x.eraseSpans = e.eraseSpans → bound - (e.tokensAt 15).length ≤ m' →
      Reads (iterate (link N sub start) m' x) (bound - (e.tokensAt 15).length) back stop Q) :
    Reads (primary N sub >>= iterate (link N sub start) m) bound (e.tokensAt 15 ++ back) stop Q := by
  by_cases hlevel : e.level = 15
  · -- the chain of the object is in front, and goes on with the last link
    obtain ⟨object, tokens, hlink⟩ := Link.exists_of_level hlevel
    have hpos := hlink.tokens_pos
    have hbound' : bound - (object.tokensAt 15).length ≤ n + 1 := by omega
    have hlength := congrArg List.length hlink.tokens_eq
    rw [List.length_append] at hlength
    rw [hlink.tokens_eq, List.append_assoc]
    refine reads_links hN object (hlink.isWritable he) start hbound hm fun x m' hx hm' => ?_
    cases m' with
    | zero =>
      -- the steps have run out only where no token is left for the link
      refine Reads.of_bound_lt ?_
      rw [List.length_append]
      omega
    | succ m' =>
      have hread := (reads_link hsub (Nat.le_of_succ_le hN) hlink he start hx).of_le hbound'
      exact Reads.iterate_more hread (fun y hy => hrest y m' hy (by omega)) (by omega)
        fun _ _ => trivial
  · -- without links the chain is a smallest expression, in parentheses if need be
    have htokens : e.tokensAt 15 = e.tokensAt 16 := Expr.tokensAt_congr (by omega)
    rw [htokens] at hrest ⊢
    have hread := (reads_primary hsub (Nat.le_of_succ_le hN) he).of_le hbound
    exact Reads.bind hread (fun x hx => hrest x m hx (by omega)) (by omega) fun _ _ => trivial
termination_by sizeOf e
decreasing_by exact hlink.sizeOf_lt

/-- Chains: an induction along the spine, down to what is not a link. -/
theorem reads_chain (hN : n + 1 ≤ N) : ReadsLevel (chain N sub) (n + 1) 15 := by
  intro e he
  unfold chain
  refine Reads.here fun start => ?_
  rw [← List.append_nil (e.tokensAt 15)]
  refine reads_links hsub hN e he start (Nat.le_refl _) hN fun x m' hx _ => ?_
  exact Reads.iterate_stop m' (reads_link_stop _ start x) hx

end

/-! ## Signs behind and in front of an operand -/

theorem exists_of_eraseSpans_place {x : Expr} {p : Place}
    (h : x.eraseSpans = (Expr.place p).eraseSpans) :
    ∃ p', x = .place p' ∧ p'.eraseSpans = p.eraseSpans := by
  cases x with
  | place p' => exact ⟨p', rfl, Expr.place.inj h⟩
  | _ => cases h

/-- What spells steps in front of a place is such steps. -/
theorem exists_of_eraseSpans_updateBefore {x : Expr} {op : UpdateOp} {span : Span}
    {inner : List (UpdateOp × Span)} {target : Place}
    (h : x.eraseSpans = (Expr.updateBefore op span inner target).eraseSpans) :
    ∃ span' inner' target', x = .updateBefore op span' inner' target' ∧
      inner'.map (Prod.map id noSpan) = inner.map (Prod.map id noSpan) ∧
      target'.eraseSpans = target.eraseSpans := by
  cases x with
  | updateBefore op' span' inner' target' =>
    obtain ⟨rfl, _, hinner, htarget⟩ := Expr.updateBefore.inj h
    exact ⟨span', inner', target', rfl, hinner, htarget⟩
  | _ => cases h

/-- `Signed sign operand e` says that `e` is `operand` with one sign in front. -/
inductive Signed : PrefixSign → Expr → Expr → Prop
  | unary (op : UnaryOp) (operand : Expr) (span : Span) :
      Signed (.unary op) operand (.unary op operand span)
  | update (op : UpdateOp) (target : Place) (span : Span) :
      Signed (.update op) (.place target) (.updateBefore op span [] target)
  | updateAgain (op op' : UpdateOp) (inner : List (UpdateOp × Span)) (target : Place)
      (span span' : Span) :
      Signed (.update op) (.updateBefore op' span' inner target)
        (.updateBefore op span ((op', span') :: inner) target)

namespace Signed

variable {sign : PrefixSign} {operand e : Expr}

theorem level_eq (h : Signed sign operand e) : e.level = 13 := by
  cases h <;> rfl

theorem isWritable (h : Signed sign operand e) (he : e.isWritable = true) :
    operand.isWritable = true := by
  cases h <;> exact he

/-- A sign is written in front of its operand, at the level of signs. -/
theorem tokens_eq (h : Signed sign operand e) :
    ∃ token, PrefixSign.ofToken? token = some sign ∧
      e.tokensAt 13 = token :: operand.tokensAt 13 := by
  rw [Expr.tokensAt_of_le (Nat.le_of_eq h.level_eq.symm)]
  cases h with
  | unary op operand span =>
    refine ⟨op.token, ?_, by rw [Expr.tokens, Expr.tokensAt]⟩
    cases op <;> rfl
  | update op target span =>
    have hlevel : 13 ≤ (Expr.place target).level := Nat.le_trans (by decide) target.level_ge
    refine ⟨.sign (.update op), rfl, ?_⟩
    rw [Expr.tokensAt_of_le hlevel, Expr.tokens, Expr.tokens]
    rfl
  | updateAgain op op' inner target span span' =>
    have hlevel : 13 ≤ (Expr.updateBefore op' span' inner target).level := Nat.le_refl 13
    refine ⟨.sign (.update op), rfl, ?_⟩
    rw [Expr.tokensAt_of_le hlevel, Expr.tokens, Expr.tokens]
    rfl

/-- Whatever is of the level of signs has one in front. -/
theorem exists_of_level (h : e.level = 13) : ∃ sign operand, Signed sign operand e := by
  cases e with
  | unary op operand span => exact ⟨_, _, .unary op operand span⟩
  | updateBefore op span inner target =>
    rcases inner with _ | ⟨⟨op', span'⟩, inner⟩
    · exact ⟨_, _, .update op target span⟩
    · exact ⟨_, _, .updateAgain op op' inner target span span'⟩
  | place p => cases p <;> simp [Expr.level, Place.level] at h
  | binary op left right span | logical op left right span =>
    exact absurd (Nat.le_of_eq h.symm) (InfixOp.not_le_level _)
  | _ => simp [Expr.level] at h

end Signed

/-- Putting a sign in front of what was read of its operand. -/
theorem reads_applySign {sign : PrefixSign} {operand e x : Expr} (h : Signed sign operand e)
    (hx : x.eraseSpans = operand.eraseSpans) (start : Span) (bound : Nat)
    (stop : Option Token → Prop) :
    Reads (applySign x (sign, start)) bound [] stop fun y => y.eraseSpans = e.eraseSpans := by
  refine Reads.spanFrom fun span' => ?_
  cases h with
  | unary op operand span =>
    refine Reads.pure ?_
    simp only [Expr.eraseSpans, Expr.mapSpans] at hx ⊢
    rw [hx]
    rfl
  | update op target span =>
    -- What was read is a place again, as it is one up to its ranges.
    obtain ⟨target', rfl, htarget⟩ := exists_of_eraseSpans_place hx
    refine Reads.pure ?_
    simp only [Expr.eraseSpans, Place.eraseSpans, Expr.mapSpans] at htarget ⊢
    rw [htarget]
    rfl
  | updateAgain op op' inner target span span₁ =>
    obtain ⟨span₂, inner', target', rfl, hinner, htarget⟩ := exists_of_eraseSpans_updateBefore hx
    refine Reads.pure ?_
    simp only [Expr.eraseSpans, Place.eraseSpans, Expr.mapSpans, List.map_cons] at htarget ⊢
    rw [htarget, hinner]
    rfl

/-- No token is a sign and the beginning of an operand as well. -/
theorem ofToken?_of_startsPrimary {token : Token} (h : token.startsPrimary = true) :
    PrefixSign.ofToken? token = none := by
  unfold PrefixSign.ofToken?
  split
  any_goals cases h
  rfl

section

variable {n N bound m : Nat} {sub : Parse Expr} {front : List Token} {P : Expr → Prop}

theorem reads_postfixed_of_chain (h : Reads (chain N sub) bound front (Stops 15) P) :
    Reads (postfixed N sub) bound front (Stops 14) P := by
  unfold postfixed
  refine Reads.here fun start => ?_
  refine Reads.bind_nil (h.lower (Nat.le_succ 14)) fun x hx => Reads.peek_nil fun next hnext => ?_
  split
  · exact absurd rfl (hnext.ne rfl (Nat.le_refl _))
  · exact Reads.pure hx

theorem reads_signRule_of_postfixed {inside : Parse Expr} (hstarts : Starts true front)
    (h : Reads (postfixed N sub) bound front (Stops 14) P) :
    Reads (signRule N sub inside) bound front (Stops 13) P := by
  obtain ⟨token, rest, rfl, _, hprimary⟩ := hstarts
  refine Reads.peek_cons ?_
  rw [Option.bind_some, ofToken?_of_startsPrimary (hprimary rfl)]
  exact h.lower (Nat.le_succ 13)

theorem reads_unary_of_postfixed (hstarts : Starts true front)
    (h : Reads (postfixed N sub) bound front (Stops 14) P) :
    Reads (unary N sub) bound front (Stops 13) P :=
  reads_signRule_of_postfixed hstarts h

variable (hsub : ReadsLevel sub n 1)
include hsub

/-- Steps behind a place: what is read in front of the sign is a place again. -/
theorem reads_postfixed (hN : n + 1 ≤ N) : ReadsLevel (postfixed N sub) (n + 1) 14 := by
  intro e he
  -- Only a step behind a place is of this level; any other tree is a chain.
  by_cases hlevel : e.level = 14
  · obtain ⟨op, target, span, rfl⟩ := Expr.updateAfter_of_level hlevel
    rw [Expr.tokensAt_of_le (Nat.le_of_eq hlevel.symm), Expr.tokens]
    have hread := reads_chain hsub hN (.place target) he
    rw [Expr.tokensAt_of_le target.level_ge, Expr.tokens] at hread
    unfold postfixed
    refine Reads.here fun start => ?_
    refine Reads.bind hread (fun x hx => ?_) (Nat.le_add_right _ _)
      fun _ _ => stops_some rfl (Nat.lt_succ_self 14)
    obtain ⟨target', rfl, htarget⟩ := exists_of_eraseSpans_place hx
    refine Reads.peek_cons (Reads.advance_cons (Reads.spanFrom fun span' => Reads.pure ?_))
    simp only [Expr.eraseSpans, Place.eraseSpans, Expr.mapSpans] at htarget ⊢
    rw [htarget]
    rfl
  · have htokens : e.tokensAt 14 = e.tokensAt 15 := Expr.tokensAt_congr (by omega)
    rw [htokens]
    exact reads_postfixed_of_chain (reads_chain hsub hN e he)

/-- Signs in front of an operand. The induction is on the number of signs that may follow. -/
theorem reads_signed (hN : n + 1 ≤ N) (level : Nat) {signs bound : Nat} (hbound : bound ≤ n + 1)
    (hsigns : bound ≤ signs) : ReadsLevel (signed N sub level signs) bound 13 := by
  induction signs generalizing level bound with
  | zero =>
    intro e he
    obtain ⟨token, rest, htokens, _⟩ := Expr.exists_first_token he 13
    rw [htokens]
    exact Reads.of_bound_lt (Nat.lt_of_le_of_lt hsigns (Nat.succ_pos _))
  | succ signs ih =>
    intro e he
    simp only [signed, deepen_eq]
    -- A tree of the level of signs starts with one; any other tree is written as at the next level.
    by_cases hlevel : e.level = 13
    · obtain ⟨sign, operand, hsigned⟩ := Signed.exists_of_level hlevel
      obtain ⟨token, htoken, htokens⟩ := hsigned.tokens_eq
      rw [htokens]
      cases bound with
      | zero => exact Reads.of_bound_lt (Nat.succ_pos _)
      | succ bound =>
        refine Reads.peek_cons ?_
        rw [Option.bind_some, htoken]
        refine Reads.here fun start => Reads.advance_cons ?_
        have hoperand := ih (level + 1) (by omega) (Nat.le_of_succ_le_succ hsigns) operand
          (hsigned.isWritable he)
        exact Reads.bind_nil hoperand fun x hx => reads_applySign hsigned hx start _ _
    · have htokens : e.tokensAt 13 = e.tokensAt 14 := Expr.tokensAt_congr (by omega)
      rw [htokens]
      exact reads_signRule_of_postfixed (Expr.starts_tokensAt he fun _ => Nat.le_refl 14)
        ((reads_postfixed hsub hN e he).of_le hbound)

/-- Signs in front of an operand. -/
theorem reads_unary (hN : n + 1 ≤ N) : ReadsLevel (unary N sub) (n + 1) 13 :=
  reads_signed hsub hN 0 (Nat.le_refl _) (Nat.succ_le_succ (Nat.le_of_succ_le hN))

end

/-! ## Infix operators -/

section

variable (op : InfixOp) (left right : Expr) (span : Span)

/-- An infix operator is written between its operands, each at the level it demands. -/
theorem tokens_join : (op.join left right span).tokens =
    left.tokensAt op.leftLevel ++ op.token :: right.tokensAt op.rightLevel := by
  cases op <;> rw [InfixOp.join, Expr.tokens, Expr.tokensAt, Expr.tokensAt]

theorem level_join : (op.join left right span).level = op.level := by
  cases op <;> rfl

theorem isWritable_join : (op.join left right span).isWritable =
    (left.isWritable && right.isWritable) := by
  cases op <;> rw [InfixOp.join, Expr.isWritable]

theorem sizeOf_lt_join :
    sizeOf left < sizeOf (op.join left right span) ∧
      sizeOf right < sizeOf (op.join left right span) := by
  cases op <;> simp [InfixOp.join] <;> omega

/-- An operator is read from the token that it is written as. -/
theorem ofToken?_token : InfixOp.ofToken? op.token = some op := by
  cases op <;> rfl

end

theorem level_lt_of_stops {min : Nat} {next : Option Token} (h : Stops min next) {op : InfixOp}
    (hop : next.bind InfixOp.ofToken? = some op) : op.level < min := by
  obtain ⟨token, rfl, htoken⟩ := Option.bind_eq_some_iff.mp hop
  unfold InfixOp.ofToken? at htoken
  split at htoken
  · cases htoken
    exact h _ _ rfl rfl
  · cases htoken
    exact h _ _ rfl rfl
  · cases htoken

section

variable {right : Nat → Parse Expr} {start : Span} {least : Nat}

/-- An operator that binds tight enough, with its right operand. -/
theorem reads_infixStep {op : InfixOp} {e left x : Expr} {bound : Nat}
    (hleast : least < op.level) (hx : x.eraseSpans = left.eraseSpans)
    (hright : ReadsLevel (right op.rightPrecedence) bound op.rightLevel) (he : e.isWritable = true)
    (span : Span) :
    Reads (infixStep right start least x) (bound + 1) (op.token :: e.tokensAt op.rightLevel)
      (Stops op.rightLevel)
      fun r => r.2 = true ∧ r.1.eraseSpans = (op.join left e span).eraseSpans := by
  have htight : ¬op.precedence < least := Nat.not_lt.mpr (Nat.le_of_lt_succ hleast)
  refine Reads.peek_cons ?_
  rw [Option.bind_some, ofToken?_token]
  dsimp only
  rw [if_neg htight]
  refine Reads.advance_cons (Reads.bind_nil (hright e he) fun y hy => ?_)
  refine Reads.spanFrom fun span' => Reads.pure ⟨rfl, ?_⟩
  rw [op.eraseSpans_join, op.eraseSpans_join, hx, hy]

/-- An operator that binds too loosely is left for those outside. -/
theorem reads_infixStep_stop (bound : Nat) (x : Expr) :
    Reads (infixStep right start least x) bound [] (Stops (least + 1))
      fun r => r.2 = false ∧ r.1 = x := by
  refine Reads.peek_nil fun next hnext => ?_
  split
  · rename_i op hop
    have hloose : op.precedence < least := Nat.lt_of_succ_lt_succ (level_lt_of_stops hnext hop)
    rw [if_pos hloose]
    exact Reads.pure ⟨rfl, rfl⟩
  · exact Reads.pure ⟨rfl, rfl⟩

end

section

variable {n N : Nat} {sub : Parse Expr}

theorem reads_infixed_of_unary {bound : Nat} {front : List Token} {P : Expr → Prop}
    (h : Reads (unary N sub) bound front (Stops 13) P) :
    Reads (infixed N sub) bound front (Stops 2) P := by
  simp only [infixed, climb, deepen_eq]
  refine Reads.here fun start => Reads.bind_nil (h.lower (by decide)) fun x hx => ?_
  exact Reads.iterate_stop N (reads_infixStep_stop bound x) hx

variable (hsub : ReadsLevel sub n 1)
include hsub

/-- A tree of infix operators in front of something that the loop goes on with. The induction is on
the tree: the loop reads the left operand and goes on with the operator and the right one. No operator
of the tree may take what is behind the tree for a part of its right operand. -/
theorem reads_tree (hN : n + 1 ≤ N) {right : Nat → Parse Expr} {start : Span} {least inside : Nat}
    (hright : ∀ op : InfixOp, ReadsLevel (right op.rightPrecedence) inside op.rightLevel) (e : Expr)
    (he : e.isWritable = true) {min : Nat} (hmin : least < min) (hpos : 2 ≤ min) (hmax : min ≤ 13)
    {α : Type} {f : Expr → Parse α} {bound m : Nat} {back : List Token} {stop : Option Token → Prop}
    {Q : α → Prop} (hbound : bound ≤ n + 1) (hinside : bound ≤ inside + 1) (hm : bound ≤ m)
    (hstop : ∀ next, stop next → Stops 13 (back.head?.or next) ∧
      ∀ op : InfixOp, min ≤ op.level → Stops op.rightLevel (back.head?.or next))
    (hrest : ∀ x m', x.eraseSpans = e.eraseSpans → bound - (e.tokensAt min).length ≤ m' →
      Reads (iterate (infixStep right start least) m' x >>= f) (bound - (e.tokensAt min).length) back
        stop Q) :
    Reads (unary N sub >>= fun x => iterate (infixStep right start least) m x >>= f) bound
      (e.tokensAt min ++ back) stop Q := by
  by_cases hlevel : min ≤ e.level ∧ e.level < 13
  · obtain ⟨op, left, operand, span, hjoin⟩ := Expr.join_of_level (by omega) hlevel.2
    have hsize : sizeOf left < sizeOf e := hjoin ▸ (sizeOf_lt_join op left operand span).1
    rw [hjoin] at hrest
    rw [hjoin, isWritable_join, Bool.and_eq_true] at he
    have hop : min ≤ op.level := by
      rw [← level_join op left operand span, ← hjoin]
      exact hlevel.1
    have hleft := op.level_le_leftLevel
    have htokens : (op.join left operand span).tokensAt min =
        left.tokensAt op.leftLevel ++ op.token :: operand.tokensAt op.rightLevel := by
      rw [← tokens_join op left operand span, ← hjoin, Expr.tokensAt_of_le hlevel.1]
    have hlength := congrArg List.length htokens
    rw [List.length_append, List.length_cons] at hlength
    rw [hjoin, htokens, List.append_assoc]
    -- the left operand ends at the operator, which none of its own operators takes
    have hstop' : ∀ next, stop next →
        Stops 13 (((op.token :: operand.tokensAt op.rightLevel) ++ back).head?.or next) ∧
          ∀ op' : InfixOp, op.leftLevel ≤ op'.level →
            Stops op'.rightLevel
              (((op.token :: operand.tokensAt op.rightLevel) ++ back).head?.or next) :=
      fun _ _ => ⟨stops_of_level (Nat.lt_of_not_le op.not_le_level),
        fun _ hle => stops_of_level (InfixOp.level_lt_rightLevel hle)⟩
    refine reads_tree hN hright left he.1 (by omega) (by omega) op.leftLevel_le hbound hinside hm hstop'
      fun x m' hx hm' => ?_
    cases m' with
    | zero =>
      -- the rounds have run out only where no token is left for the operator
      exact Reads.of_bound_lt (Nat.lt_of_le_of_lt hm' (Nat.succ_pos _))
    | succ m' =>
      -- one round of the loop for the operator and its right operand
      have hround : Reads (infixStep right start least x) (inside + 1)
          (op.token :: operand.tokensAt op.rightLevel) (Stops op.rightLevel)
          fun r => r.2 = true ∧ r.1.eraseSpans = (op.join left operand span).eraseSpans :=
        reads_infixStep (Nat.lt_of_lt_of_le hmin hop) hx (hright op) he.2 span
      refine Reads.iterate_more_bind
        (P := fun y => y.eraseSpans = (op.join left operand span).eraseSpans)
        (hround.of_le (by omega)) (fun y hy => hrest y m' hy (by omega)) ?_
        fun next hnext => (hstop next hnext).2 op hop
      rw [List.length_cons]
      omega
  · -- an operator of a lower level is in parentheses here, which make an operand of it
    have htokens : e.tokensAt min = e.tokensAt 13 := Expr.tokensAt_congr (by omega)
    rw [htokens] at hrest ⊢
    have hread := (reads_unary hsub hN e he).of_le hbound
    exact Reads.bind hread (fun x hx => hrest x m hx (by omega)) (by omega)
      fun next hnext => (hstop next hnext).1
termination_by sizeOf e
decreasing_by exact hsize

/-- Operators that bind at least as tight as `least`. The induction is on how many may stand inside of
each other. -/
theorem reads_climb (hN : n + 1 ≤ N) (level : Nat) {depth bound least : Nat} (hbound : bound ≤ n + 1)
    (hdepth : bound ≤ depth) (hpos : 1 ≤ least) (hmax : least ≤ 12) :
    ReadsLevel (climb N sub level depth least) bound (least + 1) := by
  induction depth generalizing level bound least with
  | zero =>
    intro e he
    obtain ⟨token, rest, htokens, _⟩ := Expr.exists_first_token he (least + 1)
    rw [htokens]
    exact Reads.of_bound_lt (Nat.lt_of_le_of_lt hdepth (Nat.succ_pos _))
  | succ depth ih =>
    intro e he
    -- The right operand is read one round deeper, behind at least one token.
    have hright : ∀ op : InfixOp, ReadsLevel (climb N sub (level + 1) depth op.rightPrecedence)
        (bound - 1) op.rightLevel := by
      intro op
      have hrange := op.two_le_level_le
      have hle := op.rightLevel_le
      have hge := op.level_le_rightLevel
      rw [op.rightLevel_eq] at hle hge ⊢
      exact ih (level + 1) (by omega) (by omega) (by omega) (by omega)
    simp only [climb, deepen_eq, climbRule]
    refine Reads.here fun start => ?_
    -- The first operand and all operators behind it, as one reading of the whole tree.
    have hread : Reads (unary N sub >>= fun x =>
          iterate (infixStep (climb N sub (level + 1) depth) start least) N x >>= pure) bound
        (e.tokensAt (least + 1) ++ []) (Stops (least + 1)) fun x => x.eraseSpans = e.eraseSpans := by
      refine reads_tree hsub hN hright e he (Nat.lt_succ_self least) (by omega) (by omega) hbound
        (by omega) (by omega) (fun next hnext => ⟨hnext.mono (by omega), fun op hop => ?_⟩)
        fun x m' hx _ => ?_
      · exact hnext.mono (Nat.le_trans hop op.level_le_rightLevel)
      · rw [bind_pure]
        exact Reads.iterate_stop m' (reads_infixStep_stop _ x) hx
    simpa only [bind_pure, List.append_nil] using hread

theorem reads_infixed (hN : n + 1 ≤ N) : ReadsLevel (infixed N sub) (n + 1) 2 :=
  reads_climb hsub hN 0 (Nat.le_refl _) (Nat.succ_le_succ (Nat.le_of_succ_le hN)) (Nat.le_refl 1)
    (by decide)

end

/-! ## Choices and assignments -/

/-- What ends an expression is no operator of assignment. -/
theorem assignOp?_of_stops {next : Option Token} (h : Stops 1 next) : next.bind assignOp? = none := by
  rcases next with _ | token
  · rfl
  · rw [Option.bind_some]
    unfold assignOp?
    split
    · exact absurd rfl (h.ne rfl (Nat.le_refl _))
    · rfl

section

variable {n N bound : Nat} {sub : Parse Expr} {front : List Token} {P : Expr → Prop}

theorem reads_conditional_of_infixed (h : Reads (infixed N sub) bound front (Stops 2) P) :
    Reads (conditional N sub) bound front
      (fun next => Stops 2 next ∧ next ≠ some (.sign .question)) P := by
  unfold conditional
  refine Reads.here fun start => ?_
  have hread := h.mono (Nat.le_refl bound)
    fun next (hnext : Stops 2 next ∧ next ≠ some (.sign .question)) => hnext.1
  exact Reads.bind_nil hread fun x hx => Reads.eat_nil (fun _ hnext => hnext.2) (Reads.pure hx)

theorem reads_assignmentRule_of_conditional (h : Reads (conditional N sub) bound front (Stops 1) P) :
    Reads (assignmentRule N sub) bound front (Stops 1) P := by
  unfold assignmentRule
  refine Reads.here fun start => Reads.bind_nil h fun x hx => Reads.peek_nil fun next hnext => ?_
  rw [assignOp?_of_stops hnext]
  exact Reads.pure hx

variable (hsub : ReadsLevel sub n 1)
include hsub

theorem reads_choice (hN : n + 1 ≤ N) {test consequent alternate : Expr} (htest : test.isWritable = true)
    (hconsequent : consequent.isWritable = true) (halternate : alternate.isWritable = true)
    (span : Span) :
    Reads (conditional N sub) (n + 1) (Expr.conditional test consequent alternate span).tokens (Stops 1)
      fun x => x.eraseSpans = (Expr.conditional test consequent alternate span).eraseSpans := by
  unfold conditional
  rw [Expr.tokens]
  refine Reads.here fun start => ?_
  refine Reads.bind (reads_infixed hsub hN test htest) (fun x hx => Reads.eat_same ?_)
    (Nat.le_add_right _ _) fun _ _ => stops_some rfl (Nat.lt_succ_self 1)
  refine Reads.bind_expect (hsub consequent hconsequent) (stops_of_none rfl) fun y hy => ?_
  refine Reads.bind_nil (hsub alternate halternate) fun z hz => ?_
  refine Reads.spanFrom fun span' => Reads.pure ?_
  simp only [Expr.eraseSpans, Expr.mapSpans] at hx hy hz ⊢
  rw [hx, hy, hz]
  rfl

/-- Everything but an assignment, where no assignment follows. -/
theorem reads_conditional (hN : n + 1 ≤ N) {e : Expr} (he : e.isWritable = true)
    (hassign : ∀ op target value span, e ≠ .assign op target value span) :
    Reads (conditional N sub) (n + 1) (e.tokensAt 1) (Stops 1) fun x => x.eraseSpans = e.eraseSpans := by
  by_cases hlevel : e.level = 1
  · rw [Expr.tokensAt_of_le (Nat.le_of_eq hlevel.symm)]
    rcases Expr.cases_of_level hlevel with
      ⟨op, target, value, span, rfl⟩ | ⟨test, consequent, alternate, span, rfl⟩
    · exact absurd rfl (hassign op target value span)
    · rw [Expr.isWritable, Bool.and_eq_true, Bool.and_eq_true] at he
      exact reads_choice hsub hN he.1.1 he.1.2 he.2 span
  · have htokens : e.tokensAt 1 = e.tokensAt 2 := Expr.tokensAt_congr (by omega)
    rw [htokens]
    exact (reads_conditional_of_infixed (reads_infixed hsub hN e he)).mono (Nat.le_refl _)
      fun _ hnext => hnext.not_question

/-- Assignments and choices, which are read from the right. -/
theorem reads_assignmentRule (hN : n + 1 ≤ N) : ReadsLevel (assignmentRule N sub) (n + 1) 1 := by
  intro e he
  -- an expression of a higher level is read by the rules below
  by_cases hassign : ∃ op target value span, e = .assign op target value span
  · obtain ⟨op, target, value, span, rfl⟩ := hassign
    rw [Expr.isWritable, Bool.and_eq_true] at he
    have hlevel : 1 ≤ (Expr.assign op target value span).level := Nat.le_refl 1
    have htarget := reads_conditional_of_infixed (reads_infixed hsub hN (.place target) he.1)
    rw [Expr.tokensAt_of_le (Nat.le_trans (by decide) target.level_ge), Expr.tokens] at htarget
    rw [Expr.tokensAt_of_le hlevel, Expr.tokens]
    unfold assignmentRule
    refine Reads.here fun start => ?_
    refine Reads.bind htarget (fun x hx => ?_) (Nat.le_add_right _ _)
      fun _ _ => ⟨stops_some rfl (Nat.lt_succ_self 1), by rintro ⟨⟩⟩
    -- what was read is a place again, so that it can be assigned to
    obtain ⟨target', rfl, htarget'⟩ := exists_of_eraseSpans_place hx
    refine Reads.peek_cons (Reads.advance_cons (Reads.bind_nil (hsub value he.2) fun y hy => ?_))
    refine Reads.spanFrom fun span' => Reads.pure ?_
    simp only [Expr.eraseSpans, Place.eraseSpans, Expr.mapSpans] at htarget' hy ⊢
    rw [htarget', hy]
    rfl
  · have hread := reads_conditional hsub hN he fun op target value span h =>
      hassign ⟨op, target, value, span, h⟩
    exact reads_assignmentRule_of_conditional hread

/-- Parentheses where none are needed. -/
theorem reads_assignmentRule_inParens (hN : n + 1 ≤ N) {e : Expr} (he : e.isWritable = true) :
    Reads (assignmentRule N sub) (n + 1) (inParens e.tokens) (Stops 1)
      fun x => x.eraseSpans = e.eraseSpans := by
  -- every reader on the way down passes the parentheses on to the next one
  have hprimary := reads_primary_inParens hsub (Nat.le_of_succ_le hN) he
  have hpostfixed := reads_postfixed_of_chain (reads_chain_of_primary hprimary)
  have hunary := reads_unary_of_postfixed (starts_of_primary rfl true _) hpostfixed
  have htest := reads_conditional_of_infixed (reads_infixed_of_unary hunary)
  refine reads_assignmentRule_of_conditional ?_
  exact htest.mono (Nat.le_refl _) fun _ hnext => hnext.not_question

end

/-- Expressions inside are read with a bound that is one less. -/
theorem assignment_succ (level n : Nat) :
    assignment level (n + 1) = assignmentRule (n + 1) (assignment (level + 1) n) :=
  funext fun _ => deepen_eq level _

/-- An expression without commas outside of brackets, wherever at most `n` tokens are left. -/
theorem reads_assignment (n level : Nat) : ReadsLevel (assignment level n) n 1 := by
  induction n generalizing level with
  | zero =>
    intro e he
    -- with no token left there is nothing to read, and no expression is written with no token
    obtain ⟨token, rest, htokens, _⟩ := Expr.exists_first_token he 1
    exact Reads.of_bound_lt (by rw [htokens]; exact Nat.succ_pos _)
  | succ n ih =>
    rw [assignment_succ]
    exact reads_assignmentRule (ih (level + 1)) (Nat.le_refl _)

theorem reads_expression (n : Nat) : ReadsLevel (expression n) n 0 :=
  reads_sequence (reads_assignment n 0) (Nat.le_refl n)

theorem reads_expression_inParens (n : Nat) {e : Expr} (he : e.isWritable = true) :
    Reads (expression n) n (inParens e.tokens) (Stops 0) fun x => x.eraseSpans = e.eraseSpans := by
  cases n with
  | zero => exact Reads.of_bound_lt (Nat.succ_pos _)
  | succ n =>
    refine reads_sequence_of_sub ?_
    rw [assignment_succ]
    exact reads_assignmentRule_inParens (reads_assignment n 1) (Nat.le_refl _) he

end Parse

end MeteredScript
