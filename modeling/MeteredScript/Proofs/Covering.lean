import MeteredScript.Proofs.Laying
import MeteredScript.Proofs.Outline
import MeteredScript.Proofs.Progress

namespace MeteredScript

/-! # Every tree is laid over its tokens

The tree that a reader gives is laid over the tokens that it passes: the ranges of its parts are made of
these tokens, and its leaves are the tokens, none of which is lost, repeated or exchanged. If a reader
fails it names the range of some tokens. There is one lemma for each rule of the grammar. Main
statement: a program's parts are laid over all tokens that it is read from.
-/

namespace Parse

/-! ## Tokens of leaves

Where a rule decides by a table of tokens, the leaf that it makes is read from the token.
-/

theorem literal?_eq_some {t : Token} {value : Literal} (h : literal? t = some value) :
    t.isTraced = true ∧ (Leaf.plain value.token).ReadFrom t := by
  unfold literal? at h
  split at h <;> simp only [Option.some.injEq, reduceCtorEq] at h
  all_goals
    subst h
    exact ⟨rfl, rfl⟩

theorem memberName?_eq_some {t : Token} {name : String} (h : memberName? t = some name) :
    t.isTraced = true ∧ (Leaf.property name).ReadFrom t := by
  refine ⟨?_, h⟩
  unfold memberName? at h
  split at h <;> simp only [Option.some.injEq, reduceCtorEq] at h
  all_goals rfl

/-- A key is read from a name, a word, a text or a number. -/
theorem entryKey?_eq_some {t : Token} {key : String} (h : entryKey? t = some key) :
    t.isTraced = true ∧ (Leaf.key key).ReadFrom t := by
  refine ⟨?_, h⟩
  unfold entryKey? at h
  split at h <;> simp only [Option.some.injEq, reduceCtorEq] at h
  all_goals rfl

/-- The token of a sign in front of an operand. -/
def PrefixSign.token : PrefixSign → Token
  | unary op => op.token
  | update op => .sign (.update op)

theorem PrefixSign.ofToken?_eq_some {t : Token} {sign : PrefixSign} (h : ofToken? t = some sign) :
    t.isTraced = true ∧ (Leaf.plain sign.token).ReadFrom t := by
  unfold ofToken? at h
  split at h <;> simp only [Option.some.injEq, reduceCtorEq] at h
  all_goals
    subst h
    exact ⟨rfl, rfl⟩

theorem infix_ofToken?_eq_some {t : Token} {op : InfixOp} (h : InfixOp.ofToken? t = some op) :
    t.isTraced = true ∧ (Leaf.plain op.token).ReadFrom t := by
  unfold InfixOp.ofToken? at h
  split at h <;> simp only [Option.some.injEq, reduceCtorEq] at h
  all_goals
    subst h
    exact ⟨rfl, rfl⟩

theorem assignOp?_eq_some {t : Token} {op : AssignOp} (h : assignOp? t = some op) :
    t.isTraced = true ∧ (Leaf.plain (.sign (.assign op))).ReadFrom t := by
  unfold assignOp? at h
  split at h <;> simp only [Option.some.injEq, reduceCtorEq] at h
  subst h
  exact ⟨rfl, rfl⟩

end Parse

/-! ## Expressions -/

/-- An expression that was read from the tokens between two places. -/
def LaidExpr (lexemes : List Lexeme) (i j : Nat) (e : Expr) : Prop :=
  Laid lexemes i j [e.outline 0] e.leaves

/-- The two operands are below an infix operator, whichever it is. -/
theorem Expr.outline_join (op : InfixOp) (left right : Expr) (span : Span) :
    ∃ label, (op.join left right span).outline 0 =
      .node label span [left.outline 0, right.outline 0] := by
  cases op with
  | binary op => exact ⟨.binary op, Expr.outline_binary op left right span⟩
  | logical op => exact ⟨.logical op, Expr.outline_logical op left right span⟩

/-- An error with the range of an expression. -/
theorem LaidExpr.blames {lexemes : List Lexeme} {i j : Nat} {e : Expr}
    (h : LaidExpr lexemes i j e) {error : Error} (herror : error.span? = some e.span) :
    Parse.Blames lexemes error := by
  intro span hspan
  rcases Option.some.inj (herror.symm.trans hspan) with rfl
  obtain ⟨a, b, _, _, _, _, hextent, _⟩ := h.exists_of_mem _ List.mem_cons_self
  rw [← e.span_outline]
  exact ⟨a, b, hextent⟩

/-- An operator joins the expressions in front of it and behind it. -/
theorem LaidExpr.join {lexemes : List Lexeme} {i j k : Nat} {left right : Expr} {op : InfixOp}
    {t : Token} (hleft : LaidExpr lexemes i j left) (ht : (Cursor.past lexemes j).token? = some t)
    (hop : InfixOp.ofToken? t = some op) (hright : LaidExpr lexemes (j + 1) k right) :
    LaidExpr lexemes i k (op.join left right (extent lexemes i k)) := by
  have hij := hleft.lt
  have hjk := hright.le
  obtain ⟨label, hlabel⟩ := Expr.outline_join op left right (extent lexemes i k)
  obtain ⟨htraced, hread⟩ := Parse.infix_ofToken?_eq_some hop
  rw [LaidExpr, hlabel, InfixOp.leaves_join]
  exact .single (by omega) (hleft.append (.leaf ht htraced hread hright))

namespace Parse

section Expressions

variable {lexemes : List Lexeme} {sub : Parse Expr}
  (hsub : ∀ i, Lays lexemes sub i (LaidExpr lexemes i)) (bound : Nat) {i : Nat}
include hsub

/-- A sequence begins with its first part and ends with its last; its commas are no leaves. -/
theorem lays_sequence : Lays lexemes (sequence bound sub) i (LaidExpr lexemes i) := by
  refine .here ((hsub i).bind fun j first _ hfirst => .check (fun _ => ?_) (.result hfirst))
  refine (Lays.commaRest hsub bound hfirst).bind fun k parts hjk hparts => .spanFrom (.result ?_)
  rw [LaidExpr, Expr.outline_sequence, List.map_eq_flatMap, Expr.leaves, leavesAll_eq_flatMap]
  exact .single (Nat.lt_of_lt_of_le hfirst.lt hjk) hparts

/-- An element more is laid behind those that were read; a comma without one leaves them as they are. -/
theorem lays_arrayStep (j : Nat) (results : List Expr)
    (h : LaidRead lexemes (fun e : Expr => [e.outline 0]) Expr.leaves i j results) :
    Lays lexemes (arrayStep sub results) j fun k r =>
      LaidRead lexemes (fun e : Expr => [e.outline 0]) Expr.leaves i k r.1 := by
  refine .check (fun _ => .result h) (.eat (fun hcomma => .result (h.skipLast hcomma rfl)) ?_)
  refine (hsub j).bind fun k e _ he => ?_
  exact .eat (fun hcomma => .result (h.cons (he.skipLast hcomma rfl))) (.result (h.cons he))

theorem lays_array : Lays lexemes (array bound sub) i (LaidExpr lexemes i) := by
  have hstart : LaidRead lexemes (fun e : Expr => [e.outline 0]) Expr.leaves (i + 1) (i + 1) [] :=
    Laid.nil _
  refine .expect fun hopen => (Lays.iterate (lays_arrayStep hsub) bound hstart).bind ?_
  intro j results hij h
  refine .expect fun hclose => .spanFrom (.result ?_)
  rw [LaidExpr, Expr.outline_array, List.map_eq_flatMap, Expr.leaves, leavesAll_eq_flatMap]
  exact .single (by omega) (.plain hopen rfl rfl (h.plainLast hclose rfl rfl))

/-- An entry begins with its name, which is in front of the value. -/
theorem lays_entry (i : Nat) :
    Lays lexemes (entry sub) i fun j entry =>
      Laid lexemes i j [entry.2.outline 0] (entryLeaves entry) := by
  refine .peek fun next hnext => ?_
  split
  · rename_i key hkey
    obtain ⟨t, rfl, hkey⟩ := Option.bind_eq_some_iff.mp hkey
    obtain ⟨htraced, hread⟩ := entryKey?_eq_some hkey
    refine .advance hnext (.expect fun hcolon => (hsub _).bind fun j e _ he => .result ?_)
    exact .leaf hnext htraced hread (.plain hcolon rfl rfl he)
  · exact .unexpected

theorem lays_object : Lays lexemes (object bound sub) i (LaidExpr lexemes i) := by
  refine .expect fun hopen => (Lays.commaSeparated (lays_entry hsub) bound).bind ?_
  rintro _ entries _ ⟨j, rfl, hclose, hentries⟩
  have hij := hentries.le
  refine .spanFrom (.result ?_)
  rw [← List.map_eq_flatMap] at hentries
  rw [LaidExpr, Expr.outline_object, Expr.leaves, leavesEntries_eq_flatMap]
  exact .single (by omega) (.plain hopen rfl rfl (hentries.plainLast hclose rfl rfl))

/-- Parentheses are no part of what is inside: its range is that without them. -/
theorem lays_parenthesized : Lays lexemes (parenthesized bound sub) i (LaidExpr lexemes i) := by
  refine .expect fun hopen => (lays_sequence hsub bound).bind fun j e _ he => ?_
  exact .expect fun hclose => .result (.skip hopen rfl (he.skipLast hclose rfl))

/-- What begins an expression is a leaf, laid over itself, or a bracket around some. -/
theorem lays_primary : Lays lexemes (primary bound sub) i (LaidExpr lexemes i) := by
  refine .here (.peek fun next hnext => ?_)
  split
  · refine .advance hnext (.result ?_)
    rw [LaidExpr, Expr.outline_place]
    exact .token (.plain hnext rfl rfl (.nil _)) _
  · exact lays_parenthesized hsub bound
  · exact lays_array hsub bound
  · exact lays_object hsub bound
  · split
    · rename_i value hvalue
      obtain ⟨htraced, hread⟩ := literal?_eq_some hvalue
      refine .advance hnext (.result ?_)
      rw [LaidExpr, Expr.outline_literal]
      exact .token (.leaf hnext htraced hread (.nil _)) _
    · exact .unexpected
  · exact .unexpected

/-- A link goes from the start of the expression in front of it to its own end. -/
theorem lays_link (j : Nat) (e : Expr) (he : LaidExpr lexemes i j e) :
    Lays lexemes (link bound sub (Cursor.past lexemes i).span e) j fun k r =>
      LaidExpr lexemes i k r.1 := by
  have hlt := he.lt
  refine .peek fun next hfirst => ?_
  split
  · refine .advance hfirst (.peek fun next hnext => ?_)
    split
    -- `.name`: the name is a leaf but no node of its own, so the range only grows.
    · rename_i name hname
      obtain ⟨t, rfl, hname⟩ := Option.bind_eq_some_iff.mp hname
      obtain ⟨htraced, hread⟩ := memberName?_eq_some hname
      refine .advance hnext (.spanFrom (.result ?_))
      rw [LaidExpr, Expr.outline_place]
      have hmember := he.append (.plain hfirst rfl rfl (.leaf hnext htraced hread (.nil _)))
      exact .single (by omega) hmember
    · exact .unexpected
  · refine .advance hfirst ((lays_sequence hsub bound).bind fun k key hjk hkey => ?_)
    refine .expect fun hclose => .spanFrom (.result ?_)
    rw [LaidExpr, Expr.outline_place]
    -- `[key]`: the object and the key stand side by side, with a bracket behind them.
    exact .single (by omega) (he.append (.plain hfirst rfl rfl (hkey.plainLast hclose rfl rfl)))
  · refine .advance hfirst ((Lays.commaSeparated hsub bound).bind ?_)
    rintro _ arguments _ ⟨k, rfl, hclose, harguments⟩
    have hjk := harguments.le
    refine .spanFrom (.result ?_)
    rw [LaidExpr, Expr.outline_call, List.map_eq_flatMap, Expr.leaves, leavesAll_eq_flatMap]
    exact .single (by omega) (he.append (.skip hfirst rfl (harguments.skipLast hclose rfl)))
  · exact .result he

theorem lays_chain : Lays lexemes (chain bound sub) i (LaidExpr lexemes i) := by
  refine .here ((lays_primary hsub bound).bind fun j e _ he => ?_)
  exact .iterate (lays_link hsub bound) bound he

/-- A step behind a place ends with its sign. -/
theorem lays_postfixed : Lays lexemes (postfixed bound sub) i (LaidExpr lexemes i) := by
  refine .here ((lays_chain hsub bound).bind fun j e _ he => .peek fun next hnext => ?_)
  split
  · cases e with
    | place target =>
      refine .advance hnext (.spanFrom (.result ?_))
      rw [LaidExpr, Expr.outline_updateAfter, ← Expr.outline_place]
      exact .single (Nat.lt_succ_of_lt he.lt) (he.plainLast hnext rfl rfl)
    | _ => exact .fail (he.blames rfl)
  · exact .result he

omit hsub in
/-- A sign begins what it is in front of. -/
theorem lays_applySign {k : Nat} {e : Expr} {sign : PrefixSign} {t : Token}
    (ht : (Cursor.past lexemes i).token? = some t) (hsign : PrefixSign.ofToken? t = some sign)
    (he : LaidExpr lexemes (i + 1) k e) :
    Lays lexemes (applySign e (sign, (Cursor.past lexemes i).span)) k fun l e' =>
      l = k ∧ LaidExpr lexemes i k e' := by
  obtain ⟨htraced, hread⟩ := PrefixSign.ofToken?_eq_some hsign
  have hik := Nat.lt_of_succ_lt he.lt
  have hinside := Laid.leaf ht htraced hread he
  refine .spanFrom ?_
  cases sign with
  | unary op =>
    refine .result ⟨rfl, ?_⟩
    rw [LaidExpr, Expr.outline_unary]
    exact .single hik hinside
  | update op =>
    -- steps in front of one place are kept in one list
    cases e with
    | place target =>
      refine .result ⟨rfl, ?_⟩
      rw [Expr.outline_place] at hinside
      rw [LaidExpr, Expr.outline_updateBefore]
      exact .single hik hinside
    | updateBefore op' span' inner target =>
      refine .result ⟨rfl, ?_⟩
      rw [Expr.outline_updateBefore] at hinside
      rw [LaidExpr, Expr.outline_updateBefore]
      exact .single hik hinside
    | _ => exact .fail (he.blames rfl)

/-- Signs in front of an operand, by induction on how many there may be. -/
theorem lays_signed (level signs : Nat) :
    Lays lexemes (signed bound sub level signs) i (LaidExpr lexemes i) := by
  induction signs generalizing level i with
  | zero => exact .unexpected
  | succ signs ih =>
    simp only [signed, deepen_eq]
    refine .peek fun next hnext => ?_
    split
    · rename_i sign hsign
      obtain ⟨t, rfl, hsign⟩ := Option.bind_eq_some_iff.mp hsign
      refine .here (.advance hnext ?_)
      refine (ih (level + 1)).bind fun j e _ he => (lays_applySign hnext hsign he).imp ?_
      rintro _ e' _ ⟨rfl, he'⟩
      exact he'
    · exact lays_postfixed hsub bound

theorem lays_unary : Lays lexemes (unary bound sub) i (LaidExpr lexemes i) :=
  lays_signed hsub bound 0 (bound + 1)

omit hsub in
/-- An operator with its operands begins where the left one does, and ends where the right one does. -/
theorem lays_infixStep {right : Nat → Parse Expr}
    (hright : ∀ least i, Lays lexemes (right least) i (LaidExpr lexemes i)) (least j : Nat) (left : Expr)
    (hleft : LaidExpr lexemes i j left) :
    Lays lexemes (infixStep right (Cursor.past lexemes i).span least left) j fun k r =>
      LaidExpr lexemes i k r.1 := by
  refine .peek fun next hnext => ?_
  split
  · rename_i op hop
    obtain ⟨t, rfl, hop⟩ := Option.bind_eq_some_iff.mp hop
    split
    · exact .result hleft
    · refine .advance hnext ((hright _ _).bind fun k e _ he => .spanFrom (.result ?_))
      exact hleft.join hnext hop he
  · exact .result hleft

/-- The tree of a chain of operators takes all tokens of the chain, however the operators bind. -/
theorem lays_climb (level depth least : Nat) :
    Lays lexemes (climb bound sub level depth least) i (LaidExpr lexemes i) := by
  induction depth generalizing level least i with
  | zero => exact .unexpected
  | succ depth ih =>
    simp only [climb, deepen_eq]
    refine .here ((lays_unary hsub bound).bind fun j left _ hleft => ?_)
    exact .iterate (lays_infixStep (fun least _ => ih (level + 1) least) least) bound hleft

theorem lays_infixed : Lays lexemes (infixed bound sub) i (LaidExpr lexemes i) :=
  lays_climb hsub bound 0 (bound + 1) 1

/-- A choice ends with its alternate; its two signs are leaves as well. -/
theorem lays_conditional : Lays lexemes (conditional bound sub) i (LaidExpr lexemes i) := by
  refine .here ((lays_infixed hsub bound).bind fun j test _ htest => ?_)
  refine .eat (fun hsign => (hsub _).bind fun k consequent _ hconsequent => ?_) (.result htest)
  refine .expect fun hcolon => (hsub _).bind fun l alternate _ halternate => .spanFrom (.result ?_)
  have hlt := htest.lt
  have hparts := hconsequent.append (.plain hcolon rfl rfl halternate)
  rw [LaidExpr, Expr.outline_conditional]
  exact .single (by omega) (htest.append (.plain hsign rfl rfl hparts))

/-- An assignment ends with its value. A target that cannot be assigned to is named by its own range. -/
theorem lays_assignmentRule : Lays lexemes (assignmentRule bound sub) i (LaidExpr lexemes i) := by
  refine .here ((lays_conditional hsub bound).bind fun j e _ he => .peek fun next hnext => ?_)
  split
  · rename_i op hop
    obtain ⟨t, rfl, hop⟩ := Option.bind_eq_some_iff.mp hop
    obtain ⟨htraced, hread⟩ := assignOp?_eq_some hop
    cases e with
    | place target =>
      have hlt := he.lt
      refine .advance hnext ((hsub _).bind fun k value _ hvalue => .spanFrom (.result ?_))
      rw [LaidExpr, Expr.outline_assign, ← Expr.outline_place]
      exact .single (by omega) (he.append (.leaf hnext htraced hread hvalue))
    | _ => exact .fail (he.blames rfl)
  · exact .result he

end Expressions

variable {lexemes : List Lexeme}

/-- Expressions inside expressions, by induction on how deep they may be. -/
theorem lays_assignment (level bound i : Nat) :
    Lays lexemes (assignment level bound) i (LaidExpr lexemes i) := by
  induction bound generalizing level i with
  | zero => exact .unexpected
  | succ bound ih =>
    -- `deepen` changes where a reader runs and not what it reads
    have hrule := lays_assignmentRule (ih (level + 1)) (bound + 1) (i := i)
    intro hi
    simp only [assignment, deepen_eq]
    exact hrule hi

theorem lays_expression (bound : Nat) {i : Nat} :
    Lays lexemes (expression bound) i (LaidExpr lexemes i) :=
  lays_sequence (lays_assignment 0 bound) bound

/-! ## Statements -/

/-- A statement that was read from the tokens between two places. -/
def LaidStmt (lexemes : List Lexeme) (i j : Nat) (s : Stmt) : Prop :=
  Laid lexemes i j [s.outline 0] s.leaves

/-- The leaves of an initial value that may be absent. -/
def initialLeaves : Option Expr → List Leaf
  | some e => .plain (.sign (.assign .plain)) :: e.leaves
  | none => []

theorem declaredLeaves_eq (name : String) (init : Option Expr) :
    declaredLeaves name init = .plain (.ident name) :: initialLeaves init := by
  cases init <;> rfl

section Statements

variable (bound : Nat) {i : Nat}

theorem lays_semicolon : Lays lexemes semicolon i fun j _ => Laid lexemes i j [] [] :=
  .eat (fun hmark => .result (.skip hmark rfl (.nil _))) (.result (.nil i))

/-- An initial value is behind its equals sign, nothing is where there is none. -/
theorem lays_initializer (i : Nat) :
    Lays lexemes (initializer bound) i fun j init =>
      Laid lexemes i j (outlineOption init) (initialLeaves init) := by
  refine .eat (fun hsign => (lays_assignment 0 bound _).bind fun j e _ he => ?_) (.result (.nil i))
  exact .result (.plain hsign rfl rfl he)

/-- A name with its optional initial value, whatever is made of them. -/
theorem lays_declared {α : Type} {outlines : α → List Outline} {leaves : α → List Leaf}
    (make : String → Option Expr → α)
    (houtlines : ∀ name init, outlines (make name init) = outlineOption init)
    (hleaves : ∀ name init, leaves (make name init) = declaredLeaves name init) (i : Nat) :
    Lays lexemes (Parse.name >>= fun name => initializer bound >>= fun init => pure (make name init)) i
      fun j a => Laid lexemes i j (outlines a) (leaves a) := by
  refine Lays.name.bind ?_
  rintro _ name _ ⟨rfl, hname⟩
  refine (lays_initializer bound (i + 1)).bind fun j init _ hinit => .result ?_
  rw [houtlines, hleaves, declaredLeaves_eq]
  exact .plain hname rfl rfl hinit

theorem lays_declarator (i : Nat) :
    Lays lexemes (declarator bound) i fun j d =>
      Laid lexemes i j (outlineOption d.init) (declaredLeaves d.name d.init) :=
  lays_declared bound DeclaratorOf.mk (fun _ _ => rfl) (fun _ _ => rfl) i

/-- A declaration begins with one of three words, which are all the same leaf. -/
theorem lays_declaration {t : Token} (ht : (Cursor.past lexemes i).token? = some t)
    (hword : isDeclarationWord t = true) :
    Lays lexemes (declaration bound) i fun j r =>
      Laid lexemes i j [declareOutline r.1 r.2] (declarationLeaves r.1) := by
  refine .here (.advance ht ((lays_declarator bound (i + 1)).bind fun j first hij hfirst => ?_))
  refine (Lays.commaRest (lays_declarator bound) bound hfirst).bind fun k declarators _ h => ?_
  have hleaf : t.isTraced = true ∧ (Leaf.plain (.keyword .varWord)).ReadFrom t := by
    unfold isDeclarationWord at hword
    split at hword
    · exact ⟨rfl, rfl⟩
    · exact ⟨rfl, rfl⟩
    · exact ⟨rfl, rfl⟩
    · cases hword
  exact .spanFrom (.result (.single (by omega) (.leaf ht hleaf.1 hleaf.2 h)))

/-- The start of a `for` loop, if there is one. -/
theorem lays_forInit :
    Lays lexemes (forInit bound) i fun j init =>
      Laid lexemes i j (init.map ForInit.outline).toList ((init.map ForInit.leaves).getD []) := by
  refine .peek fun next hnext => ?_
  split
  · exact .result (.nil i)
  · split
    · rename_i hword
      cases next with
      | none => cases hword
      | some t => exact (lays_declaration bound hnext hword).bind fun j r _ hr => .result hr
    · exact (lays_expression bound).bind fun j e _ he => .result he

theorem lays_expressionUnless (closer : Token) :
    Lays lexemes (expressionUnless bound closer) i fun j e =>
      Laid lexemes i j (outlineOption e) (optionLeaves e) := by
  refine .check (fun _ => .result (.nil i)) ?_
  exact (lays_expression bound).bind fun j e _ he => .result he

theorem lays_returnArgument :
    Lays lexemes (returnArgument bound) i fun j e =>
      Laid lexemes i j (outlineOption e) (optionLeaves e) := by
  refine .peek fun next _ => ?_
  split
  · exact .result (.nil i)
  · exact .result (.nil i)
  · exact .result (.nil i)
  · exact (lays_expression bound).bind fun j e _ he => .result he

theorem lays_returnStatement : Lays lexemes (returnStatement bound) i (LaidStmt lexemes i) := by
  refine .expect fun hword => (lays_returnArgument bound).bind fun j argument _ hargument => ?_
  refine lays_semicolon.bind fun k _ _ hmark => .spanFrom (.result ?_)
  rw [LaidStmt, Stmt.outline_returnValue]
  exact .single (by omega) (.plain hword rfl rfl (hargument.behind hmark))

/-- A statement that is an expression has its semicolon within its range. -/
theorem lays_expressionStatement :
    Lays lexemes (expressionStatement bound) i (LaidStmt lexemes i) := by
  refine .here ((lays_expression bound).bind fun j e _ he => ?_)
  refine lays_semicolon.bind fun k _ hjk hmark => .spanFrom (.result ?_)
  rw [LaidStmt, Stmt.outline_expression]
  exact .single (Nat.lt_of_lt_of_le he.lt hjk) (he.behind hmark)

theorem lays_declarationStatement {t : Token} (ht : (Cursor.past lexemes i).token? = some t)
    (hword : isDeclarationWord t = true) :
    Lays lexemes (declarationStatement bound) i (LaidStmt lexemes i) := by
  refine (lays_declaration bound ht hword).bind fun j r _ hr => ?_
  refine lays_semicolon.bind fun k _ _ hmark => .result ?_
  rw [LaidStmt, Stmt.outline_declare]
  exact hr.behind hmark

theorem lays_wordStatement {word : Keyword} {make : Span → Stmt} {label : Label}
    (hmake : ∀ span, (make span).outline 0 = .node label span [])
    (hleaves : ∀ span, (make span).leaves = [.plain (.keyword word)])
    (hword : (Leaf.plain (.keyword word)).ReadFrom (.keyword word))
    (ht : (Cursor.past lexemes i).token? = some (.keyword word)) :
    Lays lexemes (wordStatement make) i (LaidStmt lexemes i) := by
  refine .here (.advance ht (lays_semicolon.bind fun j _ _ hmark => .result ?_))
  rw [LaidStmt, hmake, hleaves]
  exact (Laid.token (.leaf ht rfl hword (.nil _)) label).behind hmark

variable {sub : Parse Stmt} (hsub : ∀ i, Lays lexemes sub i (LaidStmt lexemes i))
include hsub

theorem lays_blockStep (j : Nat) (results : List Stmt)
    (h : LaidRead lexemes (fun s : Stmt => [s.outline 0]) Stmt.leaves i j results) :
    Lays lexemes (blockStep sub results) j fun k r =>
      LaidRead lexemes (fun s : Stmt => [s.outline 0]) Stmt.leaves i k r.1 := by
  refine .peek fun next _ => ?_
  split
  · exact .result h
  · exact .result h
  · exact (hsub j).bind fun k s _ hs => .result (h.cons hs)

/-- A block begins with its opening brace and ends with its closing one. -/
theorem lays_block :
    Lays lexemes (block bound sub) i fun j r =>
      Laid lexemes i j [.node .block r.2 (r.1.map (Stmt.outline 0))]
        (.plain (.punctuation .openBrace) ::
          (leavesStmts r.1 ++ [.plain (.punctuation .closeBrace)])) := by
  have hstart : LaidRead lexemes (fun s : Stmt => [s.outline 0]) Stmt.leaves (i + 1) (i + 1) [] :=
    Laid.nil _
  refine .expect fun hopen => (Lays.iterate (lays_blockStep hsub) bound hstart).bind ?_
  intro j results hij h
  refine .peek fun next _ => ?_
  split
  · exact .fail (Lays.blames_here rfl)
  · refine .expect fun hclose => .spanFrom (.result ?_)
    rw [List.map_eq_flatMap, leavesStmts_eq_flatMap]
    exact .single (by omega) (.plain hopen rfl rfl (h.plainLast hclose rfl rfl))

/-- A branch ends with its last statement. `if` and `else` are leaves, the parentheses are not. -/
theorem lays_ifStatement : Lays lexemes (ifStatement bound sub) i (LaidStmt lexemes i) := by
  refine .expect fun hword => .expect fun hopen => (lays_expression bound).bind ?_
  intro j test _ htest
  refine .expect fun hclose => (hsub _).bind fun k consequent _ hconsequent => ?_
  refine .eat (fun helse => (hsub _).bind fun l alternate _ halternate => ?_) ?_
  · refine .spanFrom (.result ?_)
    rw [LaidStmt, Stmt.outline_ifElse]
    have hparts := hconsequent.append (.plain helse rfl rfl halternate)
    exact .single (by omega)
      (.plain hword rfl rfl (.skip hopen rfl (htest.append (.skip hclose rfl hparts))))
  · refine .spanFrom (.result ?_)
    rw [LaidStmt, Stmt.outline_ifThen]
    exact .single (by omega)
      (.plain hword rfl rfl (.skip hopen rfl (htest.append (.skip hclose rfl hconsequent))))

theorem lays_forStatement : Lays lexemes (forStatement bound sub) i (LaidStmt lexemes i) := by
  refine .expect fun hword => .expect fun hopen => (lays_forInit bound).bind fun j init _ hinit => ?_
  refine .expect fun hfirst => (lays_expressionUnless bound _).bind fun k test _ htest => ?_
  refine .expect fun hsecond => (lays_expressionUnless bound _).bind fun l update _ hupdate => ?_
  refine .expect fun hclose => (hsub _).bind fun m body _ hbody => .spanFrom (.result ?_)
  rw [LaidStmt, Stmt.outline_forLoop, List.append_assoc, List.append_assoc]
  -- two semicolons and the parentheses stand between the parts
  have hround := hupdate.append (.skip hclose rfl hbody)
  have hhead := hinit.append (.skip hfirst rfl (htest.append (.skip hsecond rfl hround)))
  exact .single (by omega) (.plain hword rfl rfl (.skip hopen rfl hhead))

theorem lays_whileStatement : Lays lexemes (whileStatement bound sub) i (LaidStmt lexemes i) := by
  refine .expect fun hword => .expect fun hopen => (lays_expression bound).bind ?_
  intro j test _ htest
  refine .expect fun hclose => (hsub _).bind fun k body _ hbody => .spanFrom (.result ?_)
  rw [LaidStmt, Stmt.outline_whileLoop]
  exact .single (by omega)
    (.plain hword rfl rfl (.skip hopen rfl (htest.append (.skip hclose rfl hbody))))

/-- Statements, by the token they begin with. -/
theorem lays_statementRule : Lays lexemes (statementRule bound sub) i (LaidStmt lexemes i) := by
  refine .peek fun next hnext => ?_
  -- one case a word; each passes the token that it was recognised by
  cases next with
  | none => exact .unexpected
  | some token =>
    cases token with
    | keyword word =>
      cases word with
      | functionWord => exact .here (.fail (Lays.blames_here rfl))
      | varWord | letWord | constWord => exact lays_declarationStatement bound hnext rfl
      | ifWord => exact lays_ifStatement bound hsub
      | forWord => exact lays_forStatement bound hsub
      | whileWord => exact lays_whileStatement bound hsub
      | breakWord => exact lays_wordStatement Stmt.outline_breakLoop (fun _ => rfl) rfl hnext
      | continueWord => exact lays_wordStatement Stmt.outline_continueLoop (fun _ => rfl) rfl hnext
      | returnWord => exact lays_returnStatement bound
      | _ => exact lays_expressionStatement bound
    | punctuation mark =>
      cases mark with
      | openBrace =>
        refine (lays_block bound hsub).bind fun j r _ hr => .result ?_
        rw [LaidStmt, Stmt.outline_block]
        exact hr
      | semicolon =>
        refine .here (.advance hnext (.result ?_))
        rw [LaidStmt, Stmt.outline_empty]
        exact .token (.skip hnext rfl (.nil _)) _
      | _ => exact lays_expressionStatement bound
    | _ => exact lays_expressionStatement bound

end Statements

/-- Statements inside statements, by induction on how deep they may be. -/
theorem lays_statement (level bound i : Nat) :
    Lays lexemes (statement level bound) i (LaidStmt lexemes i) := by
  induction bound generalizing level i with
  | zero => exact .unexpected
  | succ bound ih =>
    have hrule := lays_statementRule (bound + 1) (ih (level + 1)) (i := i)
    intro hi
    simp only [statement, deepen_eq]
    exact hrule hi

/-! ## Programs -/

theorem lays_param (bound i : Nat) :
    Lays lexemes (param bound) i fun j p =>
      Laid lexemes i j (outlineOption p.fallback) (declaredLeaves p.name p.fallback) :=
  lays_declared bound ParamOf.mk (fun _ _ => rfl) (fun _ _ => rfl) i

/-- A function begins with its word and ends with its body. -/
theorem lays_function (bound i : Nat) :
    Lays lexemes (function bound) i fun j f => Laid lexemes i j [f.outline] f.leaves := by
  refine .expect fun hword => Lays.name.bind ?_
  rintro _ name _ ⟨rfl, hname⟩
  refine .expect fun hopen => (Lays.commaSeparated (lays_param bound) bound).bind ?_
  rintro _ params _ ⟨j, rfl, hclose, hparams⟩
  refine (lays_block bound (lays_statement 0 bound)).bind ?_
  rintro k ⟨body, bodySpan⟩ _ hbody
  have hij := hparams.le
  refine .spanFrom (.result ?_)
  unfold Function.outline
  rw [outlineStmts_eq_map]
  have hparts := (hparams.skipLast hclose rfl).append hbody
  exact .single (by omega) (.plain hword rfl rfl (.plain hname rfl rfl (.skip hopen rfl hparts)))

theorem lays_item (bound i : Nat) :
    Lays lexemes (item bound) i fun j item => Laid lexemes i j [item.outline] item.leaves := by
  refine .check (fun _ => ?_) ?_
  · exact (lays_function bound i).bind fun j f _ hf => .result hf
  · exact (lays_statement 0 bound i).bind fun j s _ hs => .result hs

theorem lays_itemStep (bound : Nat) {i : Nat} (j : Nat) (results : List Item)
    (h : LaidRead lexemes (fun item : Item => [item.outline]) Item.leaves i j results) :
    Lays lexemes (itemStep bound results) j fun k r =>
      LaidRead lexemes (fun item : Item => [item.outline]) Item.leaves i k r.1 := by
  refine .peek fun next _ => ?_
  split
  · exact .result h
  · exact (lays_item bound j).bind fun k item _ hitem => .result (h.cons hitem)

theorem lays_items (bound i : Nat) :
    Lays lexemes (items bound) i fun j results =>
      Laid lexemes i j (results.map Item.outline) (results.flatMap Item.leaves) := by
  have hstart : LaidRead lexemes (fun item : Item => [item.outline]) Item.leaves i i [] := Laid.nil i
  refine (Lays.iterate (lays_itemStep bound) bound hstart).bind fun j results _ h => .result ?_
  rw [List.map_eq_flatMap]
  exact h

end Parse

/-- The parts of a program are laid over the tokens that it was read from, which are all tokens, and its
range ends behind the last of these. -/
theorem Program.laid_of_ofTokens? {lexemes : List Lexeme} {program : Program}
    (h : Program.ofTokens? lexemes = .ok program) :
    Laid lexemes 0 lexemes.length (program.items.map Item.outline) program.leaves ∧
      program.span = ⟨0, (Cursor.past lexemes lexemes.length).reached⟩ := by
  unfold Program.ofTokens? at h
  cases hread : (Parse.items lexemes.length).run ⟨lexemes, 0⟩ with
  | error e =>
    rw [hread] at h
    cases h
  | ok r =>
    obtain ⟨items, c⟩ := r
    rw [hread] at h
    cases h
    obtain ⟨j, _, hj, rfl, hlaid⟩ :=
      (Parse.lays_items lexemes.length 0 (Nat.zero_le _)).1 items c hread
    -- nothing is left behind
    have hrest := Parse.rest_of_items (c := ⟨lexemes, 0⟩) (Nat.le_refl _) hread
    rcases Nat.le_antisymm hj (List.drop_eq_nil_iff.mp hrest) with rfl
    exact ⟨hlaid, rfl⟩

/-- If no program is read, this is because of some tokens. -/
theorem Program.blames_of_ofTokens? {lexemes : List Lexeme} {e : Error}
    (h : Program.ofTokens? lexemes = .error e) : Parse.Blames lexemes e := by
  unfold Program.ofTokens? at h
  cases hread : (Parse.items lexemes.length).run ⟨lexemes, 0⟩ with
  | error e' =>
    rw [hread] at h
    cases h
    exact (Parse.lays_items lexemes.length 0 (Nat.zero_le _)).2 e hread
  | ok r =>
    rw [hread] at h
    cases h

end MeteredScript
