import MeteredScript.Proofs.Dependencies

namespace MeteredScript

/-! # What is known of the variables of a function

`Function.bindings` counts: a variable is known to be a constant if all there is in the function to
bind it is one declaration with a literal. So every place that binds a variable tells what is known of
it: either the variable is unknown, or the place is that declaration. And of the names given from
outside, `RunContext.constants` knows those whose last datum is a number or a string.
-/

/-! ## Noting bindings -/

/-- What is known of a variable behind a further binding of it. -/
def Binding.after (known : Option Binding) (bound : Option Constant) : Binding :=
  match known, bound with
  | none, some value => .constant value
  | _, _ => .unknown

theorem Bindings.getElem?_note (known : Bindings) (bound : String × Option Constant) (name : String) :
    (known.note bound)[name]? =
      if bound.1 = name then some (Binding.after known[name]? bound.2) else known[name]? := by
  unfold note
  rw [Std.TreeMap.contains_eq_isSome_getElem?]
  by_cases hname : bound.1 = name
  · rw [if_pos hname, hname]
    cases known[name]? with
    | none => cases bound.2 <;> simp [Binding.after]
    | some b => simp [Binding.after]
  · rw [if_neg hname]
    split <;> simp [Std.TreeMap.getElem?_insert, hname]

/-- Only the bindings of a variable itself count. -/
theorem Bindings.getElem?_foldl_note (known : Bindings) (bounds : List (String × Option Constant))
    (name : String) :
    (bounds.foldl note known)[name]? =
      ((bounds.filter fun bound => bound.1 = name).map Prod.snd).foldl
        (fun known bound => some (Binding.after known bound)) known[name]? := by
  induction bounds generalizing known with
  | nil => rfl
  | cons bound rest ih =>
    rw [List.foldl_cons, ih, getElem?_note]
    by_cases hname : bound.1 = name
    · simp [hname]
    · simp [hname]

/-- A variable of which something is known, and that is bound again, is unknown. -/
theorem Binding.foldl_after_some (known : Binding) (first : Option Constant)
    (rest : List (Option Constant)) :
    (first :: rest).foldl (fun known bound => some (Binding.after known bound)) (some known) =
      some .unknown := by
  induction rest generalizing known first with
  | nil => rfl
  | cons second rest ih => exact ih .unknown second

theorem Binding.foldl_after_of_mem {bounds : List (Option Constant)} {bound : Option Constant}
    (hbound : bound ∈ bounds) :
    bounds.foldl (fun known bound => some (Binding.after known bound)) none = some .unknown ∨
      ∃ c, bound = some c ∧
        bounds.foldl (fun known bound => some (Binding.after known bound)) none =
          some (.constant c) := by
  match bounds with
  | [] => cases hbound
  | [only] =>
    rcases List.mem_singleton.mp hbound with rfl
    cases bound with
    | none => exact .inl rfl
    | some c => exact .inr ⟨c, rfl, rfl⟩
  | first :: second :: rest => exact .inl (Binding.foldl_after_some _ second rest)

/-! ## Bindings of a function -/

/-- All bindings of variables of a function. -/
def Function.bound (f : Function) : List (String × Option Constant) :=
  f.params.map (fun p => (p.name, none)) ++ f.outline.preorder.flatMap Outline.bound

section

variable {f : Function}

variable {name : String}

/-- A binding of a variable tells what is known of it. -/
theorem Function.bindings_of_bound {bound : Option Constant} (h : (name, bound) ∈ f.bound) :
    f.bindings[name]? = some .unknown ∨
      ∃ c, bound = some c ∧ f.bindings[name]? = some (.constant c) := by
  have hbindings : f.bindings[name]? = _ := Bindings.getElem?_foldl_note ∅ f.bound name
  rw [hbindings, Std.TreeMap.getElem?_emptyc]
  refine Binding.foldl_after_of_mem (List.mem_map.mpr ⟨(name, bound), ?_, rfl⟩)
  exact List.mem_filter.mpr ⟨h, by simp⟩

/-- What binds a variable to something that is no constant makes it unknown. -/
theorem Function.bindings_of_bound_none (h : (name, none) ∈ f.bound) :
    f.bindings[name]? = some .unknown := by
  rcases Function.bindings_of_bound h with hunknown | ⟨c, hc, _⟩
  · exact hunknown
  · cases hc

theorem Function.bindings_param {p : Param} (hp : p ∈ f.params) :
    f.bindings[p.name]? = some .unknown :=
  bindings_of_bound_none (List.mem_append_left _ (List.mem_map.mpr ⟨p, hp, rfl⟩))

theorem Function.mem_bound {node : Outline} (hnode : node ∈ f.outline.preorder)
    {bound : String × Option Constant} (hbound : bound ∈ node.bound) : bound ∈ f.bound :=
  List.mem_append_right _ (List.mem_flatMap.mpr ⟨node, hnode, hbound⟩)

/-- Assigning to a variable and stepping it bind it. -/
theorem Outline.mem_bound_of_target {node target : Outline} {others : List Outline}
    (hlabel : (∃ op, node.label = .assign op) ∨ ∃ op before, node.label = .update op before)
    (hchildren : node.children = target :: others) (htarget : target.label = .ident name) :
    (name, none) ∈ node.bound := by
  unfold bound
  rcases hlabel with ⟨op, hlabel⟩ | ⟨op, before, hlabel⟩
  · rw [hlabel, hchildren]
    dsimp only
    rw [htarget]
    exact List.mem_cons_self
  · rw [hlabel, hchildren]
    dsimp only
    rw [htarget]
    exact List.mem_cons_self

/-- The innermost of several steps in front of a variable binds it. -/
theorem Function.bindings_updateOutline {op : UpdateOp} {span : Span} {target : Outline}
    {inner : List (UpdateOp × Span)} (htarget : target.label = .ident name)
    (hnode : updateOutline op span target inner ∈ f.outline.preorder) :
    f.bindings[name]? = some .unknown := by
  induction inner generalizing op span with
  | nil =>
    refine bindings_of_bound_none (mem_bound hnode ?_)
    exact Outline.mem_bound_of_target (.inr ⟨op, true, rfl⟩) rfl htarget
  | cons step inner ih =>
    exact ih (f.outline.inherited_mem_preorder _ hnode _ List.mem_cons_self)

theorem Place.label_of_name? {p : Place} (h : p.name? = some name) :
    (p.outline 0).label = .ident name := by
  cases p with
  | ident name' span =>
    cases h
    rfl
  | _ => cases h

/-- Variables that an expression assigns to are unknown. -/
theorem Function.bindings_assignedName {e : Expr} (he : e.outline 0 ∈ f.outline.preorder)
    (hname : e.assignedName? = some name) : f.bindings[name]? = some .unknown := by
  unfold Expr.outline at he
  rw [deepen_eq] at he
  simp only [Place.outline_level (0 + 1)] at he
  cases e with
  | updateBefore op span inner target =>
    exact bindings_updateOutline (Place.label_of_name? hname) he
  | updateAfter op target span =>
    refine bindings_of_bound_none (mem_bound he ?_)
    exact Outline.mem_bound_of_target (.inr ⟨op, false, rfl⟩) rfl (Place.label_of_name? hname)
  | assign op target value span =>
    refine bindings_of_bound_none (mem_bound he ?_)
    exact Outline.mem_bound_of_target (.inl ⟨op, rfl⟩) rfl (Place.label_of_name? hname)
  | _ => cases hname

/-- The constants that variables are declared with are those of their initial values. -/
theorem declaredConstants_declarators (declarators : List Declarator) :
    declaredConstants (declarators.map fun d => (d.name, d.init.isSome))
        (declarators.flatMap fun d => outlineOption d.init) =
      declarators.map fun d => (d.name, d.init.bind fun e => (e.outline 0).constant?) := by
  induction declarators with
  | nil => rfl
  | cons d rest ih =>
    rw [List.map_cons, List.flatMap_cons, List.map_cons, ← ih]
    cases d.init with
    | none => rfl
    | some e => rfl

theorem Function.mem_bound_declarator {s : Stmt} (hs : s.outline 0 ∈ f.outline.preorder)
    {d : Declarator} (hd : d ∈ s.declarators) :
    (d.name, d.init.bind fun e => (e.outline 0).constant?) ∈ f.bound := by
  refine mem_bound hs ?_
  unfold Stmt.outline
  rw [deepen_eq]
  cases s with
  | declare declarators span =>
    have hbound : (declareOutline declarators span).bound = _ :=
      declaredConstants_declarators declarators
    rw [hbound]
    exact List.mem_map.mpr ⟨d, hd, rfl⟩
  | _ => cases hd

/-- A declared variable is unknown, or its initial value is the literal of the constant it is. -/
theorem Function.bindings_declarator {s : Stmt} (hs : s.outline 0 ∈ f.outline.preorder)
    {d : Declarator} (hd : d ∈ s.declarators) :
    f.bindings[d.name]? = some .unknown ∨
      ∃ literal span c, d.init = some (.literal literal span) ∧
        Constant.ofLiteral? literal = some c ∧ f.bindings[d.name]? = some (.constant c) := by
  rcases bindings_of_bound (mem_bound_declarator hs hd) with hunknown | ⟨c, hinit, hc⟩
  · exact .inl hunknown
  · obtain ⟨e, he, hconstant⟩ := Option.bind_eq_some_iff.mp hinit
    unfold Outline.constant? at hconstant
    split at hconstant
    · rename_i literal hlabel
      obtain ⟨span, rfl⟩ := Expr.eq_literal_of_label hlabel
      exact .inr ⟨literal, span, c, he, hconstant, hc⟩
    · cases hconstant

end

/-! ## Names given from outside -/

/-- The datum that a name stands for: the last one given under the name. -/
def RunContext.datum? (context : RunContext) (name : String) : Option Datum :=
  (context.identifiers.reverse.find? fun given => given.1 = name).map Prod.snd

/-- The constant that a name stands for, if its datum is one. -/
def RunContext.constant? (context : RunContext) (name : String) : Option Constant :=
  (context.datum? name).bind Constant.ofDatum?

theorem Constants.getElem?_note (known : Constants) (given : String × Datum) (name : String) :
    (known.note given)[name]? =
      if given.1 = name then (Constant.ofDatum? given.2).or known[name]? else known[name]? := by
  unfold note
  cases Constant.ofDatum? given.2 with
  | none => simp
  | some value =>
    by_cases hname : given.1 = name
    · simp [hname]
    · simp [Std.TreeMap.getElem?_insert, hname]

/-- A name whose last datum is a constant is known by it. -/
theorem RunContext.constants_of_constant? {context : RunContext} {name : String} {c : Constant}
    (h : context.constant? name = some c) : context.constants[name]? = some c := by
  unfold constant? datum? at h
  unfold constants
  rw [← List.reverse_reverse context.identifiers, List.foldl_reverse]
  generalize context.identifiers.reverse = latest at h ⊢
  -- from the last name given to the first
  induction latest with
  | nil => cases h
  | cons given earlier ih =>
    rw [List.foldr_cons, Constants.getElem?_note]
    by_cases hname : given.1 = name
    · rw [List.find?_cons_of_pos (by simpa using hname)] at h
      have hgiven : Constant.ofDatum? given.2 = some c := h
      rw [if_pos hname, hgiven, Option.some_or]
    · rw [List.find?_cons_of_neg (by simpa using hname)] at h
      rw [if_neg hname]
      exact ih h

end MeteredScript
