import Mathlib.Data.List.Induction
import MeteredScript.Dependency
import MeteredScript.Proofs.ErrorRanges
import MeteredScript.Proofs.SourceOrder

namespace MeteredScript

/-! # The order of dependencies

A call site is a call node that calls a name, so that what is below it and not the name itself starts
behind the name. Hence of two call sites the one that a walk lists first starts first, and the calls
that tracing finds are those at the call sites in the order of their starts. Main statement:
dependencies are listed in the order in which they first occur, first at call sites with a literal and
then at call sites with a name.
-/

/-! ## First occurrences -/

/-- The members of a list, each once, in the order in which they first occur. -/
structure FirstOccurrences {α : Type} [BEq α] (xs ys : List α) : Prop where
  nodup : ys.Nodup
  mem_iff : ∀ a, a ∈ ys ↔ a ∈ xs
  in_order : ys.Pairwise fun a later => xs.idxOf a < xs.idxOf later

theorem eraseDups_append_singleton {α : Type} [BEq α] [LawfulBEq α] (xs : List α) (a : α) :
    (xs ++ [a]).eraseDups = if a ∈ xs then xs.eraseDups else xs.eraseDups ++ [a] := by
  rw [List.eraseDups_append]
  split
  · rename_i ha
    have hnone : [a].removeAll xs = [] := by simp [List.removeAll, ha]
    rw [hnone, List.eraseDups_nil, List.append_nil]
  · rename_i ha
    have hnew : [a].removeAll xs = [a] := by simp [List.removeAll, ha]
    rw [hnew, List.eraseDups_cons, List.filter_nil, List.eraseDups_nil]

theorem firstOccurrences_eraseDups {α : Type} [BEq α] [LawfulBEq α] (xs : List α) :
    FirstOccurrences xs xs.eraseDups := by
  have hin_order : xs.eraseDups.Pairwise fun a later => xs.idxOf a < xs.idxOf later := by
    induction xs using List.reverseRecOn with
    | nil => exact .nil
    | append_singleton xs a ih =>
      -- what has occurred keeps its place, and the last member is new or adds nothing
      have hkept : xs.eraseDups.Pairwise fun b later =>
          (xs ++ [a]).idxOf b < (xs ++ [a]).idxOf later := by
        refine ih.imp_of_mem ?_
        intro b later hb hlater hlt
        rw [List.idxOf_append_of_mem (List.mem_eraseDups.mp hb),
          List.idxOf_append_of_mem (List.mem_eraseDups.mp hlater)]
        exact hlt
      rw [eraseDups_append_singleton]
      split
      · exact hkept
      · rename_i ha
        refine List.pairwise_append.mpr ⟨hkept, List.pairwise_singleton _ _, ?_⟩
        intro b hb later hlater
        rcases List.mem_singleton.mp hlater with rfl
        have hb' := List.mem_eraseDups.mp hb
        rw [List.idxOf_append_of_mem hb', List.idxOf_append_of_notMem ha, List.idxOf_cons_self,
          Nat.add_zero]
        exact List.idxOf_lt_length_of_mem hb'
  refine ⟨?_, fun _ => List.mem_eraseDups, hin_order⟩
  refine hin_order.imp ?_
  rintro a _ hlt rfl
  exact Nat.lt_irrefl _ hlt

/-! ## Call sites -/

/-- What nodes with a label are as an argument. -/
inductive Label.IsArgument : Label → SiteArgument → Prop
  | literal {value : Literal} {constant : Constant} : Constant.ofLiteral? value = some constant →
      IsArgument (.literal value) (.literal constant)
  | name (name : String) : IsArgument (.ident name) (.name name)

theorem Outline.siteArgument?_eq_some {outline : Outline} {argument : SiteArgument} :
    outline.siteArgument? = some argument ↔ outline.label.IsArgument argument := by
  unfold siteArgument? constant?
  constructor
  · intro h
    split at h
    · rename_i name hlabel
      cases h
      rw [hlabel]
      exact .name name
    -- What is not a name can only be a literal that is a constant.
    · obtain ⟨constant, hconstant, rfl⟩ := Option.map_eq_some_iff.mp h
      split at hconstant
      · rename_i value hlabel
        rw [hlabel]
        exact .literal hconstant
      · cases hconstant
  · intro h
    cases hlabel : outline.label with
    | ident name =>
      rw [hlabel] at h
      cases h
      rfl
    | literal value =>
      rw [hlabel] at h
      cases h with
      | literal hconstant =>
        dsimp only
        rw [hconstant]
        rfl
    | _ =>
      rw [hlabel] at h
      cases h

theorem Outline.callSite?_eq_some {outline : Outline} {site : CallSite} :
    outline.callSite? = some site ↔
      ∃ callee first others name, outline.label = .call ∧ outline.children = callee :: first :: others ∧
        callee.label = .ident name ∧ Dependee.ofCallee? name = some site.dependee ∧
        first.label.IsArgument site.argument := by
  unfold callSite?
  constructor
  · intro h
    split at h
    -- A call with at least one argument, whose callee is a name.
    · rename_i callee first others hlabel hchildren
      split at h
      · rename_i name hname
        rcases Option.bind_eq_some_iff.mp h with ⟨dependee, hdependee, h⟩
        rcases Option.bind_eq_some_iff.mp h with ⟨argument, hargument, h⟩
        cases h
        exact ⟨callee, first, others, name, hlabel, hchildren, hname, hdependee,
          siteArgument?_eq_some.mp hargument⟩
      · cases h
    · cases h
  · rintro ⟨callee, first, others, name, hlabel, hchildren, hname, hdependee, hargument⟩
    rw [hlabel, hchildren]
    dsimp only
    rw [hname]
    dsimp only
    rw [hdependee, siteArgument?_eq_some.mpr hargument]
    rfl

namespace NodeTable

variable {table : NodeTable} {number m later : Nat}

/-- The node is a call of a name, and so reaches outside of the program, with a first argument that
can say where to. -/
inductive CallsAt (table : NodeTable) (number : Nat) : CallSite → Prop
  | call {span : Span} {callee first : Nat} {others : List Nat} {name : String}
      {calleeNode firstNode : NumberedNode} {site : CallSite} :
      table[number]? = some ⟨.call, span, callee :: first :: others⟩ →
      table[callee]? = some calleeNode → calleeNode.label = .ident name →
      Dependee.ofCallee? name = some site.dependee → table[first]? = some firstNode →
      firstNode.label.IsArgument site.argument → CallsAt table number site

theorem Unfolds.exists_node {outline : Outline} (h : table.Unfolds number outline) :
    ∃ node, table[number]? = some node ∧ node.label = outline.label := by
  rcases h with ⟨hnode, _⟩
  exact ⟨_, hnode, rfl⟩

theorem Unfolds.label_eq {outline : Outline} {node : NumberedNode} (h : table.Unfolds number outline)
    (hnode : table[number]? = some node) : node.label = outline.label := by
  rcases h.exists_node with ⟨node', hnode', hlabel⟩
  rcases Option.some.inj (hnode.symm.trans hnode') with rfl
  exact hlabel

/-- The call sites of outlines are those of the nodes that unfold to them. -/
theorem Unfolds.callSite?_eq_some {outline : Outline} {site : CallSite}
    (h : table.Unfolds number outline) :
    outline.callSite? = some site ↔ table.CallsAt number site := by
  rw [Outline.callSite?_eq_some]
  rcases h with ⟨hnode, hchildren⟩
  constructor
  · rintro ⟨callee, first, others, name, hlabel, hbelow, hname, hdependee, hargument⟩
    cases hlabel
    cases hbelow
    -- The children unfold to the callee and the first argument, whose labels are those of their nodes.
    rcases hchildren with _ | ⟨hcallee, _ | ⟨hfirst, _⟩⟩
    rcases hcallee.exists_node with ⟨calleeNode, hcalleeNode, hcalleeLabel⟩
    rcases hfirst.exists_node with ⟨firstNode, hfirstNode, hfirstLabel⟩
    refine .call hnode hcalleeNode (hcalleeLabel.trans hname) hdependee hfirstNode ?_
    rw [hfirstLabel]
    exact hargument
  · rintro ⟨hcall, hcalleeNode, hname, hdependee, hfirstNode, hargument⟩
    cases hnode.symm.trans hcall
    rcases hchildren with _ | ⟨hcallee, _ | ⟨hfirst, _⟩⟩
    rw [hcallee.label_eq hcalleeNode] at hname
    rw [hfirst.label_eq hfirstNode] at hargument
    exact ⟨_, _, _, _, rfl, rfl, hname, hdependee, hargument⟩

/-- Names have nothing below them. -/
theorem WellKinded.not_child_of_ident (h : table.WellKinded) {node : NumberedNode} {name : String}
    (hnode : table[number]? = some node) (hlabel : node.label = .ident name) (c : Nat) :
    ¬table.Child number c := by
  rintro ⟨node', hnode', hc⟩
  rcases Option.some.inj (hnode.symm.trans hnode') with rfl
  rcases h number node hnode with ⟨below, hbelow, haccepts⟩
  have hempty : below = [] := by
    rw [hlabel] at haccepts
    cases below with
    | nil => rfl
    | cons first rest => cases haccepts
  rw [hempty, List.map_nil, List.map_eq_nil_iff] at hbelow
  rw [hbelow] at hc
  cases hc

/-- Of two call sites the one that is listed first starts first. -/
theorem CallsAt.start_lt (horder : table.InSourceOrder) (hkinds : table.WellKinded)
    {site site' : CallSite} (hm : table.CallsAt m site) (hlater : table.CallsAt later site')
    (hahead : table.Ahead m later) : (table.spanOf m).start < (table.spanOf later).start := by
  rcases hahead with ⟨c, hchild, hbelow⟩ | hlt
  · cases hm with
    | @call span callee first others name calleeNode _ _ hcall hcallee hname =>
      have hcalleeChild : table.Child m callee := ⟨_, hcall, List.mem_cons_self⟩
      have hnonempty := horder.nonempty (horder.pos hcalleeChild) hcallee
      have hstart := (horder.inside hcalleeChild).1
      rcases hchild with ⟨node, hnode, hc⟩
      rcases Option.some.inj (hcall.symm.trans hnode) with rfl
      rcases List.mem_cons.mp hc with rfl | hargument
      · -- the name that is called is no call, and nothing is below it
        rcases Relation.ReflTransGen.cases_head_iff.mp hbelow with rfl | ⟨c', hc', _⟩
        · rcases hlater with ⟨hcall', _⟩
          rcases Option.some.inj (hcallee.symm.trans hcall') with rfl
          cases hname
        · exact absurd hc' (hkinds.not_child_of_ident hcallee hname c')
      · have hbehind := (List.pairwise_cons.mp (horder.apart hcall)).1 c hargument
        have hbelowStart := horder.start_le_of_below hbelow
        omega
  · exact hlt

/-! ## Calls of known destination -/

theorem UnfoldsAll.exists_unfolds {numbers : List Nat} {outlines : List Outline}
    (h : table.UnfoldsAll numbers outlines) (hnumber : number ∈ numbers) :
    ∃ outline, table.Unfolds number outline := by
  rcases List.mem_iff_getElem?.mp hnumber with ⟨slot, hslot⟩
  rcases h.exists_of_slot hslot with ⟨outline, _, hunfolds⟩
  exact ⟨outline, hunfolds⟩

/-- What is picked from outlines stands at the numbers that unfold to them. -/
theorem UnfoldsAll.exists_picked {α : Type} (pick : Outline → Option α) {numbers : List Nat}
    {outlines : List Outline} (h : table.UnfoldsAll numbers outlines) :
    ∃ picked : List (Nat × α), picked.map Prod.snd = outlines.filterMap pick ∧
      (picked.map Prod.fst).Sublist numbers ∧
      ∀ number a, (number, a) ∈ picked ↔
        number ∈ numbers ∧ ∃ outline, table.Unfolds number outline ∧ pick outline = some a := by
  induction outlines generalizing numbers with
  | nil =>
    rcases h with _ | _
    refine ⟨[], rfl, .slnil, ?_⟩
    intro number a
    simp
  | cons outline outlines ih =>
    rcases h with _ | @⟨first, numbers, _, _, hfirst, hrest⟩
    rcases ih hrest with ⟨picked, hmap, hsublist, hmem⟩
    -- A number unfolds to one outline only, so what is picked there is fixed.
    have hat (a : α) : (∃ o, table.Unfolds first o ∧ pick o = some a) ↔ pick outline = some a := by
      constructor
      · rintro ⟨o, ho, hpick⟩
        rw [hfirst.unique ho]
        exact hpick
      · intro hpick
        exact ⟨outline, hfirst, hpick⟩
    cases hpick : pick outline with
    | none =>
      refine ⟨picked, ?_, hsublist.cons first, ?_⟩
      · rw [List.filterMap_cons_none hpick, hmap]
      · intro number a
        rw [hmem, List.mem_cons]
        constructor
        · rintro ⟨hnumber, hfound⟩
          exact ⟨.inr hnumber, hfound⟩
        · rintro ⟨rfl | hnumber, hfound⟩
          · rw [hat, hpick] at hfound
            cases hfound
          · exact ⟨hnumber, hfound⟩
    | some value =>
      refine ⟨(first, value) :: picked, ?_, hsublist.cons_cons first, ?_⟩
      · rw [List.filterMap_cons_some hpick, List.map_cons, hmap]
      · intro number a
        rw [List.mem_cons, hmem, List.mem_cons]
        constructor
        · rintro (heq | ⟨hnumber, hfound⟩)
          · cases heq
            exact ⟨.inl rfl, outline, hfirst, hpick⟩
          · exact ⟨.inr hnumber, hfound⟩
        · rintro ⟨rfl | hnumber, hfound⟩
          · rw [hat, hpick] at hfound
            cases hfound
            exact .inl rfl
          · exact .inr ⟨hnumber, hfound⟩

/-- The calls of known destination in a function stand at the call sites below it, in the order of the
walk. -/
theorem Unfolds.exists_calls {root : Nat} {f : Function} (h : table.Unfolds root f.outline)
    (known : CallSite → Option KnownCall) :
    ∃ (listed : List Nat) (calls : List (Nat × KnownCall)),
      table.Walks [root] listed ∧ (calls.map Prod.fst).Sublist listed ∧
      calls.map Prod.snd = f.callSites.filterMap known ∧
      ∀ number call, (number, call) ∈ calls ↔
        table.Below root number ∧ ∃ site, table.CallsAt number site ∧ known site = some call := by
  rcases h.exists_walks with ⟨listed, hwalks, hunfolds⟩
  rcases hunfolds.exists_picked fun outline => outline.callSite?.bind known with
    ⟨calls, hmap, hsublist, hmem⟩
  refine ⟨listed, calls, hwalks, hsublist, ?_, ?_⟩
  · rw [hmap, Function.callSites, List.filterMap_filterMap]
  · intro number call
    rw [hmem, hwalks.mem_iff_below]
    constructor
    · rintro ⟨hbelow, outline, houtline, hcall⟩
      rcases Option.bind_eq_some_iff.mp hcall with ⟨site, hsite, hcall⟩
      exact ⟨hbelow, site, houtline.callSite?_eq_some.mp hsite, hcall⟩
    · rintro ⟨hbelow, site, hsite, hcall⟩
      -- Every number below the root unfolds, so the site is seen from its outline.
      rcases hunfolds.exists_unfolds ((hwalks.mem_iff_below number).mpr hbelow) with ⟨outline, houtline⟩
      refine ⟨hbelow, outline, houtline, ?_⟩
      rw [houtline.callSite?_eq_some.mpr hsite]
      exact hcall

/-- The same for functions one after the other, each with its own constants. -/
theorem exists_calls (known : Function → CallSite → Option KnownCall) (functions : List (Nat × Function))
    (h : ∀ f ∈ functions, table.Unfolds f.1 f.2.outline) :
    ∃ (listed : List Nat) (calls : List (Nat × KnownCall)),
      table.Walks (functions.map Prod.fst) listed ∧ (calls.map Prod.fst).Sublist listed ∧
      calls.map Prod.snd = functions.flatMap (fun f => f.2.callSites.filterMap (known f.2)) ∧
      ∀ number call, (number, call) ∈ calls ↔
        ∃ f ∈ functions, table.Below f.1 number ∧
          ∃ site, table.CallsAt number site ∧ known f.2 site = some call := by
  induction functions with
  | nil =>
    refine ⟨[], [], .done, .slnil, rfl, ?_⟩
    intro number call
    simp
  | cons f functions ih =>
    rcases (h f List.mem_cons_self).exists_calls (known f.2) with
      ⟨front, calls, hfront, hsublist, hmap, hmem⟩
    -- The functions are walked one behind the other, so the two lists are joined.
    rcases ih fun g hg => h g (List.mem_cons_of_mem f hg) with
      ⟨listed, others, hwalks, hsublist', hmap', hmem'⟩
    refine ⟨front ++ listed, calls ++ others, hfront.append hwalks, ?_, ?_, ?_⟩
    · rw [List.map_append]
      exact hsublist.append hsublist'
    · rw [List.map_append, hmap, hmap', List.flatMap_cons]
    · intro number call
      rw [List.mem_append, hmem, hmem', List.exists_mem_cons_iff]

end NodeTable

namespace Program

variable {program : Program}

/-- All calls of known destination at call sites in functions, in the order in which these start. -/
structure CallsInOrder (program : Program) (known : Function → CallSite → Option KnownCall)
    (calls : List (Nat × KnownCall)) : Prop where
  mem_iff : ∀ number call, (number, call) ∈ calls ↔
    ∃ f ∈ program.numberedFunctions, program.nodeTable.Below f.1 number ∧
      ∃ site, program.nodeTable.CallsAt number site ∧ known f.2 site = some call
  in_order : calls.Pairwise fun call later =>
    (program.nodeTable.spanOf call.1).start < (program.nodeTable.spanOf later.1).start

/-- Tracing finds the calls in the order in which their call sites start. -/
theorem exists_callsInOrder (horder : program.nodeTable.InSourceOrder)
    (known : Function → CallSite → Option KnownCall) :
    ∃ calls, program.CallsInOrder known calls ∧
      calls.map Prod.snd = program.functions.flatMap fun f => f.callSites.filterMap (known f) := by
  rcases NodeTable.exists_calls known program.numberedFunctions fun f hf => unfolds_function hf with
    ⟨listed, calls, hwalks, hsublist, hmap, hmem⟩
  refine ⟨calls, ⟨hmem, ?_⟩, ?_⟩
  · have hahead := (horder.pairwise_ahead hwalks (apart_functions horder)).sublist hsublist
    refine (List.pairwise_map.mp hahead).imp_of_mem ?_
    intro call later hcall hlater hahead
    rcases (hmem call.1 call.2).mp hcall with ⟨_, _, _, site, hsite, _⟩
    rcases (hmem later.1 later.2).mp hlater with ⟨_, _, _, site', hsite', _⟩
    exact hsite.start_lt horder program.wellKinded_nodeTable hsite' hahead
  · rw [hmap, ← program.map_snd_numberedFunctions, List.flatMap_map]

/-- Walking from a function comes to an end and lists the nodes of the function, as `preorder` does,
each once and in the order in which they start. The tokens that a program depends on, and the
contracts, are those named at call sites, in the order in which they first occur when the call sites
with a literal come first and those with a name that stands for a constant come second, both in the
order in which they start over all functions. -/
theorem dependencies_in_source_order {source : String} {lexemes : List Lexeme}
    (hlexemes : tokenize source = .ok lexemes) (hread : Program.ofTokens? lexemes = .ok program)
    (context : RunContext) :
    (∀ f ∈ program.numberedFunctions, ∃ listed, program.nodeTable.Walks [f.1] listed ∧
      (∀ other, program.nodeTable.Walks [f.1] other → other = listed) ∧
      program.nodeTable.UnfoldsAll listed f.2.outline.preorder ∧
      (∀ m, m ∈ listed ↔ program.nodeTable.Below f.1 m) ∧ listed.Nodup ∧
      listed.Pairwise fun m later =>
        (program.nodeTable.spanOf m).start ≤ (program.nodeTable.spanOf later).start) ∧
    program.numberedFunctions.map Prod.snd = program.functions ∧
    ∃ literal resolved : List (Nat × KnownCall),
      program.CallsInOrder (fun _ => CallSite.literal?) literal ∧
      program.CallsInOrder (fun f => CallSite.resolved? f.bindings context.constants) resolved ∧
      FirstOccurrences ((literal ++ resolved).filterMap fun call => call.2.tokenId?)
        (program.dependencies context).tokens ∧
      FirstOccurrences ((literal ++ resolved).filterMap fun call => call.2.address?)
        (program.dependencies context).contracts := by
  have horder := inSourceOrder_nodeTable (tokensOf_of_tokenize hlexemes).inOrder hread
  refine ⟨?_, program.map_snd_numberedFunctions, ?_⟩
  · intro f hf
    have hunfolds := unfolds_function hf
    have hfunctions := apart_functions horder
    -- With one number on the stack, all there is to show is that it is not the program's own.
    have hapart : program.nodeTable.Apart [f.1] := by
      refine ⟨?_, List.pairwise_singleton _ _⟩
      intro number hnumber
      rcases List.mem_singleton.mp hnumber with rfl
      exact hfunctions.1 _ (List.mem_map_of_mem hf)
    rcases hunfolds.exists_walks with ⟨listed, hwalks, hlisted⟩
    refine ⟨listed, hwalks, fun other hother => hother.unique hwalks, hlisted, hwalks.mem_iff_below,
      horder.nodup hwalks hapart, ?_⟩
    exact (horder.pairwise_ahead hwalks hapart).imp fun hahead => horder.start_le_of_ahead hahead
  · rcases exists_callsInOrder horder fun _ => CallSite.literal? with ⟨literal, hliteral, hmap⟩
    rcases exists_callsInOrder horder fun f => CallSite.resolved? f.bindings context.constants with
      ⟨resolved, hresolved, hmap'⟩
    -- The analysis lists all literal calls first and the resolved ones behind them.
    have hcalls : program.knownCalls context = (literal ++ resolved).map Prod.snd := by
      rw [List.map_append, hmap, hmap']
      rfl
    have htraced {α : Type} (name? : KnownCall → Option α) :
        (program.knownCalls context).filterMap name? =
          (literal ++ resolved).filterMap fun call => name? call.2 := by
      rw [hcalls, List.filterMap_map]
      rfl
    refine ⟨literal, resolved, hliteral, hresolved, ?_, ?_⟩
    · rw [← htraced KnownCall.tokenId?]
      exact firstOccurrences_eraseDups _
    · rw [← htraced KnownCall.address?]
      exact firstOccurrences_eraseDups _

/-- Two functions with call sites in a fallback and inside of another call site. -/
def nestedCalls : String :=
  "function f(x = executeToken(3)) { var a = 8; executeToken(a, executeToken(7)); }" ++
    "function g() { executeToken(3); }"

/-- Literals come first, although the call with a name stands in front of two of them. -/
theorem dependencies_in_source_order_nestedCalls :
    ∃ lexemes program, tokenize nestedCalls = .ok lexemes ∧ Program.ofTokens? lexemes = .ok program ∧
      (program.dependencies {}).tokens = [.ofInt 3, .ofInt 7, .ofInt 8] ∧
      ∃ literal resolved : List (Nat × KnownCall),
        program.CallsInOrder (fun _ => CallSite.literal?) literal ∧
        program.CallsInOrder (fun f => CallSite.resolved? f.bindings (RunContext.constants {}))
          resolved ∧
        FirstOccurrences ((literal ++ resolved).filterMap fun call => call.2.tokenId?)
          [.ofInt 3, .ofInt 7, .ofInt 8] := by
  have htraced : ((tokenize nestedCalls).toOption.bind fun lexemes =>
      (Program.ofTokens? lexemes).toOption.map fun program => (program.dependencies {}).tokens) =
        some [.ofInt 3, .ofInt 7, .ofInt 8] := by decide +kernel
  rcases Option.bind_eq_some_iff.mp htraced with ⟨lexemes, hlexemes, htraced⟩
  rcases Option.map_eq_some_iff.mp htraced with ⟨program, hprogram, htokens⟩
  have htokenized := eq_ok_of_toOption hlexemes
  have hread := eq_ok_of_toOption hprogram
  rcases dependencies_in_source_order htokenized hread {} with
    ⟨_, _, literal, resolved, hliteral, hresolved, hfirst, _⟩
  rw [htokens] at hfirst
  exact ⟨lexemes, program, htokenized, hread, htokens, literal, resolved, hliteral, hresolved, hfirst⟩

end Program

end MeteredScript
