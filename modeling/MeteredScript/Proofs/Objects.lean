import MeteredScript.Proofs.DependencyOrder
import MeteredScript.Proofs.Members

namespace MeteredScript

/-! # Objects from entries

There are three ways to make an object of a list of entries: all at once on the heap, one property
after another in an object that is empty so far, and as data. `Entries.Collected` says what such an
object is without any of them: the distinct keys in the order in which they first occur, each with the
value of its last occurrence. Main statement: all three ways come to it, and a look-up in what they
make finds the value that was given last (`object_constructions_agree`).
-/

/-- There is only one list of first occurrences. -/
theorem FirstOccurrences.unique {α : Type} [BEq α] {xs ys zs : List α}
    (hys : FirstOccurrences xs ys) (hzs : FirstOccurrences xs zs) : ys = zs := by
  have hperm : ys.Perm zs := by
    refine (List.perm_ext_iff_of_nodup hys.nodup hzs.nodup).mpr ?_
    intro a
    rw [hys.mem_iff, hzs.mem_iff]
  -- both are the distinct members of the list in the same order
  refine List.Perm.eq_of_pairwise ?_ hys.in_order hzs.in_order hperm
  intro a b _ _ hab hba
  omega

namespace Entries

variable {α β : Type} {given : List (String × α)} {object : Entries α} {key : String} {value : α}

/-! ## What entries give -/

/-- The last of the entries under a key has this value. -/
def GivesLast (given : List (String × α)) (key : String) (value : α) : Prop :=
  ∃ before after, given = before ++ (key, value) :: after ∧ key ∉ keys after

/-- The object that entries make: every key once, in the order in which the keys first occur, with the
value it is given last. -/
structure Collected (given : List (String × α)) (object : Entries α) : Prop where
  keys_first : FirstOccurrences (keys given) object.keys
  values_last : ∀ entry ∈ object, GivesLast given entry.1 entry.2

/-- A look-up finds, under each key, the value that the entries give it last, and nothing under a key
that does not occur. -/
structure FindsLast (given : List (String × α)) (lookup : String → Option α) : Prop where
  found : ∀ key value, lookup key = some value ↔ GivesLast given key value
  missing : ∀ key, lookup key = none ↔ key ∉ keys given

theorem keys_append (entries rest : Entries α) : keys (entries ++ rest) = keys entries ++ keys rest :=
  List.map_append

/-- One more entry decides its own key and no other. -/
theorem givesLast_append_singleton (given : List (String × α)) (k : String) (v : α) :
    GivesLast (given ++ [(k, v)]) key value ↔
      if k = key then v = value else GivesLast given key value := by
  constructor
  · rintro ⟨before, after, hgiven, hafter⟩
    -- the entry that is given last is the new one, or stands before it
    rcases List.eq_nil_or_concat after with rfl | ⟨after, last, rfl⟩
    · obtain ⟨-, hlast⟩ := List.append_inj' hgiven rfl
      cases hlast
      rw [if_pos rfl]
    · rw [List.concat_eq_append, ← List.cons_append, ← List.append_assoc] at hgiven
      obtain ⟨rfl, hlast⟩ := List.append_inj' hgiven rfl
      cases hlast
      rw [List.concat_eq_append, keys_append, List.mem_append, not_or] at hafter
      have hk : k ≠ key := fun h => hafter.2 (h ▸ List.mem_singleton_self k)
      rw [if_neg hk]
      exact ⟨before, after, rfl, hafter.1⟩
  · intro h
    split at h
    · rename_i hk
      subst hk h
      exact ⟨given, [], rfl, List.not_mem_nil⟩
    · rename_i hk
      obtain ⟨before, after, rfl, hafter⟩ := h
      refine ⟨before, after ++ [(k, v)], by simp, ?_⟩
      rw [keys_append, List.mem_append, not_or]
      exact ⟨hafter, fun hmem => hk (List.mem_singleton.mp hmem).symm⟩

/-! ## Putting entries one after another -/

/-- The last entry is put into what the entries before it give. -/
theorem ofList_append_singleton (given : List (String × α)) (entry : String × α) :
    ofList (given ++ [entry]) = (ofList given).put entry.1 entry.2 := by
  unfold ofList
  rw [List.foldl_append]
  rfl

/-- An object has the keys of its entries, each once, in the order of their first occurrences. -/
theorem keys_ofList (given : List (String × α)) : (ofList given).keys = (keys given).eraseDups := by
  induction given using List.reverseRecOn with
  | nil => rfl
  | append_singleton given entry ih =>
    rw [ofList_append_singleton, keys_put, ih, keys_append]
    change _ = (keys given ++ [entry.1]).eraseDups
    rw [eraseDups_append_singleton]
    simp only [List.mem_eraseDups]

/-- A look-up finds the value that was given last for a key. -/
theorem get?_ofList_eq_some_iff :
    (ofList given).get? key = some value ↔ GivesLast given key value := by
  induction given using List.reverseRecOn with
  | nil =>
    constructor
    · intro h
      cases h
    · rintro ⟨before, after, hnil, -⟩
      simp at hnil
  | append_singleton given entry ih =>
    rw [ofList_append_singleton, get?_put, givesLast_append_singleton]
    split
    · exact Option.some_inj
    · exact ih

/-- A look-up finds nothing just if the key was never given. -/
theorem get?_ofList_eq_none_iff : (ofList given).get? key = none ↔ key ∉ keys given := by
  rw [← Option.not_isSome_iff_eq_none, isSome_get?_iff, keys_ofList, List.mem_eraseDups]

theorem findsLast_ofList (given : List (String × α)) :
    FindsLast given fun key => (ofList given).get? key :=
  ⟨fun _ _ => get?_ofList_eq_some_iff, fun _ => get?_ofList_eq_none_iff⟩

/-- With distinct keys every entry is found by its key. -/
theorem get?_of_mem (hnodup : object.keys.Nodup) {entry : String × α} (h : entry ∈ object) :
    object.get? entry.1 = some entry.2 := by
  induction object with
  | nil => cases h
  | cons first rest ih =>
    obtain ⟨hfirst, hrest⟩ := List.nodup_cons.mp hnodup
    unfold get?
    rcases List.mem_cons.mp h with rfl | hmem
    · exact if_pos rfl
    · have hother : first.1 ≠ entry.1 := fun heq => hfirst (heq ▸ List.mem_map_of_mem hmem)
      rw [if_neg hother]
      exact ih hrest hmem

/-- What comes of putting entries one after another is what they give. -/
theorem collected_ofList (given : List (String × α)) : Collected given (ofList given) := by
  have hkeys : FirstOccurrences (keys given) (ofList given).keys := by
    rw [keys_ofList]
    exact firstOccurrences_eraseDups _
  exact ⟨hkeys, fun _ hentry => get?_ofList_eq_some_iff.mp (get?_of_mem hkeys.nodup hentry)⟩

/-- At most one value is the last for a key. -/
theorem GivesLast.unique {value' : α} (h : GivesLast given key value)
    (h' : GivesLast given key value') : value = value' :=
  Option.some_inj.mp
    ((get?_ofList_eq_some_iff.mpr h).symm.trans (get?_ofList_eq_some_iff.mpr h'))

/-- The entries leave nothing open about the object they make. -/
theorem Collected.unique {object' : Entries α} (h : Collected given object)
    (h' : Collected given object') : object = object' := by
  have hkeys : object.keys = object'.keys := h.keys_first.unique h'.keys_first
  have hlength : object.length = object'.length := by
    simpa only [keys, List.length_map] using congrArg List.length hkeys
  refine List.ext_getElem hlength ?_
  intro i hi hi'
  have hkey : object[i].1 = object'[i].1 := by
    simpa only [keys, List.getElem_map] using List.getElem_of_eq hkeys (by simpa [keys] using hi)
  have hlast := h.values_last _ (List.getElem_mem hi)
  have hlast' := h'.values_last _ (List.getElem_mem hi')
  rw [← hkey] at hlast'
  exact Prod.ext hkey (hlast.unique hlast')

/-! ## Entries with other values -/

/-- The entries with another value under each key. -/
def mapValues (f : α → β) (entries : Entries α) : Entries β :=
  entries.map fun entry => (entry.1, f entry.2)

/-- Other values leave the keys as they are. -/
theorem keys_mapValues (f : α → β) (entries : Entries α) :
    (entries.mapValues f).keys = entries.keys := by
  unfold keys mapValues
  rw [List.map_map]
  rfl

theorem GivesLast.mapValues (h : GivesLast given key value) (f : α → β) :
    GivesLast (Entries.mapValues f given) key (f value) := by
  obtain ⟨before, after, rfl, hafter⟩ := h
  refine ⟨Entries.mapValues f before, Entries.mapValues f after, by simp [Entries.mapValues], ?_⟩
  rw [keys_mapValues]
  exact hafter

/-- What entries give does not depend on what their values are. -/
theorem Collected.mapValues (h : Collected given object) (f : α → β) :
    Collected (Entries.mapValues f given) (object.mapValues f) := by
  refine ⟨?_, ?_⟩
  · rw [keys_mapValues, keys_mapValues]
    exact h.keys_first
  · intro entry hentry
    obtain ⟨entry, hmem, rfl⟩ := List.mem_map.mp hentry
    exact (h.values_last entry hmem).mapValues f

theorem Collected.ofList_mapValues (h : Collected given object) (f : α → β) :
    ofList (Entries.mapValues f given) = object.mapValues f :=
  (collected_ofList _).unique (h.mapValues f)

end Entries

/-! ## The three constructions -/

namespace Heap

/-- Puts entries into an object, one property after another. -/
def setProperties (heap : Heap) (handle : Nat) (entries : List (String × Value)) : Heap :=
  entries.foldl (fun heap entry => heap.setProperty handle entry.1 entry.2) heap

/-- The heap with other entries in an object. -/
def withEntries (heap : Heap) (handle : Nat) (entries : Entries Value) : Heap :=
  { heap with objects := heap.objects.setIfInBounds handle entries }

variable {heap : Heap} {handle : Nat}

theorem withEntries_self {known : Entries Value} (h : heap.objects[handle]? = some known) :
    heap.withEntries handle known = heap := by
  obtain ⟨hlt, hknown⟩ := Array.getElem?_eq_some_iff.mp h
  unfold withEntries
  rw [← hknown, Array.setIfInBounds_def, dif_pos hlt, Array.set_getElem_self]

/-- A property is set in the entries of the object alone. -/
theorem setProperty_withEntries (h : handle < heap.objects.size) (known : Entries Value)
    (key : String) (value : Value) :
    (heap.withEntries handle known).setProperty handle key value =
      heap.withEntries handle (known.put key value) := by
  unfold setProperty withEntries
  congr 1
  grind

/-- Putting entries one after another goes through the objects that ever more of them make. -/
theorem setProperties_eq (h : heap.objects[handle]? = some []) (entries : List (String × Value)) :
    heap.setProperties handle entries = heap.withEntries handle (Entries.ofList entries) := by
  obtain ⟨hlt, -⟩ := Array.getElem?_eq_some_iff.mp h
  induction entries using List.reverseRecOn with
  | nil => exact (withEntries_self h).symm
  | append_singleton entries entry ih =>
    have hstep : heap.setProperties handle (entries ++ [entry]) =
        (heap.setProperties handle entries).setProperty handle entry.1 entry.2 := by
      unfold setProperties
      rw [List.foldl_append]
      rfl
    rw [hstep, ih, setProperty_withEntries hlt, Entries.ofList_append_singleton]

theorem entries_withEntries (h : handle < heap.objects.size) (entries : Entries Value) :
    (heap.withEntries handle entries).entries handle = entries := by
  unfold Heap.entries withEntries
  rw [Array.getElem?_setIfInBounds_self_of_lt h]
  rfl

/-- An empty object that gets all entries one by one is the object that is made of them at once. -/
theorem setProperties_addObject (heap : Heap) (entries : List (String × Value)) :
    (heap.addObject []).1.setProperties heap.objects.size entries = (heap.addObject entries).1 := by
  have hempty : (heap.addObject []).1.objects[heap.objects.size]? = some [] := by
    unfold addObject
    exact Array.getElem?_push_size
  rw [setProperties_eq hempty]
  unfold withEntries addObject
  dsimp only
  congr 1
  grind

/-- A look-up in an object on the heap finds what was given last. -/
theorem findsLast_property? {given : List (String × Value)}
    (h : heap.entries handle = Entries.ofList given) :
    Entries.FindsLast given (heap.property? handle) := by
  change Entries.FindsLast given fun key => (heap.entries handle).get? key
  rw [h]
  exact Entries.findsLast_ofList given

end Heap

open Entries

/-- Entries make one and the same object, whether they are added to the heap at once, put one after
another into an object that is empty so far, or taken as data: the distinct keys in the order in which
they first occur, each with its last value. What a key is given last is what a look-up finds under it,
and nothing is found under a key that does not occur. -/
theorem object_constructions_agree {α : Type} (given : List (String × α)) (asValue : α → Value)
    (asDatum : α → Datum) (heap : Heap) :
    ∃ object : Entries α,
      Collected given object ∧ (∀ other, Collected given other → other = object) ∧
      (heap.addObject (mapValues asValue given) =
          ({ heap with objects := heap.objects.push (object.mapValues asValue) },
            .object heap.objects.size) ∧
        FindsLast (mapValues asValue given)
          ((heap.addObject (mapValues asValue given)).1.property? heap.objects.size)) ∧
      (∀ handle, heap.objects[handle]? = some [] →
        heap.setProperties handle (mapValues asValue given) =
            heap.withEntries handle (object.mapValues asValue) ∧
          FindsLast (mapValues asValue given)
            ((heap.setProperties handle (mapValues asValue given)).property? handle)) ∧
      (heap.addObject []).1.setProperties heap.objects.size (mapValues asValue given) =
        (heap.addObject (mapValues asValue given)).1 ∧
      Datum.ofEntries (mapValues asDatum given) = .object (object.mapValues asDatum) ∧
      FindsLast (mapValues asDatum given)
        fun key => (Datum.ofEntries (mapValues asDatum given)).get? key := by
  have hcollected := collected_ofList given
  have hvalues := hcollected.ofList_mapValues asValue
  have hdata := hcollected.ofList_mapValues asDatum
  refine ⟨ofList given, hcollected, fun other hother => hother.unique hcollected, ⟨?_, ?_⟩, ?_,
    heap.setProperties_addObject _, congrArg Datum.object hdata, findsLast_ofList _⟩
  · unfold Heap.addObject
    rw [hvalues]
  · apply Heap.findsLast_property?
    rw [Heap.entries_addObject, if_pos rfl]
  -- an object that is there already and empty is filled in place
  · intro handle hempty
    obtain ⟨hlt, -⟩ := Array.getElem?_eq_some_iff.mp hempty
    have hset := Heap.setProperties_eq hempty (mapValues asValue given)
    refine ⟨hset.trans (congrArg _ hvalues), Heap.findsLast_property? ?_⟩
    rw [hset, Heap.entries_withEntries hlt]

/-- Entries that come back to their first key. -/
def repeatedKey : List (String × String) := [("b", "first"), ("a", "only"), ("b", "last")]

/-- A heap with an object that is not empty and one that is. -/
def secondEmpty : Heap := { objects := #[[("kept", .null)], []] }

theorem object_constructions_agree_repeatedKey :
    secondEmpty.objects[1]? = some [] ∧ Collected repeatedKey [("b", "last"), ("a", "only")] ∧
      secondEmpty.addObject (mapValues .string repeatedKey) =
        ({ objects := #[[("kept", .null)], [], [("b", .string "last"), ("a", .string "only")]] },
          .object 2) ∧
      secondEmpty.setProperties 1 (mapValues .string repeatedKey) =
        { objects := #[[("kept", .null)], [("b", .string "last"), ("a", .string "only")]] } ∧
      Datum.ofEntries (mapValues .string repeatedKey) =
        .object [("b", .string "last"), ("a", .string "only")] := by
  have hempty : secondEmpty.objects[1]? = some [] := rfl
  have hcollected : Collected repeatedKey [("b", "last"), ("a", "only")] := by
    refine ⟨⟨by decide, ?_, by decide⟩, ?_⟩
    · intro key
      change key ∈ ["b", "a"] ↔ key ∈ ["b", "a", "b"]
      grind
    -- of the two entries for one key the last counts, and nothing is behind it
    · intro entry hentry
      rcases List.mem_cons.mp hentry with rfl | hentry
      · exact ⟨[("b", "first"), ("a", "only")], [], rfl, List.not_mem_nil⟩
      · rcases List.mem_singleton.mp hentry with rfl
        exact ⟨[("b", "first")], [("b", "last")], rfl, by decide⟩
  obtain ⟨object, -, hunique, ⟨hadded, -⟩, hset, -, hdata, -⟩ :=
    object_constructions_agree repeatedKey .string .string secondEmpty
  rcases hunique _ hcollected with rfl
  exact ⟨hempty, hcollected, hadded, (hset 1 hempty).1, hdata⟩

end MeteredScript
