import MeteredScript.Datum
import MeteredScript.Proofs.CanonicalText

namespace MeteredScript

/-! # Reading data back

The text of data quotes the strings in it, and separates numbers, words and containers by commas and
brackets. Main statement: there is a reader that takes the text of any data but a bare string back to
this data. So different arrays and objects have different texts, whatever their strings hold.
-/

open Text

namespace Datum

/-! ## Induction on data -/

/-- What holds of all that is not nested, and of arrays and objects if it holds of what is in them,
holds of all data. -/
@[elab_as_elim]
theorem nestedInduction {P : Datum → Prop} (d : Datum) (number : ∀ value, P (number value))
    (nan : P nan) (string : ∀ value, P (string value)) (boolean : ∀ value, P (boolean value))
    (null : P null) (undefined : P undefined)
    (array : ∀ items, (∀ item ∈ items, P item) → P (array items))
    (object : ∀ entries, (∀ entry ∈ entries, P entry.2) → P (object entries)) : P d := by
  match d with
  | .number value => exact number value
  | .nan => exact nan
  | .string value => exact string value
  | .boolean value => exact boolean value
  | .null => exact null
  | .undefined => exact undefined
  -- The two lists of smaller data are why the recursor of the type is of no use.
  | .array items =>
    apply array
    intro item hitem
    have hsize := List.sizeOf_lt_of_mem hitem
    exact nestedInduction item number nan string boolean null undefined array object
  | .object entries =>
    apply object
    intro entry hentry
    have hsize := List.sizeOf_lt_of_mem hentry
    exact nestedInduction entry.2 number nan string boolean null undefined array object
termination_by sizeOf d
decreasing_by
  · simp only [Datum.array.sizeOf_spec]
    omega
  · obtain ⟨key, value⟩ := entry
    simp only [Datum.object.sizeOf_spec, Prod.mk.sizeOf_spec] at hsize ⊢
    omega

/-! ## The characters of data -/

/-- What is written for data that is inside of other data. -/
def nestedChars (d : Datum) : List Char := (writeAt 0 "" d).toList

/-- What is written for an entry of an object. -/
def entryChars (entry : String × Datum) : List Char :=
  (quote entry.1).toList ++ ':' :: nestedChars entry.2

/-- Elements with commas between them, up to a closing bracket. -/
def listChars {α : Type} (spell : α → List Char) (close : Char) : List α → List Char
  | [] => [close]
  | x :: xs => spell x ++ xs.flatMap (fun x => ',' :: spell x) ++ [close]

/-- Data is written behind what has been written already. -/
def Appends (d : Datum) : Prop :=
  ∀ level out, (writeAt level out d).toList = out.toList ++ nestedChars d

/-- Items are written behind what there is, with commas between them. -/
theorem toList_writeItems {items : List Datum} (hitems : ∀ item ∈ items, item.Appends)
    (level : Nat) (out : String) :
    (writeItems level out items ++ "]").toList = out.toList ++ listChars nestedChars ']' items := by
  cases items with
  | nil =>
    rw [writeItems, String.toList_append]
    rfl
  | cons item rest =>
    induction rest generalizing item out with
    | nil =>
      have hitem := hitems item List.mem_cons_self level out
      rw [writeItems, String.toList_append, hitem]
      simp [listChars]
    | cons next rest ih =>
      obtain ⟨hitem, hrest⟩ := List.forall_mem_cons.mp hitems
      rw [writeItems, ih _ next hrest, String.toList_append, hitem level out]
      · simp [listChars]
      · simp

theorem toList_writeEntries {entries : List (String × Datum)}
    (hentries : ∀ entry ∈ entries, entry.2.Appends) (level : Nat) (out : String) :
    (writeEntries level out entries ++ "\x7d").toList =
      out.toList ++ listChars entryChars '\x7d' entries := by
  cases entries with
  | nil =>
    rw [writeEntries, String.toList_append]
    rfl
  | cons entry rest =>
    -- The induction is on the entries behind the first, as only they come with a comma.
    induction rest generalizing entry out with
    | nil =>
      obtain ⟨key, value⟩ := entry
      have hvalue := hentries _ List.mem_cons_self level (out ++ quote key ++ ":")
      rw [writeEntries, String.toList_append, hvalue]
      simp [listChars, entryChars]
    | cons next rest ih =>
      obtain ⟨key, value⟩ := entry
      obtain ⟨hvalue, hrest⟩ := List.forall_mem_cons.mp hentries
      have hvalue := hvalue level (out ++ quote key ++ ":")
      rw [writeEntries, ih _ next hrest, String.toList_append, hvalue]
      · simp [listChars, entryChars]
      · simp

/-- Data is written behind what there is. -/
theorem toList_writeAt (d : Datum) : d.Appends := by
  intro level out
  induction d using nestedInduction generalizing level out with
  | number value => simp [nestedChars, writeAt]
  | nan => simp [nestedChars, writeAt]
  | string value => simp [nestedChars, writeAt]
  | boolean value => simp [nestedChars, writeAt]
  | null => simp [nestedChars, writeAt]
  | undefined => simp [nestedChars, writeAt]
  | array items ih =>
    rw [nestedChars, writeAt, writeAt, deepen_eq, deepen_eq, toList_writeItems ih,
      toList_writeItems ih]
    simp
  | object entries ih =>
    rw [nestedChars, writeAt, writeAt, deepen_eq, deepen_eq, toList_writeEntries ih,
      toList_writeEntries ih]
    simp

theorem nestedChars_number (value : Decimal) : nestedChars (number value) = value.toChars := by
  rw [nestedChars, writeAt, String.toList_append, String.toList_empty, List.nil_append,
    Decimal.toList_text]

theorem nestedChars_string (value : String) : nestedChars (string value) = (quote value).toList := by
  rw [nestedChars, writeAt, String.toList_append, String.toList_empty, List.nil_append]

theorem nestedChars_array (items : List Datum) :
    nestedChars (array items) = '[' :: listChars nestedChars ']' items := by
  rw [nestedChars, writeAt, deepen_eq, toList_writeItems fun item _ => toList_writeAt item]
  rfl

theorem nestedChars_object (entries : List (String × Datum)) :
    nestedChars (object entries) = '\x7b' :: listChars entryChars '\x7d' entries := by
  rw [nestedChars, writeAt, deepen_eq, toList_writeEntries fun entry _ => toList_writeAt entry.2]
  rfl

/-- The text of data is its characters, a bare string apart. -/
theorem toList_text {d : Datum} (hd : d.string? = none) : d.text.toList = nestedChars d := by
  cases d with
  | string value => simp [string?] at hd
  | _ => rfl

/-! ## The reader -/

/-- Reads up to the closing quote. A backslash stands in front of the character that is meant. -/
def unquote : List Char → Option (List Char × List Char)
  | '"' :: rest => some ([], rest)
  | '\\' :: c :: rest => (unquote rest).map fun (cs, rest) => (c :: cs, rest)
  | c :: rest => (unquote rest).map fun (cs, rest) => (c :: cs, rest)
  | [] => none

/-- Whether a character can be in a number. -/
def isNumberChar (c : Char) : Bool := isDigit c || c = '-' || c = '.'

def readScalar : List Char → Option (Datum × List Char)
  | 'N' :: 'a' :: 'N' :: rest => some (nan, rest)
  | 't' :: 'r' :: 'u' :: 'e' :: rest => some (boolean true, rest)
  | 'f' :: 'a' :: 'l' :: 's' :: 'e' :: rest => some (boolean false, rest)
  | 'n' :: 'u' :: 'l' :: 'l' :: rest => some (null, rest)
  | 'u' :: 'n' :: 'd' :: 'e' :: 'f' :: 'i' :: 'n' :: 'e' :: 'd' :: rest => some (undefined, rest)
  | cs =>
    if cs.head?.any isNumberChar then
      (Decimal.ofChars (cs.takeWhile isNumberChar)).toOption.join.map fun value =>
        (number value, cs.dropWhile isNumberChar)
    else none

/-- Reads further elements, each behind a comma, up to a closing bracket. -/
def readTail {α : Type} (read : List Char → Option (α × List Char)) (close : Char) :
    Nat → List Char → Option (List α × List Char)
  | n + 1, c :: cs =>
    if c = close then some ([], cs)
    else if c = ',' then do
      let (x, cs) ← read cs
      let (xs, cs) ← readTail read close n cs
      return (x :: xs, cs)
    else none
  | _, _ => none

/-- Reads elements with commas between them, up to a closing bracket. -/
def readList {α : Type} (read : List Char → Option (α × List Char)) (close : Char) (n : Nat)
    (cs : List Char) : Option (List α × List Char) :=
  if cs.head? = some close then some ([], cs.tail) else readTail read close n (',' :: cs)

/-- Reads a key in quotes and the value behind a colon. -/
def readEntry (read : List Char → Option (Datum × List Char)) :
    List Char → Option ((String × Datum) × List Char)
  | '"' :: cs => do
    let (key, cs) ← unquote cs
    if cs.head? = some ':' then
      let (value, cs) ← read cs.tail
      return ((String.ofList key, value), cs)
    else none
  | _ => none

/-- Reads data that has at most as many characters as the bound says. -/
def readAt : Nat → List Char → Option (Datum × List Char)
  | 0, _ => none
  | _ + 1, '"' :: cs => (unquote cs).map fun (value, cs) => (string (String.ofList value), cs)
  | n + 1, '[' :: cs =>
    (readList (fun cs => readAt n cs) ']' (n + 1) cs).map fun (items, cs) => (array items, cs)
  | n + 1, '\x7b' :: cs =>
    (readList (readEntry fun cs => readAt n cs) '\x7d' (n + 1) cs).map fun (entries, cs) =>
      (object entries, cs)
  | _ + 1, cs => readScalar cs

/-- Reads a text that consists of one piece of data. -/
def read? (text : String) : Option Datum := do
  let (d, rest) ← readAt text.toList.length text.toList
  if rest = [] then return d else none

/-! ## Strings and scalars -/

/-- Escaped characters are read back, up to the closing quote. -/
theorem unquote_escape (cs rest : List Char) :
    unquote (cs.flatMap escapeChar ++ '"' :: rest) = some (cs, rest) := by
  -- a character is escaped with a backslash in front, which is looked at first
  induction cs with
  | nil => rfl
  | cons c cs ih =>
    rw [List.flatMap_cons, List.append_assoc, escapeChar]
    split
    · rw [List.cons_append, List.singleton_append, unquote, ih]
      rfl
    · rename_i hplain
      obtain ⟨hquote, hslash⟩ := not_or.mp hplain
      rw [List.singleton_append, unquote, ih]
      · rfl
      · exact hquote
      · intro _ _ hc
        exact absurd hc hslash

/-- A quoted text is read back. -/
theorem unquote_quote (s : String) (rest : List Char) :
    ∃ cs, (quote s).toList ++ rest = '"' :: cs ∧ unquote cs = some (s.toList, rest) := by
  refine ⟨s.toList.flatMap escapeChar ++ '"' :: rest, ?_, unquote_escape _ _⟩
  simp [quote]

/-- Text that no number continues in. -/
def Ends (rest : List Char) : Prop := rest.head?.any isNumberChar = false

/-- A number is written in digits, a sign and a point. -/
theorem isNumberChar_of_mem_toChars (value : Decimal) :
    ∀ c ∈ value.toChars, isNumberChar c = true := by
  refine value.forall_mem_toChars ?_ (by decide) (by decide)
  intro c hc
  rw [isNumberChar, hc]
  rfl

theorem exists_toChars_eq_cons (value : Decimal) :
    ∃ c cs, value.toChars = c :: cs ∧ isNumberChar c = true := by
  obtain ⟨c, cs, hchars⟩ := List.exists_cons_of_ne_nil (Decimal.toChars_ne_nil value)
  have hc := isNumberChar_of_mem_toChars value c (hchars ▸ List.mem_cons_self)
  exact ⟨c, cs, hchars, hc⟩

/-- A number is read back where its characters end. -/
theorem readScalar_number (value : Decimal) {rest : List Char} (hrest : Ends rest) :
    readScalar (value.toChars ++ rest) = some (number value, rest) := by
  have hnumber := isNumberChar_of_mem_toChars value
  obtain ⟨c, cs, hchars, hc⟩ := exists_toChars_eq_cons value
  have htake : rest.takeWhile isNumberChar = [] ∧ rest.dropWhile isNumberChar = rest := by
    cases rest with
    | nil => exact ⟨rfl, rfl⟩
    | cons next rest =>
      have hnext : isNumberChar next = false := hrest
      simp [hnext]
  have hhead : (value.toChars ++ rest).head?.any isNumberChar = true := by
    rw [hchars]
    exact hc
  unfold readScalar
  split
  case h_6 =>
    rw [if_pos hhead, List.takeWhile_append_of_pos hnumber, List.dropWhile_append_of_pos hnumber,
      htake.1, htake.2, List.append_nil, Decimal.ofChars_toChars]
    rfl
  -- words start with letters
  all_goals
    rename_i hword
    rw [hword] at hhead
    exact absurd hhead Bool.false_ne_true

/-- Where numbers start, neither strings nor containers do. -/
theorem readAt_number (value : Decimal) {rest : List Char} (hrest : Ends rest) (n : Nat) :
    readAt (n + 1) (value.toChars ++ rest) = some (number value, rest) := by
  rw [← readScalar_number value hrest]
  obtain ⟨c, cs, hchars, hc⟩ := exists_toChars_eq_cons value
  rw [hchars, List.cons_append, readAt]
  all_goals
    intro cs hcs
    obtain ⟨rfl, -⟩ := List.cons.inj hcs
    exact absurd hc (by decide)

/-! ## Lists -/

/-- The reader recognizes what is spelled for `x`, whatever is behind it. -/
def Reads {α : Type} (read : List Char → Option (α × List Char)) (spell : α → List Char) (x : α) :
    Prop :=
  ∀ rest, Ends rest → read (spell x ++ rest) = some (x, rest)

section

variable {α : Type} {read : List Char → Option (α × List Char)} {spell : α → List Char}
  {close : Char} {xs : List α}

/-- The text of a list is longer than that of each item. -/
theorem length_lt_listChars {x : α} (hx : x ∈ xs) :
    (spell x).length < (listChars spell close xs).length := by
  cases xs with
  | nil => simp at hx
  | cons first xs =>
    rw [listChars, List.length_append, List.length_append]
    rcases List.mem_cons.mp hx with rfl | hx
    · simp only [List.length_singleton]
      omega
    · have hsub : (',' :: spell x).length ≤ (xs.flatMap fun x => ',' :: spell x).length :=
        List.Sublist.length_le (List.sublist_flatten_of_mem (List.mem_map_of_mem hx))
      simp only [List.length_cons] at hsub ⊢
      omega

/-- A list has at least as many characters as items. -/
theorem length_le_listChars : xs.length ≤ (listChars spell close xs).length := by
  cases xs with
  | nil => simp
  | cons first xs =>
    have hcommas : xs.length ≤ (xs.flatMap fun x => ',' :: spell x).length := by
      induction xs with
      | nil => simp
      | cons x xs ih => simp; omega
    simp only [listChars, List.length_append, List.length_cons, List.length_nil]
    omega

/-- The items behind commas are read back. -/
theorem readTail_flatMap (hread : ∀ x ∈ xs, Reads read spell x)
    (hclose : close = ']' ∨ close = '\x7d') {n : Nat} (hn : xs.length < n) (rest : List Char) :
    readTail read close n (xs.flatMap (fun x => ',' :: spell x) ++ close :: rest) =
      some (xs, rest) := by
  induction xs generalizing n with
  | nil =>
    obtain ⟨n, rfl⟩ := Nat.exists_eq_succ_of_ne_zero (Nat.ne_of_gt hn)
    simp [readTail]
  | cons x xs ih =>
    obtain ⟨n, rfl⟩ := Nat.exists_eq_succ_of_ne_zero (Nat.ne_zero_of_lt hn)
    obtain ⟨hx, hxs⟩ := List.forall_mem_cons.mp hread
    have hcomma : ',' ≠ close := by
      rcases hclose with rfl | rfl <;> decide
    -- behind an element there is a comma or the bracket
    have hends : Ends (xs.flatMap (fun x => ',' :: spell x) ++ close :: rest) := by
      cases xs with
      | nil => rcases hclose with rfl | rfl <;> rfl
      | cons next xs => rfl
    have hrest := ih hxs (Nat.lt_of_succ_lt_succ hn)
    rw [List.flatMap_cons, List.cons_append, List.cons_append, List.append_assoc, readTail,
      if_neg hcomma, if_pos rfl, hx _ hends]
    simp [hrest]

/-- A list is read back if its items are and none begins with the closing bracket. -/
theorem readList_listChars (hread : ∀ x ∈ xs, Reads read spell x)
    (hhead : ∀ x ∈ xs, ∃ c cs, spell x = c :: cs ∧ c ≠ close)
    (hclose : close = ']' ∨ close = '\x7d') {n : Nat} (hn : xs.length < n) (rest : List Char) :
    readList read close n (listChars spell close xs ++ rest) = some (xs, rest) := by
  cases xs with
  | nil => simp [listChars, readList]
  | cons x xs =>
    have htail := readTail_flatMap hread hclose hn rest
    obtain ⟨c, cs, hspell, hc⟩ := hhead x List.mem_cons_self
    have hopen : (listChars spell close (x :: xs) ++ rest).head? ≠ some close := by
      simpa [listChars, hspell] using hc
    have hchars : ',' :: (listChars spell close (x :: xs) ++ rest) =
        (x :: xs).flatMap (fun x => ',' :: spell x) ++ close :: rest := by
      simp [listChars]
    rw [readList, if_neg hopen, hchars, htail]

end

/-! ## The round trip -/

theorem reads_entry {read : List Char → Option (Datum × List Char)} {entry : String × Datum}
    (h : Reads read nestedChars entry.2) : Reads (readEntry read) entryChars entry := by
  intro rest hrest
  obtain ⟨cs, hquote, hcs⟩ := unquote_quote entry.1 (':' :: nestedChars entry.2 ++ rest)
  rw [entryChars, List.append_assoc, hquote, readEntry, hcs]
  simp [h rest hrest]

/-- No data begins with a closing bracket. -/
theorem exists_nestedChars_eq_cons (d : Datum) : ∃ c cs, nestedChars d = c :: cs ∧ c ≠ ']' := by
  cases d with
  | number value =>
    obtain ⟨c, cs, hchars, hc⟩ := exists_toChars_eq_cons value
    refine ⟨c, cs, (nestedChars_number value).trans hchars, ?_⟩
    rintro rfl
    exact absurd hc (by decide)
  -- The first letter of each word, and the opening bracket or quote of the rest.
  | nan => exact ⟨'N', _, rfl, by decide⟩
  | string value =>
    obtain ⟨cs, hquote, -⟩ := unquote_quote value []
    rw [List.append_nil] at hquote
    exact ⟨'"', cs, (nestedChars_string value).trans hquote, by decide⟩
  | boolean value =>
    cases value with
    | true => exact ⟨'t', _, rfl, by decide⟩
    | false => exact ⟨'f', _, rfl, by decide⟩
  | null => exact ⟨'n', _, rfl, by decide⟩
  | undefined => exact ⟨'u', _, rfl, by decide⟩
  | array items => exact ⟨'[', _, nestedChars_array items, by decide⟩
  | object entries => exact ⟨'\x7b', _, nestedChars_object entries, by decide⟩

theorem one_le_length_nestedChars (d : Datum) : 1 ≤ (nestedChars d).length := by
  obtain ⟨c, cs, hchars, -⟩ := exists_nestedChars_eq_cons d
  rw [hchars]
  exact Nat.succ_le_succ (Nat.zero_le _)

/-- Data is read back if the bound is not below the number of its characters. -/
theorem reads_nestedChars (d : Datum) {n : Nat} (hn : (nestedChars d).length ≤ n) :
    Reads (readAt n) nestedChars d := by
  obtain ⟨n, rfl⟩ := Nat.exists_eq_add_of_le' (Nat.le_trans (one_le_length_nestedChars d) hn)
  induction d using nestedInduction generalizing n with
  | number value =>
    intro rest hrest
    rw [nestedChars_number, readAt_number value hrest]
  | nan => exact fun _ _ => rfl
  | string value =>
    intro rest hrest
    obtain ⟨cs, hquote, hcs⟩ := unquote_quote value rest
    rw [nestedChars_string, hquote, readAt, hcs]
    simp
  | boolean value => cases value <;> exact fun _ _ => rfl
  | null => exact fun _ _ => rfl
  | undefined => exact fun _ _ => rfl
  | array items ih =>
    intro rest hrest
    rw [nestedChars_array, List.length_cons] at hn
    -- the items are shorter than the list, so the bound suffices for them
    have hread : ∀ item ∈ items, Reads (readAt n) nestedChars item := by
      intro item hitem
      have hlt : (nestedChars item).length < (listChars nestedChars ']' items).length :=
        length_lt_listChars hitem
      obtain ⟨m, rfl⟩ := Nat.exists_eq_add_of_le' (show 1 ≤ n by omega)
      exact ih item hitem m (by omega)
    have hlength : items.length ≤ (listChars nestedChars ']' items).length := length_le_listChars
    have hlist := readList_listChars hread (fun item _ => exists_nestedChars_eq_cons item) (.inl rfl)
      (show items.length < n + 1 by omega) rest
    rw [nestedChars_array, List.cons_append, readAt, hlist]
    rfl
  | object entries ih =>
    intro rest hrest
    rw [nestedChars_object, List.length_cons] at hn
    have hread : ∀ entry ∈ entries, Reads (readEntry (readAt n)) entryChars entry := by
      intro entry hentry
      apply reads_entry
      have hlt : (entryChars entry).length < (listChars entryChars '\x7d' entries).length :=
        length_lt_listChars hentry
      rw [entryChars, List.length_append, List.length_cons] at hlt
      obtain ⟨m, rfl⟩ := Nat.exists_eq_add_of_le' (show 1 ≤ n by omega)
      exact ih entry hentry m (by omega)
    -- an entry begins with a quote
    have hquote : ∀ entry ∈ entries, ∃ c cs, entryChars entry = c :: cs ∧ c ≠ '\x7d' := by
      intro entry _
      obtain ⟨cs, hcs, -⟩ := unquote_quote entry.1 (':' :: nestedChars entry.2)
      exact ⟨'"', cs, hcs, by decide⟩
    have hlength : entries.length ≤ (listChars entryChars '\x7d' entries).length :=
      length_le_listChars
    have hlist := readList_listChars hread hquote (.inr rfl)
      (show entries.length < n + 1 by omega) rest
    rw [nestedChars_object, List.cons_append, readAt, hlist]
    rfl

theorem read?_text {d : Datum} (hd : d.string? = none) : read? d.text = some d := by
  have hread := reads_nestedChars d (Nat.le_refl _) [] rfl
  rw [List.append_nil] at hread
  rw [read?, toList_text hd, hread]
  rfl

/-- The texts of data other than bare strings can be read back, so that equal texts are those of
equal data. -/
theorem text_eq_iff {v w : Datum} (hv : v.string? = none) (hw : w.string? = none) :
    read? v.text = some v ∧ (v.text = w.text ↔ v = w) := by
  refine ⟨read?_text hv, ?_, congrArg text⟩
  intro htext
  have hread := read?_text hv
  rw [htext, read?_text hw] at hread
  exact (Option.some.inj hread).symm

/-- One string with a comma between quotes, and two strings with a comma between them. -/
theorem text_eq_iff_comma :
    (array [string "a\",\"b"]).string? = none ∧ (array [string "a", string "b"]).string? = none ∧
    (array [string "a\",\"b"]).text = "[\"a\\\",\\\"b\"]" ∧
    (array [string "a", string "b"]).text = "[\"a\",\"b\"]" ∧
    read? "[\"a\\\",\\\"b\"]" = some (array [string "a\",\"b"]) ∧
    (array [string "a\",\"b"]).text ≠ (array [string "a", string "b"]).text := by
  have hone : (array [string "a\",\"b"]).text = "[\"a\\\",\\\"b\"]" := by decide +kernel
  have htwo : (array [string "a", string "b"]).text = "[\"a\",\"b\"]" := by decide +kernel
  have hv : (array [string "a\",\"b"]).string? = none := rfl
  have hw : (array [string "a", string "b"]).string? = none := rfl
  obtain ⟨hread, hiff⟩ := text_eq_iff hv hw
  refine ⟨hv, hw, hone, htwo, hone ▸ hread, ?_⟩
  intro htext
  simpa using hiff.mp htext

end Datum

end MeteredScript
