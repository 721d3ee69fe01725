import Mathlib.Data.List.Forall2
import MeteredScript.Proofs.Covering

namespace MeteredScript

/-! # Every token that is read is in the tree

Readers lose, repeat and exchange no token: a tree that is laid over tokens has these tokens as its
leaves, in their order, with parentheses, commas and semicolons between them. Main statement: the leaves
of a program are the tokens that it was read from.
-/

def tokensBetween (lexemes : List Lexeme) (i j : Nat) : List Token :=
  ((lexemes.drop i).take (j - i)).map Lexeme.token

variable {lexemes : List Lexeme} {i j k : Nat}

theorem tokensBetween_cons {t : Token} (ht : (Cursor.past lexemes i).token? = some t) (hij : i < j) :
    tokensBetween lexemes i j = t :: tokensBetween lexemes (i + 1) j := by
  have hlt := Cursor.lt_length_of_token? ht
  have hcount : j - i = j - (i + 1) + 1 := by omega
  unfold Cursor.past Cursor.token? at ht
  rw [List.drop_eq_getElem_cons hlt, List.head?_cons] at ht
  rcases Option.some.inj ht with rfl
  unfold tokensBetween
  rw [List.drop_eq_getElem_cons hlt, hcount, List.take_succ_cons, List.map_cons]

theorem tokensBetween_append (hik : i ≤ k) (hkj : k ≤ j) :
    tokensBetween lexemes i j = tokensBetween lexemes i k ++ tokensBetween lexemes k j := by
  have hcount : j - i = (k - i) + (j - k) := by omega
  have hdrop : k = i + (k - i) := by omega
  unfold tokensBetween
  rw [← List.map_append, hcount, List.take_add, List.drop_drop, ← hdrop]

/-- The leaves of what is laid over tokens are these tokens, but for those that leave no trace. -/
theorem Laid.readFrom {outlines : List Outline} {leaves : List Leaf}
    (h : Laid lexemes i j outlines leaves) :
    List.Forall₂ Leaf.ReadFrom leaves (traces (tokensBetween lexemes i j)) := by
  induction h with
  | nil i =>
    unfold tokensBetween
    rw [Nat.sub_self, List.take_zero]
    exact .nil
  | skip ht hskip hrest ih =>
    rw [tokensBetween_cons ht hrest.le, traces_cons, if_neg (by simp [hskip])]
    exact ih
  | leaf ht htraced hread hrest ih =>
    rw [tokensBetween_cons ht hrest.le, traces_cons, if_pos htraced]
    exact .cons hread ih
  | node hlt _ hrest hbelow hbehind =>
    rw [tokensBetween_append (Nat.le_of_lt hlt) hrest.le, traces_append]
    exact List.rel_append hbelow hbehind

theorem Leaf.ReadFrom.normal {leaf : Leaf} {t : Token} (h : leaf.ReadFrom t) :
    t ≠ .comment ∧ ∀ body flags, t ≠ .regex body flags := by
  constructor
  · rintro rfl
    cases leaf <;> simp [ReadFrom, Token.normal?, Parse.entryKey?, Parse.memberName?] at h
  · rintro body flags rfl
    cases leaf <;> simp [ReadFrom, Token.normal?, Parse.entryKey?, Parse.memberName?] at h

/-- Comments and regular expressions are never passed, so a program that was read has none. -/
theorem normal_of_readFrom {leaves : List Leaf} {tokens : List Token}
    (h : List.Forall₂ Leaf.ReadFrom leaves (traces tokens)) :
    ∀ t ∈ tokens, t ≠ .comment ∧ ∀ body flags, t ≠ .regex body flags := by
  have hall : ∀ {ls : List Leaf} {ts : List Token}, List.Forall₂ Leaf.ReadFrom ls ts →
      ∀ t ∈ ts, t ≠ .comment ∧ ∀ body flags, t ≠ .regex body flags := by
    intro ls ts hts
    induction hts with
    | nil => simp
    | cons hleaf _ ih => exact List.forall_mem_cons.mpr ⟨hleaf.normal, ih⟩
  intro t ht
  by_cases htraced : t.isTraced = true
  · exact hall h t (List.mem_filter.mpr ⟨ht, htraced⟩)
  · -- what leaves no trace is neither
    constructor
    · rintro rfl
      exact htraced rfl
    · rintro body flags rfl
      exact htraced rfl

/-- The leaves of a program are the tokens that it was read from, in their order: every token but
parentheses, commas and semicolons is kept once. These are the tokens that the program is written
with. Regexes and comments are in no program. -/
theorem Program.leaves_readFrom_tokens {lexemes : List Lexeme} {program : Program}
    (h : Program.ofTokens? lexemes = .ok program) :
    List.Forall₂ Leaf.ReadFrom program.leaves (traces (lexemes.map Lexeme.token)) ∧
    program.leaves.map Leaf.token = traces program.tokens ∧
    ∀ lexeme ∈ lexemes,
      lexeme.token ≠ .comment ∧ ∀ body flags, lexeme.token ≠ .regex body flags := by
  have hread := (Program.laid_of_ofTokens? h).1.readFrom
  -- between the first place and the last there are all tokens
  have hall : tokensBetween lexemes 0 lexemes.length = lexemes.map Lexeme.token := by
    rw [tokensBetween, List.drop_zero, Nat.sub_zero, List.take_length]
  rw [hall] at hread
  refine ⟨hread, program.traces_tokens.symm, ?_⟩
  intro lexeme hlexeme
  exact normal_of_readFrom hread lexeme.token (List.mem_map_of_mem hlexeme)

/-- Words that are keys and names, both kinds of numbers, and much that leaves no trace:
`let t = {if: 1n, 'k': [, (a),]}; ++--t.for`. -/
def looseLexemes : List Lexeme :=
  [.keyword .letWord, .ident "t", .sign (.assign .plain), .punctuation .openBrace,
    .keyword .ifWord, .punctuation .colon, .bigInt (.ofInt 1), .punctuation .comma, .string "k",
    .punctuation .colon, .punctuation .openBracket, .punctuation .comma, .punctuation .openParen,
    .ident "a", .punctuation .closeParen, .punctuation .comma, .punctuation .closeBracket,
    .punctuation .closeBrace, .punctuation .semicolon, .sign (.update .increment),
    .sign (.update .decrement), .ident "t", .punctuation .point, .keyword .forWord].map
      fun token => ⟨token, {}, 1⟩

def looseLeaves : List Leaf :=
  [.plain (.keyword .varWord), .plain (.ident "t"), .plain (.sign (.assign .plain)),
    .plain (.punctuation .openBrace), .key "if", .plain (.punctuation .colon),
    .plain (.number (.ofInt 1)), .key "k", .plain (.punctuation .colon),
    .plain (.punctuation .openBracket), .plain (.ident "a"), .plain (.punctuation .closeBracket),
    .plain (.punctuation .closeBrace), .plain (.sign (.update .increment)),
    .plain (.sign (.update .decrement)), .plain (.ident "t"), .plain (.punctuation .point),
    .property "for"]

/-- Superfluous parentheses and commas are not kept, all other tokens are. -/
theorem looseLexemes_leaves_readFrom_tokens :
    ∃ program, Program.ofTokens? looseLexemes = .ok program ∧ program.leaves = looseLeaves ∧
      List.Forall₂ Leaf.ReadFrom program.leaves (traces (looseLexemes.map Lexeme.token)) ∧
      program.leaves.map Leaf.token = traces program.tokens := by
  have hleaves :
      (Program.ofTokens? looseLexemes).toOption.map Program.leaves = some looseLeaves := by
    decide +kernel
  cases hread : Program.ofTokens? looseLexemes with
  | error e =>
    rw [hread] at hleaves
    simp [Except.toOption] at hleaves
  | ok program =>
    rw [hread] at hleaves
    have hall := Program.leaves_readFrom_tokens hread
    exact ⟨program, rfl, Option.some.inj hleaves, hall.1, hall.2.1⟩

end MeteredScript
