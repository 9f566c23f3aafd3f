import Mathlib.Data.List.Basic
import Mathlib.Tactic.FinCases
import Reckoner.Proofs.Keystroke.Keyboard
import Reckoner.Proofs.Text.Kinds
import Reckoner.Proofs.Text.Words

/-!
# Lines of keys

Between keys of one character blanks do not matter: however such keys are spaced, a line of them types one keystroke
for each. And of any line, each word is typed as a whole or not at all (`ofLine_word_by_word`).

A word is first taken for the name of one key, and only then for a row of keys. The two readings never differ: a name
of more than one character has a character that is no key (`any_foreign_of_mem_longNames`), so a row of keys that is
also a name is a single key (`eq_toString_of_ofWord?`).
-/

namespace Reckoner.Keystroke

/-- The keystroke of a character typed by itself. -/
def ofChar? (c : Char) : Option Keystroke :=
  ofWord? c.toString

/-! ### Names of keys -/

theorem any_foreign_of_mem_longNames : ∀ name ∈ longNames, name.toList.any (!isKeyChar ·) = true := by
  decide

theorem one_lt_length_of_mem_longNames : ∀ name ∈ longNames, 1 < name.toList.length := by
  decide

theorem isBlank_eq_false_of_isKeyChar {c : Char} (h : isKeyChar c = true) : Text.isBlank c = false := by
  rw [isKeyChar, Bool.or_eq_true] at h
  rcases h with hdigit | hmem
  · exact Text.isBlank_eq_false_of_isDigit hdigit
  · rw [List.contains_iff_mem] at hmem
    fin_cases hmem <;> decide

variable {word : String} {k : Keystroke}

theorem isKeyChar_of_ofChar? {c : Char} (h : ofChar? c = some k) : isKeyChar c = true := by
  cases names_of_ofWord? h with
  | long hlong _ =>
    have hlength := one_lt_length_of_mem_longNames _ hlong
    simp at hlength
  | char c' heq hc' _ =>
    have hchars := congrArg String.toList heq
    simp only [Char.toString, String.toList_singleton, List.cons.injEq, and_true] at hchars
    rwa [hchars]

/-- A row of keys that names a key is just that key. -/
theorem eq_toString_of_ofWord? (h : ofWord? word = some k) (hkeys : ∀ c ∈ word.toList, (ofChar? c).isSome = true) :
    ∃ c : Char, word = c.toString := by
  cases names_of_ofWord? h with
  | long hlong _ =>
    obtain ⟨c, hc, hforeign⟩ := List.any_eq_true.mp (any_foreign_of_mem_longNames word hlong)
    obtain ⟨k', hk'⟩ := Option.isSome_iff_exists.mp (hkeys c hc)
    rw [isKeyChar_of_ofChar? hk'] at hforeign
    cases hforeign
  | char c hword _ _ => exact ⟨c, hword⟩

/-! ### What a word types -/

/-- What a word types: the key that it names, or else a key for each of its characters. -/
inductive Typed (word : String) : List Keystroke → Prop
  | name {k : Keystroke} (h : ofWord? word = some k) : Typed word [k]
  | chars {keys : List Keystroke} (hname : ofWord? word = none) (h : word.toList.map ofChar? = keys.map some) :
      Typed word keys

variable {keys : List Keystroke}

theorem mapM_eq_some_iff {α β : Type} {f : α → Option β} {as : List α} {bs : List β} :
    as.mapM f = some bs ↔ as.map f = bs.map some := by
  induction as generalizing bs with
  | nil => cases bs <;> simp
  | cons a as ih => cases bs <;> simp [Option.bind_eq_some_iff, ← ih]

theorem ofChars?_eq_some_iff : ofChars? word = some keys ↔ word.toList.map ofChar? = keys.map some :=
  mapM_eq_some_iff

theorem typed?_eq_some_iff : typed? word = some keys ↔ Typed word keys := by
  rw [typed?]
  constructor
  · intro h
    split at h
    · rename_i hname
      cases h
      exact .name hname
    · rename_i hname
      exact .chars hname (ofChars?_eq_some_iff.mp h)
  · rintro (hname | ⟨hname, hchars⟩)
    · simp only [hname]
    · simp only [hname]
      exact ofChars?_eq_some_iff.mpr hchars

theorem typed_of_chars (h : word.toList.map ofChar? = keys.map some) : Typed word keys := by
  cases hname : ofWord? word with
  | none => exact .chars hname h
  | some k =>
    have hkeys : ∀ c ∈ word.toList, (ofChar? c).isSome = true := by
      intro c hc
      have hmem : ofChar? c ∈ keys.map some := h ▸ List.mem_map_of_mem hc
      obtain ⟨k', -, hk'⟩ := List.mem_map.mp hmem
      rw [← hk', Option.isSome_some]
    obtain ⟨c, rfl⟩ := eq_toString_of_ofWord? hname hkeys
    have hsingle : [some k] = keys.map some := by
      rw [← h, ← hname]
      simp [ofChar?]
    obtain rfl : [k] = keys := List.map_injective_iff.mpr (Option.some_injective _) hsingle
    exact .name hname

/-! ### What a line types -/

/-- What words type one after another, and those of them that type nothing: each word is typed as a whole, or it is
unknown and adds nothing. -/
inductive WordByWord : List String → List Keystroke → List String → Prop
  | nil : WordByWord [] [] []
  | typed {word : String} {words unknown : List String} {keys rest : List Keystroke} (h : Typed word keys)
      (hrest : WordByWord words rest unknown) : WordByWord (word :: words) (keys ++ rest) unknown
  | unknown {word : String} {words unknown : List String} {rest : List Keystroke} (h : ∀ keys, ¬Typed word keys)
      (hrest : WordByWord words rest unknown) : WordByWord (word :: words) rest (word :: unknown)

variable {words unknown : List String}

theorem wordByWord_iff :
    WordByWord words keys unknown ↔
      keys = (words.flatMap fun word => (typed? word).getD []) ∧
        unknown = words.filter fun word => (typed? word).isNone := by
  constructor
  · intro h
    induction h with
    | nil => exact ⟨rfl, rfl⟩
    | typed h _ ih => simp [typed?_eq_some_iff.mpr h, ih.1, ih.2]
    | @unknown word _ _ _ h _ ih =>
      have hnone : typed? word = none := Option.eq_none_iff_forall_ne_some.mpr fun keys hkeys =>
        h keys (typed?_eq_some_iff.mp hkeys)
      simp [hnone, ih.1, ih.2]
  · rintro ⟨rfl, rfl⟩
    induction words with
    | nil => exact .nil
    | cons word words ih =>
      cases hword : typed? word with
      | some keys =>
        rw [List.flatMap_cons, hword, List.filter_cons_of_neg (by simp [hword])]
        exact .typed (typed?_eq_some_iff.mp hword) ih
      | none =>
        rw [List.flatMap_cons, hword, List.filter_cons_of_pos (by simp [hword])]
        refine .unknown (fun keys hkeys => ?_) ih
        rw [typed?_eq_some_iff.mpr hkeys] at hword
        cases hword

/-- Words all of whose characters are keys type these keys. -/
theorem wordByWord_of_chars (h : (words.flatMap String.toList).map ofChar? = keys.map some) :
    WordByWord words keys [] := by
  induction words generalizing keys with
  | nil =>
    obtain rfl : keys = [] := by simpa using h.symm
    exact .nil
  | cons word words ih =>
    rw [List.flatMap_cons, List.map_append] at h
    obtain ⟨typed, rest, rfl, htyped, hrest⟩ := List.map_eq_append_iff.mp h.symm
    exact .typed (typed_of_chars htyped.symm) (ih hrest.symm)

/-- **A line is typed word by word.** A row of keys of one character each, with any blanks between them, types one
keystroke for each, in order, and has no unknown word. And of any line, every word is typed as a whole, or it is
unknown and types nothing. -/
theorem ofLine_word_by_word :
    (∀ (chars : List Char) (keys : List Keystroke) (line : String), chars.map ofChar? = keys.map some →
      Text.Spaced chars line.toList → ofLine line = keys ∧ unknownWords line = []) ∧
      ∀ (line : String) (keys : List Keystroke) (unknown : List String),
        WordByWord (Text.words line) keys unknown ↔ keys = ofLine line ∧ unknown = unknownWords line := by
  refine ⟨fun chars keys line hkeys hspaced => ?_, fun line keys unknown => wordByWord_iff⟩
  have hblank : ∀ c ∈ chars, Text.isBlank c = false := by
    intro c hc
    have hmem : ofChar? c ∈ keys.map some := hkeys ▸ List.mem_map_of_mem hc
    obtain ⟨k, -, hk⟩ := List.mem_map.mp hmem
    exact isBlank_eq_false_of_isKeyChar (isKeyChar_of_ofChar? hk.symm)
  rw [← hspaced.filter_eq hblank, ← Text.flatMap_words] at hkeys
  obtain ⟨hline, hunknown⟩ := wordByWord_iff.mp (wordByWord_of_chars hkeys)
  exact ⟨hline.symm, hunknown.symm⟩

/-- Here a no-break space stands between two keys, and `ac` would have been another one. -/
theorem ofLine_spaced_keys :
    ['1', '×', 'c', 'C'].map ofChar? =
        [Keystroke.number (some "1"), .operator (some "×"), .clear, .clear].map some ∧
      Text.Spaced ['1', '×', 'c', 'C'] " 1×\u00a0cC".toList ∧
      ofLine " 1×\u00a0cC" = [.number (some "1"), .operator (some "×"), .clear, .clear] ∧
      unknownWords " 1×\u00a0cC" = [] := by
  have hkeys : ['1', '×', 'c', 'C'].map ofChar? =
      [Keystroke.number (some "1"), .operator (some "×"), .clear, .clear].map some := by decide
  have hspaced : Text.Spaced ['1', '×', 'c', 'C'] " 1×\u00a0cC".toList :=
    .blank (by decide) (.char '1' (.char '×' (.blank (by decide) (.char 'c' (.char 'C' .nil)))))
  exact ⟨hkeys, hspaced, ofLine_word_by_word.1 _ _ _ hkeys hspaced⟩

end Reckoner.Keystroke
