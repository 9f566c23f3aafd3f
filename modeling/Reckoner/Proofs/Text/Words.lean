import Reckoner.Text.Blank

/-!
# Words of a text

A blank parts a text: its words are those in front of the blank and those behind it (`words_append`). What is not
empty and has no blanks is one word (`words_of_forall_not_blank`). Together the words are the text without its blanks
(`flatMap_words`), so blanks put between characters leave the characters of the words as they are (`Spaced`).
-/

namespace Reckoner.Text

theorem words_append (text more : String) {blank : Char} (hblank : isBlank blank = true) :
    words (text ++ String.singleton blank ++ more) = words text ++ words more := by
  have hchars : (text ++ String.singleton blank ++ more).toList = text.toList ++ blank :: more.toList := by simp
  rw [words, hchars, List.splitOnP_append_cons _ _ hblank, List.filter_append, List.map_append]
  rfl

theorem words_of_forall_not_blank {word : String} (hne : word ≠ "") (h : ∀ c ∈ word.toList, isBlank c = false) :
    words word = [word] := by
  have hchars : word.toList ≠ [] := by simpa using hne
  rw [words, List.splitOnP_eq_singleton fun c hc => by simp [h c hc]]
  simp [hchars]

theorem flatten_splitOnP {α : Type} (p : α → Bool) (l : List α) : (l.splitOnP p).flatten = l.filter (!p ·) := by
  induction l with
  | nil => rfl
  | cons a l ih =>
    rw [List.splitOnP_cons_eq_if_modifyHead]
    by_cases ha : p a = true
    · simp [ha, ih]
    · obtain ⟨first, rest, hl⟩ := List.exists_cons_of_ne_nil (List.splitOnP_ne_nil p l)
      rw [hl, List.flatten_cons] at ih
      rw [if_neg ha, hl, List.modifyHead_cons, List.flatten_cons, List.cons_append, ih,
        List.filter_cons_of_pos (by simpa using ha)]

theorem flatMap_words (text : String) : (words text).flatMap String.toList = text.toList.filter (!isBlank ·) := by
  rw [words, List.flatMap_map, ← flatten_splitOnP isBlank, ← List.flatten_filter_not_isEmpty]
  simp [List.flatMap_def]

/-- `Spaced chars text`: the text is the characters in order, with any blanks in front of them, between them and
behind them. -/
inductive Spaced : List Char → List Char → Prop
  | nil : Spaced [] []
  | char (c : Char) {chars text : List Char} (h : Spaced chars text) : Spaced (c :: chars) (c :: text)
  | blank {c : Char} {chars text : List Char} (hc : isBlank c = true) (h : Spaced chars text) :
      Spaced chars (c :: text)

theorem Spaced.filter_eq {chars text : List Char} (h : Spaced chars text) (hchars : ∀ c ∈ chars, isBlank c = false) :
    text.filter (!isBlank ·) = chars := by
  induction h with
  | nil => rfl
  | char c _ ih =>
    obtain ⟨hc, hchars⟩ := List.forall_mem_cons.mp hchars
    rw [List.filter_cons_of_pos (by simp [hc]), ih hchars]
  | blank hc _ ih => rw [List.filter_cons_of_neg (by simp [hc]), ih hchars]

end Reckoner.Text
