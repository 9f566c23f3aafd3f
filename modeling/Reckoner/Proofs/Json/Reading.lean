import Reckoner.Proofs.Json.Scalar

/-!
# Every spelling is read

A text that a value has is read as that value (`ofText?_of_spells`), whatever blanks and escapes it is written with and
however its values are nested. The induction is on how deeply the reader may go, which the length of the text bounds,
and one lemma serves items and members (`readListed_listed`).
-/

namespace Reckoner.Json

variable {text rest : List Char}

/-! ### Blanks -/

theorem skipBlanks_append {blanks : List Char} (h : AreBlanks blanks) (text : List Char) :
    skipBlanks (blanks ++ text) = skipBlanks text :=
  List.dropWhile_append_of_pos fun c hc => by
    rcases h c hc with rfl | rfl | rfl | rfl <;> rfl

theorem skipBlanks_cons {c : Char} (h : ¬IsBlank c) (text : List Char) : skipBlanks (c :: text) = c :: text := by
  rw [IsBlank, not_or, not_or, not_or] at h
  rw [skipBlanks, List.dropWhile_cons_of_neg]
  simp [h]

/-! ### Lists between brackets -/

section

variable {α : Type} {item : Reader α} {spells : α → List Char → Prop} {close : Char} {limit : Nat}

/-- A reader reads what has a text shorter than a limit, behind any blanks. -/
def ReadsShorter (limit : Nat) (item : Reader α) (spells : α → List Char → Prop) : Prop :=
  ∀ ⦃a : α⦄ ⦃before text rest : List Char⦄, AreBlanks before → spells a text → text.length < limit →
    Delimited rest → item (before ++ (text ++ rest)) = some (a, rest)

/-- A text starts with something else than a blank or a given sign. -/
def StartsAside (close : Char) (text : List Char) : Prop :=
  ∃ c more, text = c :: more ∧ ¬IsBlank c ∧ c ≠ close

theorem delimited_after {after : List Char} {c : Char} (hafter : AreBlanks after)
    (hc : c = ',' ∨ c = ']' ∨ c = '}') (rest : List Char) : Delimited (after ++ c :: rest) := by
  intro d hd
  cases after with
  | nil =>
    cases hd
    exact Or.inr hc
  | cons e after =>
    cases hd
    exact Or.inl (hafter _ List.mem_cons_self)

theorem readItems_listed (hitem : ReadsShorter limit item spells) (hclose : close = ']' ∨ close = '}') {as : List α}
    (h : Listed spells as text) {bound : Nat} (hbound : text.length < bound) (hlimit : text.length < limit)
    (rest : List Char) : readItems item close bound (text ++ close :: rest) = some (as, rest) := by
  have hblank : ¬IsBlank close := by rcases hclose with rfl | rfl <;> decide
  have hcomma : close ≠ ',' := by rcases hclose with rfl | rfl <;> decide
  induction h generalizing bound with
  | @last a before text after hbefore h hafter =>
    obtain ⟨bound, rfl⟩ : ∃ n, bound = n + 1 := ⟨bound - 1, by omega⟩
    have hread := hitem hbefore h (by simp at hlimit; omega) (delimited_after hafter (Or.inr hclose) rest)
    rw [List.append_assoc, List.append_assoc, readItems, hread]
    simp only [skipBlanks_append hafter, skipBlanks_cons hblank, if_neg hcomma, if_true]
  | @more a as before text after texts hbefore h hafter _ ih =>
    obtain ⟨bound, rfl⟩ : ∃ n, bound = n + 1 := ⟨bound - 1, by omega⟩
    simp only [List.length_append, List.length_cons] at hbound hlimit
    have hread := hitem hbefore h (by omega) (delimited_after hafter (Or.inl rfl) (texts ++ close :: rest))
    rw [List.append_assoc, List.append_assoc, List.append_assoc, List.cons_append, readItems, hread]
    simp only [skipBlanks_append hafter, skipBlanks_cons (show ¬IsBlank ',' by decide), if_true]
    rw [ih (by omega) (by omega)]
    rfl

/-- What is listed is still listed without the blanks in front of the first text. -/
theorem Listed.exists_startsAside {as : List α} (h : Listed spells as text)
    (hstart : ∀ {a : α} {text : List Char}, spells a text → StartsAside close text) :
    ∃ before more, text = before ++ more ∧ AreBlanks before ∧ StartsAside close more ∧ Listed spells as more := by
  have hnil : AreBlanks [] := by simp [AreBlanks]
  cases h with
  | last hbefore h hafter =>
    refine ⟨_, _, rfl, hbefore, ?_, .last hnil h hafter⟩
    obtain ⟨c, more, rfl, hc⟩ := hstart h
    exact ⟨c, _, rfl, hc⟩
  | more hbefore h hafter hmore =>
    refine ⟨_, _, rfl, hbefore, ?_, .more hnil h hafter hmore⟩
    obtain ⟨c, more, rfl, hc⟩ := hstart h
    exact ⟨c, _, rfl, hc⟩

theorem readListed_blanks {bound : Nat} {blanks : List Char} (h : AreBlanks blanks) (hclose : ¬IsBlank close)
    (rest : List Char) : readListed item close bound (blanks ++ close :: rest) = some ([], rest) := by
  rw [readListed, skipBlanks_append h, skipBlanks_cons hclose]
  exact if_pos rfl

theorem readListed_listed (hitem : ReadsShorter limit item spells) (hclose : close = ']' ∨ close = '}')
    (hstart : ∀ {a : α} {text : List Char}, spells a text → StartsAside close text) {as : List α}
    (h : Listed spells as text) {bound : Nat} (hbound : text.length < bound) (hlimit : text.length < limit)
    (rest : List Char) : readListed item close bound (text ++ close :: rest) = some (as, rest) := by
  obtain ⟨before, more, rfl, hbefore, ⟨c, tail, rfl, hblank, hc⟩, hlisted⟩ := h.exists_startsAside hstart
  rw [List.length_append] at hbound hlimit
  have hread : readItems item close bound (c :: (tail ++ close :: rest)) = some (as, rest) :=
    readItems_listed hitem hclose hlisted (by omega) (by omega) rest
  rw [readListed, List.append_assoc, skipBlanks_append hbefore, List.cons_append, skipBlanks_cons hblank]
  exact (if_neg hc).trans hread

end

/-! ### Values -/

theorem readMember_reads {limit : Nat} {value : Reader Value} {spells : Value → List Char → Prop}
    (h : ReadsShorter limit value spells) : ReadsShorter limit (readMember value) (SpellsMember spells) := by
  intro m before text rest hbefore hspells hlimit hrest
  cases hspells with
  | @mk name v nameText between after text hname hbetween hafter hv =>
    simp only [List.length_cons, List.length_append] at hlimit
    have hread := h hafter hv (by omega) hrest
    rw [readMember, skipBlanks_append hbefore, List.cons_append, skipBlanks_cons (by decide)]
    simp only [List.append_assoc, List.cons_append, readPieces_pieces hname, skipBlanks_append hbetween]
    rw [skipBlanks_cons (by decide)]
    show (value (after ++ (text ++ rest))).map _ = _
    rw [hread]
    rfl

theorem SpellsMember.startsAside {m : List Piece × Value} {spells : Value → List Char → Prop}
    (h : SpellsMember spells m text) : StartsAside '}' text := by
  cases h with
  | mk => exact ⟨_, _, rfl, by decide, by decide⟩

theorem Spells.exists_cons {v : Value} (h : Spells v text) :
    ∃ c more, text = c :: more ∧ ¬IsBlank c ∧ c ≠ ']' := by
  cases h with
  | number h =>
    obtain ⟨c, more, rfl, hc⟩ := h.exists_cons
    refine ⟨c, more, rfl, ?_⟩
    rcases hc with hc | rfl
    · constructor
      · rintro (rfl | rfl | rfl | rfl) <;> cases hc
      · rintro rfl
        cases hc
    · decide
  | _ => exact ⟨_, _, rfl, by decide, by decide⟩

theorem Spells.skipBlanks_append {v : Value} {blanks : List Char} (h : Spells v text) (hblanks : AreBlanks blanks)
    (rest : List Char) : skipBlanks (blanks ++ (text ++ rest)) = text ++ rest := by
  obtain ⟨c, more, rfl, hblank, -⟩ := h.exists_cons
  rw [Json.skipBlanks_append hblanks, List.cons_append, skipBlanks_cons hblank]

section

variable {bound depth : Nat} {inner : List Char}

theorem readValue_number {numeral : List Char} (hskip : skipBlanks text = numeral ++ rest) (h : IsNumeral numeral)
    (hrest : Delimited rest) : readValue bound (depth + 1) text = some (.number numeral, rest) := by
  have hread := readNumeral_append h hrest
  obtain ⟨c, more, rfl, hc⟩ := h.exists_cons
  rw [readValue, hskip]
  -- a digit or a sign begins no other value
  split
  case h_7 =>
    rw [hread]
    rfl
  all_goals
    rename_i heq
    cases (List.cons.inj heq).1
    exact absurd hc (by decide)

theorem readValue_string {pieces : List Piece} (hskip : skipBlanks text = '"' :: (inner ++ '"' :: rest))
    (h : SpellsPieces pieces inner) : readValue bound (depth + 1) text = some (.string pieces, rest) := by
  rw [readValue, hskip]
  show (readPieces (inner ++ '"' :: rest)).map _ = _
  rw [readPieces_pieces h]
  rfl

theorem readValue_array {items : List Value} (hskip : skipBlanks text = '[' :: inner)
    (h : readListed (readValue bound depth) ']' bound inner = some (items, rest)) :
    readValue bound (depth + 1) text = some (.array items, rest) := by
  rw [readValue, hskip]
  exact congrArg (Option.map _) h

theorem readValue_object {members : List (List Piece × Value)} (hskip : skipBlanks text = '{' :: inner)
    (h : readListed (readMember (readValue bound depth)) '}' bound inner = some (members, rest)) :
    readValue bound (depth + 1) text = some (.object members, rest) := by
  rw [readValue, hskip]
  exact congrArg (Option.map _) h

end

theorem readValue_reads {bound depth : Nat} (hdepth : depth ≤ bound) :
    ReadsShorter depth (readValue bound depth) Spells := by
  induction depth with
  | zero =>
    intro _ _ _ _ _ _ hlimit
    exact absurd hlimit (Nat.not_lt_zero _)
  | succ depth ih =>
    have hvalue : ReadsShorter depth (readValue bound depth) Spells := ih (Nat.le_of_succ_le hdepth)
    intro v before text rest hbefore hspells hlimit hrest
    have hskip := hspells.skipBlanks_append hbefore rest
    have hclosed (inner : List Char) (c : Char) : inner ++ [c] ++ rest = inner ++ c :: rest := by
      rw [List.append_assoc, List.singleton_append]
    cases hspells with
    | null | isTrue | isFalse =>
      rw [readValue, hskip]
      rfl
    | number h => exact readValue_number hskip h hrest
    | string h =>
      rw [List.cons_append, hclosed] at hskip ⊢
      exact readValue_string hskip h
    | emptyArray h =>
      rw [List.cons_append, hclosed] at hskip ⊢
      exact readValue_array hskip (readListed_blanks h (by decide) rest)
    | array h =>
      simp only [List.length_cons, List.length_append] at hlimit
      rw [List.cons_append, hclosed] at hskip ⊢
      exact readValue_array hskip
        (readListed_listed hvalue (Or.inl rfl) Spells.exists_cons h (by omega) (by omega) rest)
    | emptyObject h =>
      rw [List.cons_append, hclosed] at hskip ⊢
      exact readValue_object hskip (readListed_blanks h (by decide) rest)
    | object h =>
      simp only [List.length_cons, List.length_append] at hlimit
      rw [List.cons_append, hclosed] at hskip ⊢
      exact readValue_object hskip
        (readListed_listed (readMember_reads hvalue) (Or.inr rfl) SpellsMember.startsAside h (by omega) (by omega) rest)

/-- **Every spelling is read**: a document is read as the value that it spells. -/
theorem ofText?_of_spells {v : Value} (h : SpellsDocument v text) : ofText? text = some v := by
  cases h with
  | @mk before text after hbefore h hafter =>
    have hafter' : Delimited after := by
      intro c hc
      exact Or.inl (hafter c (List.mem_of_mem_head? hc))
    have hrest : skipBlanks after = [] := by
      have := skipBlanks_append hafter []
      rwa [List.append_nil] at this
    have hread := readValue_reads (Nat.le_refl ((before ++ (text ++ after)).length + 1)) hbefore h
      (by simp only [List.length_append]; omega) hafter'
    rw [ofText?]
    simp only [hread, hrest, List.isEmpty_nil, if_true]

end Reckoner.Json
