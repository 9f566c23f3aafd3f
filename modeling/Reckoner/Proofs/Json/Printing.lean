import Reckoner.Proofs.Json.Reading
import Reckoner.Proofs.Number.Numeral

/-!
# The text of a value is one of its spellings

The compact text of a value, with its escapes, is a spelling of that value (`spells_text`). Every character may stand in
a string, and every natural number has a numeral.
-/

namespace Reckoner.Json

/-! ### Strings -/

theorem hexDigit?_digitChar : ∀ d < 16, hexDigit? (Nat.digitChar d) = some d := by
  decide

theorem fourHex?_digitChar {n : Nat} (h : n < 16 ^ 4) :
    fourHex? (Nat.digitChar (n / 4096)) (Nat.digitChar (n / 256 % 16)) (Nat.digitChar (n / 16 % 16))
      (Nat.digitChar (n % 16)) = some n := by
  rw [fourHex?, hexDigit?_digitChar _ (by omega), hexDigit?_digitChar _ (by omega), hexDigit?_digitChar _ (by omega),
    hexDigit?_digitChar _ (by omega)]
  show some _ = some n
  congr 1
  omega

/-- Whether a piece is one that a string can have. -/
def Piece.IsWritable : Piece → Prop
  | .char _ => True
  | .surrogate unit => 0xd800 ≤ unit ∧ unit < 0xe000

theorem spellsPiece_charText (c : Char) : SpellsPiece (.char c) (charText c) := by
  rw [charText]
  cases hlookup : letterEscapes.lookup c with
  | some letter =>
    obtain ⟨before, after, hescapes, -⟩ := List.lookup_eq_some_iff.mp hlookup
    refine .letter (List.mem_cons_of_mem _ ?_)
    rw [hescapes]
    exact List.mem_append_right _ List.mem_cons_self
  | none =>
    have hne := List.lookup_eq_none_iff.mp hlookup
    by_cases hcontrol : c < ' '
    · simp only [hcontrol, if_true]
      have hlt : c.toNat < 32 := hcontrol
      exact .number (fourHex?_digitChar (by omega))
    · simp only [hcontrol, if_false]
      refine .bare (Char.not_lt.mp hcontrol) ?_ ?_
      · simpa using hne ('"', '"') (by decide)
      · simpa using hne ('\\', '\\') (by decide)

theorem spellsPiece_text {piece : Piece} (h : piece.IsWritable) : SpellsPiece piece (pieceText piece) := by
  cases piece with
  | char c => exact spellsPiece_charText c
  | surrogate unit =>
    obtain ⟨hlow, hhigh⟩ := h
    exact .surrogate hlow hhigh (fourHex?_digitChar (by omega))

theorem spellsPieces_text {pieces : List Piece} (h : ∀ piece ∈ pieces, piece.IsWritable) :
    SpellsPieces pieces (pieces.flatMap pieceText) := by
  induction pieces with
  | nil => exact .nil
  | cons piece pieces ih =>
    obtain ⟨hpiece, hpieces⟩ := List.forall_mem_cons.mp h
    exact .cons (spellsPiece_text hpiece) (ih hpieces)

theorem isWritable_of_mem_pieces {s : String} : ∀ piece ∈ pieces s, piece.IsWritable := by
  intro piece hpiece
  obtain ⟨c, -, rfl⟩ := List.mem_map.mp hpiece
  trivial

/-! ### Numerals -/

theorem isNumeral_toDigits (n : Nat) : IsNumeral (Nat.toDigits 10 n) := by
  have hdigits : AreDigits (Nat.toDigits 10 n) :=
    ⟨by simp, fun _ hc => Decimal.isDigit_of_mem_toDigits hc⟩
  have hwhole : IsWhole (Nat.toDigits 10 n) := by
    refine ⟨hdigits, fun hzero => ?_⟩
    rcases Nat.eq_zero_or_pos n with rfl | hn
    · rfl
    · exact absurd hzero (Decimal.head?_toDigits_ne_zero hn)
  have hnumeral := IsNumeral.mk (Or.inl rfl) hwhole .absent .absent
  rwa [List.append_nil, List.append_nil, List.nil_append] at hnumeral

/-! ### Values -/

/-- A value that has a text: its numerals are such and its strings have only pieces of strings. -/
inductive Value.IsWritable : Value → Prop
  | null : IsWritable .null
  | boolean (b : Bool) : IsWritable (.boolean b)
  | number {numeral : List Char} (h : IsNumeral numeral) : IsWritable (.number numeral)
  | string {pieces : List Piece} (h : ∀ piece ∈ pieces, piece.IsWritable) : IsWritable (.string pieces)
  | array {items : List Value} (h : ∀ item ∈ items, IsWritable item) : IsWritable (.array items)
  | object {members : List (List Piece × Value)} (hnames : ∀ m ∈ members, ∀ piece ∈ m.1, piece.IsWritable)
      (h : ∀ m ∈ members, IsWritable m.2) : IsWritable (.object members)

theorem itemTexts_eq_map (items : List Value) : itemTexts items = items.map Value.text := by
  induction items with
  | nil => rfl
  | cons item rest ih => rw [itemTexts, ih, List.map_cons]

theorem memberTexts_eq_map (members : List (List Piece × Value)) :
    memberTexts members = members.map fun m => stringText m.1 ++ ':' :: m.2.text := by
  induction members with
  | nil => rfl
  | cons m rest ih => rw [memberTexts, ih, List.map_cons]

theorem areBlanks_nil : AreBlanks [] := by
  simp [AreBlanks]

theorem listed_commaSeparated {α : Type} {spells : α → List Char → Prop} {text : α → List Char} {as : List α}
    (h : ∀ a ∈ as, spells a (text a)) (hne : as ≠ []) : Listed spells as (commaSeparated (as.map text)) := by
  induction as with
  | nil => exact absurd rfl hne
  | cons a as ih =>
    obtain ⟨ha, has⟩ := List.forall_mem_cons.mp h
    cases as with
    | nil =>
      rw [List.map_singleton, commaSeparated, List.intercalate_singleton]
      have hlisted := Listed.last areBlanks_nil ha areBlanks_nil
      rwa [List.append_nil] at hlisted
    | cons b bs =>
      have htext : commaSeparated ((a :: b :: bs).map text) = text a ++ ',' :: commaSeparated ((b :: bs).map text) := by
        rw [List.map_cons, List.map_cons, commaSeparated, List.intercalate_cons_cons, List.append_assoc]
        rfl
      rw [htext]
      exact Listed.more areBlanks_nil ha areBlanks_nil (ih has (by simp))

theorem spells_string {pieces : List Piece} (h : ∀ piece ∈ pieces, piece.IsWritable) :
    Spells (.string pieces) (stringText pieces) :=
  .string (spellsPieces_text h)

theorem spellsMember_text {m : List Piece × Value} (hname : ∀ piece ∈ m.1, piece.IsWritable)
    (h : Spells m.2 m.2.text) : SpellsMember Spells m (stringText m.1 ++ ':' :: m.2.text) := by
  have hmember := SpellsMember.mk (spellsPieces_text hname) areBlanks_nil areBlanks_nil h
  have htext : stringText m.1 ++ ':' :: m.2.text =
      '"' :: (m.1.flatMap pieceText ++ '"' :: ([] ++ ':' :: ([] ++ m.2.text))) := by
    simp [stringText]
  rwa [htext]

/-- **A value is spelled by its text.** -/
theorem spells_text {v : Value} (h : v.IsWritable) : Spells v v.text := by
  induction h with
  | null => exact .null
  | boolean b =>
    cases b with
    | true => exact .isTrue
    | false => exact .isFalse
  | number h => exact .number h
  | string h => exact spells_string h
  | @array items _ ih =>
    rw [Value.text, itemTexts_eq_map]
    by_cases hne : items = []
    · subst hne
      exact .emptyArray areBlanks_nil
    · exact .array (listed_commaSeparated ih hne)
  | @object members hnames _ ih =>
    rw [Value.text, memberTexts_eq_map]
    by_cases hne : members = []
    · subst hne
      exact .emptyObject areBlanks_nil
    · exact .object (listed_commaSeparated (fun m hm => spellsMember_text (hnames m hm) (ih m hm)) hne)

theorem spellsDocument_text {v : Value} (h : v.IsWritable) : SpellsDocument v v.text := by
  have hdocument := SpellsDocument.mk areBlanks_nil (spells_text h) areBlanks_nil
  rwa [List.append_nil] at hdocument

end Reckoner.Json
