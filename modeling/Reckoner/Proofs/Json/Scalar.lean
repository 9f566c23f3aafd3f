import Mathlib.Data.List.Basic
import Reckoner.Proofs.Json.Spelling

/-!
# Numerals and strings are read as spelled

Readers take a numeral (`readNumeral_append`) and the pieces of a string (`readPieces_pieces`) off the front of a text,
whatever they are followed by, except that nothing closes a numeral: behind one stands a blank, a comma or a bracket
(`Delimited`).
-/

namespace Reckoner.Json

variable {text rest : List Char}

/-! ### Numerals -/

/-- What may stand behind a value: a blank, a comma, a closing bracket or nothing. -/
def Delimited (rest : List Char) : Prop :=
  ∀ c ∈ rest.head?, IsBlank c ∨ c = ',' ∨ c = ']' ∨ c = '}'

/-- None of the characters can go on with a numeral. -/
theorem Delimited.not_numeral (h : Delimited rest) :
    ∀ c ∈ rest.head?, c.isDigit = false ∧ c ≠ '.' ∧ c ≠ 'e' ∧ c ≠ 'E' := by
  intro c hc
  rcases h c hc with (rfl | rfl | rfl | rfl) | rfl | rfl | rfl <;> decide

theorem readDigits_append {digits : List Char} (h : AreDigits digits) (hrest : ∀ c ∈ rest.head?, c.isDigit = false) :
    readDigits (digits ++ rest) = some (digits, rest) := by
  have hstop : rest.takeWhile Char.isDigit = [] ∧ rest.dropWhile Char.isDigit = rest := by
    cases rest with
    | nil => exact ⟨rfl, rfl⟩
    | cons c rest => simp [hrest c rfl]
  rw [readDigits, List.takeWhile_append_of_pos h.2, List.dropWhile_append_of_pos h.2, hstop.1, hstop.2, List.append_nil]
  simp [h.1]

theorem readWhole_append {digits : List Char} (h : IsWhole digits) (hrest : ∀ c ∈ rest.head?, c.isDigit = false) :
    readWhole (digits ++ rest) = some (digits, rest) := by
  cases digits with
  | nil => exact absurd rfl h.1.1
  | cons c digits =>
    by_cases hc : c = '0'
    · subst hc
      cases h.2 rfl
      rfl
    · have hne : ∀ more, c :: digits ++ rest = '0' :: more → False := fun _ h => hc (List.cons.inj h).1
      rw [readWhole.eq_2 _ hne]
      exact readDigits_append h.1 hrest

theorem readFraction_append {fraction : List Char} (h : IsFraction fraction)
    (hrest : ∀ c ∈ rest.head?, c.isDigit = false ∧ c ≠ '.') :
    readFraction (fraction ++ rest) = some (fraction, rest) := by
  cases h with
  | absent =>
    refine readFraction.eq_2 _ fun more hmore => ?_
    exact (hrest '.' (by rw [List.nil_append] at hmore; rw [hmore]; rfl)).2 rfl
  | places h =>
    show (readDigits (_ ++ rest)).map _ = _
    rw [readDigits_append h fun c hc => (hrest c hc).1]
    rfl

theorem readExponentSign_append {sign digits : List Char} (hsign : sign = [] ∨ sign = ['+'] ∨ sign = ['-'])
    (h : AreDigits digits) (rest : List Char) :
    readExponentSign (sign ++ (digits ++ rest)) = (sign, digits ++ rest) := by
  obtain ⟨c, digits, rfl⟩ := List.exists_cons_of_ne_nil h.1
  have hc : c.isDigit = true := h.2 c List.mem_cons_self
  rcases hsign with rfl | rfl | rfl
  · refine readExponentSign.eq_3 _ (fun more hmore => ?_) (fun more hmore => ?_)
    all_goals
      cases (List.cons.inj hmore).1
      cases hc
  · rfl
  · rfl

theorem readExponent_append {exponent : List Char} (h : IsExponent exponent)
    (hrest : ∀ c ∈ rest.head?, c.isDigit = false ∧ c ≠ 'e' ∧ c ≠ 'E') :
    readExponent (exponent ++ rest) = some (exponent, rest) := by
  cases h with
  | absent =>
    cases rest with
    | nil => rfl
    | cons c rest =>
      obtain ⟨-, he, hE⟩ := hrest c rfl
      show (if c = 'e' ∨ c = 'E' then _ else _) = _
      rw [if_neg (by simp [he, hE])]
  | @power letter sign digits hletter hsign h =>
    rw [List.cons_append, List.append_assoc, readExponent, if_pos hletter, readExponentSign_append hsign h]
    show (readDigits (digits ++ rest)).map _ = _
    rw [readDigits_append h fun c hc => (hrest c hc).1]
    rfl

/-- An exponent begins with a letter or is none. -/
theorem IsExponent.head?_append {exponent : List Char} (h : IsExponent exponent) :
    ∀ c ∈ (exponent ++ rest).head?, c = 'e' ∨ c = 'E' ∨ c ∈ rest.head? := by
  intro c hc
  cases h with
  | absent => exact Or.inr (Or.inr hc)
  | power hletter _ _ =>
    cases hc
    exact hletter.imp_right Or.inl

/-- A fraction begins with a point or is none. -/
theorem IsFraction.head?_append {fraction : List Char} (h : IsFraction fraction) :
    ∀ c ∈ (fraction ++ rest).head?, c = '.' ∨ c ∈ rest.head? := by
  intro c hc
  cases h with
  | absent => exact Or.inr hc
  | places _ =>
    cases hc
    exact Or.inl rfl

theorem readUnsigned_append {whole fraction exponent : List Char} (hwhole : IsWhole whole)
    (hfraction : IsFraction fraction) (hexponent : IsExponent exponent) (hrest : Delimited rest) :
    readUnsigned (whole ++ (fraction ++ (exponent ++ rest))) = some (whole ++ (fraction ++ exponent), rest) := by
  have hend := hrest.not_numeral
  have hletter : ∀ c ∈ (exponent ++ rest).head?, c.isDigit = false ∧ c ≠ '.' := by
    intro c hc
    rcases hexponent.head?_append c hc with rfl | rfl | hc
    · decide
    · decide
    · exact ⟨(hend c hc).1, (hend c hc).2.1⟩
  have hpoint : ∀ c ∈ (fraction ++ (exponent ++ rest)).head?, c.isDigit = false := by
    intro c hc
    rcases hfraction.head?_append c hc with rfl | hc
    · rfl
    · exact (hletter c hc).1
  unfold readUnsigned
  rw [readWhole_append hwhole hpoint]
  show (readFraction _).bind _ = _
  rw [readFraction_append hfraction hletter]
  show (readExponent _).bind _ = _
  rw [readExponent_append hexponent fun c hc => ⟨(hend c hc).1, (hend c hc).2.2⟩]
  simp

theorem readNumeral_append {numeral : List Char} (h : IsNumeral numeral) (hrest : Delimited rest) :
    readNumeral (numeral ++ rest) = some (numeral, rest) := by
  cases h with
  | @mk sign whole fraction exponent hsign hwhole hfraction hexponent =>
    have hread := readUnsigned_append hwhole hfraction hexponent hrest
    simp only [List.append_assoc]
    rcases hsign with rfl | rfl
    · obtain ⟨c, digits, rfl⟩ := List.exists_cons_of_ne_nil hwhole.1.1
      have hc : c.isDigit = true := hwhole.1.2 c List.mem_cons_self
      rw [List.nil_append, readNumeral.eq_2]
      · exact hread
      · intro more hmore
        cases (List.cons.inj hmore).1
        cases hc
    · show (readUnsigned (whole ++ (fraction ++ (exponent ++ rest)))).map _ = _
      rw [hread]
      rfl

/-- A numeral begins with a digit or a minus sign. -/
theorem IsNumeral.exists_cons {numeral : List Char} (h : IsNumeral numeral) :
    ∃ c more, numeral = c :: more ∧ (c.isDigit = true ∨ c = '-') := by
  cases h with
  | mk hsign hwhole _ _ =>
    rcases hsign with rfl | rfl
    · obtain ⟨c, digits, rfl⟩ := List.exists_cons_of_ne_nil hwhole.1.1
      exact ⟨c, _, rfl, Or.inl (hwhole.1.2 c List.mem_cons_self)⟩
    · exact ⟨'-', _, rfl, Or.inr rfl⟩

/-! ### Strings -/

theorem fourHex?_eq_some {a b c d : Char} {n : Nat} (h : fourHex? a b c d = some n) :
    ∃ i j k l, hexDigit? a = some i ∧ hexDigit? b = some j ∧ hexDigit? c = some k ∧ hexDigit? d = some l ∧
      n = (i * 16 + j) * 256 + k * 16 + l := by
  simp only [fourHex?, Option.bind_eq_bind, Option.bind_eq_some_iff, Option.some.injEq] at h
  obtain ⟨i, hi, j, hj, k, hk, l, hl, rfl⟩ := h
  exact ⟨i, j, k, l, hi, hj, hk, hl, by omega⟩

theorem hexPiece?_eq_some {a b c d : Char} {n : Nat} (h : fourHex? a b c d = some n) :
    hexPiece? a b c d =
      if 0xd800 ≤ n ∧ n < 0xe000 then some (.surrogate n) else some (.char (Char.ofNat n)) := by
  obtain ⟨i, j, k, l, hi, hj, hk, hl, rfl⟩ := fourHex?_eq_some h
  simp only [hexPiece?, hi, hj, hk, hl, Option.bind_eq_bind, Option.bind_some]

theorem escapedChar?_of_mem {c letter : Char} (h : (c, letter) ∈ ('/', '/') :: letterEscapes) :
    letter ≠ 'u' ∧ escapedChar? letter = some c := by
  simp only [letterEscapes, List.mem_cons, List.not_mem_nil, or_false, Prod.mk.injEq] at h
  rcases h with ⟨rfl, rfl⟩ | ⟨rfl, rfl⟩ | ⟨rfl, rfl⟩ | ⟨rfl, rfl⟩ | ⟨rfl, rfl⟩ | ⟨rfl, rfl⟩ | ⟨rfl, rfl⟩ | ⟨rfl, rfl⟩
  all_goals decide

theorem readPieces_piece {piece : Piece} (h : SpellsPiece piece text) (rest : List Char) :
    readPieces (text ++ rest) = (readPieces rest).map fun (pieces, rest) => (piece :: pieces, rest) := by
  cases h with
  | @bare c hcontrol hquote hbackslash =>
    have hnone : ¬(c < ' ' ∨ c = '\\') := not_or.mpr ⟨Char.not_lt.mpr hcontrol, hbackslash⟩
    rw [List.singleton_append, readPieces.eq_5 _ _ hquote (fun _ _ _ _ _ h => absurd h hbackslash)
      (fun _ _ h => absurd h hbackslash), if_neg hnone]
  | letter h =>
    obtain ⟨hu, hescaped⟩ := escapedChar?_of_mem h
    show readPieces ('\\' :: _ :: rest) = _
    rw [readPieces.eq_4 _ _ fun _ _ _ _ _ h => absurd h hu, hescaped]
  | @number ch a b c d h =>
    have hvalid : ¬(0xd800 ≤ ch.toNat ∧ ch.toNat < 0xe000) := by
      have := ch.valid
      simp only [UInt32.isValidChar, Nat.isValidChar] at this
      show ¬(0xd800 ≤ ch.val.toNat ∧ ch.val.toNat < 0xe000)
      omega
    show readPieces ('\\' :: 'u' :: a :: b :: c :: d :: rest) = _
    rw [readPieces, hexPiece?_eq_some h, if_neg hvalid, Char.ofNat_toNat]
  | @surrogate unit a b c d hlow hhigh h =>
    show readPieces ('\\' :: 'u' :: a :: b :: c :: d :: rest) = _
    rw [readPieces, hexPiece?_eq_some h, if_pos ⟨hlow, hhigh⟩]

theorem readPieces_pieces {pieces : List Piece} (h : SpellsPieces pieces text) (rest : List Char) :
    readPieces (text ++ '"' :: rest) = some (pieces, rest) := by
  induction h with
  | nil => rfl
  | cons h _ ih => rw [List.append_assoc, readPieces_piece h, ih, Option.map_some]

end Reckoner.Json
