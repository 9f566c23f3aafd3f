import Reckoner.Expression.Token

/-!
# How lexemes spell tokens

`Spells` relates a lexeme to the token it stands for, one constructor for every way to write a token, and
`ofLexeme?` is its decision (`ofLexeme?_eq_some_iff`). Facts about the characters of a lexeme are read off
the relation, a numeral's off `Decimal.ofNumeral?`.
-/

namespace Reckoner

namespace Decimal

theorem isNumeralChar_of_isDigit {c : Char} (h : c.isDigit = true) : isNumeralChar c = true := by
  simp [isNumeralChar, h]

theorem ne_point_of_isDigit {c : Char} (h : c.isDigit = true) : (c != '.') = true := by
  rw [bne_iff_ne]
  rintro rfl
  cases h

/-- What is left of a text from its first point on: nothing, if it has none. -/
theorem dropWhile_ne_point (text : List Char) :
    text.dropWhile (· != '.') = [] ∨ ∃ rest, text.dropWhile (· != '.') = '.' :: rest := by
  cases hrest : text.dropWhile (· != '.') with
  | nil => exact Or.inl rfl
  | cons point rest =>
    have hpoint := List.head?_dropWhile_not (· != '.') text
    rw [hrest] at hpoint
    exact Or.inr ⟨rest, by simpa using hpoint⟩

/-- What a numeral is made of: its digits before the point, and the point with the digits behind it. -/
theorem ofNumeral?_eq_some {numeral : List Char} {d : Decimal} (h : ofNumeral? numeral = some d) :
    numeral ≠ [] ∧ ∀ c ∈ numeral, isNumeralChar c = true := by
  rw [ofNumeral?] at h
  split at h
  · rename_i hwritten
    simp only [Bool.and_eq_true, List.all_append, List.all_eq_true] at hwritten
    obtain ⟨hne, hwhole, hfraction⟩ := hwritten
    refine ⟨?_, fun c hc => ?_⟩
    · rintro rfl
      exact absurd hne (by decide)
    · rw [← List.takeWhile_append_dropWhile (p := (· != '.')) (l := numeral)] at hc
      rcases List.mem_append.mp hc with hc | hc
      · exact isNumeralChar_of_isDigit (hwhole c hc)
      · rcases dropWhile_ne_point numeral with hrest | ⟨fraction, hrest⟩
        · rw [hrest] at hc
          cases hc
        · rw [hrest] at hc hfraction
          rcases List.mem_cons.mp hc with rfl | hc
          · rfl
          · exact isNumeralChar_of_isDigit (hfraction c hc)
  · cases h

theorem isNumeralChar_iff {c : Char} : isNumeralChar c = true ↔ c.isDigit = true ∨ c = '.' := by
  simp [isNumeralChar]

/-- The digits before the point with those behind it are all characters but the first point. -/
theorem digits_eq_erase (numeral : List Char) :
    numeral.takeWhile (· != '.') ++ (numeral.dropWhile (· != '.')).drop 1 = numeral.erase '.' := by
  induction numeral with
  | nil => rfl
  | cons c cs ih =>
    by_cases hc : c = '.'
    · subst hc
      simp
    · simp [hc, ← ih]

/-- Characters are a numeral exactly if they are digits and points, with a digit and at most one point among them. -/
theorem isSome_ofNumeral?_iff {numeral : List Char} :
    (ofNumeral? numeral).isSome = true ↔
      (∀ c ∈ numeral, isNumeralChar c = true) ∧ numeral.count '.' ≤ 1 ∧ ∃ c ∈ numeral, c.isDigit = true := by
  have herase : (ofNumeral? numeral).isSome = true ↔
      numeral.erase '.' ≠ [] ∧ ∀ c ∈ numeral.erase '.', c.isDigit = true := by
    simp only [ofNumeral?, digits_eq_erase]
    split <;> simp_all
  have hcount : (numeral.erase '.').count '.' = numeral.count '.' - 1 := List.count_erase_self
  rw [herase]
  constructor
  · rintro ⟨hne, hdigits⟩
    have hpoint : '.' ∉ numeral.erase '.' := fun h => absurd (hdigits '.' h) (by decide)
    rw [List.count_eq_zero.mpr hpoint] at hcount
    obtain ⟨c, hc⟩ := List.exists_mem_of_ne_nil _ hne
    refine ⟨fun c hc => ?_, by omega, c, List.mem_of_mem_erase hc, hdigits c hc⟩
    by_cases hdot : c = '.'
    · exact isNumeralChar_iff.mpr (Or.inr hdot)
    · exact isNumeralChar_of_isDigit (hdigits c ((List.mem_erase_of_ne hdot).mpr hc))
  · rintro ⟨hnumeral, hone, c, hc, hdigit⟩
    have hne : c ≠ '.' := by
      rintro rfl
      cases hdigit
    have hpoint : '.' ∉ numeral.erase '.' := List.count_eq_zero.mp (by omega)
    refine ⟨List.ne_nil_of_mem ((List.mem_erase_of_ne hne).mpr hc), fun c hc => ?_⟩
    refine (isNumeralChar_iff.mp (hnumeral c (List.mem_of_mem_erase hc))).resolve_right ?_
    rintro rfl
    exact hpoint hc

/-- A zero in front of a digit does not change what a numeral denotes. -/
theorem ofNumeral?_zero_cons {next : Char} {rest : List Char} (hnext : next.isDigit = true) :
    ofNumeral? ('0' :: next :: rest) = ofNumeral? (next :: rest) := by
  have hpoint := ne_point_of_isDigit hnext
  simp only [ofNumeral?, List.takeWhile_cons, List.dropWhile_cons, hpoint, show ('0' != '.') = true from rfl,
    if_true, List.cons_append, List.isEmpty_cons, Bool.not_false, Bool.true_and, List.all_cons,
    show '0'.isDigit = true from rfl, Nat.ofDigitChars_cons, show '0'.toNat - '0'.toNat = 0 from rfl]

end Decimal

theorem Func.ofName?_eq_some {name : String} {f : Func} (h : ofName? name = some f) : f.name = name := by
  have := List.find?_some h
  simpa using this

theorem Func.exists_eq_name {lexeme : List Char} (h : (ofName? (String.ofList lexeme)).isSome = true) :
    ∃ f : Func, lexeme = f.name.toList := by
  obtain ⟨f, hf⟩ := Option.isSome_iff_exists.mp h
  exact ⟨f, by rw [ofName?_eq_some hf, String.toList_ofList]⟩

namespace Token

/-- A lexeme is a way to write a token. -/
inductive Spells : List Char → Token → Prop
  | plus : Spells ['+'] .plus
  | minus : Spells ['-'] .minus
  | times : Spells ['*'] .times
  | over : Spells ['/'] .over
  | power : Spells ['^'] .power
  | opening : Spells ['('] .opening
  | closing : Spells [')'] .closing
  | number {lexeme : List Char} {d : Decimal} (h : Decimal.ofNumeral? lexeme = some d) :
      Spells lexeme (.number d.toFloat)
  | func (f : Func) : Spells f.name.toList (.func f)

theorem ofLexeme?_eq_some_iff {lexeme : List Char} {t : Token} :
    ofLexeme? lexeme = some t ↔ Spells lexeme t := by
  constructor
  · intro h
    rw [ofLexeme?.eq_def] at h
    split at h
    case h_8 =>
      split at h
      · rename_i d hd
        cases h
        exact .number hd
      · obtain ⟨f, hf, rfl⟩ := Option.map_eq_some_iff.mp h
        rw [← String.toList_ofList (l := lexeme), ← Func.ofName?_eq_some hf]
        exact .func f
    all_goals
      cases h
      constructor
  · intro h
    cases h with
    | number h =>
      rw [ofLexeme?.eq_def]
      split
      case h_8 => simp only [h]
      all_goals exact absurd ((Decimal.ofNumeral?_eq_some h).2 _ (List.mem_singleton_self _)) (by decide)
    | func f => cases f <;> rfl
    | _ => rfl

/-- A lexeme that begins with a digit can only be a numeral. -/
theorem ofLexeme?_digit_cons {c : Char} {rest : List Char} (hc : c.isDigit = true) :
    ofLexeme? (c :: rest) = (Decimal.ofNumeral? (c :: rest)).map fun d => .number d.toFloat := by
  ext t
  rw [ofLexeme?_eq_some_iff, Option.map_eq_some_iff]
  constructor
  · intro h
    generalize hlexeme : c :: rest = lexeme at h
    cases h with
    | number h => exact ⟨_, h, rfl⟩
    | func f =>
      have hhead : f.name.toList.head?.map Char.isDigit = some false := by cases f <;> rfl
      rw [← hlexeme, List.head?_cons, Option.map_some, hc] at hhead
      cases hhead
    | _ =>
      cases hlexeme
      cases hc
  · rintro ⟨d, hd, rfl⟩
    exact .number hd

end Token
end Reckoner
