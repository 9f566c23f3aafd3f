import Mathlib
import Reckoner.Proofs.Evaluation.AnswerText
import Reckoner.Proofs.Machine.Consistency
import Reckoner.Readout

/-!
# Thousands

Grouping puts commas between the digits of a whole part, so that they stand in groups of three behind a first group
of one to three, and changes nothing else (`grouped_exact`). A text that is no number in place stays as it is; a text
with a comma is one of those, so what has been grouped is not grouped again. Since no answer has a comma, the readout
of an answer is found again by taking the commas out.
-/

namespace Reckoner

namespace Grouping

/-! ### Groups of three -/

/-- Digits parted into a first group of one to three and others of three. -/
structure Thousands (digits first : List Char) (others : List (List Char)) : Prop where
  digits_eq : digits = first ++ others.flatten
  first_ne_nil : first ≠ []
  first_le : first.length ≤ 3
  others_length : ∀ group ∈ others, group.length = 3

/-- Groups with a comma in front of each but the first. -/
def withCommas (first : List Char) (others : List (List Char)) : List Char :=
  first ++ others.flatMap (',' :: ·)

theorem length_flatten_mod {groups : List (List Char)} (h : ∀ group ∈ groups, group.length = 3) :
    groups.flatten.length % 3 = 0 := by
  induction groups with
  | nil => rfl
  | cons group groups ih =>
    obtain ⟨hgroup, hgroups⟩ := List.forall_mem_cons.mp h
    have hrest := ih hgroups
    rw [List.flatten_cons, List.length_append]
    omega

namespace Thousands

variable {digits first : List Char} {others : List (List Char)}

theorem length_mod (h : Thousands digits first others) : digits.length % 3 = first.length % 3 := by
  have hothers := length_flatten_mod h.others_length
  rw [h.digits_eq, List.length_append]
  omega

/-- Another digit in front makes a group of its own if the first group is full. -/
theorem cons_of_full (digit : Char) (h : Thousands digits first others) (hfull : first.length = 3) :
    Thousands (digit :: digits) [digit] (first :: others) where
  digits_eq := by rw [h.digits_eq, List.flatten_cons, List.singleton_append]
  first_ne_nil := List.cons_ne_nil digit []
  first_le := by simp
  others_length := List.forall_mem_cons.mpr ⟨hfull, h.others_length⟩

/-- Another digit in front joins the first group if that is not full. -/
theorem cons_of_not_full (digit : Char) (h : Thousands digits first others) (hfull : first.length ≠ 3) :
    Thousands (digit :: digits) (digit :: first) others where
  digits_eq := by rw [h.digits_eq, List.cons_append]
  first_ne_nil := List.cons_ne_nil digit first
  first_le := by
    have := h.first_le
    rw [List.length_cons]
    omega
  others_length := h.others_length

end Thousands

theorem exists_thousands {digits : List Char} (hne : digits ≠ []) :
    ∃ first others, Thousands digits first others ∧ byThousands digits = withCommas first others := by
  induction digits with
  | nil => exact absurd rfl hne
  | cons digit rest ih =>
    by_cases hrest : rest = []
    · subst hrest
      exact ⟨[digit], [], ⟨rfl, List.cons_ne_nil digit [], by simp, by simp⟩, rfl⟩
    obtain ⟨first, others, hgroups, hcommas⟩ := ih hrest
    have hmod := hgroups.length_mod
    have hpos := List.length_pos_iff.mpr hgroups.first_ne_nil
    have hle := hgroups.first_le
    by_cases hfull : first.length = 3
    · refine ⟨[digit], first :: others, hgroups.cons_of_full digit hfull, ?_⟩
      rw [byThousands, if_pos ⟨hrest, by omega⟩, hcommas]
      rfl
    · refine ⟨digit :: first, others, hgroups.cons_of_not_full digit hfull, ?_⟩
      rw [byThousands, if_neg fun h => hfull (by omega), hcommas]
      rfl

theorem filter_of_comma_not_mem {text : List Char} (h : ',' ∉ text) : text.filter (· != ',') = text := by
  rw [List.filter_eq_self]
  intro c hc
  rw [bne_iff_ne]
  rintro rfl
  exact h hc

theorem filter_flatMap_comma {groups : List (List Char)} (h : ',' ∉ groups.flatten) :
    (groups.flatMap (',' :: ·)).filter (· != ',') = groups.flatten := by
  induction groups with
  | nil => rfl
  | cons group groups ih =>
    rw [List.flatten_cons, List.mem_append, not_or] at h
    obtain ⟨hgroup, hgroups⟩ := h
    rw [List.flatMap_cons, List.filter_append, List.filter_cons_of_neg (by decide),
      filter_of_comma_not_mem hgroup, ih hgroups, List.flatten_cons]

theorem filter_withCommas {first : List Char} {others : List (List Char)} (h : ',' ∉ first ++ others.flatten) :
    (withCommas first others).filter (· != ',') = first ++ others.flatten := by
  rw [List.mem_append, not_or] at h
  obtain ⟨hfirst, hothers⟩ := h
  rw [withCommas, List.filter_append, filter_of_comma_not_mem hfirst, filter_flatMap_comma hothers]

/-! ### Numbers in place -/

/-- The parts of a number in place: a minus sign or none, digits, and a point with any digits behind it or none. -/
structure InPlace (sign whole fraction : List Char) : Prop where
  sign : sign = [] ∨ sign = ['-']
  whole_ne_nil : whole ≠ []
  whole_isDigit : ∀ c ∈ whole, c.isDigit = true
  fraction : fraction = [] ∨ ∃ places, fraction = '.' :: places ∧ ∀ c ∈ places, c.isDigit = true

variable {sign whole fraction : List Char}

theorem InPlace.unsigned (h : InPlace sign whole fraction) : InPlace [] whole fraction :=
  { h with sign := Or.inl rfl }

theorem InPlace.negative (h : InPlace [] whole fraction) : InPlace ['-'] whole fraction :=
  { h with sign := Or.inr rfl }

theorem InPlace.isNumeralChar_or_minus (h : InPlace sign whole fraction) {c : Char}
    (hc : c ∈ sign ++ whole ++ fraction) : Decimal.isNumeralChar c = true ∨ c = '-' := by
  rw [List.mem_append, List.mem_append] at hc
  rcases hc with (hc | hc) | hc
  · rcases h.sign with rfl | rfl
    · cases hc
    · exact Or.inr (List.mem_singleton.mp hc)
  · exact Or.inl (Decimal.isNumeralChar_of_isDigit (h.whole_isDigit c hc))
  · rcases h.fraction with rfl | ⟨places, rfl, hplaces⟩
    · cases hc
    · rcases List.mem_cons.mp hc with rfl | hc
      · exact Or.inl rfl
      · exact Or.inl (Decimal.isNumeralChar_of_isDigit (hplaces c hc))

theorem InPlace.comma_not_mem (h : InPlace sign whole fraction) : ',' ∉ sign ++ whole ++ fraction :=
  fun hc => absurd (h.isNumeralChar_or_minus hc) (by decide)

theorem unsigned?_eq_some_iff {number chars : List Char} :
    unsigned? number = some chars ↔
      ∃ whole fraction, InPlace [] whole fraction ∧ number = whole ++ fraction ∧
        chars = byThousands whole ++ fraction := by
  constructor
  · intro h
    simp only [unsigned?, Bool.and_eq_true, List.all_eq_true] at h
    split at h
    · rename_i hplain
      obtain ⟨⟨hne, hwhole⟩, hplaces⟩ := hplain
      refine ⟨_, _, ⟨Or.inl rfl, by simpa using hne, hwhole, ?_⟩, List.takeWhile_append_dropWhile.symm,
        (Option.some.inj h).symm⟩
      rcases Decimal.dropWhile_ne_point number with hrest | ⟨places, hrest⟩
      · exact Or.inl hrest
      · rw [hrest, List.drop_one, List.tail_cons] at hplaces
        exact Or.inr ⟨places, hrest, hplaces⟩
    · cases h
  · rintro ⟨whole, fraction, h, rfl, rfl⟩
    have hwhole : ∀ c ∈ whole, (c != '.') = true := fun c hc => Decimal.ne_point_of_isDigit (h.whole_isDigit c hc)
    have hfraction : fraction.takeWhile (· != '.') = [] ∧ fraction.dropWhile (· != '.') = fraction ∧
        (fraction.drop 1).all Char.isDigit = true := by
      rcases h.fraction with rfl | ⟨places, rfl, hplaces⟩
      · exact ⟨rfl, rfl, rfl⟩
      · exact ⟨rfl, rfl, List.all_eq_true.mpr hplaces⟩
    have hplain : (!whole.isEmpty && whole.all Char.isDigit && (fraction.drop 1).all Char.isDigit) = true := by
      rw [Bool.and_eq_true, Bool.and_eq_true]
      exact ⟨⟨by simpa using h.whole_ne_nil, List.all_eq_true.mpr h.whole_isDigit⟩, hfraction.2.2⟩
    simp only [unsigned?]
    rw [List.takeWhile_append_of_pos hwhole, List.dropWhile_append_of_pos hwhole, hfraction.1, hfraction.2.1,
      List.append_nil, if_pos hplain]

theorem chars?_eq_some_iff {text chars : List Char} :
    chars? text = some chars ↔
      ∃ sign whole fraction, InPlace sign whole fraction ∧ text = sign ++ whole ++ fraction ∧
        chars = sign ++ byThousands whole ++ fraction := by
  constructor
  · intro h
    unfold chars? at h
    split at h
    · obtain ⟨grouped, hgrouped, rfl⟩ := Option.map_eq_some_iff.mp h
      obtain ⟨whole, fraction, hparts, rfl, rfl⟩ := unsigned?_eq_some_iff.mp hgrouped
      exact ⟨['-'], whole, fraction, hparts.negative, rfl, rfl⟩
    · obtain ⟨whole, fraction, hparts, rfl, rfl⟩ := unsigned?_eq_some_iff.mp h
      exact ⟨[], whole, fraction, hparts, rfl, rfl⟩
  · rintro ⟨sign, whole, fraction, hparts, rfl, rfl⟩
    have hunsigned := unsigned?_eq_some_iff.mpr ⟨whole, fraction, hparts.unsigned, rfl, rfl⟩
    rcases hparts.sign with rfl | rfl
    · obtain ⟨first, rest, rfl⟩ := List.exists_cons_of_ne_nil hparts.whole_ne_nil
      have hfirst : first ≠ '-' := by
        rintro rfl
        exact absurd (hparts.whole_isDigit '-' List.mem_cons_self) (by decide)
      rw [List.nil_append, List.nil_append, chars?.eq_def]
      split
      · rename_i heq
        exact absurd (List.cons.inj heq).1 hfirst
      · exact hunsigned
    · exact Option.map_eq_some_iff.mpr ⟨_, hunsigned, rfl⟩

/-! ### Grouped texts -/

theorem exists_grouped_eq (h : InPlace sign whole fraction) :
    ∃ first others, Thousands whole first others ∧
      grouped (String.ofList (sign ++ whole ++ fraction)) =
        String.ofList (sign ++ withCommas first others ++ fraction) := by
  obtain ⟨first, others, hgroups, hcommas⟩ := exists_thousands h.whole_ne_nil
  have hchars := chars?_eq_some_iff.mpr ⟨sign, whole, fraction, h, rfl, rfl⟩
  rw [hcommas] at hchars
  refine ⟨first, others, hgroups, ?_⟩
  simp only [grouped, String.toList_ofList, hchars]

theorem grouped_eq_self {text : String}
    (h : ∀ sign whole fraction, InPlace sign whole fraction → text.toList ≠ sign ++ whole ++ fraction) :
    grouped text = text := by
  have hnone : chars? text.toList = none := by
    rw [Option.eq_none_iff_forall_ne_some]
    intro chars hchars
    obtain ⟨sign, whole, fraction, hparts, htext, -⟩ := chars?_eq_some_iff.mp hchars
    exact h sign whole fraction hparts htext
  simp only [grouped, hnone]

theorem grouped_of_comma_mem {text : String} (h : ',' ∈ text.toList) : grouped text = text := by
  refine grouped_eq_self fun sign whole fraction hparts htext => hparts.comma_not_mem ?_
  rwa [← htext]

/-- Grouping a text without commas is undone by taking the commas out. -/
theorem filter_grouped {text : String} (h : ',' ∉ text.toList) :
    (grouped text).toList.filter (· != ',') = text.toList := by
  by_cases hplain : ∃ sign whole fraction, InPlace sign whole fraction ∧ text.toList = sign ++ whole ++ fraction
  · obtain ⟨sign, whole, fraction, hparts, htext⟩ := hplain
    obtain ⟨first, others, hgroups, hgrouped⟩ := exists_grouped_eq hparts
    rw [← htext, String.ofList_toList] at hgrouped
    rw [htext, List.mem_append, List.mem_append, not_or, not_or] at h
    obtain ⟨⟨hsign, hwhole⟩, hfraction⟩ := h
    rw [hgroups.digits_eq] at hwhole
    rw [hgrouped, String.toList_ofList, List.filter_append, List.filter_append, filter_of_comma_not_mem hsign,
      filter_withCommas hwhole, filter_of_comma_not_mem hfraction, ← hgroups.digits_eq, htext]
  · have hself : grouped text = text :=
      grouped_eq_self fun sign whole fraction hparts htext => hplain ⟨sign, whole, fraction, hparts, htext⟩
    rw [hself, filter_of_comma_not_mem h]

theorem grouped_grouped (text : String) : grouped (grouped text) = grouped text := by
  by_cases hcomma : ',' ∈ (grouped text).toList
  · exact grouped_of_comma_mem hcomma
  · have hself : grouped text = text := by
      by_cases htext : ',' ∈ text.toList
      · exact grouped_of_comma_mem htext
      · have hfilter := filter_grouped htext
        rw [filter_of_comma_not_mem hcomma] at hfilter
        exact String.toList_inj.mp hfilter
    rw [hself, hself]

end Grouping

/-! ### Readouts -/

theorem Answer.comma_not_mem_chars (a : Answer) : ',' ∉ a.chars := by
  have hsign : ∀ negative, ',' ∉ sign negative := by
    rintro (_ | _) <;> decide
  have hnumeral : ∀ {l : List Char}, (∀ c ∈ l, Decimal.isNumeralChar c = true) → ',' ∉ l :=
    fun h hc => absurd (h ',' hc) (by decide)
  cases a with
  | infinite negative => simp [chars, hsign]
  | inPlace negative size =>
    obtain ⟨d, hread, -⟩ := Decimal.ofNumeral?_inPlace size
    simp [chars, hsign, hnumeral (Decimal.ofNumeral?_eq_some hread).2]
  | scientific negative size =>
    obtain ⟨mantissa, signChar, n, hscientific, hsignChar, hmantissa⟩ := size.exists_scientific_eq
    have hexponent : ',' ∉ Nat.toDigits 10 n := hnumeral fun c hc =>
      Decimal.isNumeralChar_of_isDigit (Decimal.isDigit_of_mem_toDigits hc)
    have hmark : signChar ≠ ',' := by
      rcases hsignChar with rfl | rfl <;> decide
    simp [chars, hscientific, hsign, hnumeral hmantissa, hexponent, hmark.symm]

namespace Readout

open Machine

variable {m : Machine}

theorem value_ofMachine_of_answer (hm : m.Consistent) (h : m.hasResult = true) (groupThousands : Bool) :
    (ofMachine m groupThousands).value = if groupThousands then Grouping.grouped m.result else m.result := by
  simp [ofMachine, (hm.answered h).1, h]

theorem value_ofMachine_of_no_answer (h : m.hasResult = false) (groupThousands : Bool) :
    (ofMachine m groupThousands).value = m.shownValue := by
  rw [ofMachine, Machine.shownValue, h]
  cases m.error <;> simp

end Readout

/-- **Grouping inserts commas and nothing else**: into the whole part of a number in place, so that it stands in groups
of three behind a first one of one to three, and into no other text, so also not a second time. The readout of an
answer is what it is without grouping once its commas are taken out, and any other readout is not grouped. -/
theorem Readout.grouped_exact :
    (∀ sign whole fraction, Grouping.InPlace sign whole fraction →
      ∃ first others, Grouping.Thousands whole first others ∧
        Grouping.grouped (String.ofList (sign ++ whole ++ fraction)) =
          String.ofList (sign ++ Grouping.withCommas first others ++ fraction)) ∧
      (∀ text : String, (∀ sign whole fraction, Grouping.InPlace sign whole fraction →
        text.toList ≠ sign ++ whole ++ fraction) → Grouping.grouped text = text) ∧
      (∀ text, Grouping.grouped (Grouping.grouped text) = Grouping.grouped text) ∧
      (∀ keys, (Machine.initial.run keys).hasResult = true →
        (ofMachine (Machine.initial.run keys) true).value.toList.filter (· != ',') =
          (ofMachine (Machine.initial.run keys) false).value.toList) ∧
      ∀ m : Machine, m.hasResult = false → (ofMachine m true).value = (ofMachine m false).value := by
  refine ⟨fun sign whole fraction => Grouping.exists_grouped_eq, fun text => Grouping.grouped_eq_self,
    Grouping.grouped_grouped, fun keys hanswered => ?_, fun m h => ?_⟩
  · have hm : (Machine.initial.run keys).Consistent :=
      Machine.run_induction Machine.press_consistent Machine.initial_consistent keys
    obtain ⟨a, ha⟩ := exists_answer_of_evaluate (hm.answered hanswered).2.2
    have hcomma : ',' ∉ (Machine.initial.run keys).result.toList := by
      rw [ha, a.toList_text]
      exact a.comma_not_mem_chars
    rw [value_ofMachine_of_answer hm hanswered, value_ofMachine_of_answer hm hanswered, if_pos rfl, if_neg (by decide)]
    exact Grouping.filter_grouped hcomma
  · rw [value_ofMachine_of_no_answer h, value_ofMachine_of_no_answer h]

theorem Readout.grouped_exact_million :
    let m := Machine.initial.run [.number (some "1000"), .operator (some "×"), .number (some "1000"), .equals]
    Grouping.InPlace ['-'] "1234567".toList ".25".toList ∧
      (∃ first others, Grouping.Thousands "1234567".toList first others ∧
        Grouping.grouped (String.ofList (['-'] ++ "1234567".toList ++ ".25".toList)) =
          String.ofList (['-'] ++ Grouping.withCommas first others ++ ".25".toList)) ∧
      (∀ sign whole fraction, Grouping.InPlace sign whole fraction → "1e+21".toList ≠ sign ++ whole ++ fraction) ∧
      Grouping.grouped "1e+21" = "1e+21" ∧
      m.hasResult = true ∧ (ofMachine m true).value.toList.filter (· != ',') = (ofMachine m false).value.toList ∧
      Machine.initial.hasResult = false ∧
      (ofMachine Machine.initial true).value = (ofMachine Machine.initial false).value := by
  intro m
  obtain ⟨hgroups, hother, -, hanswer, hno_answer⟩ := Readout.grouped_exact
  have hparts : Grouping.InPlace ['-'] "1234567".toList ".25".toList :=
    ⟨Or.inr rfl, by simp, by simp, Or.inr ⟨['2', '5'], rfl, by simp⟩⟩
  have hexponent : ∀ sign whole fraction, Grouping.InPlace sign whole fraction →
      "1e+21".toList ≠ sign ++ whole ++ fraction := by
    intro sign whole fraction h heq
    have hletter : 'e' ∈ sign ++ whole ++ fraction := by
      rw [← heq]
      decide
    exact absurd (h.isNumeralChar_or_minus hletter) (by decide)
  have hanswered : m.hasResult = true := by decide +kernel
  exact ⟨hparts, hgroups _ _ _ hparts, hexponent, hother _ hexponent, hanswered, hanswer _ hanswered, rfl,
    hno_answer _ rfl⟩

example : Grouping.grouped "-1234567.25" = "-1,234,567.25" := by
  decide +kernel

end Reckoner
