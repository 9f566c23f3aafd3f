import Mathlib
import Reckoner.Proofs.Expression.Runs

/-!
# Cutting a text into pieces

A text has tokens exactly if it can be cut into blanks, symbols, numerals and names of functions so that no numeral
and no name could be made longer, and the tokens are those of the pieces (`ofText?_eq_some_iff_cut`). There is only
one such cut, the division into lexemes (`Cut.split_eq`). Since a blank belongs to no longer lexeme, what stands in
front of it and what stands behind it have tokens of their own.
-/

namespace Reckoner

namespace Lexeme

/-- A stretch of characters of one kind, with what stands in front of it and behind it, that can be made no longer. -/
structure IsMaximalRun (kind : Char → Bool) (before run after : List Char) : Prop where
  ne_nil : run ≠ []
  all : ∀ c ∈ run, kind c = true
  left : ∀ a ∈ before.getLast?, kind a = false
  right : ∀ b ∈ after.head?, kind b = false

/-- Characters of one kind that are joined with each other and with nothing else. -/
def IsKind (kind : Char → Bool) : Prop :=
  ∀ a b, kind a = true → joined a b = kind b ∧ joined b a = kind b

theorem isKind_isNumeralChar : IsKind Decimal.isNumeralChar :=
  fun _ b ha => joined_of_isNumeralChar b ha

theorem name_ne_nil (f : Func) : f.name.toList ≠ [] := by
  cases f <;> simp [Func.name]

theorem isNameChar_of_mem_name (f : Func) : ∀ c ∈ f.name.toList, isNameChar c = true := by
  cases f <;> simp [Func.name, isNameChar]

theorem isKind_isNameChar : IsKind isNameChar := by
  intro a b ha
  have hnumeral : Decimal.isNumeralChar a = false := by
    rw [Bool.eq_false_iff]
    intro hnumeral
    rw [isNameChar_eq_false_of_isNumeralChar hnumeral] at ha
    cases ha
  simp [joined, ha, hnumeral]

/-- A lexeme in front of a text that does not go on with it. -/
theorem split_lexeme_append {lexeme rest : List Char} (hne : lexeme ≠ []) (hchain : lexeme.IsChain (joined · ·))
    (hright : ∀ a ∈ lexeme.getLast?, ∀ b ∈ rest.head?, joined a b = false) :
    split (lexeme ++ rest) = lexeme :: split rest := by
  rw [split_append hright, split, List.splitBy_of_isChain hne hchain]
  rfl

theorem split_separate_cons {c : Char} (hc : isSeparate c = true) (rest : List Char) :
    split (c :: rest) = [c] :: split rest := by
  refine split_lexeme_append (List.cons_ne_nil c []) (List.isChain_singleton c) fun a ha b _ => ?_
  cases ha
  exact joined_eq_false (Or.inl hc)

namespace IsMaximalRun

variable {kind : Char → Bool} {before run after : List Char}

theorem isChain (h : IsMaximalRun kind before run after) (hkind : IsKind kind) : run.IsChain (joined · ·) := by
  refine List.Pairwise.isChain (List.pairwise_of_forall_mem_list fun a ha b hb => ?_)
  rw [(hkind a b (h.all a ha)).1, h.all b hb]

theorem border_left (h : IsMaximalRun kind before run after) (hkind : IsKind kind) :
    ∀ a ∈ before.getLast?, ∀ b ∈ run.head?, joined a b = false := by
  intro a ha b hb
  rw [(hkind b a (h.all b (List.mem_of_mem_head? hb))).2, h.left a ha]

theorem border_right (h : IsMaximalRun kind before run after) (hkind : IsKind kind) :
    ∀ a ∈ run.getLast?, ∀ b ∈ after.head?, joined a b = false := by
  intro a ha b hb
  rw [(hkind a b (h.all a (List.mem_of_mem_getLast? ha))).1, h.right b hb]

theorem split_append (h : IsMaximalRun kind before run after) (hkind : IsKind kind) :
    split (run ++ after) = run :: split after :=
  split_lexeme_append h.ne_nil (h.isChain hkind) (h.border_right hkind)

theorem split_eq (h : IsMaximalRun kind before run after) (hkind : IsKind kind) :
    split (before ++ run ++ after) = split before ++ run :: split after := by
  have hborder : ∀ a ∈ before.getLast?, ∀ b ∈ (run ++ after).head?, joined a b = false := by
    rw [List.head?_append_of_ne_nil _ h.ne_nil]
    exact h.border_left hkind
  rw [List.append_assoc, Lexeme.split_append hborder, h.split_append hkind]

theorem of_borders (hkind : IsKind kind) (hne : run ≠ []) (hall : ∀ c ∈ run, kind c = true)
    (hleft : ∀ a ∈ before.getLast?, ∀ b ∈ run.head?, joined a b = false)
    (hright : ∀ a ∈ run.getLast?, ∀ b ∈ after.head?, joined a b = false) : IsMaximalRun kind before run after where
  ne_nil := hne
  all := hall
  left a ha := by
    have hhead := List.head_mem_head? hne
    rw [← (hkind _ a (hall _ (List.head_mem hne))).2]
    exact hleft a ha _ hhead
  right b hb := by
    have hlast := List.getLast_mem_getLast? hne
    rw [← (hkind _ b (hall _ (List.getLast_mem hne))).1]
    exact hright _ hlast b hb

end IsMaximalRun

/-! ### Lexeme by lexeme -/

/-- What holds of the empty text, and of a lexeme in front of a text that it holds of, holds of every text. -/
theorem lexeme_induction {P : List Char → Prop} (nil : P [])
    (lexeme : ∀ lexeme rest, lexeme ≠ [] → lexeme.IsChain (joined · ·) →
      (∀ a ∈ lexeme.getLast?, ∀ b ∈ rest.head?, joined a b = false) → P rest → P (lexeme ++ rest))
    (text : List Char) : P text := by
  induction hsplit : split text generalizing text with
  | nil =>
    rw [List.splitBy_eq_nil.mp hsplit]
    exact nil
  | cons first others ih =>
    have hmem : first ∈ split text := by simp [hsplit]
    have hne := ne_nil_of_mem_split hmem
    have hchain : first.IsChain (joined · ·) := List.isChain_of_mem_splitBy hmem
    have hfirst : split text = [] ++ first :: others := hsplit
    have hborder := (borders_of_split_eq hfirst).2
    have htext : text = first ++ others.flatten := by
      rw [← flatten_split text, hsplit, List.flatten_cons]
    have hrest : split others.flatten = others := by
      rw [htext, split_lexeme_append hne hchain hborder, List.cons.injEq] at hsplit
      exact hsplit.2
    rw [htext]
    exact lexeme first others.flatten hne hchain hborder (ih _ hrest)

end Lexeme

namespace Decimal

/-- What a run of digits with a point among them writes: those behind the point are decimal places. -/
def ofRun (run : List Char) : Decimal :=
  ⟨Nat.ofDigitChars 10 (run.filter Char.isDigit) 0, -(((run.dropWhile (· != '.')).drop 1).length : Int)⟩

theorem filter_isDigit_eq {run : List Char}
    (h : (run.takeWhile (· != '.') ++ (run.dropWhile (· != '.')).drop 1).all Char.isDigit = true) :
    run.filter Char.isDigit = run.takeWhile (· != '.') ++ (run.dropWhile (· != '.')).drop 1 := by
  induction run with
  | nil => rfl
  | cons c cs ih =>
    by_cases hc : c = '.'
    · subst hc
      have hdigits : cs.filter Char.isDigit = cs := by simpa using h
      simpa using hdigits
    · simp only [List.takeWhile_cons, List.dropWhile_cons, bne_iff_ne, ne_eq, hc, not_false_eq_true, if_true,
        List.cons_append, List.all_cons, Bool.and_eq_true] at h ⊢
      rw [List.filter_cons_of_pos h.1, ih h.2]

theorem ofNumeral?_eq_some_iff {run : List Char} {d : Decimal} :
    ofNumeral? run = some d ↔
      ((∀ c ∈ run, isNumeralChar c = true) ∧ run.count '.' ≤ 1 ∧ ∃ c ∈ run, c.isDigit = true) ∧ d = ofRun run := by
  rw [← isSome_ofNumeral?_iff, ofNumeral?]
  split
  · rename_i h
    have hdigits := filter_isDigit_eq (Bool.and_eq_true_iff.mp h).2
    simp [ofRun, hdigits, eq_comm]
  · simp

end Decimal

/-- A piece that a text is cut into. -/
inductive Piece
  | blank (c : Char)
  | symbol (t : Token)
  | numeral (run : List Char)
  | name (f : Func)

namespace Piece

open Lexeme

/-- The tokens that are single characters. -/
def symbols : List Token :=
  [.plus, .minus, .times, .over, .power, .opening, .closing]

def chars : Piece → List Char
  | .blank c => [c]
  | .symbol t => t.text
  | .numeral run => run
  | .name f => f.name.toList

/-- The token of a piece that is not blank. -/
def token? : Piece → Option Token
  | .blank _ => none
  | .symbol t => some t
  | .numeral run => some (.number (Decimal.ofRun run).toFloat)
  | .name f => some (.func f)

/-- Whether a piece may stand between two texts: numerals and names are as long as can be, and numerals have a digit
and no second point. -/
def Fits (before after : List Char) : Piece → Prop
  | .blank c => Text.isBlank c = true
  | .symbol t => t ∈ symbols
  | .numeral run =>
    IsMaximalRun Decimal.isNumeralChar before run after ∧ (∃ c ∈ run, c.isDigit = true) ∧ run.count '.' ≤ 1
  | .name f => IsMaximalRun isNameChar before f.name.toList after

end Piece

/-- Pieces that each fit where they stand, behind a given text. -/
def Cut (before : List Char) : List Piece → Prop
  | [] => True
  | piece :: rest => piece.Fits before (rest.flatMap Piece.chars) ∧ Cut (before ++ piece.chars) rest

namespace Piece

open Lexeme

variable {before after : List Char} {piece : Piece}

theorem isSeparate_of_isBlank {c : Char} (h : Text.isBlank c = true) : isSeparate c = true := by
  have hdigit : c.isDigit = false := by
    by_contra hdigit
    rw [Text.isBlank_eq_false_of_isDigit (by simpa using hdigit)] at h
    cases h
  have hpoint : c ≠ '.' := by
    rintro rfl
    cases h
  have hname : isNameChar c = false := by
    rw [Text.isBlank_iff] at h
    rw [Bool.eq_false_iff, ne_eq, isNameChar_iff]
    omega
  simp [isSeparate, Decimal.isNumeralChar, hdigit, hpoint, hname]

/-- A symbol is a character that stands in no longer lexeme. -/
theorem exists_text_eq_of_mem_symbols {t : Token} (h : t ∈ symbols) :
    ∃ c, t.text = [c] ∧ isSeparate c = true ∧ Text.isBlank c = false ∧ Token.ofLexeme? [c] = some t := by
  simp only [symbols] at h
  fin_cases h <;> exact ⟨_, rfl, by decide, by decide, rfl⟩

namespace Fits

/-- A piece that fits is a lexeme, and none that begins earlier or ends later. -/
theorem split_append (h : piece.Fits before after) : split (piece.chars ++ after) = piece.chars :: split after := by
  cases piece with
  | blank c => exact split_separate_cons (isSeparate_of_isBlank h) after
  | symbol t =>
    obtain ⟨c, hc, hseparate, -⟩ := exists_text_eq_of_mem_symbols h
    rw [chars, hc]
    exact split_separate_cons hseparate after
  | numeral run => exact h.1.split_append isKind_isNumeralChar
  | name f => exact IsMaximalRun.split_append h isKind_isNameChar

theorem tokens_eq (h : piece.Fits before after) :
    ([piece.chars].filter (!·.all Text.isBlank)).mapM Token.ofLexeme? = some piece.token?.toList := by
  have hreads : ∀ t, piece.token? = some t → piece.chars.all Text.isBlank = false →
      Token.ofLexeme? piece.chars = some t →
        ([piece.chars].filter (!·.all Text.isBlank)).mapM Token.ofLexeme? = some piece.token?.toList := by
    intro t ht hvisible hlexeme
    simp [hvisible, hlexeme, ht]
  cases piece with
  | blank c =>
    have hblank : Text.isBlank c = true := h
    simp [chars, token?, hblank]
  | symbol t =>
    obtain ⟨c, hc, -, hvisible, hlexeme⟩ := exists_text_eq_of_mem_symbols h
    apply hreads t rfl
    · simp [chars, hc, hvisible]
    · rw [chars, hc, hlexeme]
  | numeral run =>
    obtain ⟨hrun, ⟨c, hc, hdigit⟩, hone⟩ := h
    have hnumeral := Decimal.ofNumeral?_eq_some_iff.mpr ⟨⟨hrun.all, hone, c, hc, hdigit⟩, rfl⟩
    apply hreads _ rfl
    · rw [List.all_eq_false]
      exact ⟨c, hc, by simp [Text.isBlank_eq_false_of_isDigit hdigit]⟩
    · exact Token.ofLexeme?_eq_some_iff.mpr (.number hnumeral)
  | name f =>
    apply hreads (.func f) rfl
    · cases f <;> decide
    · exact Token.ofLexeme?_eq_some_iff.mpr (.func f)

end Fits

/-- A blank is a lexeme by itself. -/
theorem eq_blank_of_isChain {lexeme : List Char} (hne : lexeme ≠ []) (hchain : lexeme.IsChain (joined · ·))
    (hblank : lexeme.all Text.isBlank = true) : ∃ c, Text.isBlank c = true ∧ lexeme = [c] := by
  obtain ⟨c, rest, rfl⟩ := List.exists_cons_of_ne_nil hne
  have hc : Text.isBlank c = true := List.all_eq_true.mp hblank c List.mem_cons_self
  cases rest with
  | nil => exact ⟨c, hc, rfl⟩
  | cons next rest =>
    -- a blank is joined with nothing
    rw [List.isChain_cons_cons, joined_eq_false (Or.inl (isSeparate_of_isBlank hc))] at hchain
    cases hchain.1

/-- A lexeme that has a token is a piece. -/
theorem exists_fits_of_token {lexeme : List Char} {t : Token} (hne : lexeme ≠ [])
    (hleft : ∀ a ∈ before.getLast?, ∀ b ∈ lexeme.head?, joined a b = false)
    (hright : ∀ a ∈ lexeme.getLast?, ∀ b ∈ after.head?, joined a b = false) (ht : Token.ofLexeme? lexeme = some t) :
    ∃ piece : Piece, piece.Fits before after ∧ piece.chars = lexeme ∧ piece.token? = some t := by
  cases Token.ofLexeme?_eq_some_iff.mp ht with
  | number hd =>
    obtain ⟨⟨hall, hone, hdigit⟩, rfl⟩ := Decimal.ofNumeral?_eq_some_iff.mp hd
    exact ⟨.numeral lexeme, ⟨.of_borders isKind_isNumeralChar hne hall hleft hright, hdigit, hone⟩, rfl, rfl⟩
  | func f => exact ⟨.name f, .of_borders isKind_isNameChar hne (isNameChar_of_mem_name f) hleft hright, rfl, rfl⟩
  | _ =>
    refine ⟨.symbol _, ?_, ?_, rfl⟩
    · simp [Fits, symbols]
    · rfl

/-- A lexeme that is blank or has a token is a piece. -/
theorem exists_fits {lexeme : List Char} {tokens : List Token} (hne : lexeme ≠ [])
    (hchain : lexeme.IsChain (joined · ·)) (hleft : ∀ a ∈ before.getLast?, ∀ b ∈ lexeme.head?, joined a b = false)
    (hright : ∀ a ∈ lexeme.getLast?, ∀ b ∈ after.head?, joined a b = false)
    (htokens : ([lexeme].filter (!·.all Text.isBlank)).mapM Token.ofLexeme? = some tokens) :
    ∃ piece : Piece, piece.Fits before after ∧ piece.chars = lexeme ∧ piece.token?.toList = tokens := by
  by_cases hblank : lexeme.all Text.isBlank = true
  · obtain ⟨c, hc, rfl⟩ := eq_blank_of_isChain hne hchain hblank
    refine ⟨.blank c, hc, rfl, ?_⟩
    simpa [token?, hc] using htokens
  · rw [List.filter_cons_of_pos (by simpa using hblank), List.filter_nil] at htokens
    obtain ⟨t, _, ht, hnil, rfl⟩ := PlainForm.mapM_cons_eq_some_iff.mp htokens
    cases hnil
    obtain ⟨piece, hfits, hchars, htoken⟩ := exists_fits_of_token hne hleft hright ht
    exact ⟨piece, hfits, hchars, by rw [htoken]; rfl⟩

end Piece

namespace Cut

open Lexeme

variable {before : List Char} {pieces : List Piece}

/-- The pieces of a text are its lexemes. -/
theorem split_eq (h : Cut before pieces) : split (pieces.flatMap Piece.chars) = pieces.map Piece.chars := by
  induction pieces generalizing before with
  | nil => rfl
  | cons piece rest ih => rw [List.flatMap_cons, h.1.split_append, ih h.2, List.map_cons]

theorem tokens_eq (h : Cut before pieces) :
    Token.ofText? (pieces.flatMap Piece.chars) = some (pieces.filterMap Piece.token?) := by
  rw [Token.ofText?, h.split_eq]
  induction pieces generalizing before with
  | nil => rfl
  | cons piece rest ih =>
    rw [List.map_cons, ← List.singleton_append, List.filter_append, List.mapM_append, h.1.tokens_eq, ih h.2,
      List.filterMap_cons]
    cases piece.token? <;> rfl

end Cut

theorem exists_cut_of_tokens {before text : List Char} {tokens : List Token}
    (hborder : ∀ a ∈ before.getLast?, ∀ b ∈ text.head?, Lexeme.joined a b = false)
    (htokens : Token.ofText? text = some tokens) :
    ∃ pieces : List Piece, Cut before pieces ∧ pieces.flatMap Piece.chars = text ∧
      pieces.filterMap Piece.token? = tokens := by
  induction text using Lexeme.lexeme_induction generalizing before tokens with
  | nil =>
    cases htokens
    exact ⟨[], trivial, rfl, rfl⟩
  | lexeme lexeme rest hne hchain hright ih =>
    rw [Token.ofText?, Lexeme.split_lexeme_append hne hchain hright, ← List.singleton_append, List.filter_append,
      List.mapM_append] at htokens
    obtain ⟨first, hfirst, htokens⟩ := Option.bind_eq_some_iff.mp htokens
    obtain ⟨others, hothers, htokens⟩ := Option.bind_eq_some_iff.mp htokens
    cases htokens
    rw [List.head?_append_of_ne_nil _ hne] at hborder
    have hlast : (before ++ lexeme).getLast? = lexeme.getLast? := List.getLast?_append_of_ne_nil _ hne
    obtain ⟨piece, hfits, rfl, hpiece⟩ := Piece.exists_fits hne hchain hborder hright hfirst
    obtain ⟨pieces, hcut, rfl, rfl⟩ := ih (by rwa [hlast]) hothers
    refine ⟨piece :: pieces, ⟨hfits, hcut⟩, rfl, ?_⟩
    rw [← hpiece, List.filterMap_cons]
    cases piece.token? <;> rfl

/-- **Tokens are read off the longest pieces**: a text has tokens exactly if it can be cut into blanks, symbols,
numerals and functions' names, each numeral and each name as long as can be, and then they are the tokens of the
pieces. What two texts with a blank between them have for tokens are the tokens of the one and of the other. -/
theorem ofText?_eq_some_iff_cut :
    (∀ (text : List Char) (tokens : List Token), Token.ofText? text = some tokens ↔
      ∃ pieces : List Piece, Cut [] pieces ∧ pieces.flatMap Piece.chars = text ∧
        pieces.filterMap Piece.token? = tokens) ∧
      ∀ (text more : List Char) (tokens : List Token), Token.ofText? (text ++ ' ' :: more) = some tokens ↔
        ∃ first second, Token.ofText? text = some first ∧ Token.ofText? more = some second ∧
          tokens = first ++ second := by
  refine ⟨fun text tokens => ⟨fun htokens => ?_, ?_⟩, fun text more tokens => ?_⟩
  · exact exists_cut_of_tokens (by simp) htokens
  · rintro ⟨pieces, hcut, rfl, rfl⟩
    exact hcut.tokens_eq
  · have hblank : Token.ofText? [' '] = some [] := by rfl
    have hseparate : Lexeme.isSeparate ' ' = true := by decide
    rw [← List.singleton_append, Token.ofText?_append_eq_bind, Token.ofText?_append_eq_bind, hblank]
    · simp only [Option.bind_some, Option.map_eq_bind, Option.bind_assoc, Option.bind_eq_some_iff, List.nil_append,
        Option.some.injEq, Function.comp_apply]
      constructor
      · rintro ⟨first, hfirst, second, hsecond, rfl⟩
        exact ⟨first, second, hfirst, hsecond, rfl⟩
      · rintro ⟨first, second, hfirst, hsecond, rfl⟩
        exact ⟨first, hfirst, second, hsecond, rfl⟩
    · intro a ha b _
      cases ha
      exact Lexeme.joined_eq_false (Or.inl hseparate)
    · intro a _ b hb
      cases hb
      exact Lexeme.joined_eq_false (Or.inr hseparate)

end Reckoner
