import Reckoner.Json.Reading

/-!
# Spellings of JSON values

What texts a JSON value has. Blanks may stand around every value, name and sign, a character of a string may stand for
itself or be escaped by a letter or by its number, and a value that is a numeral has only that one. The grammar leaves
open what its values are nested in, so that items and members share one rule for what stands between commas (`Listed`).
-/

namespace Reckoner.Json

/-- JSON's own four blanks. -/
def IsBlank (c : Char) : Prop :=
  c = ' ' ∨ c = '\n' ∨ c = '\t' ∨ c = '\r'

instance (c : Char) : Decidable (IsBlank c) :=
  inferInstanceAs (Decidable (_ ∨ _))

/-- Blanks, perhaps none. -/
def AreBlanks (blanks : List Char) : Prop :=
  ∀ c ∈ blanks, IsBlank c

/-! ### Numerals -/

/-- Digits, at least one. -/
def AreDigits (digits : List Char) : Prop :=
  digits ≠ [] ∧ ∀ c ∈ digits, c.isDigit = true

/-- A whole part: zero, or digits that do not start with zero. -/
def IsWhole (digits : List Char) : Prop :=
  AreDigits digits ∧ (digits.head? = some '0' → digits = ['0'])

/-- Nothing, or a point and digits. -/
inductive IsFraction : List Char → Prop
  | absent : IsFraction []
  | places {digits : List Char} (h : AreDigits digits) : IsFraction ('.' :: digits)

/-- Nothing, or a letter, perhaps a sign, and digits. -/
inductive IsExponent : List Char → Prop
  | absent : IsExponent []
  | power {letter : Char} {sign digits : List Char} (hletter : letter = 'e' ∨ letter = 'E')
      (hsign : sign = [] ∨ sign = ['+'] ∨ sign = ['-']) (h : AreDigits digits) :
      IsExponent (letter :: (sign ++ digits))

/-- A whole part with a fraction and an exponent, perhaps negative. -/
inductive IsNumeral : List Char → Prop
  | mk {sign whole fraction exponent : List Char} (hsign : sign = [] ∨ sign = ['-']) (hwhole : IsWhole whole)
      (hfraction : IsFraction fraction) (hexponent : IsExponent exponent) :
      IsNumeral (sign ++ (whole ++ (fraction ++ exponent)))

/-! ### Strings -/

/-- The number that four hexadecimal digits are. -/
def fourHex? (a b c d : Char) : Option Nat := do
  some ((((← hexDigit? a) * 16 + (← hexDigit? b)) * 16 + (← hexDigit? c)) * 16 + (← hexDigit? d))

/-- A piece of a string as it may be written. -/
inductive SpellsPiece : Piece → List Char → Prop
  | bare {c : Char} (hcontrol : ' ' ≤ c) (hquote : c ≠ '"') (hbackslash : c ≠ '\\') : SpellsPiece (.char c) [c]
  | letter {c letter : Char} (h : (c, letter) ∈ ('/', '/') :: letterEscapes) :
      SpellsPiece (.char c) ['\\', letter]
  | number {ch a b c d : Char} (h : fourHex? a b c d = some ch.toNat) :
      SpellsPiece (.char ch) ['\\', 'u', a, b, c, d]
  | surrogate {unit : Nat} {a b c d : Char} (hlow : 0xd800 ≤ unit) (hhigh : unit < 0xe000)
      (h : fourHex? a b c d = some unit) : SpellsPiece (.surrogate unit) ['\\', 'u', a, b, c, d]

/-- Pieces written one behind the other. -/
inductive SpellsPieces : List Piece → List Char → Prop
  | nil : SpellsPieces [] []
  | cons {piece : Piece} {pieces : List Piece} {text texts : List Char} (h : SpellsPiece piece text)
      (hmore : SpellsPieces pieces texts) : SpellsPieces (piece :: pieces) (text ++ texts)

/-! ### Values -/

/-- Texts with commas between them and blanks around them, at least one. -/
inductive Listed {α : Type} (spells : α → List Char → Prop) : List α → List Char → Prop
  | last {a : α} {before text after : List Char} (hbefore : AreBlanks before) (h : spells a text)
      (hafter : AreBlanks after) : Listed spells [a] (before ++ (text ++ after))
  | more {a : α} {as : List α} {before text after texts : List Char} (hbefore : AreBlanks before)
      (h : spells a text) (hafter : AreBlanks after) (hmore : Listed spells as texts) :
      Listed spells (a :: as) (before ++ (text ++ (after ++ ',' :: texts)))

/-- A name and a value with a colon between them and blanks around that. -/
inductive SpellsMember (spells : Value → List Char → Prop) : List Piece × Value → List Char → Prop
  | mk {name : List Piece} {v : Value} {nameText before after text : List Char} (hname : SpellsPieces name nameText)
      (hbefore : AreBlanks before) (hafter : AreBlanks after) (h : spells v text) :
      SpellsMember spells (name, v) ('"' :: (nameText ++ '"' :: (before ++ ':' :: (after ++ text))))

/-- A text, without blanks around it, that a value has. -/
inductive Spells : Value → List Char → Prop
  | null : Spells .null ['n', 'u', 'l', 'l']
  | isTrue : Spells (.boolean true) ['t', 'r', 'u', 'e']
  | isFalse : Spells (.boolean false) ['f', 'a', 'l', 's', 'e']
  | number {numeral : List Char} (h : IsNumeral numeral) : Spells (.number numeral) numeral
  | string {pieces : List Piece} {text : List Char} (h : SpellsPieces pieces text) :
      Spells (.string pieces) ('"' :: (text ++ ['"']))
  | emptyArray {blanks : List Char} (h : AreBlanks blanks) : Spells (.array []) ('[' :: (blanks ++ [']']))
  | array {items : List Value} {text : List Char} (h : Listed Spells items text) :
      Spells (.array items) ('[' :: (text ++ [']']))
  | emptyObject {blanks : List Char} (h : AreBlanks blanks) : Spells (.object []) ('{' :: (blanks ++ ['}']))
  | object {members : List (List Piece × Value)} {text : List Char} (h : Listed (SpellsMember Spells) members text) :
      Spells (.object members) ('{' :: (text ++ ['}']))

/-- A whole document: a value with blanks around it. -/
inductive SpellsDocument (v : Value) : List Char → Prop
  | mk {before text after : List Char} (hbefore : AreBlanks before) (h : Spells v text) (hafter : AreBlanks after) :
      SpellsDocument v (before ++ (text ++ after))

end Reckoner.Json
