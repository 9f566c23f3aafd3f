import Reckoner.Number.Shortest

/-!
# Scalars of TOML

Numbers, truth values and dates, each read from the whole run of characters it is written with. A number
is recognised by its start and by the marks in it, and only its spelling is checked: where its zeros and
underscores stand. Whether so spelled a number denotes one is a question of its own, asked of the numbers
that are wanted: an integer has to consist of digits of its base and fit into 128 bits, and a float must
not be too large for binary64.
-/

namespace Reckoner.Toml

-- the power of the natural numbers themselves, also where an algebra library offers another one
attribute [local instance (2000)] instPowNat

/-- A scalar other than a string. -/
inductive Scalar
  | boolean (b : Bool)
  /-- An integer by its base and its spelling, underscores and the mark of the base apart. -/
  | integer (base : Nat) (spelling : List Char)
  /-- A float by its spelling, underscores apart. -/
  | float (spelling : List Char)
  | date
  deriving DecidableEq, Repr

namespace Scalar

/-- The value of a character of a numeral of any base up to sixteen. -/
def digitValue (c : Char) : Nat :=
  if c.isDigit then c.toNat - '0'.toNat else c.toLower.toNat - 'a'.toNat + 10

/-- The natural number with given digits. -/
def ofDigits (base : Nat) (digits : List Char) : Nat :=
  digits.foldl (fun n c => base * n + digitValue c) 0

/-- Whether a character is a digit of a base up to sixteen. -/
def isDigitOf (base : Nat) (c : Char) : Bool :=
  (c.isDigit || 'a' ≤ c.toLower && c.toLower ≤ 'f') && digitValue c < base

/-- A text without the sign in front of it, and that sign if it has one. -/
def splitSign : List Char → Option Char × List Char
  | '-' :: rest => (some '-', rest)
  | '+' :: rest => (some '+', rest)
  | text => (none, text)

/-! ### What numbers denote -/

/-- The integer that digits denote behind their sign. -/
def signedDigits? (base : Nat) (text : List Char) : Option Int :=
  let (sign, digits) := splitSign text
  if !digits.isEmpty && digits.all (isDigitOf base) then
    some (if sign = some '-' then -(ofDigits base digits : Int) else (ofDigits base digits : Int))
  else none

/-- The integer of at most 128 bits that a spelling denotes. -/
def int? (base : Nat) (spelling : List Char) : Option Int :=
  (signedDigits? base spelling).filter fun n => decide (-2 ^ (127 : Nat) ≤ n) && decide (n < 2 ^ (128 : Nat))

/-- The decimal that a float without its sign is written as. -/
def decimal (unsigned : List Char) : Decimal :=
  let mantissa := unsigned.takeWhile fun c => c != 'e' && c != 'E'
  let scale := (unsigned.drop mantissa.length).drop 1
  let whole := mantissa.takeWhile (· != '.')
  let fraction := (mantissa.drop whole.length).drop 1
  ⟨ofDigits 10 (whole ++ fraction), (signedDigits? 10 scale).getD 0 - fraction.length⟩

/-- Whether a decimal is too large for binary64. A decimal with more than 309 places before its point is
not worked out. -/
def isTooLarge (d : Decimal) : Bool :=
  let places := (Nat.toDigits 10 d.digits).length + d.exponent
  d.digits != 0 && (decide (309 < places) ||
    decide (places = 309) && d.rank == Binary64.infinityRank)

/-- Whether a text names a float that has no digits. -/
def isFloatName (unsigned : List Char) : Bool :=
  unsigned == "inf".toList || unsigned == "nan".toList

/-- Whether a scalar denotes something. -/
def denotes : Scalar → Bool
  | .boolean _ => true
  | .integer base spelling => (int? base spelling).isSome
  | .float spelling =>
    let unsigned := (splitSign spelling).2
    isFloatName unsigned || !isTooLarge (decimal unsigned)
  | .date => true

/-! ### Dates -/

/-- The number of days in a month. -/
def daysIn (year month : Nat) : Nat :=
  let isLeap := year % 4 = 0 ∧ (year % 100 ≠ 0 ∨ year % 400 = 0)
  match month with
  | 2 => if isLeap then 29 else 28
  | 4 | 6 | 9 | 11 => 30
  | _ => 31

/-- A number of so many digits off the front of a text. -/
def fixedDigits? (count : Nat) (text : List Char) : Option (Nat × List Char) :=
  let digits := text.take count
  if digits.length = count ∧ digits.all Char.isDigit then some (ofDigits 10 digits, text.drop count)
  else none

/-- What follows a given character at the front of a text. -/
def after? (c : Char) (text : List Char) : Option (List Char) :=
  if text.head? = some c then some (text.drop 1) else none

/-- What follows a date at the front of a text. -/
def afterDate? (text : List Char) : Option (List Char) := do
  let (year, text) ← fixedDigits? 4 text
  let text ← after? '-' text
  let (month, text) ← fixedDigits? 2 text
  let text ← after? '-' text
  let (day, text) ← fixedDigits? 2 text
  if 1 ≤ month ∧ month ≤ 12 ∧ 1 ≤ day ∧ day ≤ daysIn year month then some text else none

/-- What follows a fraction of a second. -/
def afterFraction? (text : List Char) : Option (List Char) :=
  match text with
  | '.' :: rest =>
    if rest.head?.any Char.isDigit then some (rest.dropWhile Char.isDigit) else none
  | _ => some text

/-- What follows the seconds of a time, which may be missing. -/
def afterSeconds? (text : List Char) : Option (List Char) :=
  match text with
  | ':' :: rest => do
    let (second, rest) ← fixedDigits? 2 rest
    if second ≤ 60 then afterFraction? rest else none
  | _ => some text

/-- What follows a time at the front of a text. -/
def afterTime? (text : List Char) : Option (List Char) := do
  let (hour, text) ← fixedDigits? 2 text
  let text ← after? ':' text
  let (minute, text) ← fixedDigits? 2 text
  if hour ≤ 23 ∧ minute ≤ 59 then afterSeconds? text else none

/-- Whether a text is an offset from universal time. -/
def isOffset : List Char → Bool
  | ['Z'] | ['z'] => true
  | sign :: rest =>
    (sign == '+' || sign == '-') &&
      match fixedDigits? 2 rest with
      | some (hour, ':' :: rest) =>
        match fixedDigits? 2 rest with
        | some (minute, []) => decide (hour ≤ 23) && decide (minute ≤ 59)
        | _ => false
      | _ => false
  | [] => false

/-- Whether a text is a date, a time or both, an offset following only both. -/
def isDate (text : List Char) : Bool :=
  match afterDate? text with
  | some [] => true
  | some (separator :: rest) =>
    (separator == 'T' || separator == 't' || separator == ' ') &&
      match afterTime? rest with
      | some [] => true
      | some rest => isOffset rest
      | none => false
  | none => afterTime? text == some []

/-! ### Spelling -/

/-- A text without its underscores, each of which has a digit on either side. -/
def withoutUnderscores? (isDigit : Char → Bool) (text : List Char) : Option (List Char) :=
  let parts := text.splitOn '_'
  let startsWell (part : List Char) := part.head?.any isDigit
  let endsWell (part : List Char) := part.getLast?.any isDigit
  if parts.tail.all startsWell && parts.dropLast.all endsWell then some parts.flatten else none

/-- What follows decimal digits, set apart by underscores or not, of which there has to be one. -/
def afterDigits? (text : List Char) : Option (List Char) :=
  let run := text.takeWhile fun c => c.isDigit || c == '_'
  if run.any Char.isDigit then some (text.drop run.length) else none

/-- Whether a whole part starts with a needless zero. -/
def hasNeedlessZero (text : List Char) : Bool :=
  let run := text.takeWhile fun c => c.isDigit || c == '_'
  text.head? == some '0' && decide (1 < run.countP Char.isDigit)

/-- What follows a fraction, if a point announces one. -/
def afterPoint? : List Char → Option (List Char)
  | '.' :: rest => afterDigits? rest
  | text => some text

/-- What follows an exponent, if its letter announces one. -/
def afterExponent? : List Char → Option (List Char)
  | [] => some []
  | c :: rest => if c = 'e' ∨ c = 'E' then afterDigits? (splitSign rest).2 else some (c :: rest)

/-- Whether a text without its sign is spelled like a float. -/
def isFloatSpelling (unsigned : List Char) : Bool :=
  !hasNeedlessZero unsigned &&
    ((afterDigits? unsigned).bind afterPoint?).bind afterExponent? == some []

/-- The base that the start of an integer marks, and what follows the mark. -/
def marked? : List Char → Option (Nat × List Char)
  | '0' :: 'x' :: digits => some (16, digits)
  | '0' :: 'o' :: digits => some (8, digits)
  | '0' :: 'b' :: digits => some (2, digits)
  | _ => none

/-- The integer that is spelled behind the mark of its base, perhaps without digits. -/
def ofMarked? (base : Nat) (digits : List Char) : Option Scalar :=
  if digits.all fun c => isDigitOf base c || c == '_' then
    (withoutUnderscores? (isDigitOf base) digits).map (.integer base)
  else none

/-- The decimal number or the date that a text is. A number with a point or the letter of an exponent
behind its first digits is a float. What is no float and goes on with an underscore is an integer; of the
rest of it no more is looked at than stands next to underscores. -/
def ofDecimal? (text unsigned : List Char) : Option Scalar :=
  let rest := unsigned.dropWhile Char.isDigit
  match rest.head? with
  | none => if hasNeedlessZero unsigned then none else some (.integer 10 text)
  | some mark =>
    if mark = '-' ∨ mark = ':' then if isDate text then some .date else none
    else if rest.contains ' ' then none
    else if rest.any fun c => c == '.' || c == 'e' || c == 'E' then
      if isFloatSpelling unsigned then (withoutUnderscores? Char.isDigit text).map .float else none
    else if mark = '_' ∧ unsigned.head? ≠ some '0' then
      (withoutUnderscores? (isDigitOf 16) text).map (.integer 10)
    else none

/-- The scalar that a text is. -/
def ofChars? (text : List Char) : Option Scalar :=
  let (sign, unsigned) := splitSign text
  if text = "true".toList then some (.boolean true)
  else if text = "false".toList then some (.boolean false)
  else if isFloatName unsigned then some (.float text)
  else
    match marked? unsigned with
    | some (base, digits) => if sign.isSome then none else ofMarked? base digits
    | none =>
      if unsigned.head?.any Char.isDigit then ofDecimal? text unsigned else none

end Scalar
end Reckoner.Toml
