import Reckoner.Number.Binary64
import Reckoner.Number.Decimal

/-!
# Shortest decimals

The decimal that names a binary64 number: it reads back as that number, no decimal on a coarser grid of
powers of ten does, and of two on the same grid that do it is the nearer one, of two equally near the
larger. The grids are tried from coarse to fine, and on each only the two neighbours of the number can be
nearest to it.
-/

namespace Reckoner

namespace Decimal

/-- The rank of the binary64 number that a decimal reads as. -/
def rank (d : Decimal) : Nat :=
  Binary64.nearest d.value

/-- The floating-point number that a decimal reads as. -/
def toFloat (d : Decimal) : Float :=
  Binary64.toFloat d.rank

/-- The multiple of `10^exponent` that names the number of some rank, if one reads back as it. -/
def onGrid? (rank : Nat) (exponent : Int) : Option Decimal :=
  let steps := Binary64.value rank / powerOfTen exponent
  let below : Decimal := ⟨steps.floor.toNat, exponent⟩
  let above : Decimal := ⟨below.digits + 1, exponent⟩
  match below.rank == rank, above.rank == rank with
  | false, false => none
  | true, false => some below
  | false, true => some above
  | true, true => if steps - below.digits < mkRat 1 2 then some below else some above

/-- The exponent of the coarsest grid with a point that may name a number: the grid of the least power of
ten above it, or of one for a number below one. -/
def coarsest (rank : Nat) : Int :=
  let whole := (Binary64.value rank).floor.toNat
  if whole = 0 then 0 else (Nat.toDigits 10 whole).length

/-- The exponent of a grid that holds every binary64 number. -/
def finest : Int := -1074

/-- The shortest decimal of the number of some rank. -/
def shortest (rank : Nat) : Decimal :=
  let grids := (coarsest rank - finest).toNat + 1
  ((List.range grids).findSome? fun i => onGrid? rank (coarsest rank - (i : Nat))).getD ⟨0, 0⟩

end Decimal

namespace Binary64

/-- The text of a number in place: its shortest decimal, or a name for what is no number. -/
def text : Binary64 → List Char
  | .notANumber => "NaN".toList
  | .infinite negative => (if negative then ['-'] else []) ++ "inf".toList
  | .finite negative rank => (if negative then ['-'] else []) ++ (Decimal.shortest rank).inPlace

end Binary64
end Reckoner
