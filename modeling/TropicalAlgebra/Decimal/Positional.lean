import TropicalAlgebra.Decimal.Shortest
import TropicalAlgebra.Scalar

/-!
# Positional notation

Numbers are written with the fewest digits that identify them and never with an exponent, however
large or small they are. Whole numbers have no decimal point; zero has a sign.
-/

namespace TropicalAlgebra

namespace Decimal

/-- A decimal written out, with a point inside or before the digits where it is not whole. -/
def text (d : Decimal) : String :=
  let digits := Nat.toDigits 10 d.digits
  if 0 ≤ d.exponent then String.ofList (digits ++ List.replicate d.exponent.toNat '0')
  else
    let places := (-d.exponent).toNat
    let padded := List.replicate (places + 1 - digits.length) '0' ++ digits
    let whole := padded.length - places
    String.ofList (padded.take whole ++ '.' :: padded.drop whole)

/-- The text of the magnitude of a finite double. -/
def magnitudeText (bits : UInt64) : String :=
  let b := Binary.ofBits bits
  if b.mantissa = 0 then "0" else (b.shortest.strip 17).text

def floatText (x : Float) : String :=
  if !Scalar.isNumber x then "NaN"
  else
    let sign := if x.toBits.toNat < Nat.pow 2 63 then "" else "-"
    sign ++ if Scalar.isFinite x then magnitudeText x.toBits else "inf"

end Decimal

instance : Written Float := ⟨Decimal.floatText⟩

end TropicalAlgebra
