import DesignTokens.Decimal.Shortest

/-!
Writing doubles.

How the shortest digits of a double are laid out is a record of choices: up to which place of the
decimal point the number is written out, whether a whole number shows a fraction, and the words for
what is not a number. Two such records are in use, `Layout.plain` for messages and `Layout.document`
for numbers read from a document.
-/

namespace DesignTokens
namespace Decimal

/-- The choices that turn digits into text: whether a number is written without an exponent, by the
place of its decimal point, and whether a whole number ends in a point and a zero. -/
structure Layout where
  positional : Int → Bool
  fraction : Bool
  tie : Tie
  infinity : String
  nan : String

def Layout.plain : Layout :=
  ⟨fun _ => true, false, .up, "inf", "NaN"⟩

/-- Numbers from `0.00001` up to sixteen places are written out, with a fraction; others have an
exponent. -/
def Layout.document : Layout :=
  ⟨fun place => -5 < place && place ≤ 16, true, .even, ".inf", ".nan"⟩

def digitText (n : Nat) : String :=
  String.ofList (Nat.toDigits 10 n)

def zeros (n : Nat) : String :=
  String.ofList (List.replicate n '0')

/-- Writes a decimal without sign. The point stands `place` digits behind the first one. -/
def Layout.magnitude (layout : Layout) (d : Decimal) : String :=
  let digits := digitText d.digits
  let whole (text : String) : String := if layout.fraction then text ++ ".0" else text
  if d.digits = 0 then whole "0"
  else
    let count := digits.length
    let place : Int := count + d.exponent
    if layout.positional place then
      if 0 ≤ d.exponent then whole (digits ++ zeros d.exponent.toNat)
      else if 0 < place then
        String.ofList (digits.toList.take place.toNat) ++ "."
          ++ String.ofList (digits.toList.drop place.toNat)
      else "0." ++ zeros (-place).toNat ++ digits
    else
      let mantissa :=
        if count = 1 then digits
        else String.ofList (digits.toList.take 1) ++ "." ++ String.ofList (digits.toList.drop 1)
      mantissa ++ "e" ++ toString (place - 1)

def Layout.float (layout : Layout) (x : Float) : String :=
  let sign := if x.toBits.toNat / twoTo 63 = 1 then "-" else ""
  if x.isNaN then layout.nan
  else if x.isInf then sign ++ layout.infinity
  else sign ++ layout.magnitude (ofFloat layout.tie x)

end Decimal
end DesignTokens
