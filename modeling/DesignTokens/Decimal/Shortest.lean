/-!
The shortest decimal that reads back as a given binary fraction.

A positive finite double is `m · 2^q`. The reals that round to it form an interval around it, closed
exactly when `m` is even. For one digit, two digits and so on the value's two neighbours on that
decimal grid are tried; the first grid with a neighbour in the interval wins, the nearer neighbour
if both lie in it. All comparisons are exact, in natural numbers.
-/

namespace DesignTokens

/-- The number `digits · 10^exponent`. -/
structure Decimal where
  digits : Nat
  exponent : Int
  deriving DecidableEq, Repr, Inhabited

namespace Decimal

inductive Tie where
  | up
  | even
  deriving DecidableEq, Repr

structure Ratio where
  num : Nat
  den : Nat
  deriving Repr

/-- A binary fraction with a sharp neighbourhood: everything strictly between `low` and `high`
rounds to `value`, and so do the ends if `closed`. -/
structure Neighbourhood where
  low : Ratio
  value : Ratio
  high : Ratio
  closed : Bool
  deriving Repr

/-- The power of ten with a natural exponent; a negative one counts as zero. -/
def tenTo (j : Int) : Nat :=
  Nat.pow 10 j.toNat

def twoTo (j : Int) : Nat :=
  Nat.pow 2 j.toNat

def compareAt (d : Nat) (j : Int) (r : Ratio) : Ordering :=
  compare (d * tenTo j * r.den) (r.num * tenTo (-j))

def Neighbourhood.admits (n : Neighbourhood) (d : Nat) (j : Int) : Bool :=
  match compareAt d j n.low, compareAt d j n.high with
  | .gt, .lt => true
  | .eq, .lt => n.closed
  | .gt, .eq => n.closed
  | _, _ => false

/-- The place of the decimal point: the least `k` with `value < 10^k`. -/
def Neighbourhood.place (n : Neighbourhood) : Int :=
  -- The binary logarithms give the place up to a small error.
  let guess : Int := ((n.value.num.log2 : Int) - (n.value.den.log2 : Int)) * 30103 / 100000
  let candidates : List Int := [guess - 1, guess, guess + 1, guess + 2]
  (candidates.find? fun k => compareAt 1 k n.value == .gt).getD (guess + 3)

def Neighbourhood.onGrid (n : Neighbourhood) (tie : Tie) (j : Int) : Option Nat :=
  let below := n.value.num * tenTo (-j) / (n.value.den * tenTo j)
  match n.admits below j, n.admits (below + 1) j with
  | true, false => some below
  | false, true => some (below + 1)
  | false, false => none
  | true, true =>
      let middle : Ordering :=
        compare ((2 * below + 1) * tenTo j * n.value.den) (2 * n.value.num * tenTo (-j))
      match middle, tie with
      | .gt, _ => some below
      | .lt, _ => some (below + 1)
      | .eq, .up => some (below + 1)
      | .eq, .even => if below % 2 = 0 then some below else some (below + 1)

def stripZeros : Nat → Decimal → Decimal
  | 0, d => d
  | fuel + 1, d =>
      if d.digits ≠ 0 ∧ d.digits % 10 = 0 then stripZeros fuel ⟨d.digits / 10, d.exponent + 1⟩
      else d

/-- The shortest decimal in the neighbourhood. Seventeen digits always suffice for a double. -/
def shortest (tie : Tie) (n : Neighbourhood) : Decimal :=
  let place := n.place
  let grids : List Int := (List.range 17).map fun (count : Nat) => place - ((count : Int) + 1)
  match grids.findSome? fun j => (n.onGrid tie j).map (Decimal.mk · j) with
  | some d => stripZeros 20 d
  | none => ⟨0, 0⟩

/-- The neighbourhood of `m · 2^q`. The gap below a power of two is half as wide, except at the
smallest exponent; `narrow` says that this is the case. -/
def neighbourhood (m : Nat) (q : Int) (narrow : Bool) : Neighbourhood :=
  -- All three are counted in quarters of the last binary place.
  let ratio (quarters : Nat) : Ratio := ⟨quarters * twoTo (q - 2), twoTo (2 - q)⟩
  ⟨ratio (if narrow then 4 * m - 1 else 4 * m - 2), ratio (4 * m), ratio (4 * m + 2), m % 2 = 0⟩

def ofFloat (tie : Tie) (x : Float) : Decimal :=
  let bits : Nat := x.toBits.toNat
  let biased : Nat := bits / twoTo 52 % twoTo 11
  let low : Nat := bits % twoTo 52
  if biased = 0 then
    -- Subnormal numbers have no leading one.
    if low = 0 then ⟨0, 0⟩ else shortest tie (neighbourhood low (-1074) false)
  else
    shortest tie (neighbourhood (twoTo 52 + low) ((biased : Int) - 1075) (low == 0 && biased != 1))

end Decimal
end DesignTokens
