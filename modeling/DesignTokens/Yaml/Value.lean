import DesignTokens.Decimal.Layout
import DesignTokens.Decimal.Read

/-!
The values that a YAML document denotes.

A mapping keeps its entries in document order, and its keys are values of any kind. A value with a
local tag is kept apart from the untagged value, but the accessors that ask for a certain kind of
value look through the tag. The constructors, matched directly, do not.
-/

namespace DesignTokens
namespace Yaml

/-- An integer or a double; the two never equal each other. -/
inductive Number where
  | int (value : Int)
  | float (value : Float)
  deriving Repr

namespace Number

def text : Number → String
  | .int n => toString n
  | .float x => Decimal.Layout.document.float x

def nat? : Number → Option Nat
  | .int n => if 0 ≤ n then some n.toNat else none
  | .float _ => none

def int? : Number → Option Int
  | .int n => if n ≤ Decimal.maxNat 63 then some n else none
  | .float _ => none

def toFloat : Number → Float
  | .int n => Float.ofInt n
  | .float x => x

/-- Equality of numbers, by which not-a-number equals itself. -/
def same : Number → Number → Bool
  | .int m, .int n => m == n
  | .float x, .float y => x == y || (x.isNaN && y.isNaN)
  | _, _ => false

end Number

inductive Value where
  | null
  | bool (value : Bool)
  | number (value : Number)
  | string (value : String)
  | sequence (items : List Value)
  | mapping (entries : List (Value × Value))
  | tagged (tag : String) (value : Value)
  deriving Repr, Inhabited

namespace Value

def untagged : Value → Value
  | .tagged _ v => v.untagged
  | v => v

def isNull (v : Value) : Bool :=
  match v.untagged with
  | .null => true
  | _ => false

def bool? (v : Value) : Option Bool :=
  match v.untagged with
  | .bool b => some b
  | _ => none

def number? (v : Value) : Option Number :=
  match v.untagged with
  | .number n => some n
  | _ => none

def string? (v : Value) : Option String :=
  match v.untagged with
  | .string s => some s
  | _ => none

def sequence? (v : Value) : Option (List Value) :=
  match v.untagged with
  | .sequence items => some items
  | _ => none

def mapping? (v : Value) : Option (List (Value × Value)) :=
  match v.untagged with
  | .mapping entries => some entries
  | _ => none

def isString (word : String) : Value → Bool
  | .string s => s == word
  | _ => false

mutual

/-- Equality of values: mappings are equal whatever the order of their entries. -/
def same : Value → Value → Bool
  | .null, .null => true
  | .bool a, .bool b => a == b
  | .number m, .number n => m.same n
  | .string s, .string t => s == t
  | .sequence xs, .sequence ys => sameItems xs ys
  | .mapping xs, .mapping ys => xs.length == ys.length && sameEntries xs ys
  | .tagged s v, .tagged t w => s == t && same v w
  | _, _ => false

def sameItems : List Value → List Value → Bool
  | [], [] => true
  | x :: xs, y :: ys => same x y && sameItems xs ys
  | _, _ => false

def sameEntries : List (Value × Value) → List (Value × Value) → Bool
  | [], _ => true
  | (k, v) :: xs, ys => ys.any (fun (l, w) => same k l && same v w) && sameEntries xs ys

end

mutual

def render : Value → String
  | .null => "null"
  | .bool b => if b then "true" else "false"
  | .number n => n.text
  | .string s => s
  | .sequence items => "[" ++ ", ".intercalate (renderItems items) ++ "]"
  | .mapping entries => "\x7b" ++ ", ".intercalate (renderEntries entries) ++ "\x7d"
  | .tagged _ v => v.render

def renderItems : List Value → List String
  | [] => []
  | x :: xs => x.render :: renderItems xs

def renderEntries : List (Value × Value) → List String
  | [] => []
  | (k, v) :: xs => (k.render ++ ": " ++ v.render) :: renderEntries xs

end

end Value

def get? (key : String) (entries : List (Value × Value)) : Option Value :=
  (entries.find? fun (k, _) => k.isString key).map Prod.snd

def hasKey (key : String) (entries : List (Value × Value)) : Bool :=
  entries.any fun (k, _) => k.isString key

def isTaken (key : Value) (entries : List (Value × Value)) : Bool :=
  entries.any fun (k, _) => k.same key

end Yaml
end DesignTokens
