import DesignTokens.Decimal.Read

/-!
The values of a TOML file.

A number may be written that no number of the machine represents. It is a value all the same, and
only a reader who asks for it learns that it is out of range.
-/

namespace DesignTokens
namespace Toml

/-- A value. A float is infinite if the number written is too large for it; infinity and
not-a-number themselves are special words. Dates and special words are kept as they are written. -/
inductive Value where
  | string (value : String)
  | integer (value : Int)
  | float (value : Float)
  | special (written : String)
  | boolean (value : Bool)
  | date (written : String)
  | array (items : List Value)
  | table (entries : List (String × Value))
  deriving Repr, Inhabited

namespace Value

mutual

/-- Whether every number of the value is in range: integers have up to 128 bits, with or without a
sign. -/
def isInRange : Value → Bool
  | .integer n => -(Decimal.maxNat 127 : Int) - 1 ≤ n && n ≤ Decimal.maxNat 128
  | .float x => x.isFinite
  | .array items => itemsInRange items
  | .table entries => entriesInRange entries
  | _ => true

def itemsInRange : List Value → Bool
  | [] => true
  | v :: vs => v.isInRange && itemsInRange vs

def entriesInRange : List (String × Value) → Bool
  | [] => true
  | (_, v) :: entries => v.isInRange && entriesInRange entries

end

end Value

/-- How a table came to be, which decides what may still be added to it: by a header of its own, by
the header of a table inside it, or by a dotted key. -/
inductive Origin where
  | header
  | parent
  | dotted
  deriving DecidableEq, Repr

/-- A file under construction. A value written out, an inline table among them, is complete. -/
inductive Part where
  | value (value : Value)
  | table (origin : Origin) (entries : List (String × Part))
  | tables (items : List (List (String × Part)))
  deriving Repr

namespace Part

mutual

def toValue : Part → Value
  | .value v => v
  | .table _ entries => .table (entryValues entries)
  | .tables items => .array (tableValues items)

def entryValues : List (String × Part) → List (String × Value)
  | [] => []
  | (k, p) :: entries => (k, p.toValue) :: entryValues entries

def tableValues : List (List (String × Part)) → List Value
  | [] => []
  | entries :: items => .table (entryValues entries) :: tableValues items

end

end Part

abbrev Entries : Type :=
  List (String × Part)

namespace Entries

def find? (key : String) (entries : Entries) : Option Part :=
  entries.lookup key

def set (key : String) (part : Part) : Entries → Entries
  | [] => [(key, part)]
  | (k, p) :: entries => if k == key then (key, part) :: entries else (k, p) :: set key part entries

/-- Adds a value under a dotted key; no key is set twice. The key must not lead through a table that
has a header, and the table it adds to counts as made by a dotted key from then on. It may lead
through the last table of a list, but not add to it. -/
def addValue (value : Value) : List String → Entries → Option Entries
  | [], _ => none
  | [key], entries =>
      if (entries.find? key).isSome then none else some (entries.set key (.value value))
  | key :: keys, entries =>
      match entries.find? key with
      | none => (addValue value keys []).map fun inner => entries.set key (.table .dotted inner)
      | some (.table .header _) => none
      | some (.table origin inner) =>
          let origin := if keys.length == 1 then .dotted else origin
          (addValue value keys inner).map fun inner => entries.set key (.table origin inner)
      | some (.tables items) =>
          match items.getLast? with
          | some inner =>
              if keys.length == 1 then none
              else
                (addValue value keys inner).map fun inner =>
                  entries.set key (.tables (items.dropLast ++ [inner]))
          | none => none
      | some (.value _) => none

/-- Applies `f` to the table that a header names: the last one of a list of tables. -/
def within (f : Entries → Option Entries) : List String → Entries → Option Entries
  | [], entries => f entries
  | key :: keys, entries =>
      match entries.find? key with
      | none => (within f keys []).map fun inner => entries.set key (.table .parent inner)
      | some (.table origin inner) =>
          (within f keys inner).map fun inner => entries.set key (.table origin inner)
      | some (.tables items) =>
          match items.getLast? with
          | none => none
          | some inner =>
              (within f keys inner).map fun inner =>
                entries.set key (.tables (items.dropLast ++ [inner]))
      | some (.value _) => none

/-- Opens the table of a header. A table has at most one header. -/
def openTable (key : String) (entries : Entries) : Option Entries :=
  match entries.find? key with
  | none => some (entries.set key (.table .header []))
  | some (.table .parent inner) => some (entries.set key (.table .header inner))
  | some _ => none

def openItem (key : String) (entries : Entries) : Option Entries :=
  match entries.find? key with
  | none => some (entries.set key (.tables [[]]))
  | some (.tables items) => some (entries.set key (.tables (items ++ [[]])))
  | some _ => none

end Entries
end Toml
end DesignTokens
