import DesignTokens.Decimal.Read
import DesignTokens.Text.Blank
import DesignTokens.Text.LineIndex

/-!
Places as a user writes them: a line and a column, both from one, with a colon between them.
-/

namespace DesignTokens

/-- A line and a column, both from one. -/
structure Location where
  line : Nat
  column : Nat
  line_pos : 0 < line
  column_pos : 0 < column
  deriving DecidableEq, Repr

namespace Location

inductive Error where
  | noColon (text : String)
  | badLine (text : String) (error : Decimal.IntegerError)
  | badColumn (text : String) (error : Decimal.IntegerError)
  | zero
  deriving DecidableEq, Repr

def Error.message : Error → String
  | .noColon text => s!"expected LINE:COL, got `{text}`"
  | .badLine text error => s!"invalid line `{text}`: {error.message}"
  | .badColumn text error => s!"invalid column `{text}`: {error.message}"
  | .zero => "lines and columns start at 1"

def number (cs : List Char) : Except Decimal.IntegerError Nat :=
  Decimal.readNat 10 (Decimal.maxNat 64) (Text.trim cs)

def ofNumbers (line column : Nat) : Except Error Location :=
  if h : 0 < line ∧ 0 < column then .ok ⟨line, column, h.1, h.2⟩ else .error .zero

/-- Reads a location, cut at the first colon. -/
def ofText (text : String) : Except Error Location :=
  let cs := text.toList
  let before := cs.takeWhile (· != ':')
  match cs.dropWhile (· != ':') with
  | [] => .error (.noColon text)
  | _ :: after =>
      match number before with
      | .error e => .error (.badLine (String.ofList before) e)
      | .ok line =>
          match number after with
          | .error e => .error (.badColumn (String.ofList after) e)
          | .ok column => ofNumbers line column

def position (l : Location) : Position :=
  ⟨l.line - 1, l.column - 1⟩

end Location
end DesignTokens
