import DesignTokens.CommandLine.Location

/-!
The arguments of the command line.

Arguments are read from left to right. An option written without its value waits for the next
argument that is not an option; its value is examined when the next option or the end comes. An
argument that is not known is reported at once, whatever is wrong with the option that waits.
-/

namespace DesignTokens

structure Arguments where
  input : String
  config : Option String
  logLevel : String
  colors : Bool
  hover : Option Location
  deriving DecidableEq, Repr

namespace Arguments

/-- Why arguments are not accepted; asking for help or for the version also ends the reading. -/
inductive Error where
  | missingInput
  | unknownArgument
  | missingValue
  | repeatedOption
  | unneededValue
  | badLocation (error : Location.Error)
  | help
  | version
  deriving DecidableEq, Repr

inductive ValueOption where
  | config
  | logLevel
  | hover
  deriving DecidableEq, Repr

inductive Switch where
  | colors
  | help
  | version
  deriving DecidableEq, Repr

def long? (name : String) : Option (ValueOption ⊕ Switch) :=
  [("config", .inl .config), ("log-level", .inl .logLevel), ("hover", .inl .hover),
    ("colors", .inr .colors), ("help", .inr .help), ("version", .inr .version)].lookup name

def short? (letter : Char) : Option (ValueOption ⊕ Switch) :=
  [('c', .inl .config), ('h', .inr .help), ('V', .inr .version)].lookup letter

/-- The arguments read so far. The value of the option that is `waiting` is not examined yet, if it
was given at all. -/
structure Reading where
  input : Option String
  config : Option String
  logLevel : Option String
  hover : Option Location
  colors : Bool
  waiting : Option (ValueOption × Option String)
  onlyInputs : Bool

namespace Reading

def start : Reading :=
  ⟨none, none, none, none, false, none, false⟩

/-- Sets an option, which must not be set already. -/
def setOption (r : Reading) (option : ValueOption) (value : String) : Except Error Reading :=
  match option with
  | .config =>
      if r.config.isSome then .error .repeatedOption else .ok { r with config := some value }
  | .logLevel =>
      if r.logLevel.isSome then .error .repeatedOption else .ok { r with logLevel := some value }
  | .hover =>
      if r.hover.isSome then .error .repeatedOption
      else
        match Location.ofText value with
        | .ok location => .ok { r with hover := some location }
        | .error e => .error (.badLocation e)

def settle (r : Reading) : Except Error Reading :=
  match r.waiting with
  | none => .ok r
  | some (_, none) => .error .missingValue
  | some (option, some value) => { r with waiting := none }.setOption option value

def option (r : Reading) (option : ValueOption) (value : Option String) : Except Error Reading := do
  let r ← r.settle
  match value with
  | some value => r.setOption option value
  | none => pure { r with waiting := some (option, none) }

def switch (r : Reading) (switch : Switch) : Except Error Reading := do
  let r ← r.settle
  match switch with
  | .colors => if r.colors then .error .repeatedOption else pure { r with colors := true }
  | .help => .error .help
  | .version => .error .version

def addInput (r : Reading) (value : String) : Except Error Reading :=
  if r.input.isSome then .error .unknownArgument
  else do
    let r ← r.settle
    pure { r with input := some value }

def long (r : Reading) (cs : List Char) : Except Error Reading :=
  let name := String.ofList (cs.takeWhile (· != '='))
  let value := match cs.dropWhile (· != '=') with
    | [] => none
    | _ :: value => some (String.ofList value)
  match long? name, value with
  | none, _ => .error .unknownArgument
  | some (.inl option), value => r.option option value
  | some (.inr switch), none => r.switch switch
  | some (.inr _), some _ => .error .unneededValue

/-- Reads short options, given without the dash. A value may follow its letter directly or behind an
equals sign. -/
def short (r : Reading) : List Char → Except Error Reading
  | [] => .ok r
  | letter :: cs =>
      match short? letter, cs with
      | none, _ => .error .unknownArgument
      | some (.inr switch), _ => do (← r.switch switch).short cs
      | some (.inl option), [] => r.option option none
      | some (.inl option), '=' :: value => r.option option (some (String.ofList value))
      | some (.inl option), value => r.option option (some (String.ofList value))

def argument (r : Reading) (arg : String) : Except Error Reading :=
  if r.onlyInputs then r.addInput arg
  else
    match arg.toList with
    | ['-', '-'] => .ok { r with onlyInputs := true }
    | '-' :: '-' :: name => r.long name
    -- A lone dash is an input.
    | '-' :: letter :: more => r.short (letter :: more)
    | _ =>
        match r.waiting with
        | some (option, none) => .ok { r with waiting := some (option, some arg) }
        | _ => r.addInput arg

def finish (r : Reading) : Except Error Arguments := do
  let r ← r.settle
  match r.input with
  | none => .error .missingInput
  | some input => pure ⟨input, r.config, r.logLevel.getD "info", r.colors, r.hover⟩

end Reading

def ofList (args : List String) : Except Error Arguments := do
  (← args.foldlM Reading.argument .start).finish

end Arguments
end DesignTokens
