import AnalogCircuit.Netlist.Value
import AnalogCircuit.Simulation.Basic
import AnalogCircuit.Text.Blank
/-!
# Command line

What a user asks for: a netlist, the settings of the simulation and values of parameters. Options stand
in any order, in a short form such as `-s 44100` or a long form such as `--sample-rate=44100`.
-/

namespace AnalogCircuit.CommandLine

variable {α : Type} [Scalar α]

/-! ## Requests -/

/-- A run that is asked for. -/
structure Request (α : Type) where
  /-- The file that holds the netlist. -/
  path? : Option String
  settings : Settings α
  /-- Values of parameters, in the order in which they are given. -/
  bindings : List (String × α)

/-- What is wrong with a command line. -/
inductive UsageError where
  | missingFile
  | unexpectedArgument (argument : String)
  | missingValue (option : String)
  | invalidValue (option value : String)
deriving DecidableEq, Repr

/-- The sentence that reports a wrong command line. -/
def UsageError.message : UsageError → String
  | missingFile => "the following required arguments were not provided: <CIRCUIT_FILE>"
  | unexpectedArgument argument => s!"unexpected argument '{argument}' found"
  | missingValue option => s!"a value is required for '{option}' but none was supplied"
  | invalidValue option value => s!"invalid value '{value}' for '{option}'"

/-! ## Values -/

/-- A decimal number, all of the text. -/
def number? (text : List Char) : Option α :=
  match Netlist.spanSigned text with
  | (literal, []) => literal.magnitude?.map fun m =>
      ({ negative := literal.negative, magnitude := m, scale := 0 } : Numeral.Quantity).value
  | _ => none

/-- A name and a number with an equals sign between them. -/
def binding? (text : List Char) : Option (String × α) :=
  let (name, rest) := Text.splitWhile (· != '=') text
  match rest with
  | _ :: value => (number? (Text.trim value)).map fun v => (String.ofList (Text.trim name), v)
  | [] => none

/-! ## Options -/

/-- The options that take a value. -/
inductive OptionName where
  | sampleRate
  | oversample
  | iterations
  | param
deriving DecidableEq, Repr

/-- The option of a short or long form. -/
def OptionName.ofText? (text : String) : Option OptionName :=
  match text with
  | "-s" | "--sample-rate" => some sampleRate
  | "-o" | "--oversample" => some oversample
  | "-i" | "--iterations" => some iterations
  | "-p" | "--param" => some param
  | _ => none

/-- Takes an option with its value into a request. -/
def Request.take (r : Request α) (option : OptionName) (value : String) : Option (Request α) :=
  match option with
  | .sampleRate => (number? value.toList).map fun v => { r with settings.sampleRate := v }
  | .oversample => value.toNat?.map fun n => { r with settings.oversample := n }
  | .iterations => value.toNat?.map fun n => { r with settings.iterations := n }
  | .param => (binding? value.toList).map fun b => { r with bindings := r.bindings ++ [b] }

/-- An argument as an option and the value that is attached to it, if there is one. -/
def splitAttached (argument : String) : String × Option String :=
  let cs := argument.toList
  if "--".toList.isPrefixOf cs then
    match Text.splitWhile (· != '=') cs with
    | (option, _ :: value) => (String.ofList option, some (String.ofList value))
    | (option, []) => (String.ofList option, none)
  else if cs.length > 2 then (String.ofList (cs.take 2), some (String.ofList (cs.drop 2)))
  else (argument, none)

/-- Takes an option with its value into a request; `option` is its written form. -/
def takeOption (r : Request α) (name : OptionName) (option value : String) :
    Except UsageError (Request α) :=
  match r.take name value with
  | some r => .ok r
  | none => .error (.invalidValue option value)

/-- Asks for messages about progress, of which there are none. -/
def isVerbose (argument : String) : Bool :=
  argument == "--verbose" || match argument.toList with
    | '-' :: 'v' :: more => more.all (· == 'v')
    | _ => false

/-- Reads arguments into a request. -/
def readArguments (r : Request α) : List String → Except UsageError (Request α)
  | [] => .ok r
  | argument :: rest =>
    let (option, attached) := splitAttached argument
    match OptionName.ofText? option with
    | some name =>
      match attached with
      | some value => do readArguments (← takeOption r name option value) rest
      | none =>
        match rest with
        | value :: rest => do readArguments (← takeOption r name option value) rest
        | [] => .error (.missingValue option)
    | none =>
      if isVerbose argument then readArguments r rest
      else if argument.startsWith "-" || r.path?.isSome then .error (.unexpectedArgument argument)
      else readArguments { r with path? := some argument } rest

/-- The request that a command line makes, with the file it names. -/
def parse (arguments : List String) : Except UsageError (String × Request α) := do
  let r ← readArguments ⟨none, .standard, []⟩ arguments
  match r.path? with
  | some path => return (path, r)
  | none => throw .missingFile

/-- The simulation that a request asks for, given the text of its netlist. -/
def Request.simulation (r : Request α) (netlist : String) : Except Error (Simulation α) := do
  let s ← Simulation.ofCircuit (← Circuit.ofText netlist) r.settings
  r.bindings.foldlM (fun s (name, v) => s.setParameter name v) s

end AnalogCircuit.CommandLine
