import WordMachine.Machine.State

-- Read from left to right: the first that cannot be read is reported, and of two step limits the later counts.

namespace WordMachine.CommandLine

inductive Flag where
  | strict | maxSteps | header | verbose
  deriving DecidableEq, Repr

def Flag.ofText? (text : String) : Option Flag :=
  if text = "--strict" then some .strict
  else if text = "--max-steps" then some .maxSteps
  else if text = "--header" then some .header
  else if text = "--verbose" then some .verbose
  else none

structure Options where
  config : Config := {}
  showHeader : Bool := false
  verbose : Bool := false
  deriving DecidableEq, Repr

inductive OptionFault where
  | missingLimit
  | invalidLimit (text : String)
  | unexpected (text : String)
  deriving DecidableEq, Repr

def OptionFault.message : OptionFault → String
  | missingLimit => "--max-steps requires an argument"
  | invalidLimit text => s!"Invalid step limit: '{text}' is not a valid number"
  | unexpected text => s!"Unexpected argument: {text}\n"

def digitsValue (digits : List Char) : Nat :=
  digits.foldl (fun value c => 10 * value + (c.toNat - '0'.toNat)) 0

def stepLimit? (text : String) : Option Nat :=
  let digits :=
    match text.toList with
    | '+' :: rest => rest
    | all => all
  if digits ≠ [] ∧ digits.all Char.isDigit = true ∧ digitsValue digits < UInt64.size then
    some (digitsValue digits)
  else none

def Options.read (options : Options) : List String → Except OptionFault Options
  | [] => .ok options
  | text :: rest =>
    match Flag.ofText? text with
    | some .strict => {options with config.guard := .strict}.read rest
    | some .header => {options with showHeader := true}.read rest
    | some .verbose => {options with verbose := true}.read rest
    | some .maxSteps =>
      match rest with
      | [] => .error .missingLimit
      | number :: rest =>
        match stepLimit? number with
        | some limit => {options with config.stepLimit := some limit}.read rest
        | none => .error (.invalidLimit number)
    | none => .error (.unexpected text)

end WordMachine.CommandLine
