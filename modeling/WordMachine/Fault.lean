import WordMachine.Word
import WordMachine.Text.Hex

namespace WordMachine

inductive Fault where
  | malformedImage (reason : String)
  | unresolvedSymbol (symbol : String)
  | unimplementedOpcode (opcode : Byte) (address : Word)
  | duplicateSymbol (symbol : String)
  | overlappingSections (first second : String)
  | unknownMnemonic (mnemonic : String)
  | missingArgument (mnemonic : String)
  | unexpectedArgument (mnemonic : String)
  | imageTooLarge (size : Nat)
  | ambiguousDescriptor (sectionName : String)
  | nonAsciiText (symbol : String)
  | memoryFault (access : String) (address : Word)
  | stepLimitExceeded (limit : Nat)
  deriving DecidableEq, Repr

def Fault.message : Fault → String
  | malformedImage reason => s!"invalid VMFC image: {reason}"
  | unresolvedSymbol symbol => s!"unresolved symbol: {symbol}"
  | unimplementedOpcode opcode address =>
    s!"unimplemented opcode {Hex.byte opcode.toNat} at address {Hex.word address.toNat}"
  | duplicateSymbol symbol => s!"duplicate symbol: {symbol}"
  | overlappingSections first second => s!"section {first} overlaps section {second}"
  | unknownMnemonic mnemonic => s!"unknown mnemonic: {mnemonic}"
  | missingArgument mnemonic => s!"{mnemonic} requires an argument"
  | unexpectedArgument mnemonic => s!"{mnemonic} does not take an argument"
  | imageTooLarge size => s!"image too large: {size} bytes"
  | ambiguousDescriptor sectionName =>
    s!"descriptor for section {sectionName} collides with the ENDS terminator"
  | nonAsciiText symbol => s!"data item {symbol} is not ASCII text"
  | memoryFault access address => s!"memory fault: {access} at {Hex.word address.toNat}"
  | stepLimitExceeded limit => s!"step limit of {limit} reached before HALT"

def require (condition : Prop) [Decidable condition] (fault : Fault) : Except Fault Unit :=
  if condition then .ok () else .error fault

@[simp]
theorem require_eq_ok_iff {condition : Prop} [Decidable condition] {fault : Fault} {u : Unit} :
    require condition fault = .ok u ↔ condition := by
  unfold require
  split <;> simp_all

end WordMachine
