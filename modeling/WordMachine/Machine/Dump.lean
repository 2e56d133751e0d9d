import WordMachine.Log
import WordMachine.Machine.State

namespace WordMachine.Machine

def stackReach : Nat := 10

-- Every second address from the lowest one in reach, which need not have the parity of the stack pointer.
def stackWindow (m : Machine) : List Nat :=
  let sp := m.registers.sp.toNat
  let lowest := sp - stackReach
  let highest := min (sp + stackReach) (memorySize - 2)
  (List.range ((highest - lowest) / 2 + 1)).map fun k => lowest + 2 * k

def stackLine (m : Machine) (address : Nat) : String :=
  let mark :=
    if address = m.registers.sp.toNat then "  <- SP"
    else if address = m.registers.fp.toNat then "  <- FP"
    else ""
  Hex.word address ++ ": " ++ Hex.word (m.memory.word (UInt16.ofNat address)).toNat ++ mark

def stackLines (m : Machine) : List String := m.stackWindow.map m.stackLine

def stackDump (m : Machine) : String := String.join (m.stackLines.map (· ++ "\n"))

def logStack (m : Machine) (log : Log) : Log :=
  m.stackWindow.foldl (fun log address => log.debug fun _ => m.stackLine address)
    (log.debug fun _ => m.registers.render)

def memoryRow (address : Nat) (bytes : List Byte) : String :=
  Hex.digits 4 address ++ ":" ++ String.join (bytes.map fun b => " " ++ Hex.digits 2 b.toNat)

def memoryDump (m : Machine) (start : Word) (length : Nat) : String :=
  let shown := min length (memorySize - start.toNat)
  let rows := (List.range ((shown + 15) / 16)).map fun row =>
    let address := start.toNat + 16 * row
    memoryRow address (m.memory.slice (UInt16.ofNat address) (min 16 (shown - 16 * row)))
  String.join (rows.map (· ++ "\n"))

end WordMachine.Machine
