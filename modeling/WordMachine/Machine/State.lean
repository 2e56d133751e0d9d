import WordMachine.Fault
import WordMachine.Memory

-- The guard decides which memory accesses are refused; it never changes what an access that is allowed does.

namespace WordMachine

structure Registers where
  ip : Word
  sp : Word
  -- The address of the current frame's return address.
  fp : Word
  -- The number of bytes pushed in the current frame.
  fs : Word
  deriving DecidableEq, Repr

namespace Registers

def atEntry (entry : Word) : Registers := {ip := entry,sp := 0xFFFB,fp := 0xFFFB,fs := 0}

def render (r : Registers) : String :=
  let ip := Hex.word r.ip.toNat
  let sp := Hex.word r.sp.toNat
  let fp := Hex.word r.fp.toNat
  s!"ip={ip} sp={sp} fp={fp} fs={r.fs}"

end Registers

structure CodeRegion where
  start : Nat
  stop : Nat
  deriving DecidableEq, Repr

inductive Access where
  | fetch (address : Word)
  | read (address : Word)
  | write (address : Word)
  deriving DecidableEq, Repr

inductive Violation where
  | fetchOutsideCode | readPastEnd | writePastEnd | writeIntoCode
  deriving DecidableEq, Repr

def Violation.name : Violation → String
  | fetchOutsideCode => "fetch outside code"
  | readPastEnd => "read past end of memory"
  | writePastEnd => "write past end of memory"
  | writeIntoCode => "write into code"

namespace Access

def address : Access → Word
  | fetch a | read a | write a => a

-- A region without bytes refuses a write on either side of its place. No instruction gets there: the
-- fetch of its opcode is refused before.
def violation? (code : CodeRegion) : Access → Option Violation
  | fetch a =>
    if code.start ≤ a.toNat ∧ a.toNat < code.stop then none else some .fetchOutsideCode
  | read a => if a = 0xFFFF then some .readPastEnd else none
  | write a =>
    if a = 0xFFFF then some .writePastEnd
    else if code.start < a.toNat + 2 ∧ a.toNat < code.stop then some .writeIntoCode
    else none

end Access

inductive Guard where
  | off
  | strict
  deriving DecidableEq, Repr

def Guard.refuse? (guard : Guard) (code : CodeRegion) (access : Access) : Option Fault :=
  match guard with
  | off => none
  | strict => (access.violation? code).map fun v => .memoryFault v.name access.address

structure Config where
  guard : Guard := .off
  stepLimit : Option Nat := none
  deriving DecidableEq, Repr

structure Machine where
  config : Config
  memory : Memory
  code : CodeRegion
  registers : Registers
  entry : Word
  halted : Bool
  steps : Nat
  deriving DecidableEq

namespace Machine

def new (config : Config) : Machine where
  config := config
  memory := .zero
  code := ⟨0,0⟩
  registers := .atEntry 0
  entry := 0
  halted := false
  steps := 0

def top (m : Machine) : Word := m.memory.word m.registers.sp

def refuse? (m : Machine) (access : Access) : Option Fault :=
  m.config.guard.refuse? m.code access

end Machine

structure Outcome (α : Type) where
  result : Except Fault α
  machine : Machine

end WordMachine
