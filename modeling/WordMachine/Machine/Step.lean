import WordMachine.Machine.Dump
import WordMachine.Machine.Semantics

-- A run is given fuel, and one that stops for want of it can be taken up again.

namespace WordMachine

open Microcode in
-- An instruction counts as executed once its opcode is known.
def cycle : Microcode Instruction := do
  let r ← registers
  let opcode ← nextByte
  match Instruction.ofOpcode? opcode with
  | none => fail (.unimplementedOpcode opcode r.ip)
  | some i =>
    countStep
    let operand ← if i.hasOperand then nextWord else pure 0
    ofInstruction i operand
    return i

namespace Machine

def step (m : Machine) : Outcome (Option Instruction) :=
  if m.halted then ⟨.ok none,m⟩
  else
    match cycle.run m with
    | ⟨.ok i,m⟩ => ⟨.ok (some i),m⟩
    | ⟨.error fault,m⟩ => ⟨.error fault,m⟩

-- A step as its caller sees it: whether the machine has halted by then.
def stepHalts (m : Machine) : Outcome Bool :=
  let outcome := m.step
  ⟨outcome.result.map fun _ => outcome.machine.halted,outcome.machine⟩

def logExecuted (m : Machine) (executed : Option Instruction) (log : Log) : Log :=
  match executed with
  | some .halt =>
    log.info fun _ =>
      let result := Hex.word m.top.toNat
      s!"halted after {m.steps} steps, result {result}"
  | some .dbg => m.logStack log
  | _ => log

def verdict? (m : Machine) : Option (Except Fault Word) :=
  if m.halted then some (.ok m.top)
  else
    match m.config.stepLimit with
    | some limit => if limit ≤ m.steps then some (.error (.stepLimitExceeded limit)) else none
    | none => none

end Machine

structure Run where
  result? : Option (Except Fault Word)
  machine : Machine
  log : Log

def Machine.run (fuel : Nat) (m : Machine) (log : Log) : Run :=
  match m.verdict? with
  | some result => ⟨some result,m,log⟩
  | none =>
    match fuel with
    | 0 => ⟨none,m,log⟩
    | fuel + 1 =>
      match m.step with
      | ⟨.error fault,m⟩ => ⟨some (.error fault),m,log⟩
      | ⟨.ok executed,m⟩ => m.run fuel (m.logExecuted executed log)

end WordMachine
