import WordMachine.Machine.State

-- Instructions are made of elementary actions, so a fact about every action is a fact about every instruction. An
-- action that is refused ends the run, and what was done before it stays done.

namespace WordMachine

inductive Microcode (α : Type) where
  | done (value : α)
  | fail (fault : Fault)
  | fetch (address : Word) (next : Byte → Microcode α)
  | read (address : Word) (next : Word → Microcode α)
  | write (address value : Word) (next : Unit → Microcode α)
  | inspect (next : Registers → Microcode α)
  | adjust (change : Registers → Registers) (next : Unit → Microcode α)
  | retire (next : Unit → Microcode α)
  | halt (next : Unit → Microcode α)

namespace Microcode

variable {α β : Type}

def bind (first : Microcode α) (after : α → Microcode β) : Microcode β :=
  match first with
  | done value => after value
  | fail fault => fail fault
  | fetch address next => fetch address fun b => (next b).bind after
  | read address next => read address fun w => (next w).bind after
  | write address value next => write address value fun u => (next u).bind after
  | inspect next => inspect fun r => (next r).bind after
  | adjust change next => adjust change fun u => (next u).bind after
  | retire next => retire fun u => (next u).bind after
  | halt next => halt fun u => (next u).bind after

instance : Monad Microcode where
  pure := done
  bind := bind

def run : Microcode α → Machine → Outcome α
  | done value,m => ⟨.ok value,m⟩
  | fail fault,m => ⟨.error fault,m⟩
  | fetch address next,m =>
    match m.refuse? (.fetch address) with
    | some fault => ⟨.error fault,m⟩
    | none => (next (m.memory.byte address)).run m
  | read address next,m =>
    match m.refuse? (.read address) with
    | some fault => ⟨.error fault,m⟩
    | none => (next (m.memory.word address)).run m
  | write address value next,m =>
    match m.refuse? (.write address) with
    | some fault => ⟨.error fault,m⟩
    | none => (next ()).run {m with memory := m.memory.setWord address value}
  | inspect next,m => (next m.registers).run m
  | adjust change next,m => (next ()).run {m with registers := change m.registers}
  | retire next,m => (next ()).run {m with steps := m.steps + 1}
  | halt next,m => (next ()).run {m with halted := true}

def readWord (address : Word) : Microcode Word := read address done

def writeWord (address value : Word) : Microcode Unit := write address value done

def registers : Microcode Registers := inspect done

def setRegisters (change : Registers → Registers) : Microcode Unit := adjust change done

def countStep : Microcode Unit := retire done

def stop : Microcode Unit := halt done

def nextByte : Microcode Byte := do
  let r ← registers
  let b ← fetch r.ip done
  setRegisters fun r => {r with ip := r.ip + 1}
  return b

def nextWord : Microcode Word := do
  let lo ← nextByte
  let hi ← nextByte
  return Word.ofBytes lo hi

-- A push that is refused has lowered the stack pointer and not yet grown the frame.
def push (value : Word) : Microcode Unit := do
  setRegisters fun r => {r with sp := r.sp - 2}
  let r ← registers
  writeWord r.sp value
  setRegisters fun r => {r with fs := r.fs + 2}

def pop : Microcode Word := do
  let r ← registers
  let value ← readWord r.sp
  setRegisters fun r => {r with sp := r.sp + 2,fs := r.fs - 2}
  return value

def popMany : (count : Nat) → (taken : List Word) → Microcode (List Word)
  | 0,taken => return taken
  | count + 1,taken => do
    let value ← pop
    popMany count (value :: taken)

def pushMany : List Word → Microcode Unit
  | [] => return ()
  | value :: rest => do
    push value
    pushMany rest

end Microcode

end WordMachine
