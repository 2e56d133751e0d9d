import WordMachine.Instruction
import WordMachine.Machine.Microcode

namespace WordMachine

namespace Word

-- A shift by the width of a word or more leaves nothing.
def shiftLeft (amount value : Word) : Word := if amount < 16 then value <<< amount else 0

def shiftRight (amount value : Word) : Word := if amount < 16 then value >>> amount else 0

end Word

namespace Microcode

def binary (f : Word → Word → Word) : Microcode Unit := do
  let a ← pop
  let b ← pop
  push (f a b)

def updateTop (f : Word → Word) : Microcode Unit := do
  let r ← registers
  let value ← readWord r.sp
  writeWord r.sp (f value)

def jump (target : Word) : Microcode Unit := setRegisters fun r => {r with ip := target}

def jumpIf (condition : Word → Bool) : Microcode Unit := do
  let target ← pop
  let tested ← pop
  if condition tested then jump target else return ()

def jumpComparing (condition : Word → Word → Bool) : Microcode Unit := do
  let target ← pop
  let compared ← pop
  let tested ← pop
  if condition tested compared then jump target else return ()

def pushLocal (offset : Word) : Microcode Unit := do
  let r ← registers
  let value ← readWord (r.fp - offset)
  push value

-- Target, count and arguments make way for the caller's frame size, the return address at the new frame pointer and
-- the arguments in their order. The size is what is left of the frame once those words are popped.
def call : Microcode Unit := do
  let atCall ← registers
  let target ← pop
  let count ← pop
  let arguments ← popMany count.toNat []
  let popped ← registers
  push popped.fs
  push atCall.ip
  setRegisters fun r => {r with fp := r.sp,fs := 0}
  pushMany arguments
  jump target

def ret : Microcode Unit := do
  let r ← registers
  let value ← readWord r.sp
  let returnAddress ← readWord r.fp
  let savedSize ← readWord (r.fp + 2)
  setRegisters fun r =>
    {ip := returnAddress,sp := r.fp + 4,fp := r.fp + 4 + savedSize,fs := savedSize}
  push value

def ofInstruction (i : Instruction) (operand : Word) : Microcode Unit :=
  match i with
  | .push => push operand
  | .pip => do
    let r ← registers
    push r.ip
  | .psp => do
    let r ← registers
    push r.sp
  | .pms => do
    let address ← pop
    let value ← readWord address
    push value
  | .pmf => do
    let address ← pop
    let offset ← pop
    let value ← readWord address
    let r ← registers
    writeWord (r.fp + offset) value
  | .cps => pushLocal operand
  | .add => binary (· + ·)
  | .inc => updateTop (· + 1)
  | .dec => updateTop (· - 1)
  | .mul => binary (· * ·)
  | .sub => binary (· - ·)
  | .lsf => binary Word.shiftLeft
  | .rsf => binary Word.shiftRight
  | .and => binary (· &&& ·)
  | .or => binary (· ||| ·)
  | .xor => binary (· ^^^ ·)
  | .not => do
    let value ← pop
    push (~~~value)
  | .call => call
  | .ret => ret
  | .isp => setRegisters fun r => {r with sp := r.sp + 2}
  | .dsp => setRegisters fun r => {r with sp := r.sp - 2}
  | .iip => setRegisters fun r => {r with ip := r.ip + 2}
  | .dip => setRegisters fun r => {r with ip := r.ip - 2}
  | .ssp => do
    let value ← pop
    setRegisters fun r => {r with sp := value}
  | .halt => stop
  | .dbg | .nop => return ()
  | .jnz => jumpIf (· != 0)
  | .jz => jumpIf (· == 0)
  | .jmp => do
    let target ← pop
    jump target
  | .jeq => jumpComparing (· == ·)
  | .jne => jumpComparing (· != ·)
  | .jgt => jumpComparing fun tested compared => compared < tested
  | .jlt => jumpComparing fun tested compared => tested < compared
  | .jge => jumpComparing fun tested compared => compared ≤ tested
  | .jle => jumpComparing fun tested compared => tested ≤ compared
  | .msm => do
    let address ← pop
    let r ← registers
    let value ← readWord r.sp
    writeWord address value
  | .smv => do
    let value ← pop
    let r ← registers
    writeWord (r.fp - operand) value
  | .cpos => do
    let offset ← pop
    pushLocal offset

end Microcode

end WordMachine
