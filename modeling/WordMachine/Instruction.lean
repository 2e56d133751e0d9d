import WordMachine.Fault

-- An instruction is stored as its opcode byte, followed by one word if it has an operand.

namespace WordMachine

inductive Instruction where
  | push | pip | psp | pms | pmf | cps
  | add | inc | dec | mul | sub | lsf | rsf | and | or | xor | not
  | call | ret
  | isp | dsp | iip | dip | ssp
  | halt | dbg | nop
  | jnz | jz | jmp | jeq | jne | jgt | jlt | jge | jle
  | msm | smv | cpos
  deriving DecidableEq, Repr

namespace Instruction

def all : List Instruction :=
  [push,pip,psp,pms,pmf,cps,
    add,inc,dec,mul,sub,lsf,rsf,and,or,xor,not,
    call,ret,
    isp,dsp,iip,dip,ssp,
    halt,dbg,nop,
    jnz,jz,jmp,jeq,jne,jgt,jlt,jge,jle,
    msm,smv,cpos]

-- Opcodes are dense from 1, so that zeroed memory holds no instruction.
def opcode : Instruction → Byte
  | push => 0x01
  | pip => 0x02
  | psp => 0x03
  | pms => 0x04
  | pmf => 0x05
  | cps => 0x06
  | add => 0x07
  | inc => 0x08
  | dec => 0x09
  | mul => 0x0A
  | sub => 0x0B
  | lsf => 0x0C
  | rsf => 0x0D
  | and => 0x0E
  | or => 0x0F
  | xor => 0x10
  | not => 0x11
  | call => 0x12
  | ret => 0x13
  | isp => 0x14
  | dsp => 0x15
  | iip => 0x16
  | dip => 0x17
  | ssp => 0x18
  | halt => 0x19
  | dbg => 0x1A
  | nop => 0x1B
  | jnz => 0x1C
  | jz => 0x1D
  | jmp => 0x1E
  | jeq => 0x1F
  | jne => 0x20
  | jgt => 0x21
  | jlt => 0x22
  | jge => 0x23
  | jle => 0x24
  | msm => 0x25
  | smv => 0x26
  | cpos => 0x27

def mnemonic : Instruction → String
  | push => "PUSH"
  | pip => "PIP"
  | psp => "PSP"
  | pms => "PMS"
  | pmf => "PMF"
  | cps => "CPS"
  | add => "ADD"
  | inc => "INC"
  | dec => "DEC"
  | mul => "MUL"
  | sub => "SUB"
  | lsf => "LSF"
  | rsf => "RSF"
  | and => "AND"
  | or => "OR"
  | xor => "XOR"
  | not => "NOT"
  | call => "CALL"
  | ret => "RET"
  | isp => "ISP"
  | dsp => "DSP"
  | iip => "IIP"
  | dip => "DIP"
  | ssp => "SSP"
  | halt => "HALT"
  | dbg => "DBG"
  | nop => "NOP"
  | jnz => "JNZ"
  | jz => "JZ"
  | jmp => "JMP"
  | jeq => "JEQ"
  | jne => "JNE"
  | jgt => "JGT"
  | jlt => "JLT"
  | jge => "JGE"
  | jle => "JLE"
  | msm => "MSM"
  | smv => "SMV"
  | cpos => "CPOS"

def hasOperand : Instruction → Bool
  | push | cps | smv => true
  | _ => false

def size (i : Instruction) : Nat := if i.hasOperand then 3 else 1

def ofOpcode? (code : Byte) : Option Instruction := all.find? (·.opcode == code)

-- Letters outside ASCII have no other case here, so a text that needs one names no instruction.
def ofMnemonic? (text : String) : Option Instruction :=
  let upper := text.map Char.toUpper
  all.find? (·.mnemonic == upper)

def ofOpcode (code : Byte) : Except Fault Instruction :=
  match ofOpcode? code with
  | some i => .ok i
  | none => .error (.unimplementedOpcode code 0)

def ofMnemonic (text : String) : Except Fault Instruction :=
  match ofMnemonic? text with
  | some i => .ok i
  | none => .error (.unknownMnemonic text)

theorem mem_all (i : Instruction) : i ∈ all := by cases i <;> decide

@[simp]
theorem ofOpcode?_opcode (i : Instruction) : ofOpcode? i.opcode = some i := by cases i <;> rfl

theorem opcode_eq_of_ofOpcode? {code : Byte} {i : Instruction} (found : ofOpcode? code = some i) :
    i.opcode = code := by
  simpa using List.find?_some found

theorem size_pos (i : Instruction) : 0 < i.size := by
  unfold size
  split <;> decide

end Instruction

end WordMachine
