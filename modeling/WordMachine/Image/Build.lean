import WordMachine.Image.Header
import WordMachine.Program.Check
import WordMachine.Program.Symbols

-- The code is laid out in two passes, since a label may come after its use. A program need not have been checked
-- first; what it then lacks is still reported.

namespace WordMachine

def fitWord (n : Nat) : Except Fault Word :=
  if n < memorySize then .ok (UInt16.ofNat n) else .error (.imageTooLarge n)

def Section.place (s : Section) (start : Nat) : Except Fault Descriptor := do
  s.entries.forM fun e => require (e.item.isEncodable = true) (.nonAsciiText e.name)
  require (s.stop ≤ memorySize) (.imageTooLarge s.stop)
  let filePointer ← fitWord start
  let byteLength ← fitWord s.size
  let d : Descriptor := {filePointer,loadOffset := s.base,byteLength}
  require (d.collides = false) (.ambiguousDescriptor s.name)
  return d

def placeSections (start : Nat) : List Section → Except Fault (List Descriptor)
  | [] => .ok []
  | s :: rest => do
    let d ← s.place start
    let ds ← placeSections (start + s.size) rest
    return d :: ds

structure Patch where
  offset : Nat
  argument : Argument
  deriving DecidableEq, Repr

structure Draft where
  code : Array Byte := #[]
  labels : List (String × Nat) := []
  patches : Array Patch := #[]
  deriving DecidableEq, Repr

-- An argument that there is no operand for is passed over.
def Draft.add : Draft → CodeElement → Except Fault Draft
  | ⟨code,labels,patches⟩,.label name => .ok ⟨code,(name,code.size) :: labels,patches⟩
  | ⟨code,labels,patches⟩,.instruction i argument =>
    let code := code.push i.opcode
    if i.hasOperand then
      match argument with
      | some a =>
        let patches := patches.push ⟨code.size,a⟩
        .ok ⟨(code.push 0).push 0,labels,patches⟩
      | none => .error (.missingArgument i.mnemonic)
    else .ok ⟨code,labels,patches⟩

def Patch.fill (symbols : Symbols) (code : Array Byte) (patch : Patch) : Except Fault (Array Byte) := do
  let value ← patch.argument.resolve symbols
  return (code.setIfInBounds patch.offset (Word.low value)).setIfInBounds (patch.offset + 1) (Word.high value)

def Draft.filled (d : Draft) (symbols : Symbols) : Except Fault (Array Byte) :=
  d.patches.toList.foldlM (Patch.fill symbols) d.code

namespace Program

def draft (p : Program) : Except Fault Draft := p.code.foldlM Draft.add {}

def headerSize (p : Program) : Nat := Header.sizeFor p.sections.length

def build (p : Program) : Except Fault (List Byte) := do
  let sections ← placeSections p.headerSize p.sections
  let draft ← p.draft
  require (p.codeBase + draft.code.size ≤ memorySize) (.imageTooLarge (p.codeBase + draft.code.size))
  let code ← draft.filled ⟨p.codeBase,draft.labels,p.dataTable⟩
  let codePointer ← fitWord (p.headerSize + p.dataSize)
  let codeLength ← fitWord code.size
  let h : Header := {sections,codePointer,codeLength}
  return h.bytes ++ p.dataBytes ++ code.toList

def assemble (p : Program) : Except Fault (List Byte) := do
  p.check
  p.build

end Program

end WordMachine
