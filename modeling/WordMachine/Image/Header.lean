import WordMachine.Image.Record
import WordMachine.Program.Basic

-- VMFC, a descriptor for each section, ENDS, the place and the length of the code, and then the bodies. The table of
-- descriptors has no count: it goes on until ENDS stands where the next descriptor would.

namespace WordMachine

def magic : Tag := ⟨0x56,0x4D,0x46,0x43⟩

def terminator : Tag := ⟨0x45,0x4E,0x44,0x53⟩

namespace Descriptor

def stop (d : Descriptor) : Nat := d.loadOffset.toNat + d.byteLength.toNat

def body (d : Descriptor) (image : List Byte) : List Byte :=
  (image.drop d.filePointer.toNat).take d.byteLength.toNat

-- Whether a reader would take the descriptor for the end of the table.
def collides (d : Descriptor) : Bool := d.bytes.take 4 == terminator.bytes

end Descriptor

structure Header where
  sections : List Descriptor
  codePointer : Word
  codeLength : Word
  deriving DecidableEq, Repr

inductive HeaderPart where
  | magic | descriptor | codePointer | codeLength
  deriving DecidableEq, Repr

def HeaderPart.name : HeaderPart → String
  | magic => "magic"
  | descriptor => "descriptor"
  | codePointer => "code pointer"
  | codeLength => "code length"

inductive HeaderFault where
  | truncated (part : HeaderPart)
  | badMagic (found : Tag)
  | unterminatedTable
  | sectionPastImage (index : Nat) (descriptor : Descriptor) (imageLength : Nat)
  | sectionPastMemory (index : Nat) (descriptor : Descriptor)
  | codePastImage (pointer length : Word) (imageLength : Nat)
  | codePastMemory (base : Nat) (length : Word)
  deriving DecidableEq, Repr

namespace HeaderFault

def reason : HeaderFault → String
  | truncated part => s!"{part.name}: unexpected end of input"
  | badMagic found =>
    let shown := ", ".intercalate (found.bytes.map fun b => Hex.digits 2 b.toNat)
    s!"bad magic [{shown}]"
  | unterminatedTable => "descriptor table is not terminated"
  | sectionPastImage index d imageLength =>
    let start := Hex.word d.filePointer.toNat
    s!"section {index} body {start}+{d.byteLength} runs past end of image ({imageLength} bytes)"
  | sectionPastMemory index d =>
    let start := Hex.word d.loadOffset.toNat
    s!"section {index} at {start}+{d.byteLength} does not fit in memory"
  | codePastImage pointer length imageLength =>
    let start := Hex.word pointer.toNat
    s!"code body {start}+{length} runs past end of image ({imageLength} bytes)"
  | codePastMemory base length =>
    s!"code of {length} bytes at {Hex.word base} does not fit in memory"

def toFault (fault : HeaderFault) : Fault := .malformedImage fault.reason

end HeaderFault

namespace Header

def sizeFor (sections : Nat) : Nat := 12 + 6 * sections

def codeBase (h : Header) : Nat :=
  match h.sections.getLast? with
  | some d => d.stop
  | none => 0

def codeStop (h : Header) : Nat := h.codeBase + h.codeLength.toNat

def codeBody (h : Header) (image : List Byte) : List Byte :=
  (image.drop h.codePointer.toNat).take h.codeLength.toNat

def bytes (h : Header) : List Byte :=
  magic.bytes ++ h.sections.flatMap Descriptor.bytes ++ terminator.bytes ++
    Word.bytes h.codePointer ++ Word.bytes h.codeLength

def readPart {α : Type} (part : HeaderPart) (reader : Reader α) (input : List Byte) :
    Except HeaderFault (α × List Byte) :=
  match reader input with
  | (some value,rest) => .ok (value,rest)
  | (none,_) => .error (.truncated part)

def readTable (taken : List Descriptor) :
    List Byte → Except HeaderFault (List Descriptor × List Byte)
  | b₁ :: b₂ :: b₃ :: b₄ :: rest =>
    if (⟨b₁,b₂,b₃,b₄⟩ : Tag) = terminator then .ok (taken.reverse,rest)
    else
      match rest with
      | b₅ :: b₆ :: rest =>
        let d : Descriptor := ⟨Word.ofBytes b₁ b₂,Word.ofBytes b₃ b₄,Word.ofBytes b₅ b₆⟩
        readTable (d :: taken) rest
      | _ => .error (.truncated .descriptor)
  | _ => .error .unterminatedTable

def checkSections (imageLength index : Nat) : List Descriptor → Except HeaderFault Unit
  | [] => .ok ()
  | d :: rest =>
    if imageLength < d.filePointer.toNat + d.byteLength.toNat then
      .error (.sectionPastImage index d imageLength)
    else if memorySize < d.stop then .error (.sectionPastMemory index d)
    else checkSections imageLength (index + 1) rest

def checkBounds (h : Header) (imageLength : Nat) : Except HeaderFault Unit :=
  match checkSections imageLength 0 h.sections with
  | .error fault => .error fault
  | .ok _ =>
    if imageLength < h.codePointer.toNat + h.codeLength.toNat then
      .error (.codePastImage h.codePointer h.codeLength imageLength)
    else if memorySize < h.codeStop then .error (.codePastMemory h.codeBase h.codeLength)
    else .ok ()

def parse (image : List Byte) : Except HeaderFault Header := do
  let (found,input) ← readPart .magic Reader.tag image
  if found = magic then
    let (sections,input) ← readTable [] input
    let (codePointer,input) ← readPart .codePointer Reader.word input
    let (codeLength,_) ← readPart .codeLength Reader.word input
    let h : Header := {sections,codePointer,codeLength}
    h.checkBounds image.length
    return h
  else
    throw (.badMagic found)

end Header

end WordMachine
