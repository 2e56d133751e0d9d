import WordMachine.Image.Build
import WordMachine.Machine.Dump

-- The whole header is read and checked first, so bytes that are no image leave the machine as it was.

namespace WordMachine

namespace Machine

def storeSections (memory : Memory) (image : List Byte) (sections : List Descriptor) : Memory :=
  (sections.filter (·.byteLength != 0)).foldl
    (fun memory d => memory.store d.loadOffset (d.body image)) memory

-- Memory that the image says nothing about keeps its bytes.
def install (m : Machine) (h : Header) (image : List Byte) : Machine :=
  let entry := UInt16.ofNat h.codeBase
  {m with
    memory := (storeSections m.memory image h.sections).store entry (h.codeBody image)
    code := ⟨h.codeBase,h.codeStop⟩
    registers := .atEntry entry
    entry
    halted := false
    steps := 0}

def load (m : Machine) (image : List Byte) : Except HeaderFault Machine := do
  let h ← Header.parse image
  return m.install h image

def logLoaded (m : Machine) (image : List Byte) (log : Log) : Log :=
  match Header.parse image with
  | .error _ => log
  | .ok h =>
    let log := log.debug fun _ =>
      let pointer := Hex.word h.codePointer.toNat
      s!"loading {h.sections.length} sections, code {pointer}+{h.codeLength}"
    log.debug fun _ =>
      let entry := Hex.word m.entry.toNat
      s!"entry point {entry}, {m.registers.render}"

end Machine

def Machine.ofImage (config : Config) (image : List Byte) : Except HeaderFault Machine :=
  (Machine.new config).load image

namespace Program

def logSections (log : Log) (start : Nat) : List Section → Log
  | [] => log
  | s :: rest =>
    match s.place start with
    | .error _ => log
    | .ok d =>
      let log := log.debug fun _ =>
        let file := Hex.word d.filePointer.toNat
        let base := Hex.word d.loadOffset.toNat
        s!"section {s.name} -> file {file}, load {base}, {d.byteLength} bytes"
      logSections log (start + s.size) rest

def logBuilt (p : Program) (built : Except Fault (List Byte)) (log : Log) : Log :=
  let log := logSections log p.headerSize p.sections
  match built with
  | .error _ => log
  | .ok image =>
    log.debug fun _ =>
      let base := Hex.word p.codeBase
      s!"generated {image.length} byte image, code at {base} ({p.codeSize} bytes, {p.operandCount} patches)"

def logAssembled (p : Program) (built : Except Fault (List Byte)) (log : Log) : Log :=
  match p.check with
  | .error _ => log
  | .ok _ => p.logBuilt built log

end Program

end WordMachine
