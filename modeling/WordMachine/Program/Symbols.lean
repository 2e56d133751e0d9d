import WordMachine.Program.Basic

-- A name that is defined more than once stands for its last definition.

namespace WordMachine

-- Labels are places in the code, data are addresses; neither is reduced to a word.
structure Symbols where
  codeBase : Nat
  labels : List (String × Nat)
  data : List (String × Nat)
  deriving Repr

namespace Symbols

def defineEntries (address : Nat) (table : List (String × Nat)) :
    List Entry → List (String × Nat)
  | [] => table
  | e :: rest => defineEntries (address + e.item.size) ((e.name,address) :: table) rest

def defineSection (table : List (String × Nat)) (s : Section) : List (String × Nat) :=
  defineEntries s.base.toNat table s.entries

def labelAddress? (symbols : Symbols) (name : String) : Option Nat :=
  (symbols.labels.lookup name).map (symbols.codeBase + ·)

def dataAddress? (symbols : Symbols) (name : String) : Option Nat := symbols.data.lookup name

def reference (name : String) : Option Nat → Except Fault Word
  | some address => .ok (UInt16.ofNat address)
  | none => .error (.unresolvedSymbol name)

end Symbols

def Program.dataTable (p : Program) : List (String × Nat) := p.sections.foldl Symbols.defineSection []

def Argument.resolve (symbols : Symbols) : Argument → Except Fault Word
  | literal value => .ok value
  | data name => Symbols.reference name (symbols.dataAddress? name)
  | label name => Symbols.reference name (symbols.labelAddress? name)
  | add left right => do
    let l ← left.resolve symbols
    let r ← right.resolve symbols
    return l + r
  | sub left right => do
    let l ← left.resolve symbols
    let r ← right.resolve symbols
    return l - r

end WordMachine
