import WordMachine.Program.Basic

-- What a program is checked for before it is built. The first fault is the one reported; size is not checked here.

namespace WordMachine

def defineName (seen : List String) (name : String) : Except Fault (List String) :=
  if name ∈ seen then .error (.duplicateSymbol name) else .ok (name :: seen)

def Entry.check (seen : List String) (e : Entry) : Except Fault (List String) := do
  let seen ← defineName seen e.name
  require (e.item.isEncodable = true) (.nonAsciiText e.name)
  return seen

structure SectionNames where
  sections : List String
  data : List String

def Section.check (seen : SectionNames) (s : Section) : Except Fault SectionNames := do
  let sections ← defineName seen.sections s.name
  let data ← s.entries.foldlM Entry.check seen.data
  return {sections,data}

def Section.insertByBase (s : Section) : List Section → List Section
  | [] => [s]
  | t :: rest => if s.base ≤ t.base then s :: t :: rest else t :: s.insertByBase rest

-- The sections from the lowest base up; those that share a base stay in the order of declaration.
def sortByBase (sections : List Section) : List Section :=
  sections.foldr Section.insertByBase []

def checkNeighbours : List Section → Except Fault Unit
  | s :: t :: rest => do
    require (s.stop ≤ t.base.toNat) (.overlappingSections s.name t.name)
    checkNeighbours (t :: rest)
  | _ => .ok ()

def checkOverlaps (sections : List Section) : Except Fault Unit :=
  checkNeighbours (sortByBase sections)

def CodeElement.checkLabel (seen : List String) : CodeElement → Except Fault (List String)
  | label name => defineName seen name
  | instruction _ _ => .ok seen

structure DefinedNames where
  data : List String
  labels : List String

def Argument.checkReferences (names : DefinedNames) : Argument → Except Fault Unit
  | literal _ => .ok ()
  | data name => require (name ∈ names.data) (.unresolvedSymbol name)
  | label name => require (name ∈ names.labels) (.unresolvedSymbol name)
  | add left right | sub left right => do
    left.checkReferences names
    right.checkReferences names

def CodeElement.checkArgument (names : DefinedNames) : CodeElement → Except Fault Unit
  | label _ => .ok ()
  | instruction i argument =>
    match i.hasOperand,argument with
    | true,none => .error (.missingArgument i.mnemonic)
    | false,some _ => .error (.unexpectedArgument i.mnemonic)
    | true,some a => a.checkReferences names
    | false,none => .ok ()

def Program.check (p : Program) : Except Fault Unit := do
  let names ← p.sections.foldlM Section.check ⟨[],[]⟩
  checkOverlaps p.sections
  let labels ← p.code.foldlM CodeElement.checkLabel []
  p.code.forM (CodeElement.checkArgument ⟨names.data,labels⟩)

end WordMachine
