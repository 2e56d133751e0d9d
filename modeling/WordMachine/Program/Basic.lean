import WordMachine.Instruction

-- Programs as they are handed to the assembler: data at fixed addresses, and a stream of labels and instructions.

namespace WordMachine

def memorySize : Nat := 65536

def totalSize (sizes : List Nat) : Nat := sizes.foldr (· + ·) 0

@[simp]
theorem totalSize_nil : totalSize [] = 0 := rfl

@[simp]
theorem totalSize_cons (size : Nat) (sizes : List Nat) :
    totalSize (size :: sizes) = size + totalSize sizes := rfl

theorem length_flatMap {α β : Type} (f : α → List β) (parts : List α) :
    (parts.flatMap f).length = totalSize (parts.map fun part => (f part).length) := by
  induction parts with
  | nil => rfl
  | cons part parts ih => simp [ih]

inductive DataItem where
  | bytes (values : List Byte)
  | words (values : List Word)
  | ascii (text : String)
  | reserve (count : Word)
  deriving DecidableEq, Repr

namespace DataItem

def isEncodable : DataItem → Bool
  | ascii text => text.toList.all (·.toNat < 128)
  | _ => true

def size : DataItem → Nat
  | bytes values => values.length
  | words values => 2 * values.length
  | ascii text => 2 * ((text.utf8ByteSize + 1) / 2)
  | reserve count => count.toNat

-- Text outside ASCII has a stored form too, its UTF-8 bytes; that it is refused is not said here.
def encode : DataItem → List Byte
  | bytes values => values
  | words values => values.flatMap Word.bytes
  | ascii text => text.toByteArray.data.toList ++ List.replicate (text.utf8ByteSize % 2) 0
  | reserve count => List.replicate count.toNat 0

@[simp]
theorem length_encode (item : DataItem) : item.encode.length = item.size := by
  cases item with
  | bytes values => rfl
  | words values =>
    induction values with
    | nil => rfl
    | cons value values ih =>
      simp only [encode,size,List.flatMap_cons,List.length_append,Word.length_bytes,
        List.length_cons] at ih ⊢
      omega
  | ascii text =>
    have stored : text.toByteArray.data.toList.length = text.utf8ByteSize := rfl
    simp only [encode,size,List.length_append,List.length_replicate,stored]
    omega
  | reserve count => simp [encode,size]

end DataItem

structure Entry where
  name : String
  item : DataItem
  deriving DecidableEq, Repr

structure Section where
  name : String
  base : Word
  entries : List Entry
  deriving DecidableEq, Repr

namespace Section

def size (s : Section) : Nat := totalSize (s.entries.map (·.item.size))

def encode (s : Section) : List Byte := s.entries.flatMap (·.item.encode)

def stop (s : Section) : Nat := s.base.toNat + s.size

@[simp]
theorem length_encode (s : Section) : s.encode.length = s.size := by
  rw [encode,length_flatMap]
  simp [size]

end Section

inductive Argument where
  | literal (value : Word)
  | data (name : String)
  | label (name : String)
  | add (left right : Argument)
  | sub (left right : Argument)
  deriving DecidableEq, Repr

inductive CodeElement where
  | label (name : String)
  | instruction (instruction : Instruction) (argument : Option Argument)
  deriving DecidableEq, Repr

namespace CodeElement

def size : CodeElement → Nat
  | label _ => 0
  | instruction i _ => i.size

def hasOperand : CodeElement → Bool
  | label _ => false
  | instruction i _ => i.hasOperand

def ofMnemonic (mnemonic : String) (argument : Option Argument) : Except Fault CodeElement :=
  match Instruction.ofMnemonic mnemonic with
  | .ok i => .ok (instruction i argument)
  | .error fault => .error fault

end CodeElement

structure Program where
  sections : List Section
  code : List CodeElement
  deriving DecidableEq, Repr

namespace Program

-- The last section declared need not be the one that ends highest.
def codeBase (p : Program) : Nat :=
  match p.sections.getLast? with
  | some s => s.stop
  | none => 0

def codeSize (p : Program) : Nat := totalSize (p.code.map CodeElement.size)

def operandCount (p : Program) : Nat := p.code.countP CodeElement.hasOperand

def dataSize (p : Program) : Nat := totalSize (p.sections.map Section.size)

def dataBytes (p : Program) : List Byte := p.sections.flatMap Section.encode

@[simp]
theorem length_dataBytes (p : Program) : p.dataBytes.length = p.dataSize := by
  rw [dataBytes,length_flatMap]
  simp [dataSize]

end Program

end WordMachine
