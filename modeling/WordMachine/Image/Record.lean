import WordMachine.Word

-- The values that an image is made of. A record that needs more bytes than there are is not read; the parts of it
-- that were there are gone from the input all the same.

namespace WordMachine

abbrev Reader := OptionT (StateM (List Byte))

structure Tag where
  first : Byte
  second : Byte
  third : Byte
  fourth : Byte
  deriving DecidableEq, Repr

namespace Tag

def bytes (t : Tag) : List Byte := [t.first,t.second,t.third,t.fourth]

end Tag

structure Descriptor where
  filePointer : Word
  loadOffset : Word
  byteLength : Word
  deriving DecidableEq, Repr

namespace Descriptor

def bytes (d : Descriptor) : List Byte :=
  Word.bytes d.filePointer ++ Word.bytes d.loadOffset ++ Word.bytes d.byteLength

end Descriptor

namespace Reader

def byte : Reader Byte := fun input =>
  match input with
  | b :: rest => (some b,rest)
  | [] => (none,[])

def word : Reader Word := fun input =>
  match input with
  | lo :: hi :: rest => (some (Word.ofBytes lo hi),rest)
  | short => (none,short)

def tag : Reader Tag := do
  let first ← byte
  let second ← byte
  let third ← byte
  let fourth ← byte
  return {first,second,third,fourth}

def triple : Reader (Word × Word × Word) := do
  let first ← word
  let second ← word
  let third ← word
  return (first,second,third)

def descriptor : Reader Descriptor := do
  let filePointer ← word
  let loadOffset ← word
  let byteLength ← word
  return {filePointer,loadOffset,byteLength}

end Reader

inductive RecordType where
  | byte | word | tag | triple | descriptor
  deriving DecidableEq, Repr

inductive Record where
  | byte (value : Byte)
  | word (value : Word)
  | tag (value : Tag)
  | triple (value : Word × Word × Word)
  | descriptor (value : Descriptor)
  deriving DecidableEq, Repr

namespace Record

def type : Record → RecordType
  | byte _ => .byte
  | word _ => .word
  | tag _ => .tag
  | triple _ => .triple
  | descriptor _ => .descriptor

def bytes : Record → List Byte
  | byte value => [value]
  | word value => Word.bytes value
  | tag value => value.bytes
  | triple value => Word.bytes value.1 ++ Word.bytes value.2.1 ++ Word.bytes value.2.2
  | descriptor value => value.bytes

def allBytes (records : List Record) : List Byte := records.flatMap bytes

end Record

namespace RecordType

def read : RecordType → Reader Record
  | byte => Record.byte <$> Reader.byte
  | word => Record.word <$> Reader.word
  | tag => Record.tag <$> Reader.tag
  | triple => Record.triple <$> Reader.triple
  | descriptor => Record.descriptor <$> Reader.descriptor

-- Each from where the one before it ended, whether that one was read or not.
def readAll : List RecordType → List Byte → List (Option Record × List Byte)
  | [],_ => []
  | type :: types,input =>
    let outcome := type.read input
    outcome :: readAll types outcome.2

end RecordType

end WordMachine
