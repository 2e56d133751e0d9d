import WordMachine.Image.Record

-- Records one after another, without a mark between them. One for which the bytes do not suffice takes whole elements
-- as long as there are any.

namespace WordMachine

namespace Reader

variable {α β : Type} {unit width : Nat} {input left : List Byte}

structure Takes (reader : Reader α) (unit width : Nat) (spells : α → List Byte → Prop) : Prop where
  enough : ∀ input, width ≤ input.length →
    ∃ a, reader input = (some a,input.drop width) ∧ spells a (input.take width)
  short : ∀ input, input.length < width → reader input = (none,input.drop (input.length - input.length % unit))

theorem bind_some {x : Reader α} {f : α → Reader β} {a : α} (read : x input = (some a,left)) :
    (x >>= f) input = f a left := by
  simp [bind,OptionT.bind,OptionT.mk,StateT.bind,read]

theorem bind_none {x : Reader α} {f : α → Reader β} (read : x input = (none,left)) :
    (x >>= f) input = (none,left) := by
  simp only [bind,OptionT.bind,OptionT.mk,StateT.bind,read]
  rfl

theorem takes_pure {spells : α → List Byte → Prop} {a : α} (spelled : spells a []) :
    (pure a : Reader α).Takes unit 0 spells := by
  constructor
  · intro input _
    exact ⟨a,rfl,by simpa using spelled⟩
  · intro input short
    exact absurd short (Nat.not_lt_zero _)

theorem Takes.andThen {x : Reader α} {f : α → Reader β} {later : Nat} {first : α → List Byte → Prop}
    {spells : β → List Byte → Prop} (takes : x.Takes unit width first) (whole : unit ∣ width)
    (rest : ∀ a taken, first a taken → (f a).Takes unit later fun b others => spells b (taken ++ others)) :
    (x >>= f).Takes unit (width + later) spells := by
  constructor
  · intro input enough
    obtain ⟨a,read,spelled⟩ := takes.enough input (by omega)
    obtain ⟨b,others,result⟩ := (rest a _ spelled).enough (input.drop width) (by rw [List.length_drop]; omega)
    rw [← List.take_add] at result
    exact ⟨b,by rw [bind_some read,others,List.drop_drop],result⟩
  · intro input short
    by_cases early : input.length < width
    · exact bind_none (takes.short input early)
    · obtain ⟨a,read,spelled⟩ := takes.enough input (by omega)
      have others := (rest a _ spelled).short (input.drop width) (by rw [List.length_drop]; omega)
      -- The first part took whole units, so what is left beyond whole units is the same.
      have same : (input.length - width) % unit = input.length % unit := by
        obtain ⟨count,rfl⟩ := whole
        exact Nat.sub_mul_mod (Nat.le_of_not_lt early)
      have within := Nat.mod_le (input.length - width) unit
      have reached : width + (input.length - width - input.length % unit) =
          input.length - input.length % unit := by omega
      rw [bind_some read,others,List.length_drop,List.drop_drop,same,reached]

theorem Takes.map {x : Reader α} {f : α → β} {first : α → List Byte → Prop} {spells : β → List Byte → Prop}
    (takes : x.Takes unit width first) (whole : unit ∣ width)
    (same : ∀ a taken, first a taken → spells (f a) taken) : (f <$> x).Takes unit width spells := by
  rw [map_eq_pure_bind]
  exact takes.andThen whole fun a taken spelled => takes_pure (by simpa using same a taken spelled)

theorem byte_takes : byte.Takes 1 1 fun b taken => [b] = taken := by
  constructor
  · intro input enough
    cases input with
    | nil => cases enough
    | cons b rest => exact ⟨b,rfl,rfl⟩
  · intro input short
    cases input with
    | nil => rfl
    | cons b rest => simp at short

theorem word_takes : word.Takes 2 2 fun w taken => Word.bytes w = taken := by
  constructor
  · intro input enough
    rcases input with _ | ⟨lo,_ | ⟨hi,rest⟩⟩
    · simp at enough
    · simp at enough
    · exact ⟨Word.ofBytes lo hi,rfl,by simp [Word.bytes]⟩
  · intro input short
    rcases input with _ | ⟨lo,_ | ⟨hi,rest⟩⟩
    · rfl
    · rfl
    · simp only [List.length_cons] at short
      omega

theorem tag_takes : tag.Takes 1 4 fun t taken => t.bytes = taken := by
  unfold tag
  change Takes _ 1 (1 + (1 + (1 + (1 + 0)))) _
  refine byte_takes.andThen (Nat.dvd_refl 1) fun first _ spelled => ?_
  refine byte_takes.andThen (Nat.dvd_refl 1) fun second _ next => ?_
  refine byte_takes.andThen (Nat.dvd_refl 1) fun third _ after => ?_
  refine byte_takes.andThen (Nat.dvd_refl 1) fun fourth _ last => ?_
  apply takes_pure
  simp [← spelled,← next,← after,← last,Tag.bytes]

theorem words_takes {f : Word → Word → Word → α} {spells : α → List Byte → Prop}
    (spelled : ∀ a b c, spells (f a b c) (Word.bytes a ++ Word.bytes b ++ Word.bytes c)) :
    Takes (do return f (← word) (← word) (← word)) 2 6 spells := by
  change Takes _ 2 (2 + (2 + (2 + 0))) _
  refine word_takes.andThen (Nat.dvd_refl 2) fun a _ first => ?_
  refine word_takes.andThen (Nat.dvd_refl 2) fun b _ second => ?_
  refine word_takes.andThen (Nat.dvd_refl 2) fun c _ third => ?_
  apply takes_pure
  rw [← first,← second,← third,List.append_nil,← List.append_assoc]
  exact spelled a b c

theorem triple_takes : triple.Takes 2 6 fun t taken =>
    Word.bytes t.1 ++ Word.bytes t.2.1 ++ Word.bytes t.2.2 = taken :=
  words_takes fun _ _ _ => rfl

theorem descriptor_takes : descriptor.Takes 2 6 fun d taken => d.bytes = taken :=
  words_takes fun _ _ _ => rfl

end Reader

namespace RecordType

def width : RecordType → Nat
  | byte => 1
  | word => 2
  | tag => 4
  | triple | descriptor => 6

def unit : RecordType → Nat
  | byte | tag => 1
  | word | triple | descriptor => 2

theorem read_takes (type : RecordType) :
    type.read.Takes type.unit type.width fun r taken => r.type = type ∧ r.bytes = taken := by
  cases type with
  | byte => exact Reader.byte_takes.map (by decide) fun _ _ spelled => ⟨rfl,spelled⟩
  | word => exact Reader.word_takes.map (by decide) fun _ _ spelled => ⟨rfl,spelled⟩
  | tag => exact Reader.tag_takes.map (by decide) fun _ _ spelled => ⟨rfl,spelled⟩
  | triple => exact Reader.triple_takes.map (by decide) fun _ _ spelled => ⟨rfl,spelled⟩
  | descriptor => exact Reader.descriptor_takes.map (by decide) fun _ _ spelled => ⟨rfl,spelled⟩

end RecordType

namespace Record

theorem read_bytes (r : Record) (rest : List Byte) : r.type.read (r.bytes ++ rest) = (some r,rest) := by
  cases r with
  | byte value => rfl
  | word value =>
    change (some (word (Word.ofBytes (Word.low value) (Word.high value))),rest) = _
    rw [Word.ofBytes_low_high]
  | tag value => rfl
  | triple value =>
    change (some (triple (Word.ofBytes (Word.low value.1) (Word.high value.1),
      Word.ofBytes (Word.low value.2.1) (Word.high value.2.1),
      Word.ofBytes (Word.low value.2.2) (Word.high value.2.2))),rest) = _
    simp only [Word.ofBytes_low_high]
  | descriptor value =>
    change (some (descriptor ⟨Word.ofBytes (Word.low value.filePointer) (Word.high value.filePointer),
      Word.ofBytes (Word.low value.loadOffset) (Word.high value.loadOffset),
      Word.ofBytes (Word.low value.byteLength) (Word.high value.byteLength)⟩),rest) = _
    simp only [Word.ofBytes_low_high]

def writeTo (buffer : List Byte) (r : Record) : List Byte := buffer ++ r.bytes

theorem foldl_writeTo (buffer : List Byte) (records : List Record) :
    records.foldl writeTo buffer = buffer ++ allBytes records := by
  induction records generalizing buffer with
  | nil => simp [allBytes]
  | cons r rest ih => simp [ih,writeTo,allBytes]

end Record

namespace RecordType

variable {type : RecordType} {types : List RecordType} {input left : List Byte} {records : List Record}

theorem read_eq_some {r : Record} : type.read input = (some r,left) ↔ r.type = type ∧ input = r.bytes ++ left := by
  constructor
  · intro read
    by_cases enough : type.width ≤ input.length
    · obtain ⟨other,taken,kind,spelled⟩ := type.read_takes.enough input enough
      cases read.symm.trans taken
      exact ⟨kind,by rw [spelled,List.take_append_drop]⟩
    · have short := type.read_takes.short input (Nat.lt_of_not_le enough)
      cases read.symm.trans short
  · intro written
    obtain ⟨rfl,rfl⟩ := written
    exact r.read_bytes left

def leftover (types : List RecordType) (input : List Byte) : List Byte :=
  ((readAll types input).getLast?.map (·.2)).getD input

theorem leftover_cons (type : RecordType) (types : List RecordType) (input : List Byte) :
    leftover (type :: types) input = leftover types (type.read input).2 := by
  unfold leftover
  rw [readAll,List.getLast?_cons]
  cases (readAll types (type.read input).2).getLast? <;> rfl

theorem readAll_eq_iff :
    (readAll types input).map (·.1) = records.map some ∧ leftover types input = left ↔
      records.map Record.type = types ∧ input = Record.allBytes records ++ left := by
  induction types generalizing input records with
  | nil =>
    cases records with
    | nil => simp [readAll,leftover,Record.allBytes]
    | cons r rest => simp [readAll]
  | cons type types ih =>
    cases records with
    | nil => simp [readAll]
    | cons r rest =>
      rw [leftover_cons]
      simp only [readAll,List.map_cons,List.cons.injEq,Record.allBytes,List.flatMap_cons,List.append_assoc]
      constructor
      · intro reads
        obtain ⟨⟨this,others⟩,last⟩ := reads
        obtain ⟨kind,front⟩ := read_eq_some.mp (Prod.ext this rfl)
        obtain ⟨kinds,behind⟩ := ih.mp ⟨others,last⟩
        exact ⟨⟨kind,kinds⟩,front.trans (congrArg _ behind)⟩
      · intro written
        obtain ⟨⟨kind,kinds⟩,front⟩ := written
        have read := read_eq_some.mpr ⟨kind,front⟩
        obtain ⟨others,last⟩ := ih.mpr ⟨kinds,rfl⟩
        rw [read]
        exact ⟨⟨rfl,others⟩,last⟩

end RecordType

-- Reading without a failure finds only what would be written as the bytes taken.
theorem records_read_back :
    (∀ (records : List Record) (buffer suffix : List Byte),
      ∃ added, records.foldl Record.writeTo buffer = buffer ++ added ∧
        (RecordType.readAll (records.map Record.type) (added ++ suffix)).map (·.1) = records.map some ∧
        RecordType.leftover (records.map Record.type) (added ++ suffix) = suffix) ∧
    (∀ (types : List RecordType) (input : List Byte) (records : List Record),
      (RecordType.readAll types input).map (·.1) = records.map some →
        records.map Record.type = types ∧
        input = records.foldl Record.writeTo [] ++ RecordType.leftover types input) ∧
    ∀ (type : RecordType) (input : List Byte),
      ((type.read input).1.isSome = true ↔ type.width ≤ input.length) ∧
      (type.width ≤ input.length → (type.read input).2 = input.drop type.width) ∧
      (input.length < type.width → ∃ last, last <:+ input ∧ last.length = input.length % type.unit ∧
        ∀ types, RecordType.readAll (type :: types) input = (none,last) :: RecordType.readAll types last) := by
  refine ⟨?_,?_,?_⟩
  · intro records buffer suffix
    exact ⟨Record.allBytes records,Record.foldl_writeTo buffer records,RecordType.readAll_eq_iff.mpr ⟨rfl,rfl⟩⟩
  · intro types input records read
    obtain ⟨kinds,front⟩ := RecordType.readAll_eq_iff.mp ⟨read,rfl⟩
    refine ⟨kinds,?_⟩
    rw [Record.foldl_writeTo]
    exact front
  · intro type input
    by_cases enough : type.width ≤ input.length
    · obtain ⟨r,read,_⟩ := type.read_takes.enough input enough
      refine ⟨?_,fun _ => by rw [read],fun short => absurd enough (Nat.not_le_of_lt short)⟩
      simp [read,enough]
    · have read := type.read_takes.short input (Nat.lt_of_not_le enough)
      refine ⟨by simp [read,enough],fun fits => absurd fits enough,fun _ => ?_⟩
      refine ⟨input.drop (input.length - input.length % type.unit),List.drop_suffix _ input,?_,?_⟩
      · have within := Nat.mod_le input.length type.unit
        rw [List.length_drop]
        omega
      · intro types
        rw [RecordType.readAll,read]

-- The descriptor has a word and one byte of its six. It takes the word, and the byte goes to the next record.
def cutShort : List Byte := [1,0,2,0,3,0,4,0,5]

theorem cutShort_read_back :
    (∃ added, [Record.word 0x1234,.byte 7].foldl Record.writeTo [9] = [9] ++ added ∧
      (RecordType.readAll [.word,.byte] (added ++ [8])).map (·.1) = [some (.word 0x1234),some (.byte 7)] ∧
      RecordType.leftover [.word,.byte] (added ++ [8]) = [8]) ∧
    cutShort = [Record.triple (1,2,3)].foldl Record.writeTo [] ++ [4,0,5] ∧
    ∃ last, last <:+ ([4,0,5] : List Byte) ∧ last.length = 1 ∧
      RecordType.readAll [.descriptor,.byte] [4,0,5] = (none,last) :: RecordType.readAll [.byte] last := by
  obtain ⟨written,taken,single⟩ := records_read_back
  obtain ⟨_,_,short⟩ := single .descriptor [4,0,5]
  obtain ⟨last,ends,size,next⟩ := short (by decide)
  refine ⟨written [.word 0x1234,.byte 7] [9] [8],?_,last,ends,size,next [.byte]⟩
  exact (taken [.triple] cutShort [.triple (1,2,3)] rfl).2

end WordMachine
