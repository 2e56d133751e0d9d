import WordMachine.Image.Header
import WordMachine.Proofs.Success

-- What the reader of a header accepts: the bytes of a header, and nothing else. The table of descriptors
-- has no count, so a header is read back only if none of its descriptors reads as the end of the table.

namespace WordMachine

open Success

namespace Descriptor

@[simp]
theorem length_bytes (d : Descriptor) : d.bytes.length = 6 := rfl

def tag (d : Descriptor) : Tag :=
  ⟨Word.low d.filePointer,Word.high d.filePointer,Word.low d.loadOffset,Word.high d.loadOffset⟩

theorem collides_iff (d : Descriptor) : d.collides = true ↔ d.tag = terminator := by
  simp [collides,bytes,Word.bytes,tag,terminator,Tag.bytes]

end Descriptor

namespace Header

variable {h : Header} {image input rest : List Byte}

@[simp]
theorem length_bytes (h : Header) : h.bytes.length = sizeFor h.sections.length := by
  have table : (h.sections.flatMap Descriptor.bytes).length = 6 * h.sections.length := by
    simp [List.length_flatMap,Nat.mul_comm]
  simp only [bytes,List.length_append,table,sizeFor,Word.length_bytes]
  simp [magic,terminator,Tag.bytes]
  omega

theorem readPart_word {part : HeaderPart} {w : Word} :
    readPart part Reader.word input = .ok (w,rest) ↔ input = Word.bytes w ++ rest := by
  constructor
  · intro taken
    unfold readPart Reader.word at taken
    split at taken
    · rename_i found
      split at found
      · cases found
        cases taken
        simp [Word.bytes]
      · cases found
    · cases taken
  · rintro rfl
    simp [readPart,Reader.word,Word.bytes]

theorem readPart_tag {part : HeaderPart} {t : Tag} :
    readPart part Reader.tag input = .ok (t,rest) ↔ input = t.bytes ++ rest := by
  constructor
  · intro taken
    rcases input with _ | ⟨b₁,_ | ⟨b₂,_ | ⟨b₃,_ | ⟨b₄,others⟩⟩⟩⟩
    · cases taken
    · cases taken
    · cases taken
    · cases taken
    · cases taken
      rfl
  · rintro rfl
    rfl

theorem readTable_end (taken : List Descriptor) (rest : List Byte) :
    readTable taken (terminator.bytes ++ rest) = .ok (taken.reverse,rest) := by
  change readTable taken (0x45 :: 0x4E :: 0x44 :: 0x53 :: rest) = _
  rw [readTable.eq_def]
  exact if_pos rfl

theorem readTable_descriptor {d : Descriptor} (clear : d.collides = false) (taken : List Descriptor)
    (rest : List Byte) : readTable taken (d.bytes ++ rest) = readTable (d :: taken) rest := by
  have other : d.tag ≠ terminator := by
    rw [Ne,← d.collides_iff,clear]
    decide
  simp only [Descriptor.bytes,Word.bytes,List.cons_append,List.nil_append]
  rw [readTable,← Descriptor.tag,if_neg other]
  simp

theorem readTable_bytes {sections : List Descriptor} (clear : ∀ d ∈ sections, d.collides = false)
    (taken : List Descriptor) (rest : List Byte) :
    readTable taken (sections.flatMap Descriptor.bytes ++ (terminator.bytes ++ rest)) =
      .ok (taken.reverse ++ sections,rest) := by
  induction sections generalizing taken with
  | nil => rw [List.flatMap_nil,List.nil_append,readTable_end,List.append_nil]
  | cons d ds ih =>
    obtain ⟨this,others⟩ := List.forall_mem_cons.mp clear
    rw [List.flatMap_cons,List.append_assoc,readTable_descriptor this,ih others]
    simp

theorem descriptor_of_bytes {b₁ b₂ b₃ b₄ : Byte} (b₅ b₆ : Byte) (rest : List Byte)
    (other : (⟨b₁,b₂,b₃,b₄⟩ : Tag) ≠ terminator) :
    ∃ d : Descriptor, d.collides = false ∧
      b₁ :: b₂ :: b₃ :: b₄ :: b₅ :: b₆ :: rest = d.bytes ++ rest := by
  refine ⟨⟨Word.ofBytes b₁ b₂,Word.ofBytes b₃ b₄,Word.ofBytes b₅ b₆⟩,?_,?_⟩
  · rw [← Bool.not_eq_true,Descriptor.collides_iff]
    simpa [Descriptor.tag] using other
  · simp [Descriptor.bytes,Word.bytes]

theorem readTable_eq_ok {taken ds : List Descriptor} :
    readTable taken input = .ok (ds,rest) ↔ ∃ sections, ds = taken.reverse ++ sections ∧
      (∀ d ∈ sections, d.collides = false) ∧
      input = sections.flatMap Descriptor.bytes ++ (terminator.bytes ++ rest) := by
  constructor
  · intro read
    -- A descriptor takes six bytes at once, so the induction is on how many are left.
    induction size : input.length using Nat.strongRecOn generalizing taken input with
    | ind size ih =>
      rcases input with _ | ⟨b₁,_ | ⟨b₂,_ | ⟨b₃,_ | ⟨b₄,left⟩⟩⟩⟩
      · cases read
      · cases read
      · cases read
      · cases read
      · by_cases ended : (⟨b₁,b₂,b₃,b₄⟩ : Tag) = terminator
        · have front : b₁ :: b₂ :: b₃ :: b₄ :: left = terminator.bytes ++ left := by
            rw [← ended]
            rfl
          rw [front,readTable_end] at read
          cases read
          exact ⟨[],by simp,by simp,front⟩
        · rcases left with _ | ⟨b₅,_ | ⟨b₆,left⟩⟩
          · simp [readTable,ended] at read
          · simp [readTable,ended] at read
          · obtain ⟨d,this,front⟩ := descriptor_of_bytes b₅ b₆ left ended
            rw [front,readTable_descriptor this] at read
            obtain ⟨sections,rfl,clear,rfl⟩ := ih left.length (by simp [← size]; omega) read rfl
            exact ⟨d :: sections,by simp,List.forall_mem_cons.mpr ⟨this,clear⟩,by simp [front]⟩
  · rintro ⟨sections,rfl,clear,rfl⟩
    exact readTable_bytes clear taken rest

structure InBounds (h : Header) (imageLength : Nat) : Prop where
  sections : ∀ d ∈ h.sections,
    d.filePointer.toNat + d.byteLength.toNat ≤ imageLength ∧ d.stop ≤ memorySize
  code : h.codePointer.toNat + h.codeLength.toNat ≤ imageLength
  memory : h.codeStop ≤ memorySize

theorem checkSections_eq_ok {imageLength index : Nat} {sections : List Descriptor} :
    checkSections imageLength index sections = .ok () ↔ ∀ d ∈ sections,
      d.filePointer.toNat + d.byteLength.toNat ≤ imageLength ∧ d.stop ≤ memorySize := by
  induction sections generalizing index with
  | nil => simp [checkSections]
  | cons d rest ih =>
    rw [checkSections,List.forall_mem_cons,← @ih (index + 1)]
    split
    · simp
      omega
    · split
      · simp
        omega
      · simp
        omega

theorem checkBounds_eq_ok {imageLength : Nat} :
    h.checkBounds imageLength = .ok () ↔ h.InBounds imageLength := by
  constructor
  · intro checked
    unfold checkBounds at checked
    cases sections : checkSections imageLength 0 h.sections with
    | error fault => simp [sections] at checked
    | ok _ =>
      simp only [sections] at checked
      split at checked
      · cases checked
      · split at checked
        · cases checked
        · exact ⟨checkSections_eq_ok.mp sections,by omega,by omega⟩
  · rintro ⟨sections,code,memory⟩
    rw [checkBounds,checkSections_eq_ok.mpr sections]
    simp only
    rw [if_neg (by omega),if_neg (by omega)]

theorem parse_eq_ok : parse image = .ok h ↔ (∃ body, image = h.bytes ++ body) ∧
    (∀ d ∈ h.sections, d.collides = false) ∧ h.InBounds image.length := by
  constructor
  · intro parsed
    obtain ⟨⟨found,input⟩,tag,parsed⟩ := bind_eq_ok.mp parsed
    dsimp only at parsed
    split at parsed
    · rename_i same
      obtain ⟨⟨sections,input⟩,table,parsed⟩ := bind_eq_ok.mp parsed
      obtain ⟨⟨pointer,input⟩,codePointer,parsed⟩ := bind_eq_ok.mp parsed
      obtain ⟨⟨length,body⟩,codeLength,parsed⟩ := bind_eq_ok.mp parsed
      obtain ⟨_,bounds,parsed⟩ := bind_eq_ok.mp parsed
      cases parsed
      cases same
      cases readPart_tag.mp tag
      obtain ⟨_,rfl,clear,rfl⟩ := readTable_eq_ok.mp table
      cases readPart_word.mp codePointer
      cases readPart_word.mp codeLength
      exact ⟨⟨body,by simp [bytes,Word.bytes]⟩,clear,checkBounds_eq_ok.mp bounds⟩
    · cases parsed
  · rintro ⟨⟨body,rfl⟩,clear,bounds⟩
    have front : h.bytes ++ body = magic.bytes ++ (h.sections.flatMap Descriptor.bytes ++
        (terminator.bytes ++ (Word.bytes h.codePointer ++ (Word.bytes h.codeLength ++ body)))) := by
      simp [bytes]
    refine bind_eq_ok.mpr ⟨_,readPart_tag.mpr front,?_⟩
    dsimp only
    rw [if_pos rfl]
    refine bind_eq_ok.mpr ⟨_,readTable_eq_ok.mpr ⟨h.sections,rfl,clear,rfl⟩,?_⟩
    refine bind_eq_ok.mpr ⟨_,readPart_word.mpr rfl,?_⟩
    refine bind_eq_ok.mpr ⟨_,readPart_word.mpr rfl,?_⟩
    exact bind_eq_ok.mpr ⟨(),checkBounds_eq_ok.mpr bounds,rfl⟩

end Header

-- A header that collides is read as another one or not at all.
theorem header_format_exact (image : List Byte) (h : Header) :
    (Header.parse image = .ok h ↔ (∃ body, image = h.bytes ++ body) ∧
      (∀ d ∈ h.sections, d.collides = false) ∧ h.InBounds image.length) ∧
    (∀ body, (∀ d ∈ h.sections, d.collides = false) → h.InBounds (h.bytes ++ body).length →
      Header.parse (h.bytes ++ body) = .ok h) ∧
    (Header.parse image = .ok h → image.take (Header.sizeFor h.sections.length) = h.bytes) ∧
    ((∃ d ∈ h.sections, d.collides = true) → ∀ body, Header.parse (h.bytes ++ body) ≠ .ok h) ∧
    h.bytes.length = Header.sizeFor h.sections.length := by
  refine ⟨Header.parse_eq_ok,?_,?_,?_,h.length_bytes⟩
  · intro body clear bounds
    exact Header.parse_eq_ok.mpr ⟨⟨body,rfl⟩,clear,bounds⟩
  · intro parsed
    obtain ⟨⟨body,rfl⟩,_,_⟩ := Header.parse_eq_ok.mp parsed
    rw [← h.length_bytes,List.take_left]
  · rintro ⟨d,member,collides⟩ body parsed
    obtain ⟨_,clear,_⟩ := Header.parse_eq_ok.mp parsed
    rw [clear d member] at collides
    cases collides

def fullMemoryHeader : Header := ⟨[⟨24,0x10,2⟩,⟨26,0xFFFF,1⟩],27,0⟩

-- The file pointer and the load offset spell the terminator.
def collidingHeader : Header := ⟨[⟨0x4E45,0x5344,0⟩],0,0⟩

theorem fullMemoryHeader_format :
    Header.parse (fullMemoryHeader.bytes ++ [0xAA,0xBB,0xCC]) = .ok fullMemoryHeader ∧
      (fullMemoryHeader.bytes ++ [0xAA,0xBB,0xCC]).take 24 = fullMemoryHeader.bytes ∧
      ∀ body, Header.parse (collidingHeader.bytes ++ body) ≠ .ok collidingHeader := by
  have clear : ∀ d ∈ fullMemoryHeader.sections, d.collides = false := by decide
  have bounds : fullMemoryHeader.InBounds (fullMemoryHeader.bytes ++ [0xAA,0xBB,0xCC]).length :=
    ⟨by decide,by decide,by decide⟩
  obtain ⟨_,written,read,_⟩ :=
    header_format_exact (fullMemoryHeader.bytes ++ [0xAA,0xBB,0xCC]) fullMemoryHeader
  obtain ⟨_,_,_,never,_⟩ := header_format_exact [] collidingHeader
  have parsed := written [0xAA,0xBB,0xCC] clear bounds
  exact ⟨parsed,read parsed,never ⟨_,List.mem_cons_self,by decide⟩⟩

end WordMachine
