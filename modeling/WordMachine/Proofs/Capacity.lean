import WordMachine.Proofs.Agreement

-- Memory has 65536 addresses, while a number in the header goes up to 65535, and the places of the sections in the
-- image are sums over all that come before.

namespace WordMachine

theorem Descriptor.collides_iff_words (d : Descriptor) :
    d.collides = true ↔ d.filePointer = 0x4E45 ∧ d.loadOffset = 0x5344 := by
  rw [collides_iff]
  constructor
  · intro same
    obtain ⟨first,second,third,fourth⟩ := Tag.mk.inj same
    rw [← Word.ofBytes_low_high d.filePointer,← Word.ofBytes_low_high d.loadOffset,first,second,third,fourth]
    decide
  · rintro ⟨pointer,offset⟩
    rw [tag,pointer,offset]
    decide

namespace Section

structure FitsAt (s : Section) (start : Nat) : Prop where
  memory : s.base.toNat + s.size ≤ 65536
  length : s.size ≤ 65535
  pointer : start ≤ 65535
  -- As words, the two spell the end of the table.
  clear : ¬(start = 0x4E45 ∧ s.base = 0x5344)

instance (s : Section) (start : Nat) : Decidable (s.FitsAt start) :=
  decidable_of_iff (s.base.toNat + s.size ≤ 65536 ∧ s.size ≤ 65535 ∧ start ≤ 65535 ∧
      ¬(start = 0x4E45 ∧ s.base = 0x5344))
    ⟨fun ⟨memory,length,pointer,clear⟩ => ⟨memory,length,pointer,clear⟩,
      fun fits => ⟨fits.memory,fits.length,fits.pointer,fits.clear⟩⟩

theorem Describes.fitsAt {s : Section} {start : Nat} {d : Descriptor} (describes : s.Describes start d) :
    s.FitsAt start := by
  have length := d.byteLength.toNat_lt
  have pointer := d.filePointer.toNat_lt
  rw [describes.byteLength] at length
  rw [describes.filePointer] at pointer
  refine ⟨describes.fits,Nat.le_of_lt_succ length,Nat.le_of_lt_succ pointer,?_⟩
  rintro ⟨place,base⟩
  have file : d.filePointer = 0x4E45 := UInt16.toNat_inj.mp (describes.filePointer.trans place)
  have collides := d.collides_iff_words.mpr ⟨file,describes.loadOffset.trans base⟩
  rw [describes.clear] at collides
  cases collides

theorem FitsAt.describes {s : Section} {start : Nat} (fits : s.FitsAt start)
    (encodable : ∀ e ∈ s.entries, e.item.isEncodable = true) : ∃ d, s.Describes start d := by
  have pointer : (UInt16.ofNat start).toNat = start := UInt16.toNat_ofNat_of_lt' (Nat.lt_succ_of_le fits.pointer)
  have length : (UInt16.ofNat s.size).toNat = s.size := UInt16.toNat_ofNat_of_lt' (Nat.lt_succ_of_le fits.length)
  refine ⟨⟨UInt16.ofNat start,s.base,UInt16.ofNat s.size⟩,encodable,fits.memory,pointer,rfl,length,?_⟩
  rw [← Bool.not_eq_true,Descriptor.collides_iff_words]
  rintro ⟨file,base⟩
  exact fits.clear ⟨pointer.symm.trans (congrArg UInt16.toNat file),base⟩

end Section

theorem exists_placed {sections : List Section} {start : Nat}
    (encodable : ∀ s ∈ sections, ∀ e ∈ s.entries, e.item.isEncodable = true)
    (fits : ∀ (k : Nat) (s : Section), sections[k]? = some s →
      s.FitsAt (start + totalSize ((sections.take k).map Section.size))) :
    ∃ ds, Placed start sections ds := by
  induction sections generalizing start with
  | nil => exact ⟨[],.nil⟩
  | cons s rest ih =>
    obtain ⟨this,others⟩ := List.forall_mem_cons.mp encodable
    obtain ⟨d,describes⟩ := (fits 0 s rfl).describes this
    have later : ∀ (k : Nat) (t : Section), rest[k]? = some t →
        t.FitsAt (start + s.size + totalSize ((rest.take k).map Section.size)) := by
      intro k t found
      have there := fits (k + 1) t found
      rwa [List.take_succ_cons,List.map_cons,totalSize_cons,← Nat.add_assoc] at there
    obtain ⟨ds,placed⟩ := ih others later
    exact ⟨d :: ds,.cons describes placed⟩

namespace Program

def bytesAhead (p : Program) (k : Nat) : Nat :=
  12 + 6 * p.sections.length + totalSize ((p.sections.take k).map Section.size)

def instructionBytes (p : Program) : Nat := totalSize (p.instructions.map (·.1.size))

structure Fits (p : Program) : Prop where
  sections : ∀ (k : Nat) (s : Section), p.sections[k]? = some s → s.FitsAt (p.bytesAhead k)
  memory : p.codeBase + p.instructionBytes ≤ 65536
  codeLength : p.instructionBytes ≤ 65535
  codePointer : p.bytesAhead p.sections.length ≤ 65535

variable {p : Program}

theorem bytesAhead_all (p : Program) : p.bytesAhead p.sections.length = p.headerSize + p.dataSize := by
  rw [bytesAhead,List.take_length]
  rfl

theorem fits_of_build {image : List Byte} (made : p.build = .ok image) : p.Fits := by
  obtain ⟨h,code,built⟩ := built_of_build made
  have length := h.codeLength.toNat_lt
  have pointer := h.codePointer.toNat_lt
  rw [built.codeLength,p.codeSize_eq] at length
  rw [built.codePointer,← p.bytesAhead_all] at pointer
  refine ⟨?_,?_,Nat.le_of_lt_succ length,Nat.le_of_lt_succ pointer⟩
  · intro k s found
    obtain ⟨d,_,describes⟩ := built.placed.describes found
    exact describes.fitsAt
  · rw [instructionBytes,← p.codeSize_eq]
    exact built.fits

theorem Complete.build_of_fits (complete : p.Complete) (fits : p.Fits) : ∃ image, p.build = .ok image := by
  obtain ⟨ds,placed⟩ := exists_placed complete.encodable fits.sections
  have never : FailsOnly (fun _ => False) p.emit := .mapM fun element member => by
    obtain ⟨_,bytes,emitted⟩ := complete.emits member
    exact .of_ok emitted
  obtain ⟨code,emitted⟩ := never.succeeds
  have memory := fits.memory
  have length := fits.codeLength
  have pointer := fits.codePointer
  rw [instructionBytes,← p.codeSize_eq] at memory length
  rw [bytesAhead_all] at pointer
  let h : Header := ⟨ds,UInt16.ofNat (p.headerSize + p.dataSize),UInt16.ofNat p.codeSize⟩
  refine ⟨h.bytes ++ p.dataBytes ++ code.flatten,build_eq_ok.mpr ⟨h,code,rfl,placed,emitted,?_,?_,memory⟩⟩
  · exact UInt16.toNat_ofNat_of_lt' (Nat.lt_succ_of_le pointer)
  · exact UInt16.toNat_ofNat_of_lt' (Nat.lt_succ_of_le length)

instance (p : Program) : Decidable p.Fits :=
  decidable_of_iff ((∀ k (inside : k < p.sections.length), p.sections[k].FitsAt (p.bytesAhead k)) ∧
      p.codeBase + p.instructionBytes ≤ 65536 ∧ p.instructionBytes ≤ 65535 ∧
      p.bytesAhead p.sections.length ≤ 65535) <| by
    constructor
    · rintro ⟨sections,memory,length,pointer⟩
      refine ⟨?_,memory,length,pointer⟩
      intro k s found
      obtain ⟨inside,rfl⟩ := List.getElem?_eq_some_iff.mp found
      exact sections k inside
    · intro fits
      refine ⟨?_,fits.memory,fits.codeLength,fits.codePointer⟩
      intro k inside
      exact fits.sections k _ (List.getElem?_eq_getElem inside)

end Program

-- Whatever is built, checked or not, no number in its header was cut down to a word.
theorem capacity_exact (p : Program) :
    (p.check = .ok () → ((∃ image, p.build = .ok image) ↔ p.Fits)) ∧
    ∀ image, p.build = .ok image → ∃ h rest, image = Header.bytes h ++ rest ∧
      h.sections.length = p.sections.length ∧
      (∀ k s, p.sections[k]? = some s → ∃ d, h.sections[k]? = some d ∧
        d.filePointer.toNat = p.bytesAhead k ∧ d.loadOffset = s.base ∧ d.byteLength.toNat = s.size) ∧
      h.codePointer.toNat = p.bytesAhead p.sections.length ∧ h.codeLength.toNat = p.instructionBytes := by
  refine ⟨?_,?_⟩
  · intro passed
    obtain ⟨complete,_⟩ := Program.checked_iff.mp (Program.check_eq_ok.mp passed)
    refine ⟨?_,complete.build_of_fits⟩
    rintro ⟨image,made⟩
    exact Program.fits_of_build made
  · intro image made
    obtain ⟨h,code,built⟩ := Program.built_of_build made
    refine ⟨h,p.dataBytes ++ code.flatten,?_,built.placed.length,?_,?_,?_⟩
    · rw [built.parts,List.append_assoc]
    · intro k s found
      obtain ⟨d,there,describes⟩ := built.placed.describes found
      exact ⟨d,there,describes.filePointer,describes.loadOffset,describes.byteLength⟩
    · rw [built.codePointer,p.bytesAhead_all]
    · rw [built.codeLength,p.codeSize_eq,Program.instructionBytes]

def reserving (bytes : Word) (instructions : Nat) : Program where
  sections := [⟨"data",0,[⟨"room",.reserve bytes⟩]⟩]
  code := List.replicate instructions (.instruction .nop none)

def spellingEnds (base : Word) : Program where
  sections := [⟨"first",0,[⟨"room",.reserve 0x4E2D⟩]⟩,⟨"second",base,[⟨"byte",.bytes [1]⟩]⟩]
  code := []

theorem reserving_capacity :
    (reserving 65517 19).check = .ok () ∧ (∃ image, (reserving 65517 19).build = .ok image) ∧
      (reserving 65517 20).check = .ok () ∧ (¬∃ image, (reserving 65517 20).build = .ok image) ∧
      (reserving 65518 0).check = .ok () ∧ (¬∃ image, (reserving 65518 0).build = .ok image) ∧
      (spellingEnds 0x5345).check = .ok () ∧ (∃ image, (spellingEnds 0x5345).build = .ok image) ∧
      (spellingEnds 0x5344).check = .ok () ∧ ¬∃ image, (spellingEnds 0x5344).build = .ok image := by
  have full : (reserving 65517 19).check = .ok () := rfl
  have long : (reserving 65517 20).check = .ok () := rfl
  have far : (reserving 65518 0).check = .ok () := rfl
  have beside : (spellingEnds 0x5345).check = .ok () := rfl
  have ambiguous : (spellingEnds 0x5344).check = .ok () := rfl
  refine ⟨full,?_,long,?_,far,?_,beside,?_,ambiguous,?_⟩
  · rw [(capacity_exact _).1 full]
    decide
  · rw [(capacity_exact _).1 long]
    decide
  · rw [(capacity_exact _).1 far]
    decide
  · rw [(capacity_exact _).1 beside]
    decide
  · rw [(capacity_exact _).1 ambiguous]
    decide

end WordMachine
