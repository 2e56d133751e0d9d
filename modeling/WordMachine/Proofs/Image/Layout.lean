import WordMachine.Machine.Load
import WordMachine.Proofs.Image.Emission
import WordMachine.Proofs.Image.Header
import WordMachine.Proofs.Program.Checked

-- The image of a program, part by part. What a header field says is never a truncated number, each
-- descriptor leads to the bytes of its section, and the header read back is the one that was written.

namespace WordMachine

open Success

theorem fitWord_eq_ok {n : Nat} {w : Word} : fitWord n = .ok w ↔ w.toNat = n := by
  unfold fitWord
  split
  · rename_i small
    rw [Except.ok.injEq]
    constructor
    · rintro rfl
      exact UInt16.toNat_ofNat_of_lt small
    · rintro rfl
      exact UInt16.ofNat_toNat
  · rename_i large
    have bound : w.toNat < memorySize := w.toNat_lt
    constructor
    · intro impossible
      cases impossible
    · intro same
      omega

structure Section.Describes (s : Section) (start : Nat) (d : Descriptor) : Prop where
  encodable : ∀ e ∈ s.entries, e.item.isEncodable = true
  fits : s.stop ≤ memorySize
  filePointer : d.filePointer.toNat = start
  loadOffset : d.loadOffset = s.base
  byteLength : d.byteLength.toNat = s.size
  clear : d.collides = false

theorem Section.place_eq_ok {s : Section} {start : Nat} {d : Descriptor} :
    s.place start = .ok d ↔ s.Describes start d := by
  simp only [place,bind_eq_ok,require_eq_ok_iff,fitWord_eq_ok,pure,Except.pure,Except.ok.injEq]
  constructor
  · rintro ⟨_,encodable,_,fits,pointer,file,length,size,_,clear,rfl⟩
    have entries := forM_eq_ok.mp encodable
    exact ⟨fun e member => require_eq_ok_iff.mp (entries e member),fits,file,rfl,size,clear⟩
  · rintro ⟨encodable,fits,file,base,size,clear⟩
    rw [← base]
    exact ⟨(),forM_eq_ok.mpr fun e member => require_eq_ok_iff.mpr (encodable e member),
      (),fits,d.filePointer,file,d.byteLength,size,(),clear,rfl⟩

inductive Placed : Nat → List Section → List Descriptor → Prop where
  | nil {start : Nat} : Placed start [] []
  | cons {start : Nat} {s : Section} {d : Descriptor} {rest : List Section} {ds : List Descriptor} :
      s.Describes start d → Placed (start + s.size) rest ds → Placed start (s :: rest) (d :: ds)

theorem placeSections_eq_ok {start : Nat} {sections : List Section} {ds : List Descriptor} :
    placeSections start sections = .ok ds ↔ Placed start sections ds := by
  induction sections generalizing start ds with
  | nil =>
    simp only [placeSections,Except.ok.injEq]
    constructor
    · rintro rfl
      exact .nil
    · intro placed
      cases placed
      rfl
  | cons s rest ih =>
    simp only [placeSections,bind_eq_ok,Section.place_eq_ok,ih,pure,Except.pure,Except.ok.injEq]
    constructor
    · rintro ⟨d,this,ds,others,rfl⟩
      exact .cons this others
    · intro placed
      cases placed with
      | cons this others => exact ⟨_,this,_,others,rfl⟩

namespace Placed

variable {start : Nat} {sections : List Section} {ds : List Descriptor}

theorem length (placed : Placed start sections ds) : ds.length = sections.length := by
  induction placed with
  | nil => rfl
  | cons _ _ ih => simp [ih]

theorem clear (placed : Placed start sections ds) : ∀ d ∈ ds, d.collides = false := by
  induction placed with
  | nil => simp
  | cons this _ ih => exact List.forall_mem_cons.mpr ⟨this.clear,ih⟩

theorem describes (placed : Placed start sections ds) {k : Nat} {s : Section}
    (found : sections[k]? = some s) :
    ∃ d, ds[k]? = some d ∧ s.Describes (start + totalSize ((sections.take k).map Section.size)) d := by
  induction placed generalizing k with
  | nil => simp at found
  | @cons start first d rest ds this _ ih =>
    cases k with
    | zero =>
      cases found
      exact ⟨d,rfl,this⟩
    | succ k =>
      obtain ⟨other,there,describes⟩ := ih found
      refine ⟨other,there,?_⟩
      rwa [List.take_succ_cons,List.map_cons,totalSize_cons,← Nat.add_assoc]

end Placed

structure Section.StoredIn (s : Section) (image : List Byte) (d : Descriptor) : Prop where
  fits : s.stop ≤ memorySize
  loadOffset : d.loadOffset = s.base
  byteLength : d.byteLength.toNat = s.size
  inImage : d.filePointer.toNat + d.byteLength.toNat ≤ image.length
  body : d.body image = s.encode

theorem Section.StoredIn.stop {s : Section} {image : List Byte} {d : Descriptor}
    (stored : s.StoredIn image d) : d.stop = s.stop := by
  rw [Descriptor.stop,stored.loadOffset,stored.byteLength,Section.stop]

theorem Placed.stored {start : Nat} {sections : List Section} {ds : List Descriptor}
    (placed : Placed start sections ds) (front rest : List Byte) (length : front.length = start) :
    List.Forall₂ (fun s d => s.StoredIn (front ++ sections.flatMap Section.encode ++ rest) d)
      sections ds := by
  induction placed generalizing front with
  | nil => exact .nil
  | @cons start s d sections ds this _ ih =>
    refine .cons ⟨this.fits,this.loadOffset,this.byteLength,?_,?_⟩ ?_
    · simp [this.filePointer,this.byteLength,← length]
    · rw [Descriptor.body,this.filePointer,this.byteLength,← length,← s.length_encode]
      simp
    · have others := ih (front ++ s.encode) (by simp [length])
      simpa using others

structure Built (p : Program) (image : List Byte) (h : Header) (code : List (List Byte)) : Prop where
  parts : image = h.bytes ++ p.dataBytes ++ code.flatten
  placed : Placed p.headerSize p.sections h.sections
  emitted : p.emit = .ok code
  codePointer : h.codePointer.toNat = p.headerSize + p.dataSize
  codeLength : h.codeLength.toNat = p.codeSize
  fits : p.codeBase + p.codeSize ≤ memorySize

theorem Program.build_eq_ok {p : Program} {image : List Byte} :
    p.build = .ok image ↔ ∃ h code, Built p image h code := by
  rw [build_eq]
  simp only [bind_eq_ok,require_eq_ok_iff,fitWord_eq_ok,placeSections_eq_ok,pure,Except.pure,Except.ok.injEq]
  constructor
  · rintro ⟨sections,placed,_,_,_,fits,code,emitted,pointer,start,length,size,rfl⟩
    exact ⟨⟨sections,pointer,length⟩,code,rfl,placed,emitted,start,size,fits⟩
  · rintro ⟨h,code,built⟩
    have given : p.code.forM CodeElement.checkOperand = .ok () := by
      apply forM_eq_ok.mpr
      intro element member
      obtain ⟨bytes,emitted⟩ := each_of_mapM built.emitted element member
      exact CodeElement.checkOperand_of_emit emitted
    exact ⟨h.sections,built.placed,(),given,(),built.fits,code,built.emitted,h.codePointer,built.codePointer,
      h.codeLength,built.codeLength,built.parts.symm⟩

theorem Program.built_of_build {p : Program} {image : List Byte} (made : p.build = .ok image) :
    ∃ h code, Built p image h code := build_eq_ok.mp made

theorem Program.assemble_eq_ok {p : Program} {image : List Byte} :
    p.assemble = .ok image ↔ p.check = .ok () ∧ p.build = .ok image := by
  unfold assemble
  rw [bind_eq_ok]
  constructor
  · intro both
    obtain ⟨_,checked,built⟩ := both
    exact ⟨checked,built⟩
  · intro both
    exact ⟨(),both⟩

theorem Program.assembled {p : Program} {image : List Byte} (made : p.assemble = .ok image) :
    p.Checked ∧ ∃ h code, Built p image h code := by
  obtain ⟨checked,built⟩ := assemble_eq_ok.mp made
  exact ⟨check_eq_ok.mp checked,built_of_build built⟩

namespace Built

variable {p : Program} {image : List Byte} {h : Header} {code : List (List Byte)}

theorem length_header (built : Built p image h code) : h.bytes.length = p.headerSize := by
  rw [Header.length_bytes,built.placed.length,Program.headerSize]

theorem length_code (built : Built p image h code) : code.flatten.length = p.codeSize :=
  length_flatten_emit (mapM_eq_ok.mp built.emitted)

theorem stored (built : Built p image h code) :
    List.Forall₂ (fun s d => s.StoredIn image d) p.sections h.sections := by
  have stored := built.placed.stored h.bytes code.flatten built.length_header
  rwa [← Program.dataBytes,← built.parts] at stored

theorem codeBody (built : Built p image h code) : h.codeBody image = code.flatten := by
  rw [Header.codeBody,built.codePointer,built.codeLength,← built.length_header,← p.length_dataBytes,
    ← built.length_code,built.parts,← List.length_append,List.drop_left,List.take_length]

theorem described (built : Built p image h code) :
    ∀ d ∈ h.sections, ∃ s : Section, s.StoredIn image d := by
  have both : List.Forall₂ (fun d s => (∃ s : Section, s.StoredIn image d) ∧ s.StoredIn image d)
      h.sections p.sections := built.stored.flip.imp fun d s stored => ⟨⟨s,stored⟩,stored⟩
  exact ((List.forall₂_and_left _ _).mp both).1

theorem codeBase (built : Built p image h code) : h.codeBase = p.codeBase := by
  have stored := built.stored
  unfold Header.codeBase Program.codeBase
  generalize h.sections = ds at stored ⊢
  generalize p.sections = sections at stored ⊢
  induction stored with
  | nil => rfl
  | cons this others ih =>
    cases others with
    | nil => exact this.stop
    | cons next rest =>
      rw [List.getLast?_cons_cons,List.getLast?_cons_cons]
      exact ih

theorem inBounds (built : Built p image h code) : h.InBounds image.length := by
  refine ⟨?_,?_,?_⟩
  · intro d member
    obtain ⟨s,stored⟩ := built.described d member
    exact ⟨stored.inImage,stored.stop ▸ stored.fits⟩
  · have length : image.length = p.headerSize + p.dataSize + p.codeSize := by
      rw [built.parts,List.length_append,List.length_append,built.length_header,built.length_code,
        p.length_dataBytes]
    exact Nat.le_of_eq (by rw [built.codePointer,built.codeLength,length])
  · rw [Header.codeStop,built.codeBase,built.codeLength]
    exact built.fits

theorem parse (built : Built p image h code) : Header.parse image = .ok h := by
  have front : image = h.bytes ++ (p.dataBytes ++ code.flatten) := by
    rw [built.parts,List.append_assoc]
  exact Header.parse_eq_ok.mpr ⟨⟨_,front⟩,built.placed.clear,built.inBounds⟩

theorem load (built : Built p image h code) (m : Machine) : m.load image = .ok (m.install h image) := by
  rw [Machine.load,built.parse]
  rfl

end Built

-- For any program that can be built, checked or not.
theorem image_reads_as_layout {p : Program} {image : List Byte} (made : p.build = .ok image) :
    ∃ h operands, Header.parse image = .ok h ∧
      h.sections.length = p.sections.length ∧
      (∀ k s, p.sections[k]? = some s → ∃ d, h.sections[k]? = some d ∧
        d.filePointer.toNat = Header.sizeFor p.sections.length +
          totalSize ((p.sections.take k).map Section.size) ∧
        d.loadOffset = s.base ∧ d.byteLength.toNat = s.size) ∧
      h.codePointer.toNat = Header.sizeFor p.sections.length + totalSize (p.sections.map Section.size) ∧
      h.codeLength.toNat = totalSize (p.instructions.map (·.1.size)) ∧
      h.codeBase = p.codeBase ∧
      List.Forall₂ (fun source operand => StoresOperand p.symbols source.1 source.2 operand)
        p.instructions operands ∧
      image = h.bytes ++ p.sections.flatMap (fun s => s.entries.flatMap (·.item.encode)) ++
        (List.zipWith (fun source operand => source.1.encode operand) p.instructions operands).flatten ∧
      ∀ config, ∃ m, Machine.ofImage config image = .ok m := by
  obtain ⟨h,code,built⟩ := Program.built_of_build made
  obtain ⟨operands,stores,flat⟩ := emitted_operands (mapM_eq_ok.mp built.emitted)
  refine ⟨h,operands,built.parse,built.placed.length,?_,built.codePointer,?_,built.codeBase,stores,?_,?_⟩
  · intro k s found
    obtain ⟨d,there,describes⟩ := built.placed.describes found
    exact ⟨d,there,describes.filePointer,describes.loadOffset,describes.byteLength⟩
  · rw [built.codeLength,p.codeSize_eq]
  · rw [built.parts,flat]
    rfl
  · intro config
    exact ⟨_,built.load (Machine.new config)⟩

-- The second section lies over the first, and HALT has an argument that it does not take.
def twins : Program where
  sections := [⟨"twin",0xFFF0,[⟨"odd",.ascii "abc"⟩,⟨"none",.reserve 0⟩]⟩,⟨"twin",0xFFF2,[⟨"odd",.words [7]⟩]⟩]
  code := [.label "again",.instruction .push (some (.label "again")),.label "again",
    .instruction .halt (some (.label "nowhere"))]

def twinsImage : List Byte :=
  magic.bytes ++ [0x18,0,0xF0,0xFF,4,0] ++ [0x1C,0,0xF2,0xFF,2,0] ++ terminator.bytes ++ [0x1E,0,4,0] ++
    [0x61,0x62,0x63,0] ++ [7,0] ++ [0x01,0xF7,0xFF,0x19]

theorem twins_read_as_layout :
    twins.check = .error (.duplicateSymbol "twin") ∧ twins.build = .ok twinsImage ∧
      Header.parse twinsImage = .ok ⟨[⟨24,0xFFF0,4⟩,⟨28,0xFFF2,2⟩],30,4⟩ ∧
      (∃ d, [Descriptor.mk 24 0xFFF0 4,⟨28,0xFFF2,2⟩][1]? = some d ∧ d.filePointer.toNat = 24 + 4) ∧
      ∀ config, ∃ m, Machine.ofImage config twinsImage = .ok m := by
  have made : twins.build = .ok twinsImage := rfl
  obtain ⟨h,_,parsed,_,sections,_,_,_,_,_,loads⟩ := image_reads_as_layout made
  have same : Header.parse twinsImage = .ok ⟨[⟨24,0xFFF0,4⟩,⟨28,0xFFF2,2⟩],30,4⟩ := rfl
  cases parsed.symm.trans same
  obtain ⟨d,there,pointer,_⟩ := sections 1 _ rfl
  exact ⟨rfl,made,same,⟨d,there,pointer⟩,loads⟩

end WordMachine
