import WordMachine.Proofs.Machine.Loaded

-- A move that would leave the image or the memory ends the loading there, with whatever was done before still done. No
-- move ever does, and nothing is done before the header is known to be good.

namespace WordMachine

inductive LoadStop where
  | refused (fault : HeaderFault)
  | outOfBounds
  deriving DecidableEq

abbrev Loading := EStateM LoadStop Machine

namespace Loading

variable {α β : Type}

def header (image : List Byte) : Loading Header :=
  match Header.parse image with
  | .ok h => return h
  | .error fault => throw (.refused fault)

def slice (image : List Byte) (start length : Nat) : Loading (List Byte) :=
  if start + length ≤ image.length then return (image.drop start).take length else throw .outOfBounds

def copy (address : Nat) (bytes : List Byte) : Loading Unit :=
  if address + bytes.length ≤ memorySize then
    modify fun m => {m with memory := m.memory.store (UInt16.ofNat address) bytes}
  else throw .outOfBounds

def copyBody (image : List Byte) (d : Descriptor) : Loading Unit := do
  let body ← slice image d.filePointer.toNat d.byteLength.toNat
  copy d.loadOffset.toNat body

-- Where there is no code, its place may be right after the last address.
def ofImage (image : List Byte) : Loading Unit := do
  let h ← header image
  (h.sections.filter (·.byteLength != 0)).forM (copyBody image)
  let code ← slice image h.codePointer.toNat h.codeLength.toNat
  copy h.codeBase code
  modify fun m => {m with code := ⟨h.codeBase,h.codeBase + code.length⟩}
  modify fun m => {m with entry := UInt16.ofNat h.codeBase}
  modify fun m => {m with registers := .atEntry m.entry}
  modify fun m => {m with halted := false}
  modify fun m => {m with steps := 0}

theorem run_andThen {x : Loading α} {m n : Machine} {a : α} (first : x.run m = .ok a n)
    (f : α → Loading β) : (x >>= f).run m = (f a).run n := by
  unfold EStateM.run at first ⊢
  simp only [bind,EStateM.bind,first]

theorem run_slice {image : List Byte} {start length : Nat} (inside : start + length ≤ image.length)
    (m : Machine) : (slice image start length).run m = .ok ((image.drop start).take length) m := by
  unfold slice
  rw [if_pos inside]
  rfl

theorem run_copy {address : Nat} {bytes : List Byte} (fits : address + bytes.length ≤ memorySize)
    (m : Machine) : (copy address bytes).run m =
      .ok () {m with memory := m.memory.store (UInt16.ofNat address) bytes} := by
  unfold copy
  rw [if_pos fits]
  rfl

theorem run_copyBody {image : List Byte} {d : Descriptor}
    (inImage : d.filePointer.toNat + d.byteLength.toNat ≤ image.length) (inMemory : d.stop ≤ memorySize)
    (m : Machine) : (copyBody image d).run m =
      .ok () {m with memory := m.memory.store d.loadOffset (d.body image)} := by
  unfold copyBody
  rw [run_andThen (run_slice inImage m),run_copy,UInt16.ofNat_toNat]
  · rfl
  · have length := d.length_body inImage
    unfold Descriptor.body at length
    rw [length]
    exact inMemory

theorem run_copyBodies {image : List Byte} {ds : List Descriptor}
    (bounds : ∀ d ∈ ds, d.filePointer.toNat + d.byteLength.toNat ≤ image.length ∧ d.stop ≤ memorySize)
    (m : Machine) : (ds.forM (copyBody image)).run m =
      .ok () {m with memory := ds.foldl (fun memory d => memory.store d.loadOffset (d.body image)) m.memory} := by
  induction ds generalizing m with
  | nil => rfl
  | cons d rest ih =>
    obtain ⟨⟨inImage,inMemory⟩,others⟩ := List.forall_mem_cons.mp bounds
    change (copyBody image d >>= fun _ => rest.forM (copyBody image)).run m = _
    rw [run_andThen (run_copyBody inImage inMemory m),ih others]
    rfl

theorem run_ofImage {image : List Byte} {h : Header} (parsed : Header.parse image = .ok h) (m : Machine) :
    (ofImage image).run m = .ok () (m.install h image) := by
  obtain ⟨_,_,bounds⟩ := Header.parse_eq_ok.mp parsed
  have found : (header image).run m = .ok h m := by
    unfold header
    rw [parsed]
    rfl
  have sections : ∀ d ∈ h.sections.filter (·.byteLength != 0),
      d.filePointer.toNat + d.byteLength.toNat ≤ image.length ∧ d.stop ≤ memorySize :=
    fun d member => bounds.sections d (List.mem_of_mem_filter member)
  have length := Header.length_codeBody bounds
  have fits : h.codeBase + (h.codeBody image).length ≤ memorySize := by
    rw [length]
    exact bounds.memory
  unfold ofImage
  rw [run_andThen found,run_andThen (run_copyBodies sections m),run_andThen (run_slice bounds.code _),
    ← Header.codeBody,run_andThen (run_copy fits _),length]
  rfl

theorem run_ofImage_refused {image : List Byte} {fault : HeaderFault}
    (refused : Header.parse image = .error fault) (m : Machine) :
    (ofImage image).run m = .error (.refused fault) m := by
  unfold ofImage header
  rw [refused]
  rfl

end Loading

theorem load_all_or_nothing (m : Machine) (image : List Byte) :
    (∀ fault, m.load image = .error fault ↔ Header.parse image = .error fault) ∧
    (∀ fault, Header.parse image = .error fault →
      (Loading.ofImage image).run m = .error (.refused fault) m) ∧
    ∀ h, Header.parse image = .ok h → ∃ n,
      m.load image = .ok n ∧ (Loading.ofImage image).run m = .ok () n ∧ h.InBounds image.length ∧
      (∀ x : Word,
        (h.codeBase ≤ x.toNat ∧ x.toNat < h.codeBase + h.codeLength.toNat →
          image[h.codePointer.toNat + (x.toNat - h.codeBase)]? = some (n.memory.byte x)) ∧
        (¬(h.codeBase ≤ x.toNat ∧ x.toNat < h.codeBase + h.codeLength.toNat) →
          (∀ earlier d later, h.sections = earlier ++ d :: later → d.Covers x.toNat →
            (∀ t ∈ later, ¬t.Covers x.toNat) →
            image[d.filePointer.toNat + (x.toNat - d.loadOffset.toNat)]? = some (n.memory.byte x)) ∧
          ((∀ d ∈ h.sections, ¬d.Covers x.toNat) → n.memory.byte x = m.memory.byte x))) ∧
      n.entry.toNat = h.codeBase % memorySize ∧ n.registers = .atEntry n.entry ∧ n.halted = false ∧
      n.steps = 0 ∧ n.code = ⟨h.codeBase,h.codeBase + h.codeLength.toNat⟩ ∧ n.config = m.config := by
  refine ⟨fun fault => Machine.load_eq_error,fun fault refused => Loading.run_ofImage_refused refused m,?_⟩
  intro h parsed
  obtain ⟨_,_,bounds⟩ := Header.parse_eq_ok.mp parsed
  refine ⟨m.install h image,Machine.load_eq_ok.mpr ⟨h,parsed,rfl⟩,Loading.run_ofImage parsed m,bounds,?_,?_⟩
  · intro x
    refine ⟨fun inside => m.install_code bounds inside.1 inside.2,?_⟩
    intro outside
    refine ⟨?_,m.install_untouched bounds outside⟩
    intro earlier d later table covers last
    exact m.install_section bounds outside table covers last
  · exact ⟨UInt16.toNat_ofNat',rfl,rfl,rfl,rfl,rfl⟩

-- The last section lies over the end of the first, and the code, which is empty, is right after the end of memory.
def brimImage : List Byte :=
  magic.bytes ++ [0x1E,0,0xFD,0xFF,3,0] ++ [0x21,0,5,0,0,0] ++ [0x1E,0,0xFF,0xFF,1,0] ++
    terminator.bytes ++ [0x21,0,0,0] ++ [0xAA,0xBB,0xCC]

def brimHeader : Header := ⟨[⟨30,0xFFFD,3⟩,⟨33,5,0⟩,⟨30,0xFFFF,1⟩],33,0⟩

def usedMachine : Machine :=
  {Machine.new {} with memory := Memory.zero.setByte 5 9,halted := true,steps := 8}

theorem brimImage_all_or_nothing :
    Header.parse brimImage = .ok brimHeader ∧
      (∃ n, usedMachine.load brimImage = .ok n ∧ (Loading.ofImage brimImage).run usedMachine = .ok () n ∧
        n.memory.byte 0xFFFE = 0xBB ∧ n.memory.byte 0xFFFF = 0xAA ∧
        n.memory.byte 5 = usedMachine.memory.byte 5 ∧ n.entry.toNat = 65536 % memorySize) ∧
      (Loading.ofImage brimImage.dropLast).run usedMachine =
        .error (.refused (.sectionPastImage 0 ⟨30,0xFFFD,3⟩ 32)) usedMachine := by
  have parsed : Header.parse brimImage = .ok brimHeader := rfl
  obtain ⟨_,_,loads⟩ := load_all_or_nothing usedMachine brimImage
  obtain ⟨n,loaded,moved,_,bytes,entry,_⟩ := loads brimHeader parsed
  obtain ⟨_,refuses,_⟩ := load_all_or_nothing usedMachine brimImage.dropLast
  obtain ⟨_,first⟩ := bytes 0xFFFE
  obtain ⟨_,last⟩ := bytes 0xFFFF
  obtain ⟨_,between⟩ := bytes 5
  refine ⟨parsed,⟨n,loaded,moved,?_,?_,?_,entry⟩,refuses _ rfl⟩
  · have byte := (first (by decide)).1 [] _ _ rfl (by decide) (by decide)
    exact (Option.some.inj byte).symm
  · have byte := (last (by decide)).1 [⟨30,0xFFFD,3⟩,⟨33,5,0⟩] _ [] rfl (by decide) (by decide)
    exact (Option.some.inj byte).symm
  · exact (between (by decide)).2 (by decide)

end WordMachine
