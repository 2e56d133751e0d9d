import WordMachine.Proofs.Image.Layout

-- The memory after an image was loaded, byte by byte: that of the code, else that of the last section
-- in the table that covers the address, else what was there before.

namespace WordMachine

def placedByte? (base : Nat) (bytes : List Byte) (x : Nat) : Option Byte :=
  if base ≤ x then bytes[x - base]? else none

@[simp]
theorem placedByte?_add (base k : Nat) (bytes : List Byte) :
    placedByte? base bytes (base + k) = bytes[k]? := by
  simp [placedByte?]

theorem placedByte?_eq_none_iff {base x : Nat} {bytes : List Byte} :
    placedByte? base bytes x = none ↔ x < base ∨ base + bytes.length ≤ x := by
  unfold placedByte?
  split
  · rw [List.getElem?_eq_none_iff]
    omega
  · simp
    omega

theorem placedByte?_inside {base x : Nat} {bytes : List Byte} (begins : base ≤ x)
    (below : x < base + bytes.length) : ∃ b, placedByte? base bytes x = some b ∧ bytes[x - base]? = some b := by
  have found := List.getElem?_eq_getElem (by omega : x - base < bytes.length)
  unfold placedByte?
  rw [if_pos begins]
  exact ⟨_,found,found⟩

theorem body_getElem? {image : List Byte} {start length k : Nat} {b : Byte}
    (found : ((image.drop start).take length)[k]? = some b) : k < length ∧ image[start + k]? = some b := by
  rw [List.getElem?_take] at found
  split at found
  · rename_i inside
    rw [List.getElem?_drop] at found
    exact ⟨inside,found⟩
  · cases found

namespace Memory

-- If there are no bytes, `address` may be anything.
def Holds (memory : Memory) (address : Nat) (bytes : List Byte) : Prop :=
  ∀ k b, bytes[k]? = some b → memory.byte (UInt16.ofNat (address + k)) = b

theorem byte_store (memory : Memory) (x : Word) {base : Nat} {bytes : List Byte}
    (fits : base + bytes.length ≤ memorySize) :
    (memory.store (UInt16.ofNat base) bytes).byte x =
      (placedByte? base bytes x.toNat).getD (memory.byte x) := by
  induction bytes generalizing memory base with
  | nil => simp [store,placedByte?]
  | cons b rest ih =>
    have inMemory : base < memorySize ∧ base + 1 + rest.length ≤ memorySize := by
      simp at fits
      omega
    have next : UInt16.ofNat base + 1 = UInt16.ofNat (base + 1) := (UInt16.ofNat_add base 1).symm
    rw [store,next,ih _ inMemory.2,byte_setByte]
    by_cases here : x = UInt16.ofNat base
    · have same : x.toNat = base := here ▸ UInt16.toNat_ofNat_of_lt' inMemory.1
      have before : ¬base + 1 ≤ base := by omega
      rw [if_pos here,same]
      simp [placedByte?,before]
    · have apart : x.toNat ≠ base := by
        rintro rfl
        exact here UInt16.ofNat_toNat.symm
      rw [if_neg here]
      congr 1
      unfold placedByte?
      by_cases above : base + 1 ≤ x.toNat
      · have further : x.toNat - base = x.toNat - (base + 1) + 1 := by omega
        rw [if_pos above,if_pos (by omega),further,List.getElem?_cons_succ]
      · rw [if_neg above,if_neg (by omega)]

end Memory

namespace Descriptor

def byteAt? (d : Descriptor) (image : List Byte) (x : Nat) : Option Byte :=
  placedByte? d.loadOffset.toNat (d.body image) x

def Covers (d : Descriptor) (x : Nat) : Prop := d.loadOffset.toNat ≤ x ∧ x < d.stop

instance (d : Descriptor) (x : Nat) : Decidable (d.Covers x) :=
  inferInstanceAs (Decidable (d.loadOffset.toNat ≤ x ∧ x < d.stop))

theorem length_body {d : Descriptor} {image : List Byte}
    (inImage : d.filePointer.toNat + d.byteLength.toNat ≤ image.length) :
    (d.body image).length = d.byteLength.toNat := by
  simp [body]
  omega

theorem byteAt?_covered {d : Descriptor} {image : List Byte} {x : Nat}
    (inImage : d.filePointer.toNat + d.byteLength.toNat ≤ image.length) (covers : d.Covers x) :
    ∃ b, d.byteAt? image x = some b ∧
      image[d.filePointer.toNat + (x - d.loadOffset.toNat)]? = some b := by
  have below : x < d.loadOffset.toNat + (d.body image).length := by
    rw [length_body inImage]
    exact covers.2
  obtain ⟨b,placed,found⟩ := placedByte?_inside covers.1 below
  exact ⟨b,placed,(body_getElem? found).2⟩

theorem byteAt?_uncovered {d : Descriptor} {image : List Byte} {x : Nat}
    (inImage : d.filePointer.toNat + d.byteLength.toNat ≤ image.length) (outside : ¬d.Covers x) :
    d.byteAt? image x = none := by
  unfold Covers stop at outside
  unfold byteAt?
  rw [placedByte?_eq_none_iff,length_body inImage]
  omega

theorem no_byte_uncovered {ds : List Descriptor} {image : List Byte} {x : Nat}
    (inImage : ∀ d ∈ ds, d.filePointer.toNat + d.byteLength.toNat ≤ image.length)
    (uncovered : ∀ d ∈ ds, ¬d.Covers x) : ds.reverse.findSome? (·.byteAt? image x) = none := by
  apply List.findSome?_eq_none_iff.mpr
  intro d member
  have within := List.mem_reverse.mp member
  exact byteAt?_uncovered (inImage d within) (uncovered d within)

end Descriptor

theorem Header.length_codeBody {h : Header} {image : List Byte} (bounds : h.InBounds image.length) :
    (h.codeBody image).length = h.codeLength.toNat := by
  have inImage := bounds.code
  simp [codeBody]
  omega

namespace Machine

theorem load_eq_ok {m n : Machine} {image : List Byte} :
    m.load image = .ok n ↔ ∃ h, Header.parse image = .ok h ∧ n = m.install h image := by
  simp only [load,Success.bind_eq_ok,pure,Except.pure,Except.ok.injEq,@eq_comm _ n]

theorem load_eq_error {m : Machine} {image : List Byte} {fault : HeaderFault} :
    m.load image = .error fault ↔ Header.parse image = .error fault := by
  unfold load
  cases Header.parse image with
  | ok h => simp [bind,Except.bind,pure,Except.pure]
  | error other => simp [bind,Except.bind]

theorem byte_storeSections (memory : Memory) (x : Word) {image : List Byte} {ds : List Descriptor}
    (bounds : ∀ d ∈ ds, d.filePointer.toNat + d.byteLength.toNat ≤ image.length ∧ d.stop ≤ memorySize) :
    (storeSections memory image ds).byte x =
      (ds.reverse.findSome? (·.byteAt? image x.toNat)).getD (memory.byte x) := by
  induction ds generalizing memory with
  | nil => rfl
  | cons d rest ih =>
    obtain ⟨⟨inImage,inMemory⟩,others⟩ := List.forall_mem_cons.mp bounds
    have length := d.length_body inImage
    have stored : (storeSections memory image (d :: rest)).byte x =
        (storeSections (memory.store d.loadOffset (d.body image)) image rest).byte x := by
      by_cases empty : d.byteLength = 0
      · have none : d.body image = [] := List.length_eq_zero_iff.mp (by simp [length,empty])
        simp [storeSections,empty,none,Memory.store]
      · simp [storeSections,empty]
    have fits : d.loadOffset.toNat + (d.body image).length ≤ memorySize := by
      rw [length]
      exact inMemory
    have byte := memory.byte_store x fits
    rw [UInt16.ofNat_toNat,← Descriptor.byteAt?] at byte
    rw [stored,ih _ others,byte,List.reverse_cons,List.findSome?_append,Option.getD_or]
    simp

theorem byte_install (m : Machine) (x : Word) {h : Header} {image : List Byte}
    (bounds : h.InBounds image.length) :
    (m.install h image).memory.byte x =
      (placedByte? h.codeBase (h.codeBody image) x.toNat).getD
        ((h.sections.reverse.findSome? (·.byteAt? image x.toNat)).getD (m.memory.byte x)) := by
  have fits : h.codeBase + (h.codeBody image).length ≤ memorySize := by
    rw [Header.length_codeBody bounds]
    exact bounds.memory
  rw [install,Memory.byte_store _ x fits,byte_storeSections m.memory x bounds.sections]

section Installed

variable {h : Header} {image : List Byte} {x : Word}

theorem install_code (m : Machine) (bounds : h.InBounds image.length) (begins : h.codeBase ≤ x.toNat)
    (below : x.toNat < h.codeStop) :
    image[h.codePointer.toNat + (x.toNat - h.codeBase)]? = some ((m.install h image).memory.byte x) := by
  have inside : x.toNat < h.codeBase + (h.codeBody image).length := by
    rw [Header.length_codeBody bounds]
    exact below
  obtain ⟨b,placed,found⟩ := placedByte?_inside begins inside
  rw [byte_install m x bounds,placed]
  exact (body_getElem? found).2

theorem install_beside (m : Machine) (bounds : h.InBounds image.length)
    (outside : ¬(h.codeBase ≤ x.toNat ∧ x.toNat < h.codeStop)) :
    (m.install h image).memory.byte x =
      (h.sections.reverse.findSome? (·.byteAt? image x.toNat)).getD (m.memory.byte x) := by
  have none : placedByte? h.codeBase (h.codeBody image) x.toNat = none := by
    unfold Header.codeStop at outside
    rw [placedByte?_eq_none_iff,Header.length_codeBody bounds]
    omega
  rw [byte_install m x bounds,none]
  rfl

theorem install_section (m : Machine) (bounds : h.InBounds image.length)
    (outside : ¬(h.codeBase ≤ x.toNat ∧ x.toNat < h.codeStop)) {earlier later : List Descriptor}
    {d : Descriptor} (table : h.sections = earlier ++ d :: later) (covers : d.Covers x.toNat)
    (last : ∀ t ∈ later, ¬t.Covers x.toNat) :
    image[d.filePointer.toNat + (x.toNat - d.loadOffset.toNat)]? =
      some ((m.install h image).memory.byte x) := by
  have inImage : ∀ t ∈ d :: later, t.filePointer.toNat + t.byteLength.toNat ≤ image.length := by
    intro t member
    exact (bounds.sections t (table ▸ List.mem_append_right earlier member)).1
  obtain ⟨this,others⟩ := List.forall_mem_cons.mp inImage
  have none := Descriptor.no_byte_uncovered others last
  obtain ⟨b,placed,found⟩ := Descriptor.byteAt?_covered this covers
  rw [install_beside m bounds outside,table,found]
  simp [none,placed]

theorem install_untouched (m : Machine) (bounds : h.InBounds image.length)
    (outside : ¬(h.codeBase ≤ x.toNat ∧ x.toNat < h.codeStop))
    (uncovered : ∀ d ∈ h.sections, ¬d.Covers x.toNat) :
    (m.install h image).memory.byte x = m.memory.byte x := by
  have inImage := fun d member => (bounds.sections d member).1
  rw [install_beside m bounds outside,Descriptor.no_byte_uncovered inImage uncovered]
  rfl

end Installed

theorem holds_codeBody (m : Machine) {h : Header} {image : List Byte}
    (bounds : h.InBounds image.length) :
    (m.install h image).memory.Holds h.codeBase (h.codeBody image) := by
  intro k b found
  have inside := (List.getElem?_eq_some_iff.mp found).1
  have inMemory : h.codeBase + k < memorySize := by
    rw [Header.length_codeBody bounds] at inside
    exact Nat.lt_of_lt_of_le (Nat.add_lt_add_left inside _) bounds.memory
  rw [byte_install m _ bounds,UInt16.toNat_ofNat_of_lt' inMemory,placedByte?_add,found]
  rfl

end Machine

end WordMachine
