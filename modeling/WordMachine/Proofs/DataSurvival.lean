import WordMachine.Proofs.Machine.Loaded
import WordMachine.Proofs.Program.Sections
import WordMachine.Proofs.Program.Symbols

-- What becomes of a program's data when its image is loaded. Sections do not overlap one another, but
-- nothing keeps them apart from the code, which is loaded over them after the last one declared.

namespace WordMachine

namespace Program

variable {p : Program} {s last : Section}

def CodeMeets (p : Program) (s : Section) : Prop := s.Meets p.codeBase (p.codeBase + p.codeSize)

theorem Checked.beside_code (checked : p.Checked) (member : s ∈ p.sections)
    (final : p.sections.getLast? = some last) :
    s.base ≤ last.base ∧ s.stop ≤ p.codeBase ∨ last.base < s.base ∧ p.codeBase ≤ s.base.toNat := by
  have base : p.codeBase = last.stop := by simp [codeBase,final]
  obtain ⟨earlier,sections⟩ := List.getLast?_eq_some_iff.mp final
  have apart := checkOverlaps_eq_ok.mp checked.overlaps
  rw [sections] at member apart
  rw [base]
  rcases List.mem_append.mp member with before | here
  · rcases (List.pairwise_append.mp apart).2.2 s before last List.mem_cons_self with ⟨low,first⟩ | ⟨high,second⟩
    · exact .inl ⟨low,Nat.le_trans first last.base_le_stop⟩
    · exact .inr ⟨high,second⟩
  · cases List.mem_singleton.mp here
    exact .inl ⟨UInt16.le_refl _,Nat.le_refl _⟩

theorem Checked.codeMeets_iff (checked : p.Checked) (member : s ∈ p.sections) :
    p.CodeMeets s ↔ s.size ≠ 0 ∧ s.base.toNat < p.codeBase + p.codeSize ∧
      ∃ last, p.sections.getLast? = some last ∧ last.base < s.base := by
  have some : p.sections ≠ [] := List.ne_nil_of_mem member
  have final := List.getLast?_eq_some_getLast some
  have beside := checked.beside_code member final
  constructor
  · rintro ⟨x,begins,below,start,stop⟩
    rcases beside with ⟨_,first⟩ | ⟨high,_⟩
    · omega
    · have size : s.size ≠ 0 := by
        rw [Section.stop] at below
        omega
      exact ⟨size,by omega,_,final,high⟩
  · rintro ⟨size,start,other,found,high⟩
    cases final.symm.trans found
    rcases beside with ⟨low,_⟩ | ⟨_,above⟩
    · exact absurd high (UInt16.not_lt.mpr low)
    · exact ⟨s.base.toNat,Nat.le_refl _,by rw [Section.stop]; omega,above,start⟩

end Program

namespace Section.StoredIn

variable {image : List Byte} {s : Section} {d : Descriptor}

theorem byteAt? (stored : s.StoredIn image d) (x : Nat) :
    d.byteAt? image x = placedByte? s.base.toNat s.encode x := by
  rw [Descriptor.byteAt?,stored.loadOffset,stored.body]

end Section.StoredIn

section Stored

variable {image : List Byte} {sections : List Section} {ds : List Descriptor}

theorem no_section_byte (stored : List.Forall₂ (fun s d => s.StoredIn image d) sections ds) {x : Nat}
    (outside : ∀ s ∈ sections, x < s.base.toNat ∨ s.stop ≤ x) :
    ds.reverse.findSome? (·.byteAt? image x) = none := by
  induction stored with
  | nil => rfl
  | @cons s d _ _ this _ ih =>
    obtain ⟨here,others⟩ := List.forall_mem_cons.mp outside
    have none : d.byteAt? image x = none := by
      rw [this.byteAt?,placedByte?_eq_none_iff,s.length_encode]
      exact here
    simp [ih others,none]

-- The table is searched from its end, so it is the sections declared later that must stay away.
theorem section_byte (stored : List.Forall₂ (fun s d => s.StoredIn image d) sections ds)
    (apart : sections.Pairwise Section.Apart) {s : Section} (member : s ∈ sections) {k : Nat} {b : Byte}
    (found : s.encode[k]? = some b) :
    ds.reverse.findSome? (·.byteAt? image (s.base.toNat + k)) = some b := by
  induction stored with
  | nil => cases member
  | @cons first d others _ this stored ih =>
    obtain ⟨ahead,rest⟩ := List.pairwise_cons.mp apart
    rw [List.reverse_cons,List.findSome?_append]
    rcases List.mem_cons.mp member with rfl | later
    · have inside : k < s.size := by
        rw [← s.length_encode]
        exact (List.getElem?_eq_some_iff.mp found).1
      have outside : ∀ t ∈ others, s.base.toNat + k < t.base.toNat ∨ t.stop ≤ s.base.toNat + k := by
        intro t within
        rcases ahead t within with ⟨_,before⟩ | ⟨_,after⟩
        · left
          rw [Section.Precedes,Section.stop] at before
          omega
        · right
          exact Nat.le_trans after (Nat.le_add_right _ _)
      rw [no_section_byte stored outside]
      simp [this.byteAt?,found]
    · rw [ih rest later]
      rfl

end Stored

theorem Section.entry_byte {s : Section} {before after : List Entry} {e : Entry}
    (entries : s.entries = before ++ e :: after) {k : Nat} {b : Byte}
    (found : e.item.encode[k]? = some b) : s.encode[Entry.sizes before + k]? = some b := by
  have length : (before.flatMap (·.item.encode)).length = Entry.sizes before := by
    rw [length_flatMap]
    simp [Entry.sizes]
  have inside := (List.getElem?_eq_some_iff.mp found).1
  rw [encode,entries,List.flatMap_append,List.flatMap_cons,← length,List.getElem?_append_right (by omega),
    Nat.add_sub_cancel_left,List.getElem?_append_left inside,found]

namespace Built

variable {p : Program} {image : List Byte} {h : Header} {code : List (List Byte)} {s : Section}

theorem section_fits (built : Built p image h code) : ∀ s ∈ p.sections, s.stop ≤ memorySize := by
  have both : List.Forall₂ (fun s d => s.stop ≤ memorySize ∧ s.StoredIn image d) p.sections h.sections :=
    built.stored.imp fun s d stored => ⟨stored.fits,stored⟩
  exact ((List.forall₂_and_left _ _).mp both).1

theorem byte_survives (built : Built p image h code) (checked : p.Checked) (m : Machine)
    (member : s ∈ p.sections) {k : Nat} {b : Byte} (found : s.encode[k]? = some b)
    (outside : s.base.toNat + k < p.codeBase ∨ p.codeBase + p.codeSize ≤ s.base.toNat + k) :
    (m.install h image).memory.byte (UInt16.ofNat (s.base.toNat + k)) = b := by
  have inside : k < s.size := by
    rw [← s.length_encode]
    exact (List.getElem?_eq_some_iff.mp found).1
  have inMemory : s.base.toNat + k < memorySize := by
    have fits := built.section_fits s member
    rw [Section.stop] at fits
    omega
  have uncovered : placedByte? h.codeBase (h.codeBody image) (s.base.toNat + k) = none := by
    rw [placedByte?_eq_none_iff,built.codeBase,built.codeBody,built.length_code]
    exact outside
  have stored := section_byte built.stored (checkOverlaps_eq_ok.mp checked.overlaps) member found
  rw [m.byte_install _ built.inBounds,UInt16.toNat_ofNat_of_lt' inMemory,uncovered,stored]
  rfl

end Built

-- Where the code covers an entry, the code is there; nothing of the entry is lost beyond that.
theorem data_survives_beside_code {p : Program} {image : List Byte} (made : p.assemble = .ok image)
    (config : Config) :
    ∃ m code, Machine.ofImage config image = .ok m ∧ p.emit = .ok code ∧
      code.flatten.length = p.codeSize ∧ m.memory.Holds p.codeBase code.flatten ∧
      ∀ s ∈ p.sections,
        (p.CodeMeets s ↔ s.size ≠ 0 ∧ s.base.toNat < p.codeBase + p.codeSize ∧
          ∃ last, p.sections.getLast? = some last ∧ last.base < s.base) ∧
        ∀ before e after, s.entries = before ++ e :: after →
          (Argument.data e.name).resolve p.symbols =
            .ok (UInt16.ofNat (s.base.toNat + Entry.sizes before)) ∧
          (¬p.CodeMeets s → m.memory.Holds (s.base.toNat + Entry.sizes before) e.item.encode) ∧
          ∀ k b, e.item.encode[k]? = some b →
            ¬(p.codeBase ≤ s.base.toNat + Entry.sizes before + k ∧
              s.base.toNat + Entry.sizes before + k < p.codeBase + p.codeSize) →
            m.memory.byte (UInt16.ofNat (s.base.toNat + Entry.sizes before + k)) = b := by
  obtain ⟨checked,h,code,built⟩ := p.assembled made
  have holds := (Machine.new config).holds_codeBody built.inBounds
  rw [built.codeBase,built.codeBody] at holds
  refine ⟨_,code,built.load _,built.emitted,built.length_code,holds,?_⟩
  intro s member
  refine ⟨checked.codeMeets_iff member,?_⟩
  intro before e after entries
  have denotes : p.Denotes (.data e.name) _ := .data ⟨e,rfl,s,member,before,after,entries,rfl⟩
  have survives : ∀ k b, e.item.encode[k]? = some b →
      ¬(p.codeBase ≤ s.base.toNat + Entry.sizes before + k ∧
        s.base.toNat + Entry.sizes before + k < p.codeBase + p.codeSize) →
      ((Machine.new config).install h image).memory.byte
        (UInt16.ofNat (s.base.toNat + Entry.sizes before + k)) = b := by
    intro k b found outside
    rw [Nat.add_assoc] at outside ⊢
    exact built.byte_survives checked _ member (Section.entry_byte entries found) (by omega)
  refine ⟨denotes.resolve checked,?_,survives⟩
  intro clear k b found
  refine survives k b found fun covered => clear ?_
  have inside : Entry.sizes before + k < s.size := by
    rw [← s.length_encode]
    exact (List.getElem?_eq_some_iff.mp (Section.entry_byte entries found)).1
  exact ⟨_,by omega,by rw [Section.stop]; omega,covered.1,covered.2⟩

-- The section declared last is the lower of the two, and the code right after it is where the other is.
def coveredSection : Program where
  sections := [⟨"upper",1,[⟨"lost",.bytes [0xAA,0xCC]⟩]⟩,⟨"lower",0,[⟨"kept",.bytes [0xBB]⟩]⟩]
  code := [.instruction .halt none]

def coveredSectionImage : List Byte :=
  magic.bytes ++ [0x18,0,1,0,2,0] ++ [0x1A,0,0,0,1,0] ++ terminator.bytes ++ [0x1B,0,1,0] ++
    [0xAA,0xCC] ++ [0xBB] ++ [0x19]

theorem coveredSection_survives :
    coveredSection.assemble = .ok coveredSectionImage ∧
      ∃ m, Machine.ofImage {} coveredSectionImage = .ok m ∧ m.memory.Holds 0 [0xBB] ∧
        m.memory.byte 2 = 0xCC := by
  have made : coveredSection.assemble = .ok coveredSectionImage := rfl
  obtain ⟨m,_,loaded,_,_,_,data⟩ := data_survives_beside_code made {}
  obtain ⟨_,upper⟩ := data _ List.mem_cons_self
  obtain ⟨meets,lower⟩ := data _ (List.mem_cons_of_mem _ List.mem_cons_self)
  have clear : ¬coveredSection.CodeMeets ⟨"lower",0,[⟨"kept",.bytes [0xBB]⟩]⟩ := by
    intro covered
    obtain ⟨_,_,last,final,below⟩ := meets.mp covered
    cases final
    exact absurd below (by decide)
  obtain ⟨_,kept,_⟩ := lower [] ⟨"kept",.bytes [0xBB]⟩ [] rfl
  obtain ⟨_,_,beside⟩ := upper [] ⟨"lost",.bytes [0xAA,0xCC]⟩ [] rfl
  exact ⟨made,m,loaded,kept clear,beside 1 0xCC rfl (by decide)⟩

theorem coveredSection_overwritten :
    ∃ m, coveredSection.assemble = .ok coveredSectionImage ∧
      Machine.ofImage {} coveredSectionImage = .ok m ∧
      ∃ s ∈ coveredSection.sections, coveredSection.CodeMeets s ∧
        ∃ e ∈ s.entries, ∃ address, (Argument.data e.name).resolve coveredSection.symbols = .ok address ∧
          ¬m.memory.Holds address.toNat e.item.encode := by
  refine ⟨_,rfl,rfl,_,List.mem_cons_self,⟨1,by decide⟩,_,List.mem_cons_self,1,rfl,?_⟩
  intro holds
  exact absurd (holds 0 0xAA rfl) (by decide)

end WordMachine
