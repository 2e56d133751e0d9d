import WordMachine.Proofs.Program.Checked
import WordMachine.Proofs.Program.Sections

-- Sections are only told apart by their base, so at a base that is used twice the order of declaration decides which
-- of the two has to stop before the other one begins.

namespace WordMachine

namespace Section

def InOrder (s t : Section) : Prop := s.base = t.base → t.size = 0 → s.size = 0

instance (s t : Section) : Decidable (s.InOrder t) :=
  inferInstanceAs (Decidable (s.base = t.base → t.size = 0 → s.size = 0))

theorem precedes_of_same {s t : Section} (same : s.base = t.base) : s.Precedes t ↔ s.size = 0 := by
  unfold Precedes stop
  rw [same]
  omega

theorem apart_iff {s t : Section} : s.Apart t ↔ s.Clear t ∧ s.InOrder t := by
  by_cases same : s.base = t.base
  · have below : s.base ≤ t.base := UInt16.le_of_eq same
    rw [apart_of_le below,Clear,InOrder,precedes_of_same same,precedes_of_same same.symm]
    tauto
  · have ordered : s.InOrder t := fun equal => absurd equal same
    rw [and_iff_left ordered]
    constructor
    · intro apart
      rcases apart with ⟨_,before⟩ | ⟨_,after⟩
      · exact .inl before
      · exact .inr after
    · intro clear
      rcases clear with before | after
      · exact .inl ⟨before.base_le,before⟩
      · exact .inr ⟨UInt16.lt_of_le_of_ne after.base_le (Ne.symm same),after⟩

end Section

theorem checkOverlaps_eq_ok_iff {sections : List Section} :
    checkOverlaps sections = .ok () ↔
      sections.Pairwise Section.Clear ∧ sections.Pairwise Section.InOrder := by
  rw [checkOverlaps_eq_ok,← List.pairwise_and_iff]
  exact List.Pairwise.iff fun s t => Section.apart_iff

theorem Argument.checkReferences_congr {data other labels : List String}
    (same : ∀ name, name ∈ data ↔ name ∈ other) (a : Argument) :
    a.checkReferences ⟨data,labels⟩ = a.checkReferences ⟨other,labels⟩ := by
  induction a with
  | literal value => rfl
  | data name => simp only [checkReferences,same]
  | label name => rfl
  | add left right ihl ihr | sub left right ihl ihr =>
    unfold checkReferences
    rw [ihl,ihr]

theorem CodeElement.checkArgument_congr {data other labels : List String}
    (same : ∀ name, name ∈ data ↔ name ∈ other) (element : CodeElement) :
    element.checkArgument ⟨data,labels⟩ = element.checkArgument ⟨other,labels⟩ := by
  cases element with
  | label name => rfl
  | instruction i argument => simp only [checkArgument,Argument.checkReferences_congr same]

theorem Program.Checked.permuted {p q : Program} (checked : p.Checked) (sections : q.sections.Perm p.sections)
    (code : q.code = p.code) : q.Checked ↔ q.sections.Pairwise Section.InOrder := by
  have labels : q.labelNames = p.labelNames := by
    unfold labelNames
    rw [code]
  have data : q.dataNames.Perm p.dataNames := sections.flatMap_right _
  obtain ⟨clear,_⟩ := checkOverlaps_eq_ok_iff.mp checked.overlaps
  have overlaps : checkOverlaps q.sections = .ok () ↔ q.sections.Pairwise Section.InOrder := by
    rw [checkOverlaps_eq_ok_iff]
    exact and_iff_right (clear.perm sections.symm Or.symm)
  constructor
  · intro also
    exact overlaps.mp also.overlaps
  · intro ordered
    refine ⟨?_,data.nodup_iff.mpr checked.dataNames,?_,overlaps.mpr ordered,labels ▸ checked.labels,?_⟩
    · exact (sections.map Section.name).nodup_iff.mpr checked.sectionNames
    · intro s member
      exact checked.encodable s (sections.mem_iff.mp member)
    · intro element member
      have same : ∀ name, name ∈ q.dataNames.reverse ↔ name ∈ p.dataNames.reverse := by
        intro name
        rw [List.mem_reverse,List.mem_reverse,data.mem_iff]
      rw [labels,CodeElement.checkArgument_congr same]
      exact checked.arguments element (code ▸ member)

-- So the order is free where no empty section shares its base with one that has bytes.
theorem check_in_any_order {p q : Program} (sections : q.sections.Perm p.sections) (code : q.code = p.code) :
    (p.check = .ok () → (q.check = .ok () ↔ q.sections.Pairwise Section.InOrder)) ∧
    ((∀ s ∈ p.sections, ∀ t ∈ p.sections, s.InOrder t) → (p.check = .ok () ↔ q.check = .ok ())) := by
  simp only [Program.check_eq_ok]
  refine ⟨fun checked => checked.permuted sections code,?_⟩
  intro ordered
  constructor
  · intro checked
    apply (checked.permuted sections code).mpr
    exact List.pairwise_of_forall_mem_list fun s first t second =>
      ordered s (sections.mem_iff.mp first) t (sections.mem_iff.mp second)
  · intro checked
    apply (checked.permuted sections.symm code.symm).mpr
    exact List.pairwise_of_forall_mem_list ordered

def emptySection : Section := ⟨"empty",0x10,[]⟩

def fullSection : Section := ⟨"full",0x10,[⟨"byte",.bytes [0xAA]⟩]⟩

def lowSection : Section := ⟨"low",0x0E,[⟨"word",.words [7]⟩]⟩

theorem check_in_other_order :
    [lowSection,emptySection,fullSection].Perm [emptySection,fullSection,lowSection] ∧
      (⟨[emptySection,fullSection,lowSection],[]⟩ : Program).check = .ok () ∧
      (⟨[lowSection,emptySection,fullSection],[]⟩ : Program).check = .ok () := by
  have sections : [lowSection,emptySection,fullSection].Perm [emptySection,fullSection,lowSection] := by decide
  have checked : (⟨[emptySection,fullSection,lowSection],[]⟩ : Program).check = .ok () := rfl
  obtain ⟨allowed,_⟩ := check_in_any_order (p := ⟨[emptySection,fullSection,lowSection],[]⟩)
    (q := ⟨[lowSection,emptySection,fullSection],[]⟩) sections rfl
  exact ⟨sections,checked,(allowed checked).mpr (by decide)⟩

theorem check_refuses_one_order :
    ∃ p q : Program, q.sections.Perm p.sections ∧ q.code = p.code ∧ p.check = .ok () ∧
      q.check = .error (.overlappingSections "full" "empty") :=
  ⟨⟨[emptySection,fullSection],[]⟩,⟨[fullSection,emptySection],[]⟩,by decide,rfl,rfl,rfl⟩

end WordMachine
