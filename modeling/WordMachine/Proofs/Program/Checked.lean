import WordMachine.Program.Check
import WordMachine.Proofs.Success

-- What a program that passes its check is known to be. Each name check carries the list of the names
-- seen before, and that list stays free of repetitions exactly as long as the check goes on.

namespace WordMachine

open Success

theorem defineName_eq_ok {seen next : List String} {name : String} :
    defineName seen name = .ok next ↔ name ∉ seen ∧ next = name :: seen := by
  unfold defineName
  split
  · rename_i taken
    simp [taken]
  · rename_i free
    simp [free,eq_comm]

def CodeElement.label? : CodeElement → Option String
  | label name => some name
  | instruction _ _ => none

def Section.dataNames (s : Section) : List String := s.entries.map (·.name)

namespace Program

def sectionNames (p : Program) : List String := p.sections.map (·.name)

def dataNames (p : Program) : List String := p.sections.flatMap Section.dataNames

def labelNames (p : Program) : List String := p.code.filterMap CodeElement.label?

end Program

theorem defineNames_eq_ok {seen next names : List String} (distinct : seen.Nodup) :
    names.foldlM defineName seen = .ok next ↔ next = names.reverse ++ seen ∧ next.Nodup := by
  induction names generalizing seen with
  | nil =>
    simp only [List.foldlM_nil,pure,Except.pure,Except.ok.injEq,List.reverse_nil,List.nil_append]
    constructor
    · rintro rfl
      exact ⟨rfl,distinct⟩
    · rintro ⟨rfl,_⟩
      rfl
  | cons name rest ih =>
    simp only [List.foldlM_cons,bind_eq_ok,defineName_eq_ok,List.reverse_cons,List.append_assoc,
      List.singleton_append]
    constructor
    · rintro ⟨_,⟨free,rfl⟩,others⟩
      exact (ih (List.nodup_cons.mpr ⟨free,distinct⟩)).mp others
    · rintro ⟨rfl,unique⟩
      have grown := (List.nodup_append.mp unique).2.1
      exact ⟨_,⟨(List.nodup_cons.mp grown).1,rfl⟩,(ih grown).mpr ⟨rfl,unique⟩⟩

theorem defineNames_nil_eq_ok {next names : List String} :
    names.foldlM defineName [] = .ok next ↔ next = names.reverse ∧ names.Nodup := by
  rw [defineNames_eq_ok List.nodup_nil,List.append_nil]
  constructor
  · rintro ⟨rfl,unique⟩
    exact ⟨rfl,(List.reverse_perm names).nodup_iff.mp unique⟩
  · rintro ⟨rfl,unique⟩
    exact ⟨rfl,(List.reverse_perm names).nodup_iff.mpr unique⟩

theorem checkLabels_eq (seen : List String) (code : List CodeElement) :
    code.foldlM CodeElement.checkLabel seen =
      (code.filterMap CodeElement.label?).foldlM defineName seen := by
  induction code generalizing seen with
  | nil => rfl
  | cons element rest ih =>
    cases element with
    | label name =>
      simp only [List.foldlM_cons,CodeElement.checkLabel,ih,List.filterMap_cons,CodeElement.label?]
    | instruction i argument => exact ih seen

theorem checkEntries_eq_ok {seen next : List String} {entries : List Entry} :
    entries.foldlM Entry.check seen = .ok next ↔
      (entries.map (·.name)).foldlM defineName seen = .ok next ∧
        ∀ e ∈ entries, e.item.isEncodable = true := by
  induction entries generalizing seen with
  | nil => simp
  | cons e rest ih =>
    simp only [List.foldlM_cons,Entry.check,bind_eq_ok,require_eq_ok_iff,pure,Except.pure,
      Except.ok.injEq,ih,List.map_cons,List.forall_mem_cons]
    constructor
    · rintro ⟨_,⟨middle,defined,_,encodable,rfl⟩,others,rest⟩
      exact ⟨⟨middle,defined,others⟩,encodable,rest⟩
    · rintro ⟨⟨middle,defined,others⟩,encodable,rest⟩
      exact ⟨middle,⟨middle,defined,(),encodable,rfl⟩,others,rest⟩

theorem checkSectionNames_eq_ok {seen next : SectionNames} {sections : List Section} :
    sections.foldlM Section.check seen = .ok next ↔
      (sections.map (·.name)).foldlM defineName seen.sections = .ok next.sections ∧
      (sections.flatMap Section.dataNames).foldlM defineName seen.data = .ok next.data ∧
        ∀ s ∈ sections, ∀ e ∈ s.entries, e.item.isEncodable = true := by
  induction sections generalizing seen with
  | nil =>
    obtain ⟨names,data⟩ := seen
    obtain ⟨names',data'⟩ := next
    simp [pure,Except.pure]
  | cons s rest ih =>
    simp only [List.foldlM_cons,Section.check,bind_eq_ok,pure,Except.pure,Except.ok.injEq,ih,
      checkEntries_eq_ok,List.map_cons,List.flatMap_cons,List.foldlM_append,List.forall_mem_cons,
      Section.dataNames]
    constructor
    · rintro ⟨_,⟨names,named,data,⟨entered,encodable⟩,rfl⟩,otherNames,otherData,rest⟩
      exact ⟨⟨names,named,otherNames⟩,⟨data,entered,otherData⟩,encodable,rest⟩
    · rintro ⟨⟨names,named,otherNames⟩,⟨data,entered,otherData⟩,encodable,rest⟩
      exact ⟨⟨names,data⟩,⟨names,named,data,⟨entered,encodable⟩,rfl⟩,otherNames,otherData,rest⟩

theorem CodeElement.checkArgument_eq_ok {names : DefinedNames} {i : Instruction}
    {argument : Option Argument} :
    (instruction i argument).checkArgument names = .ok () ↔ argument.isSome = i.hasOperand ∧
      ∀ a, argument = some a → a.checkReferences names = .ok () := by
  cases operand : i.hasOperand <;> cases argument <;> simp [checkArgument,operand]

structure Program.Checked (p : Program) : Prop where
  sectionNames : p.sectionNames.Nodup
  dataNames : p.dataNames.Nodup
  encodable : ∀ s ∈ p.sections, ∀ e ∈ s.entries, e.item.isEncodable = true
  overlaps : checkOverlaps p.sections = .ok ()
  labels : p.labelNames.Nodup
  arguments : ∀ e ∈ p.code, e.checkArgument ⟨p.dataNames.reverse,p.labelNames.reverse⟩ = .ok ()

theorem Program.check_eq_ok {p : Program} : p.check = .ok () ↔ p.Checked := by
  simp only [check,bind_eq_ok,checkSectionNames_eq_ok,checkLabels_eq,defineNames_nil_eq_ok]
  constructor
  · rintro ⟨⟨_,_⟩,⟨⟨rfl,sections⟩,⟨rfl,data⟩,encodable⟩,_,overlaps,_,⟨rfl,labels⟩,arguments⟩
    exact ⟨sections,data,encodable,overlaps,labels,forM_eq_ok.mp arguments⟩
  · rintro ⟨sections,data,encodable,overlaps,labels,arguments⟩
    exact ⟨⟨_,_⟩,⟨⟨rfl,sections⟩,⟨rfl,data⟩,encodable⟩,(),overlaps,_,⟨rfl,labels⟩,forM_eq_ok.mpr arguments⟩

end WordMachine
