import Mathlib.Data.List.Nodup
import Mathlib.Data.Set.Function
import Mathlib.Logic.Equiv.Basic
import WordMachine.Proofs.Agreement
import WordMachine.Proofs.Program.Sections

-- A name is only ever compared with names of its own kind, and only for equality. Nothing is said about faults, which
-- quote the names.

namespace WordMachine

open Success

structure Renaming where
  sections : String → String
  data : String → String
  labels : String → String

namespace Argument

def rename (r : Renaming) : Argument → Argument
  | literal value => literal value
  | data name => data (r.data name)
  | label name => label (r.labels name)
  | add left right => add (left.rename r) (right.rename r)
  | sub left right => sub (left.rename r) (right.rename r)

def Mentions (a reference : Argument) : Prop :=
  match a with
  | add left right | sub left right => left.Mentions reference ∨ right.Mentions reference
  | leaf => leaf = reference

end Argument

def Entry.rename (r : Renaming) (e : Entry) : Entry := {e with name := r.data e.name}

def Section.rename (r : Renaming) (s : Section) : Section where
  name := r.sections s.name
  base := s.base
  entries := s.entries.map (Entry.rename r)

def CodeElement.rename (r : Renaming) : CodeElement → CodeElement
  | label name => label (r.labels name)
  | instruction i argument => instruction i (argument.map (Argument.rename r))

namespace Program

def rename (p : Program) (r : Renaming) : Program where
  sections := p.sections.map (Section.rename r)
  code := p.code.map (CodeElement.rename r)

def Mentions (p : Program) (reference : Argument) : Prop :=
  ∃ i a, .instruction i (some a) ∈ p.code ∧ a.Mentions reference

-- A name that is not defined must not become one that is.
def UsesData (p : Program) (name : String) : Prop := name ∈ p.dataNames ∨ p.Mentions (.data name)

def UsesLabel (p : Program) (name : String) : Prop := name ∈ p.labelNames ∨ p.Mentions (.label name)

end Program

-- Names that the program does not use may become anything.
structure Renaming.Distinguishes (r : Renaming) (p : Program) : Prop where
  sections : Set.InjOn r.sections {name | name ∈ p.sectionNames}
  data : Set.InjOn r.data {name | p.UsesData name}
  labels : Set.InjOn r.labels {name | p.UsesLabel name}

namespace Section

variable (r : Renaming) (s : Section)

@[simp]
theorem size_rename : (s.rename r).size = s.size := by
  simp [size,rename,Entry.rename,Function.comp_def]

@[simp]
theorem stop_rename : (s.rename r).stop = s.stop := by
  rw [stop,size_rename]
  rfl

@[simp]
theorem encode_rename : (s.rename r).encode = s.encode := by
  simp [encode,rename,Entry.rename,List.flatMap_map]

@[simp]
theorem dataNames_rename : (s.rename r).dataNames = s.dataNames.map r.data := by
  simp [dataNames,rename,Entry.rename,Function.comp_def]

theorem encodable_rename : (∀ e ∈ (s.rename r).entries, e.item.isEncodable = true) ↔
    ∀ e ∈ s.entries, e.item.isEncodable = true := List.forall_mem_map

theorem describes_rename {start : Nat} {d : Descriptor} :
    (s.rename r).Describes start d ↔ s.Describes start d := by
  have texts := s.encodable_rename r
  have stops := s.stop_rename r
  have sizes := s.size_rename r
  constructor
  · intro described
    obtain ⟨encodable,fits,file,base,size,clear⟩ := described
    exact ⟨texts.mp encodable,stops ▸ fits,file,base,sizes ▸ size,clear⟩
  · intro described
    obtain ⟨encodable,fits,file,base,size,clear⟩ := described
    exact ⟨texts.mpr encodable,stops.symm ▸ fits,file,base,sizes.symm ▸ size,clear⟩

theorem apart_rename {t : Section} : (s.rename r).Apart (t.rename r) ↔ s.Apart t := by
  simp only [Apart,Precedes,stop_rename]
  rfl

end Section

theorem Placed.rename_iff {r : Renaming} {start : Nat} {sections : List Section} {ds : List Descriptor} :
    Placed start (sections.map (Section.rename r)) ds ↔ Placed start sections ds := by
  induction sections generalizing start ds with
  | nil => rfl
  | cons s rest ih =>
    constructor
    · intro placed
      cases placed with
      | cons this others =>
        rw [s.size_rename r] at others
        exact .cons ((s.describes_rename r).mp this) (ih.mp others)
    · intro placed
      cases placed with
      | cons this others =>
        refine .cons ((s.describes_rename r).mpr this) ?_
        rw [s.size_rename r]
        exact ih.mpr others

theorem CodeElement.size_rename (r : Renaming) (element : CodeElement) :
    (element.rename r).size = element.size := by
  cases element <;> rfl

namespace Symbols

variable {r : Renaming} {table : List (String × Nat)} {address : Nat}

def renameTable (f : String → String) (table : List (String × Nat)) : List (String × Nat) :=
  table.map fun row => (f row.1,row.2)

def rename (symbols : Symbols) (r : Renaming) : Symbols where
  codeBase := symbols.codeBase
  labels := renameTable r.labels symbols.labels
  data := renameTable r.data symbols.data

theorem lookup_renameTable {f : String → String} {used : Set String} {name : String} (apart : Set.InjOn f used)
    (listed : ∀ other ∈ names table, other ∈ used) (here : name ∈ used) :
    (renameTable f table).lookup (f name) = table.lookup name := by
  induction table with
  | nil => rfl
  | cons row rest ih =>
    obtain ⟨this,others⟩ := List.forall_mem_cons.mp listed
    rw [renameTable,List.map_cons,List.lookup_cons,List.lookup_cons,← renameTable,ih others]
    by_cases same : name = row.1
    · subst same
      simp
    · have different : f name ≠ f row.1 := fun equal => same (apart here this equal)
      rw [beq_false_of_ne same,beq_false_of_ne different]

theorem defineLabels_rename (code : List CodeElement) :
    defineLabels address (renameTable r.labels table) (code.map (CodeElement.rename r)) =
      renameTable r.labels (defineLabels address table code) := by
  induction code generalizing address table with
  | nil => rfl
  | cons element rest ih =>
    cases element with
    | label name => exact @ih ((name,address) :: table) address
    | instruction i argument => exact ih

theorem defineEntries_rename (entries : List Entry) :
    defineEntries address (renameTable r.data table) (entries.map (Entry.rename r)) =
      renameTable r.data (defineEntries address table entries) := by
  induction entries generalizing address table with
  | nil => rfl
  | cons e rest ih => exact @ih ((e.name,address) :: table) (address + e.item.size)

theorem defineSections_rename (sections : List Section) :
    (sections.map (Section.rename r)).foldl defineSection (renameTable r.data table) =
      renameTable r.data (sections.foldl defineSection table) := by
  induction sections generalizing table with
  | nil => rfl
  | cons s rest ih =>
    have this : defineSection (renameTable r.data table) (s.rename r) =
        renameTable r.data (defineSection table s) := defineEntries_rename s.entries
    rw [List.map_cons,List.foldl_cons,List.foldl_cons,this,ih]

end Symbols

namespace Program

variable (p : Program) (r : Renaming)

@[simp]
theorem codeBase_rename : (p.rename r).codeBase = p.codeBase := by
  unfold codeBase rename
  rw [List.getLast?_map]
  cases p.sections.getLast? with
  | none => rfl
  | some s => exact s.stop_rename r

@[simp]
theorem codeSize_rename : (p.rename r).codeSize = p.codeSize := by
  simp [codeSize,rename,Function.comp_def,CodeElement.size_rename]

@[simp]
theorem dataSize_rename : (p.rename r).dataSize = p.dataSize := by
  simp [dataSize,rename,Function.comp_def]

@[simp]
theorem dataBytes_rename : (p.rename r).dataBytes = p.dataBytes := by
  simp [dataBytes,rename,List.flatMap_map]

@[simp]
theorem headerSize_rename : (p.rename r).headerSize = p.headerSize := by
  simp [headerSize,rename]

theorem symbols_rename : (p.rename r).symbols = p.symbols.rename r := by
  have labels := @Symbols.defineLabels_rename r [] 0 p.code
  have data := @Symbols.defineSections_rename r [] p.sections
  unfold symbols dataTable Symbols.rename
  rw [codeBase_rename,← labels,← data]
  rfl

theorem sectionNames_rename : (p.rename r).sectionNames = p.sectionNames.map r.sections := by
  simp [sectionNames,rename,Section.rename,Function.comp_def]

theorem dataNames_rename : (p.rename r).dataNames = p.dataNames.map r.data := by
  simp [dataNames,rename,List.flatMap_map,List.map_flatMap]

theorem labelNames_rename : (p.rename r).labelNames = p.labelNames.map r.labels := by
  unfold labelNames rename
  rw [List.filterMap_map,List.map_filterMap]
  congr 1
  funext element
  cases element <;> rfl

variable {p r}

theorem mem_code_rename {i : Instruction} {argument : Option Argument} :
    .instruction i argument ∈ (p.rename r).code ↔
      ∃ given, .instruction i given ∈ p.code ∧ given.map (Argument.rename r) = argument := by
  unfold rename
  rw [List.mem_map]
  constructor
  · intro found
    obtain ⟨element,member,renamed⟩ := found
    cases element with
    | label name => cases renamed
    | instruction j given =>
      cases renamed
      exact ⟨given,member,rfl⟩
  · intro found
    obtain ⟨given,member,rfl⟩ := found
    exact ⟨_,member,rfl⟩

end Program

theorem nodup_renamed {f : String → String} {names : List String}
    (apart : Set.InjOn f {name | name ∈ names}) : (names.map f).Nodup ↔ names.Nodup := by
  constructor
  · exact List.Nodup.of_map f
  · intro distinct
    exact distinct.map_on fun x first y second => apart first second

namespace Renaming.Distinguishes

variable {r : Renaming} {p : Program}

-- The induction is over the part of an argument that has been come to: its references are the program's.
theorem resolve (distinct : r.Distinguishes p) {a : Argument}
    (within : ∀ reference, a.Mentions reference → p.Mentions reference) {value : Word} :
    (a.rename r).resolve (p.symbols.rename r) = .ok value ↔ a.resolve p.symbols = .ok value := by
  induction a generalizing value with
  | literal given => rfl
  | data name =>
    have listed : ∀ other ∈ Symbols.names p.symbols.data, p.UsesData other := by
      intro other member
      rw [p.names_data,List.mem_reverse] at member
      exact .inl member
    have found := Symbols.lookup_renameTable distinct.data listed (.inr (within (.data name) rfl))
    simp only [Argument.rename,Argument.resolve,Symbols.reference_eq_ok,Symbols.dataAddress?,Symbols.rename,found]
  | label name =>
    have listed : ∀ other ∈ Symbols.names p.symbols.labels, p.UsesLabel other := by
      intro other member
      rw [p.names_labels,List.mem_reverse] at member
      exact .inl member
    have found := Symbols.lookup_renameTable distinct.labels listed (.inr (within (.label name) rfl))
    simp only [Argument.rename,Argument.resolve,Symbols.reference_eq_ok,Symbols.labelAddress?,Symbols.rename,found]
  | add left right ihl ihr | sub left right ihl ihr =>
    have first := @ihl fun reference mentioned => within reference (.inl mentioned)
    have second := @ihr fun reference mentioned => within reference (.inr mentioned)
    simp only [Argument.rename,Argument.resolve,bind_eq_ok,first,second]

theorem resolve_argument (distinct : r.Distinguishes p) {i : Instruction} {a : Argument}
    (member : .instruction i (some a) ∈ p.code) {value : Word} :
    (a.rename r).resolve (p.rename r).symbols = .ok value ↔ a.resolve p.symbols = .ok value := by
  rw [p.symbols_rename r]
  exact distinct.resolve fun reference mentioned => ⟨i,a,member,mentioned⟩

theorem emit_element (distinct : r.Distinguishes p) {element : CodeElement} (member : element ∈ p.code)
    (bytes : List Byte) :
    (element.rename r).emit (p.rename r).symbols = .ok bytes ↔ element.emit p.symbols = .ok bytes := by
  cases element with
  | label name => rfl
  | instruction i argument =>
    cases argument with
    | none => rfl
    | some a =>
      simp only [CodeElement.rename,Option.map_some,CodeElement.emit]
      split
      · simp only [bind_eq_ok,distinct.resolve_argument member]
      · rfl

theorem emit (distinct : r.Distinguishes p) {code : List (List Byte)} :
    (p.rename r).emit = .ok code ↔ p.emit = .ok code := by
  have mapped : (p.rename r).emit =
      p.code.mapM fun element => (element.rename r).emit (p.rename r).symbols := List.mapM_map
  rw [mapped]
  exact mapM_eq_ok_congr fun element member => distinct.emit_element member

theorem built (distinct : r.Distinguishes p) {image : List Byte} {h : Header} {code : List (List Byte)} :
    Built (p.rename r) image h code ↔ Built p image h code := by
  constructor
  · intro made
    obtain ⟨parts,placed,emitted,pointer,length,fits⟩ := made
    simp only [Program.dataBytes_rename,Program.headerSize_rename,Program.dataSize_rename,
      Program.codeSize_rename,Program.codeBase_rename] at parts placed pointer length fits
    exact ⟨parts,Placed.rename_iff.mp placed,distinct.emit.mp emitted,pointer,length,fits⟩
  · intro made
    obtain ⟨parts,placed,emitted,pointer,length,fits⟩ := made
    refine ⟨?_,?_,distinct.emit.mpr emitted,?_,?_,?_⟩
    · rwa [Program.dataBytes_rename]
    · rw [Program.headerSize_rename]
      exact Placed.rename_iff.mpr placed
    · rwa [Program.headerSize_rename,Program.dataSize_rename]
    · rwa [Program.codeSize_rename]
    · rwa [Program.codeBase_rename,Program.codeSize_rename]

theorem build (distinct : r.Distinguishes p) {image : List Byte} :
    (p.rename r).build = .ok image ↔ p.build = .ok image := by
  simp only [Program.build_eq_ok,distinct.built]

theorem complete (distinct : r.Distinguishes p) : (p.rename r).Complete ↔ p.Complete := by
  have texts : (∀ s ∈ (p.rename r).sections, ∀ e ∈ s.entries, e.item.isEncodable = true) ↔
      ∀ s ∈ p.sections, ∀ e ∈ s.entries, e.item.isEncodable = true := by
    simp only [Program.rename,List.forall_mem_map,Section.encodable_rename]
  constructor
  · intro complete
    refine ⟨texts.mp complete.encodable,?_⟩
    intro i argument member has
    have renamed : .instruction i (argument.map (Argument.rename r)) ∈ (p.rename r).code :=
      Program.mem_code_rename.mpr ⟨argument,member,rfl⟩
    obtain ⟨_,same,value,resolved⟩ := complete.operands i _ renamed has
    obtain ⟨a,rfl,rfl⟩ := Option.map_eq_some_iff.mp same
    exact ⟨a,rfl,value,(distinct.resolve_argument member).mp resolved⟩
  · intro complete
    refine ⟨texts.mpr complete.encodable,?_⟩
    intro i argument renamed has
    obtain ⟨given,member,rfl⟩ := Program.mem_code_rename.mp renamed
    obtain ⟨a,rfl,value,resolved⟩ := complete.operands i given member has
    exact ⟨_,rfl,value,(distinct.resolve_argument member).mpr resolved⟩

theorem wellDeclared (distinct : r.Distinguishes p) : (p.rename r).WellDeclared ↔ p.WellDeclared := by
  have sections : (p.rename r).sectionNames.Nodup ↔ p.sectionNames.Nodup := by
    rw [p.sectionNames_rename]
    exact nodup_renamed distinct.sections
  have data : (p.rename r).dataNames.Nodup ↔ p.dataNames.Nodup := by
    rw [p.dataNames_rename]
    exact nodup_renamed (distinct.data.mono fun _ => .inl)
  have labels : (p.rename r).labelNames.Nodup ↔ p.labelNames.Nodup := by
    rw [p.labelNames_rename]
    exact nodup_renamed (distinct.labels.mono fun _ => .inl)
  have overlaps : checkOverlaps (p.rename r).sections = .ok () ↔ checkOverlaps p.sections = .ok () := by
    rw [checkOverlaps_eq_ok,checkOverlaps_eq_ok,Program.rename,List.pairwise_map]
    simp only [Section.apart_rename]
  constructor
  · intro well
    refine ⟨sections.mp well.sectionNames,data.mp well.dataNames,overlaps.mp well.overlaps,
      labels.mp well.labels,?_⟩
    intro i argument member without
    have renamed : .instruction i (argument.map (Argument.rename r)) ∈ (p.rename r).code :=
      Program.mem_code_rename.mpr ⟨argument,member,rfl⟩
    exact Option.map_eq_none_iff.mp (well.arguments i _ renamed without)
  · intro well
    refine ⟨sections.mpr well.sectionNames,data.mpr well.dataNames,overlaps.mpr well.overlaps,
      labels.mpr well.labels,?_⟩
    intro i argument renamed without
    obtain ⟨given,member,rfl⟩ := Program.mem_code_rename.mp renamed
    rw [well.arguments i given member without]
    rfl

theorem check (distinct : r.Distinguishes p) : (p.rename r).check = .ok () ↔ p.check = .ok () := by
  rw [Program.check_eq_ok,Program.check_eq_ok,Program.checked_iff,Program.checked_iff,distinct.complete,
    distinct.wellDeclared]

end Renaming.Distinguishes

theorem assemble_under_any_names {p : Program} {r : Renaming} (distinct : r.Distinguishes p)
    (image : List Byte) : (p.rename r).assemble = .ok image ↔ p.assemble = .ok image := by
  rw [Program.assemble_eq_ok,Program.assemble_eq_ok,distinct.check,distinct.build]

def plainNames : Program where
  sections := [⟨"table",0x10,[⟨"head",.words [7]⟩,⟨"tail",.bytes [1,2]⟩]⟩]
  code := [.label "start",.instruction .push (some (.label "end")),
    .instruction .push (some (.add (.label "start") (.sub (.data "tail") (.data "head")))),.label "end",
    .instruction .halt none]

-- The section, an entry and a label are all called `x`.
def shareNames : Renaming where
  sections := Equiv.swap "table" "x"
  data := Equiv.swap "head" "x"
  labels := Equiv.swap "start" "x"

def plainNamesImage : List Byte :=
  magic.bytes ++ [0x12,0,0x10,0,4,0] ++ terminator.bytes ++ [0x16,0,7,0] ++ [7,0,1,2] ++
    [0x01,0x1A,0,0x01,0x16,0,0x19]

theorem plainNames_shared :
    plainNames.assemble = .ok plainNamesImage ∧
      plainNames.rename shareNames = ⟨[⟨"x",0x10,[⟨"x",.words [7]⟩,⟨"tail",.bytes [1,2]⟩]⟩],
        [.label "x",.instruction .push (some (.label "end")),
          .instruction .push (some (.add (.label "x") (.sub (.data "tail") (.data "x")))),.label "end",
          .instruction .halt none]⟩ ∧
      (plainNames.rename shareNames).assemble = .ok plainNamesImage := by
  have made : plainNames.assemble = .ok plainNamesImage := rfl
  have distinct : shareNames.Distinguishes plainNames :=
    ⟨(Equiv.injective _).injOn,(Equiv.injective _).injOn,(Equiv.injective _).injOn⟩
  exact ⟨made,rfl,(assemble_under_any_names distinct plainNamesImage).mpr made⟩

end WordMachine
