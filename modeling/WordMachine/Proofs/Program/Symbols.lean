import WordMachine.Program.Symbols
import WordMachine.Proofs.Program.Checked

-- The address a name stands for is where its last definition is. In a program that passes its check
-- that is its only definition, so what an argument denotes can be said without a table.

namespace WordMachine

open Success

theorem split_at_last {α : Type} {P : α → Prop} {items : List α} (some : ∃ a ∈ items, P a) :
    ∃ before a after, items = before ++ a :: after ∧ P a ∧ ∀ b ∈ after, ¬P b := by
  induction items with
  | nil => simp at some
  | cons a rest ih =>
    by_cases later : ∃ b ∈ rest, P b
    · obtain ⟨before,b,after,rfl,holds,last⟩ := ih later
      exact ⟨a :: before,b,after,rfl,holds,last⟩
    · have none : ∀ b ∈ rest, ¬P b := fun b member holds => later ⟨b,member,holds⟩
      obtain ⟨b,member,holds⟩ := some
      rcases List.mem_cons.mp member with rfl | member
      · exact ⟨[],b,rest,rfl,holds,none⟩
      · exact absurd holds (none b member)

def Entry.sizes (entries : List Entry) : Nat := totalSize (entries.map (·.item.size))

def CodeElement.sizes (code : List CodeElement) : Nat := totalSize (code.map CodeElement.size)

namespace Symbols

def defineLabels (place : Nat) (table : List (String × Nat)) :
    List CodeElement → List (String × Nat)
  | [] => table
  | .label name :: rest => defineLabels place ((name,place) :: table) rest
  | .instruction i _ :: rest => defineLabels (place + i.size) table rest

variable {table : List (String × Nat)} {address : Nat} {name : String}

theorem defineLabels_append (before after : List CodeElement) :
    defineLabels address table (before ++ after) =
      defineLabels (address + CodeElement.sizes before) (defineLabels address table before) after := by
  induction before generalizing address table with
  | nil => rfl
  | cons element rest ih =>
    cases element with
    | label name => simp [defineLabels,ih,CodeElement.sizes,CodeElement.size]
    | instruction i argument =>
      simp [defineLabels,ih,CodeElement.sizes,CodeElement.size,Nat.add_assoc]

theorem lookup_defineLabels_absent {code : List CodeElement} (absent : .label name ∉ code) :
    (defineLabels address table code).lookup name = table.lookup name := by
  induction code generalizing address table with
  | nil => rfl
  | cons element rest ih =>
    obtain ⟨this,others⟩ := not_or.mp (mt List.mem_cons.mpr absent)
    cases element with
    | label other =>
      have apart : (name == other) = false := by simpa using this
      rw [defineLabels,ih others,List.lookup_cons,apart]
    | instruction i argument => exact ih others

theorem lookup_defineLabels {before after : List CodeElement} (last : .label name ∉ after) :
    (defineLabels address table (before ++ .label name :: after)).lookup name =
      some (address + CodeElement.sizes before) := by
  rw [defineLabels_append,defineLabels,lookup_defineLabels_absent last,List.lookup_cons_self]

theorem defineEntries_append (before after : List Entry) :
    defineEntries address table (before ++ after) =
      defineEntries (address + Entry.sizes before) (defineEntries address table before) after := by
  induction before generalizing address table with
  | nil => rfl
  | cons e rest ih => simp [defineEntries,ih,Entry.sizes,Nat.add_assoc]

theorem lookup_defineEntries_absent {entries : List Entry}
    (absent : ∀ e ∈ entries, e.name ≠ name) :
    (defineEntries address table entries).lookup name = table.lookup name := by
  induction entries generalizing address table with
  | nil => rfl
  | cons e rest ih =>
    obtain ⟨this,others⟩ := List.forall_mem_cons.mp absent
    have apart : (name == e.name) = false := by simpa using this.symm
    rw [defineEntries,ih others,List.lookup_cons,apart]

theorem lookup_defineSections_absent {sections : List Section}
    (absent : ∀ s ∈ sections, ∀ e ∈ s.entries, e.name ≠ name) :
    (sections.foldl defineSection table).lookup name = table.lookup name := by
  induction sections generalizing table with
  | nil => rfl
  | cons s rest ih =>
    obtain ⟨this,others⟩ := List.forall_mem_cons.mp absent
    rw [List.foldl_cons,ih others,defineSection,lookup_defineEntries_absent this]

theorem lookup_defineSections {earlier later : List Section} {s : Section} {before after : List Entry}
    {e : Entry} (entries : s.entries = before ++ e :: after) (last : ∀ other ∈ after, other.name ≠ e.name)
    (absent : ∀ t ∈ later, ∀ other ∈ t.entries, other.name ≠ e.name) :
    ((earlier ++ s :: later).foldl defineSection table).lookup e.name =
      some (s.base.toNat + Entry.sizes before) := by
  rw [List.foldl_append,List.foldl_cons,lookup_defineSections_absent absent,defineSection,entries,
    defineEntries_append,defineEntries,lookup_defineEntries_absent last,List.lookup_cons_self]

theorem reference_eq_ok {address? : Option Nat} {value : Word} :
    reference name address? = .ok value ↔ ∃ address, address? = some address ∧ UInt16.ofNat address = value := by
  cases address? with
  | some address => simp [reference]
  | none => simp [reference]

end Symbols

namespace Argument

variable {label data : String → Nat → Prop} {a : Argument} {value : Word}

inductive Valued (label data : String → Nat → Prop) : Argument → Word → Prop where
  | literal {value : Word} : Valued label data (.literal value) value
  | label {name : String} {address : Nat} :
      label name address → Valued label data (.label name) (UInt16.ofNat address)
  | data {name : String} {address : Nat} :
      data name address → Valued label data (.data name) (UInt16.ofNat address)
  | add {left right : Argument} {l r : Word} : Valued label data left l → Valued label data right r →
      Valued label data (.add left right) (l + r)
  | sub {left right : Argument} {l r : Word} : Valued label data left l → Valued label data right r →
      Valued label data (.sub left right) (l - r)

theorem Valued.mono {wider further : String → Nat → Prop} (valued : Valued label data a value)
    (labels : ∀ name address, label name address → wider name address)
    (entries : ∀ name address, data name address → further name address) : Valued wider further a value := by
  induction valued with
  | literal => exact .literal
  | label located => exact .label (labels _ _ located)
  | data located => exact .data (entries _ _ located)
  | add _ _ left right => exact .add left right
  | sub _ _ left right => exact .sub left right

theorem resolve_valued {symbols : Symbols} :
    a.resolve symbols = .ok value ↔ Valued (fun name address => symbols.labelAddress? name = some address)
      (fun name address => symbols.dataAddress? name = some address) a value := by
  constructor
  · intro resolved
    induction a generalizing value with
    | literal given =>
      cases resolved
      exact .literal
    | label name =>
      obtain ⟨address,found,rfl⟩ := Symbols.reference_eq_ok.mp resolved
      exact .label found
    | data name =>
      obtain ⟨address,found,rfl⟩ := Symbols.reference_eq_ok.mp resolved
      exact .data found
    | add left right ihl ihr | sub left right ihl ihr =>
      obtain ⟨l,first,rest⟩ := bind_eq_ok.mp resolved
      obtain ⟨r,second,same⟩ := bind_eq_ok.mp rest
      cases same
      constructor
      · exact ihl first
      · exact ihr second
  · intro valued
    induction valued with
    | literal => rfl
    | label found => exact Symbols.reference_eq_ok.mpr ⟨_,found,rfl⟩
    | data found => exact Symbols.reference_eq_ok.mpr ⟨_,found,rfl⟩
    | add _ _ left right | sub _ _ left right =>
      rw [resolve,left,right]
      rfl

end Argument

-- The tables once all of the code has been gone through; `symbols_of_draft` says that the builder has them too.
def Program.symbols (p : Program) : Symbols where
  codeBase := p.codeBase
  labels := Symbols.defineLabels 0 [] p.code
  data := p.dataTable

namespace Program

variable {p : Program} {name : String} {address : Nat} {e : Entry}

-- Addresses are not reduced to words here.
def LabelAt (p : Program) (name : String) (address : Nat) : Prop :=
  ∃ before after, p.code = before ++ .label name :: after ∧
    address = p.codeBase + CodeElement.sizes before

def EntryAt (p : Program) (e : Entry) (address : Nat) : Prop :=
  ∃ s ∈ p.sections, ∃ before after, s.entries = before ++ e :: after ∧
    address = s.base.toNat + Entry.sizes before

def LastLabelAt (p : Program) (name : String) (address : Nat) : Prop :=
  ∃ before after, p.code = before ++ .label name :: after ∧ .label name ∉ after ∧
    address = p.codeBase + CodeElement.sizes before

def LastEntryAt (p : Program) (name : String) (address : Nat) : Prop :=
  ∃ earlier s later before e after, p.sections = earlier ++ s :: later ∧
    s.entries = before ++ e :: after ∧ e.name = name ∧ (∀ other ∈ after, other.name ≠ name) ∧
    (∀ t ∈ later, ∀ other ∈ t.entries, other.name ≠ name) ∧ address = s.base.toNat + Entry.sizes before

theorem labelAddress_iff : p.symbols.labelAddress? name = some address ↔ p.LastLabelAt name address := by
  rw [Symbols.labelAddress?,symbols]
  constructor
  · intro found
    by_cases defined : ∃ element ∈ p.code, element = .label name
    · obtain ⟨before,_,after,code,rfl,last⟩ := split_at_last defined
      have absent : .label name ∉ after := fun member => last _ member rfl
      rw [code,Symbols.lookup_defineLabels absent,Nat.zero_add] at found
      cases found
      exact ⟨before,after,code,absent,rfl⟩
    · have absent : .label name ∉ p.code := fun member => defined ⟨_,member,rfl⟩
      rw [Symbols.lookup_defineLabels_absent absent] at found
      cases found
  · intro located
    obtain ⟨before,after,code,last,rfl⟩ := located
    rw [code,Symbols.lookup_defineLabels last,Nat.zero_add]
    rfl

theorem dataAddress_iff : p.symbols.dataAddress? name = some address ↔ p.LastEntryAt name address := by
  rw [Symbols.dataAddress?,symbols,dataTable]
  constructor
  · intro found
    by_cases defined : ∃ s ∈ p.sections, ∃ e ∈ s.entries, e.name = name
    · obtain ⟨earlier,s,later,sections,named,lastSection⟩ := split_at_last defined
      obtain ⟨before,e,after,entries,rfl,last⟩ := split_at_last named
      have absent : ∀ t ∈ later, ∀ other ∈ t.entries, other.name ≠ e.name :=
        fun t member other within same => lastSection t member ⟨other,within,same⟩
      rw [sections,Symbols.lookup_defineSections entries last absent] at found
      cases found
      exact ⟨earlier,s,later,before,e,after,sections,entries,rfl,last,absent,rfl⟩
    · have absent : ∀ s ∈ p.sections, ∀ e ∈ s.entries, e.name ≠ name :=
        fun s member e within same => defined ⟨s,member,e,within,same⟩
      rw [Symbols.lookup_defineSections_absent absent] at found
      cases found
  · intro located
    obtain ⟨earlier,s,later,before,e,after,sections,entries,rfl,last,absent,rfl⟩ := located
    rw [sections,Symbols.lookup_defineSections entries last absent]

theorem LabelAt.found (located : p.LabelAt name address) (distinct : p.labelNames.Nodup) :
    p.symbols.labelAddress? name = some address := by
  obtain ⟨before,after,code,rfl⟩ := located
  have last : .label name ∉ after := by
    intro member
    have again : name ∈ after.filterMap CodeElement.label? := List.mem_filterMap.mpr ⟨_,member,rfl⟩
    rw [labelNames,code,List.filterMap_append] at distinct
    have onward : (name :: after.filterMap CodeElement.label?).Nodup := (List.nodup_append.mp distinct).2.1
    exact (List.nodup_cons.mp onward).1 again
  exact labelAddress_iff.mpr ⟨before,after,code,last,rfl⟩

theorem EntryAt.found (located : p.EntryAt e address) (distinct : p.dataNames.Nodup) :
    p.symbols.dataAddress? e.name = some address := by
  obtain ⟨s,member,before,after,entries,rfl⟩ := located
  obtain ⟨earlier,later,sections⟩ := List.append_of_mem member
  rw [dataNames,sections,List.flatMap_append,List.flatMap_cons,Section.dataNames,entries,List.map_append,
    List.map_cons,List.append_assoc] at distinct
  -- The names after this one: of the entries that follow in its section, and of the sections that follow.
  have onward := (List.nodup_append.mp (List.nodup_append.mp distinct).2.1).2.1
  obtain ⟨fresh,_⟩ := List.nodup_cons.mp onward
  have last : ∀ other ∈ after, other.name ≠ e.name := by
    intro other within same
    exact fresh (List.mem_append_left _ (List.mem_map.mpr ⟨other,within,same⟩))
  have absent : ∀ t ∈ later, ∀ other ∈ t.entries, other.name ≠ e.name := by
    intro t within other inside same
    have named : e.name ∈ t.dataNames := List.mem_map.mpr ⟨other,inside,same⟩
    exact fresh (List.mem_append_right _ (List.mem_flatMap.mpr ⟨t,within,named⟩))
  exact dataAddress_iff.mpr ⟨earlier,s,later,before,e,after,sections,entries,rfl,last,absent,rfl⟩

-- The value of an argument from the definitions themselves, any of them that go by the name.
def Denotes (p : Program) : Argument → Word → Prop :=
  Argument.Valued p.LabelAt fun name address => ∃ e, e.name = name ∧ p.EntryAt e address

def Evaluates (p : Program) : Argument → Word → Prop := Argument.Valued p.LastLabelAt p.LastEntryAt

theorem Denotes.resolve {a : Argument} {value : Word} (denotes : p.Denotes a value)
    (checked : p.Checked) : a.resolve p.symbols = .ok value := by
  apply Argument.resolve_valued.mpr
  apply Argument.Valued.mono denotes
  · intro name address located
    exact located.found checked.labels
  · intro name address located
    obtain ⟨e,rfl,located⟩ := located
    exact located.found checked.dataNames

theorem resolve_eq_ok {a : Argument} {value : Word} :
    a.resolve p.symbols = .ok value ↔ p.Evaluates a value := by
  rw [Argument.resolve_valued]
  simp only [labelAddress_iff,dataAddress_iff]
  rfl

theorem Evaluates.unique {a : Argument} {value other : Word} (evaluates : p.Evaluates a value)
    (also : p.Evaluates a other) : other = value := by
  have same := (resolve_eq_ok.mpr evaluates).symm.trans (resolve_eq_ok.mpr also)
  exact (Except.ok.inj same).symm

theorem Evaluates.denotes {a : Argument} {value : Word} (evaluates : p.Evaluates a value) :
    p.Denotes a value := by
  apply Argument.Valued.mono evaluates
  · intro name address located
    obtain ⟨before,after,code,_,rfl⟩ := located
    exact ⟨before,after,code,rfl⟩
  · intro name address located
    obtain ⟨earlier,s,later,before,e,after,sections,entries,named,_,_,rfl⟩ := located
    exact ⟨e,named,s,sections ▸ List.mem_append_cons_self,before,after,entries,rfl⟩

theorem denotes_of_resolve {a : Argument} {value : Word} (resolved : a.resolve p.symbols = .ok value) :
    p.Denotes a value := (resolve_eq_ok.mp resolved).denotes

theorem Denotes.unique {a : Argument} {value other : Word} (denotes : p.Denotes a value)
    (also : p.Denotes a other) (checked : p.Checked) : other = value := by
  have same := (denotes.resolve checked).symm.trans (also.resolve checked)
  exact (Except.ok.inj same).symm

end Program

namespace Symbols

variable {table : List (String × Nat)} {address : Nat}

def names (table : List (String × Nat)) : List String := table.map (·.1)

theorem names_defineLabels (code : List CodeElement) :
    names (defineLabels address table code) =
      (code.filterMap CodeElement.label?).reverse ++ names table := by
  induction code generalizing address table with
  | nil => rfl
  | cons element rest ih =>
    cases element with
    | label name =>
      have named : CodeElement.label? (.label name) = some name := rfl
      rw [defineLabels,ih,List.filterMap_cons_some named]
      simp [names]
    | instruction i argument =>
      rw [defineLabels,ih]
      rfl

theorem names_defineEntries (entries : List Entry) :
    names (defineEntries address table entries) = (entries.map (·.name)).reverse ++ names table := by
  induction entries generalizing address table with
  | nil => rfl
  | cons e rest ih =>
    rw [defineEntries,ih]
    simp [names]

theorem names_defineSections (sections : List Section) :
    names (sections.foldl defineSection table) =
      (sections.flatMap Section.dataNames).reverse ++ names table := by
  induction sections generalizing table with
  | nil => rfl
  | cons s rest ih =>
    rw [List.foldl_cons,ih,defineSection,names_defineEntries]
    simp [Section.dataNames]

theorem mem_names {name : String} : name ∈ names table ↔ (table.lookup name).isSome = true := by
  rw [List.lookup_isSome_iff]
  constructor
  · intro member
    obtain ⟨entry,within,rfl⟩ := List.mem_map.mp member
    exact ⟨entry,within,beq_self_eq_true _⟩
  · intro found
    obtain ⟨entry,within,same⟩ := found
    exact List.mem_map.mpr ⟨entry,within,(beq_iff_eq.mp same).symm⟩

theorem reference_checks {address? : Option Nat} {name : String}
    (same : address?.isSome = (table.lookup name).isSome) :
    (reference name address?).map (fun _ => ()) = require (name ∈ names table) (.unresolvedSymbol name) := by
  unfold require
  simp only [mem_names,← same]
  cases address? with
  | some address => rfl
  | none => rfl

end Symbols

-- If one of them fails, the other one reports the same symbol.
theorem Argument.resolve_checks (symbols : Symbols) (a : Argument) :
    (a.resolve symbols).map (fun _ => ()) =
      a.checkReferences ⟨Symbols.names symbols.data,Symbols.names symbols.labels⟩ := by
  induction a with
  | literal value => rfl
  | data name => exact Symbols.reference_checks rfl
  | label name => exact Symbols.reference_checks Option.isSome_map
  | add left right ihl ihr | sub left right ihl ihr =>
    unfold resolve checkReferences
    rw [← ihl,← ihr]
    cases left.resolve symbols with
    | error fault => rfl
    | ok l => cases right.resolve symbols <;> rfl

namespace Program

theorem names_data (p : Program) : Symbols.names p.symbols.data = p.dataNames.reverse := by
  unfold symbols dataTable dataNames
  rw [Symbols.names_defineSections]
  simp [Symbols.names]

theorem names_labels (p : Program) : Symbols.names p.symbols.labels = p.labelNames.reverse := by
  unfold symbols labelNames
  rw [Symbols.names_defineLabels]
  simp [Symbols.names]

theorem resolves_iff {p : Program} {a : Argument} :
    (∃ value, a.resolve p.symbols = .ok value) ↔
      a.checkReferences ⟨p.dataNames.reverse,p.labelNames.reverse⟩ = .ok () := by
  rw [← names_data,← names_labels,← Argument.resolve_checks]
  cases a.resolve p.symbols <;> simp [Except.map]

end Program

end WordMachine
