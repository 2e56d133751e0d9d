import WordMachine.Proofs.Image.Emission

-- References, sums and differences are each cut to a word on the way; what comes out is the integer value cut once. The
-- leftmost reference that is not defined is reported.

namespace WordMachine

inductive Reference where
  | data (name : String)
  | label (name : String)
  deriving DecidableEq, Repr

def Reference.name : Reference → String
  | data name | label name => name

namespace Argument

def references : Argument → List Reference
  | literal _ => []
  | data name => [.data name]
  | label name => [.label name]
  | add left right | sub left right => left.references ++ right.references

def amount (address : Reference → Nat) : Argument → Int
  | literal value => value.toNat
  | data name => address (.data name)
  | label name => address (.label name)
  | add left right => left.amount address + right.amount address
  | sub left right => left.amount address - right.amount address

def FirstWithout (holds : Reference → Prop) (a : Argument) (r : Reference) : Prop :=
  ∃ before after, a.references = before ++ r :: after ∧ (∀ other ∈ before, holds other) ∧ ¬holds r

end Argument

namespace DefinedNames

def Has (names : DefinedNames) : Reference → Prop
  | .data name => name ∈ names.data
  | .label name => name ∈ names.labels

instance (names : DefinedNames) : DecidablePred names.Has
  | .data name => inferInstanceAs (Decidable (name ∈ names.data))
  | .label name => inferInstanceAs (Decidable (name ∈ names.labels))

end DefinedNames

theorem forM_require {α : Type} (holds : α → Prop) [DecidablePred holds] (report : α → Fault) (items : List α) :
    (items.forM fun a => require (holds a) (report a)) =
      (items.find? fun a => ¬holds a).elim (.ok ()) fun a => .error (report a) := by
  induction items with
  | nil => rfl
  | cons a rest ih =>
    change (require (holds a) (report a) >>= fun _ => rest.forM _) = _
    by_cases this : holds a
    · rw [require,if_pos this,List.find?_cons_of_neg (by simpa using this),← ih]
      rfl
    · rw [require,if_neg this,List.find?_cons_of_pos (by simpa using this)]
      rfl

namespace Argument

variable {names : DefinedNames} {a : Argument} {fault : Fault}

theorem checkReferences_eq (names : DefinedNames) (a : Argument) :
    a.checkReferences names =
      a.references.forM fun r => require (names.Has r) (.unresolvedSymbol r.name) := by
  have alone : ∀ r : Reference, ([r].forM fun r => require (names.Has r) (.unresolvedSymbol r.name)) =
      require (names.Has r) (.unresolvedSymbol r.name) := by
    intro r
    change (require (names.Has r) (.unresolvedSymbol r.name) >>= fun _ => pure ()) = _
    unfold require
    split <;> rfl
  induction a with
  | literal value => rfl
  | data name => exact (alone (.data name)).symm
  | label name => exact (alone (.label name)).symm
  | add left right ihl ihr | sub left right ihl ihr =>
    rw [checkReferences,references,ihl,ihr]
    exact List.forM_append.symm

theorem firstWithout_iff {r : Reference} :
    (a.references.find? fun r => ¬names.Has r) = some r ↔ a.FirstWithout names.Has r := by
  simp only [List.find?_eq_some_iff_append,FirstWithout,decide_not,Bool.not_not,decide_eq_true_eq,
    Bool.not_eq_true',decide_eq_false_iff_not]
  constructor
  · intro found
    obtain ⟨lacks,before,after,references,defined⟩ := found
    exact ⟨before,after,references,defined,lacks⟩
  · intro first
    obtain ⟨before,after,references,defined,lacks⟩ := first
    exact ⟨lacks,before,after,references,defined⟩

theorem checkReferences_eq_error : a.checkReferences names = .error fault ↔
    ∃ r, a.FirstWithout names.Has r ∧ fault = .unresolvedSymbol r.name := by
  rw [checkReferences_eq,forM_require]
  simp only [← firstWithout_iff]
  cases a.references.find? fun r => ¬names.Has r with
  | none => simp
  | some r => simp [eq_comm]

theorem checkReferences_eq_ok :
    a.checkReferences names = .ok () ↔ ∀ r ∈ a.references, names.Has r := by
  rw [checkReferences_eq,Success.forM_eq_ok]
  simp only [require_eq_ok_iff]

end Argument

namespace Program

variable {p : Program} {a : Argument} {r : Reference} {names : DefinedNames}

def Defines (p : Program) : Reference → Prop
  | .data name => ∃ s ∈ p.sections, ∃ e ∈ s.entries, e.name = name
  | .label name => .label name ∈ p.code

-- The address may lie past the end of memory.
def LeadsTo (p : Program) : Reference → Nat → Prop
  | .data name,address => p.LastEntryAt name address
  | .label name,address => p.LastLabelAt name address

def Locates (p : Program) (a : Argument) (address : Reference → Nat) : Prop :=
  ∀ r ∈ a.references, p.LeadsTo r (address r)

def tableNames (p : Program) : DefinedNames := ⟨Symbols.names p.symbols.data,Symbols.names p.symbols.labels⟩

theorem tableNames_has (p : Program) (r : Reference) : p.tableNames.Has r ↔ p.Defines r := by
  unfold tableNames
  rw [names_data,names_labels]
  cases r with
  | data name => simp [Defines,DefinedNames.Has,dataNames,Section.dataNames]
  | label name =>
    have labelled : ∀ element : CodeElement, element.label? = some name ↔ element = .label name := by
      intro element
      cases element <;> simp [CodeElement.label?]
    simp [Defines,DefinedNames.Has,labelNames,labelled]

theorem exists_leadsTo (defined : p.Defines r) : ∃ address, p.LeadsTo r address := by
  have listed := (p.tableNames_has r).mpr defined
  cases r with
  | data name =>
    obtain ⟨address,found⟩ := Option.isSome_iff_exists.mp (Symbols.mem_names.mp listed)
    exact ⟨address,dataAddress_iff.mp found⟩
  | label name =>
    obtain ⟨place,found⟩ := Option.isSome_iff_exists.mp (Symbols.mem_names.mp listed)
    exact ⟨_,labelAddress_iff.mp (congrArg (Option.map _) found)⟩

theorem exists_locates (defined : ∀ r ∈ a.references, p.Defines r) : ∃ address, p.Locates a address := by
  have led : ∀ r, ∃ address, r ∈ a.references → p.LeadsTo r address := by
    intro r
    by_cases member : r ∈ a.references
    · obtain ⟨address,leads⟩ := exists_leadsTo (defined r member)
      exact ⟨address,fun _ => leads⟩
    · exact ⟨0,fun within => absurd within member⟩
  exact Classical.axiomOfChoice led

-- Reduction goes through sums and differences, so it does not matter how often it is done on the way.
theorem resolve_amount {address : Reference → Nat} (leads : p.Locates a address) :
    ∃ value, a.resolve p.symbols = .ok value ∧ (value.toNat : Int) = a.amount address % 65536 := by
  induction a with
  | literal value =>
    have small := value.toNat_lt
    refine ⟨value,rfl,?_⟩
    simp only [Argument.amount]
    omega
  | data name =>
    have leads : p.LastEntryAt name (address (.data name)) := leads (.data name) List.mem_cons_self
    refine ⟨_,Symbols.reference_eq_ok.mpr ⟨_,dataAddress_iff.mpr leads,rfl⟩,?_⟩
    simp [Argument.amount]
  | label name =>
    have leads : p.LastLabelAt name (address (.label name)) := leads (.label name) List.mem_cons_self
    refine ⟨_,Symbols.reference_eq_ok.mpr ⟨_,labelAddress_iff.mpr leads,rfl⟩,?_⟩
    simp [Argument.amount]
  | add left right ihl ihr =>
    obtain ⟨l,first,lower⟩ := ihl fun r member => leads r (List.mem_append_left _ member)
    obtain ⟨r,second,upper⟩ := ihr fun r member => leads r (List.mem_append_right _ member)
    refine ⟨l + r,?_,?_⟩
    · rw [Argument.resolve,first,second]
      rfl
    · rw [UInt16.toNat_add,Argument.amount]
      omega
  | sub left right ihl ihr =>
    obtain ⟨l,first,lower⟩ := ihl fun r member => leads r (List.mem_append_left _ member)
    obtain ⟨r,second,upper⟩ := ihr fun r member => leads r (List.mem_append_right _ member)
    refine ⟨l - r,?_,?_⟩
    · rw [Argument.resolve,first,second]
      rfl
    · have small := r.toNat_lt
      rw [UInt16.toNat_sub,Argument.amount]
      omega

theorem resolves_iff_defined :
    (∃ value, a.resolve p.symbols = .ok value) ↔ ∀ r ∈ a.references, p.Defines r := by
  simp only [← tableNames_has,← Argument.checkReferences_eq_ok]
  rw [tableNames,← Argument.resolve_checks]
  cases a.resolve p.symbols <;> simp [Except.map]

theorem resolve_eq_error {fault : Fault} (same : ∀ r, names.Has r ↔ p.Defines r) :
    a.resolve p.symbols = .error fault ↔ a.checkReferences names = .error fault := by
  have alike : names.Has = p.tableNames.Has := by
    funext r
    rw [same,tableNames_has]
  rw [Argument.checkReferences_eq_error,alike,← Argument.checkReferences_eq_error,tableNames,
    ← Argument.resolve_checks]
  cases a.resolve p.symbols <;> simp [Except.map]

end Program

theorem argument_resolved_exactly (p : Program) (a : Argument) :
    (∀ draft, p.draft = .ok draft → (⟨p.codeBase,draft.labels,p.dataTable⟩ : Symbols) = p.symbols) ∧
    ((∃ value, a.resolve p.symbols = .ok value) ↔ ∀ r ∈ a.references, p.Defines r) ∧
    (∀ value, a.resolve p.symbols = .ok value → (∃ address, p.Locates a address) ∧
      ∀ address, p.Locates a address → (value.toNat : Int) = a.amount address % 65536) ∧
    (∀ fault, a.resolve p.symbols = .error fault ↔
      ∃ r, a.FirstWithout p.Defines r ∧ fault = .unresolvedSymbol r.name) ∧
    ∀ names : DefinedNames, (∀ r, names.Has r ↔ p.Defines r) →
      ∀ fault, a.checkReferences names = .error fault ↔ a.resolve p.symbols = .error fault := by
  refine ⟨fun _ => Program.symbols_of_draft,Program.resolves_iff_defined,?_,?_,?_⟩
  · intro value resolved
    refine ⟨Program.exists_locates (Program.resolves_iff_defined.mp ⟨value,resolved⟩),?_⟩
    intro address leads
    obtain ⟨other,also,reduced⟩ := Program.resolve_amount leads
    cases resolved.symm.trans also
    exact reduced
  · intro fault
    have listed : p.tableNames.Has = p.Defines := funext fun r => propext (p.tableNames_has r)
    rw [Program.resolve_eq_error p.tableNames_has,Argument.checkReferences_eq_error,listed]
  · intro names same fault
    exact (Program.resolve_eq_error same).symm

def farBelow : Argument := .sub (.literal 1) (.add (.label "end") (.data "x"))

-- The code goes up to the end of memory, so the label lies past it.
def brimming : Program where
  sections := [⟨"s",0xFFF0,[⟨"x",.reserve 13⟩]⟩]
  code := [.instruction .push (some farBelow),.label "end"]

def brimmingImage : List Byte :=
  magic.bytes ++ [0x12,0,0xF0,0xFF,13,0] ++ terminator.bytes ++ [0x1F,0,3,0] ++
    List.replicate 13 0 ++ [0x01,0x11,0]

def lacking : Argument := .add (.sub (.data "x") (.data "end")) (.label "nowhere")

theorem brimming_resolved :
    brimming.assemble = .ok brimmingImage ∧ farBelow.resolve brimming.symbols = .ok 0x11 ∧
      (∀ address, brimming.Locates farBelow address → farBelow.amount address % 65536 = 0x11) ∧
      (∃ address, brimming.Locates farBelow address) ∧
      lacking.resolve brimming.symbols = .error (.unresolvedSymbol "end") ∧
      lacking.checkReferences ⟨["x"],["end"]⟩ = .error (.unresolvedSymbol "end") := by
  have resolved : farBelow.resolve brimming.symbols = .ok 0x11 := rfl
  obtain ⟨_,_,value,_,_⟩ := argument_resolved_exactly brimming farBelow
  obtain ⟨_,_,_,reported,checked⟩ := argument_resolved_exactly brimming lacking
  obtain ⟨placed,amount⟩ := value 0x11 resolved
  have undefined : lacking.FirstWithout brimming.Defines (.data "end") := by
    refine ⟨[.data "x"],[.label "nowhere"],rfl,?_,?_⟩
    · simp [Program.Defines,brimming]
    · simp [Program.Defines,brimming]
  have fails := (reported (.unresolvedSymbol "end")).mpr ⟨_,undefined,rfl⟩
  refine ⟨rfl,resolved,fun address located => (amount address located).symm,placed,fails,?_⟩
  apply (checked ⟨["x"],["end"]⟩ ?_ _).mpr fails
  intro r
  cases r <;> simp [DefinedNames.Has,Program.Defines,brimming,eq_comm]

end WordMachine
