import WordMachine.Proofs.Failure
import WordMachine.Proofs.Image.Layout
import WordMachine.Proofs.Program.Symbols

-- One gathers names and looks them up while it walks the arguments, the other fills tables and resolves. A program
-- that passes the one can only fail the other for what the other alone looks for.

namespace WordMachine

open Success

-- What only the builder looks for: whether the image can be laid out.
inductive Fault.OfLayout : Fault → Prop where
  | tooLarge (size : Nat) : OfLayout (.imageTooLarge size)
  | ambiguous (name : String) : OfLayout (.ambiguousDescriptor name)

-- What only the check looks for: whether the declarations go together.
inductive Fault.OfDeclaration : Fault → Prop where
  | duplicate (name : String) : OfDeclaration (.duplicateSymbol name)
  | overlap (first second : String) : OfDeclaration (.overlappingSections first second)
  | unexpected (mnemonic : String) : OfDeclaration (.unexpectedArgument mnemonic)

namespace Program

variable {p : Program}

structure Complete (p : Program) : Prop where
  encodable : ∀ s ∈ p.sections, ∀ e ∈ s.entries, e.item.isEncodable = true
  operands : ∀ i argument, .instruction i argument ∈ p.code → i.hasOperand = true →
    ∃ a, argument = some a ∧ ∃ value, a.resolve p.symbols = .ok value

structure WellDeclared (p : Program) : Prop where
  sectionNames : p.sectionNames.Nodup
  dataNames : p.dataNames.Nodup
  overlaps : checkOverlaps p.sections = .ok ()
  labels : p.labelNames.Nodup
  arguments : ∀ i argument, .instruction i argument ∈ p.code → i.hasOperand = false → argument = none

theorem checked_iff : p.Checked ↔ p.Complete ∧ p.WellDeclared := by
  constructor
  · intro checked
    refine ⟨⟨checked.encodable,?_⟩,checked.sectionNames,checked.dataNames,checked.overlaps,checked.labels,?_⟩
    · intro i argument member has
      obtain ⟨present,defined⟩ := CodeElement.checkArgument_eq_ok.mp (checked.arguments _ member)
      rw [has] at present
      obtain ⟨a,given⟩ := Option.isSome_iff_exists.mp present
      exact ⟨a,given,resolves_iff.mpr (defined a given)⟩
    · intro i argument member without
      obtain ⟨present,_⟩ := CodeElement.checkArgument_eq_ok.mp (checked.arguments _ member)
      rw [without] at present
      exact Option.isSome_eq_false_iff.mp present |> Option.isNone_iff_eq_none.mp
  · intro both
    obtain ⟨complete,declared⟩ := both
    refine ⟨declared.sectionNames,declared.dataNames,complete.encodable,declared.overlaps,declared.labels,?_⟩
    intro element member
    cases element with
    | label name => rfl
    | instruction i argument =>
      apply CodeElement.checkArgument_eq_ok.mpr
      cases has : i.hasOperand with
      | true =>
        obtain ⟨a,rfl,resolved⟩ := complete.operands i argument member has
        refine ⟨rfl,?_⟩
        intro other same
        cases same
        exact resolves_iff.mp resolved
      | false =>
        rw [declared.arguments i argument member has]
        exact ⟨rfl,by simp⟩

end Program

theorem fitWord_failsOnly (n : Nat) : FailsOnly Fault.OfLayout (fitWord n) := by
  unfold fitWord
  split
  · exact .ok _
  · exact .error (.tooLarge n)

theorem defineName_failsOnly (seen : List String) (name : String) :
    FailsOnly Fault.OfDeclaration (defineName seen name) := by
  unfold defineName
  split
  · exact .error (.duplicate name)
  · exact .ok _

theorem Section.place_failsOnly {s : Section} (encodable : ∀ e ∈ s.entries, e.item.isEncodable = true)
    (start : Nat) : FailsOnly Fault.OfLayout (s.place start) := by
  have texts : FailsOnly Fault.OfLayout
      (s.entries.forM fun e => require (e.item.isEncodable = true) (.nonAsciiText e.name)) :=
    .forM fun e member => .of_require fun broken => absurd (encodable e member) broken
  unfold place
  refine texts.andThen fun _ _ => ?_
  refine FailsOnly.andThen (.of_require fun _ => .tooLarge s.stop) fun _ _ => ?_
  refine (fitWord_failsOnly start).andThen fun filePointer _ => ?_
  refine (fitWord_failsOnly s.size).andThen fun byteLength _ => ?_
  refine FailsOnly.andThen (.of_require fun _ => .ambiguous s.name) fun _ _ => ?_
  exact .ok _

theorem placeSections_failsOnly {sections : List Section}
    (encodable : ∀ s ∈ sections, ∀ e ∈ s.entries, e.item.isEncodable = true) (start : Nat) :
    FailsOnly Fault.OfLayout (placeSections start sections) := by
  induction sections generalizing start with
  | nil => exact .ok []
  | cons s rest ih =>
    obtain ⟨this,others⟩ := List.forall_mem_cons.mp encodable
    unfold placeSections
    refine (s.place_failsOnly this start).andThen fun d _ => ?_
    exact (ih others (start + s.size)).andThen fun ds _ => .ok (d :: ds)

theorem Section.check_failsOnly {s : Section} (encodable : ∀ e ∈ s.entries, e.item.isEncodable = true)
    (seen : SectionNames) : FailsOnly Fault.OfDeclaration (s.check seen) := by
  have entries : ∀ seen, ∀ e ∈ s.entries, FailsOnly Fault.OfDeclaration (Entry.check seen e) := by
    intro seen e member
    unfold Entry.check
    refine (defineName_failsOnly seen e.name).andThen fun next _ => ?_
    refine FailsOnly.andThen (.of_require ?_) fun _ _ => .ok next
    intro broken
    exact absurd (encodable e member) broken
  unfold Section.check
  refine (defineName_failsOnly seen.sections s.name).andThen fun names _ => ?_
  exact (FailsOnly.foldlM entries seen.data).andThen fun data _ => .ok _

theorem checkNeighbours_failsOnly (sections : List Section) :
    FailsOnly Fault.OfDeclaration (checkNeighbours sections) := by
  induction sections with
  | nil => exact .ok ()
  | cons s rest ih =>
    cases rest with
    | nil => exact .ok ()
    | cons t others =>
      unfold checkNeighbours
      exact FailsOnly.andThen (.of_require fun _ => .overlap s.name t.name) fun _ _ => ih

namespace Program.Complete

variable {p : Program}

theorem emits (complete : p.Complete) {element : CodeElement} (member : element ∈ p.code) :
    element.checkOperand = .ok () ∧ ∃ bytes, element.emit p.symbols = .ok bytes := by
  cases element with
  | label name => exact ⟨rfl,[],rfl⟩
  | instruction i argument =>
    cases has : i.hasOperand with
    | false => exact ⟨by simp [CodeElement.checkOperand,has],by simp [CodeElement.emit,has]⟩
    | true =>
      obtain ⟨a,rfl,value,resolved⟩ := complete.operands i argument member has
      refine ⟨by simp [CodeElement.checkOperand],i.opcode :: Word.bytes value,?_⟩
      simp only [CodeElement.emit,has,if_true,resolved]
      rfl

theorem build (complete : p.Complete) : FailsOnly Fault.OfLayout p.build := by
  rw [Program.build_eq]
  refine (placeSections_failsOnly complete.encodable p.headerSize).andThen fun sections _ => ?_
  refine FailsOnly.andThen (.forM fun element member => .of_ok (complete.emits member).1) fun _ _ => ?_
  refine FailsOnly.andThen (.of_require fun _ => .tooLarge _) fun _ _ => ?_
  refine FailsOnly.andThen (.mapM fun element member => ?_) fun code _ => ?_
  · obtain ⟨bytes,emitted⟩ := (complete.emits member).2
    exact .of_ok emitted
  · refine (fitWord_failsOnly _).andThen fun codePointer _ => ?_
    exact (fitWord_failsOnly _).andThen fun codeLength _ => .ok _

theorem check (complete : p.Complete) : FailsOnly Fault.OfDeclaration p.check := by
  unfold Program.check
  refine FailsOnly.andThen (.foldlM (fun seen s member => s.check_failsOnly (complete.encodable s member) seen) _)
    fun names named => ?_
  refine (checkNeighbours_failsOnly _).andThen fun _ _ => ?_
  refine FailsOnly.andThen (.foldlM (fun seen element _ => ?_) _) fun labels labelled => ?_
  · cases element with
    | label name => exact defineName_failsOnly seen name
    | instruction i argument => exact .ok seen
  · rw [checkLabels_eq] at labelled
    obtain ⟨rfl,_⟩ := defineNames_nil_eq_ok.mp labelled
    have gathered : names.data = p.dataNames.reverse :=
      (defineNames_nil_eq_ok.mp (checkSectionNames_eq_ok.mp named).2.1).1
    rw [gathered]
    refine .forM fun element member => ?_
    cases element with
    | label name => exact .ok ()
    | instruction i argument =>
      cases has : i.hasOperand with
      | true =>
        obtain ⟨a,rfl,resolved⟩ := complete.operands i argument member has
        simp only [CodeElement.checkArgument,has]
        exact .of_ok (resolves_iff.mp resolved)
      | false =>
        simp only [CodeElement.checkArgument,has]
        cases argument with
        | none => exact .ok ()
        | some a => exact .error (.unexpected i.mnemonic)

end Program.Complete

theorem Program.complete_of_build {p : Program} {image : List Byte} (made : p.build = .ok image) :
    p.Complete := by
  obtain ⟨h,code,built⟩ := built_of_build made
  refine ⟨?_,?_⟩
  · intro s member
    obtain ⟨k,found⟩ := List.getElem?_of_mem member
    obtain ⟨d,_,describes⟩ := built.placed.describes found
    exact describes.encodable
  · intro i argument member has
    have listed : (i,argument) ∈ p.code.filterMap CodeElement.instruction? :=
      List.mem_filterMap.mpr ⟨_,member,rfl⟩
    obtain ⟨j,found⟩ := List.getElem?_of_mem listed
    obtain ⟨_,operand,_,_,_,stores⟩ := emitted_at (mapM_eq_ok.mp built.emitted) found
    obtain ⟨a,given,resolved⟩ := stores.resolved has
    exact ⟨a,given,operand,resolved⟩

theorem check_and_build_agree (p : Program) :
    (p.check = .ok () → (∃ image, p.build = .ok image) ∨
      (∃ size, p.build = .error (.imageTooLarge size)) ∨
      ∃ name, p.build = .error (.ambiguousDescriptor name)) ∧
    ∀ image, p.build = .ok image →
      (p.check = .ok () ↔ p.WellDeclared) ∧
      (p.check = .ok () ∨ (∃ name, p.check = .error (.duplicateSymbol name)) ∨
        (∃ first second, p.check = .error (.overlappingSections first second)) ∨
        ∃ mnemonic, p.check = .error (.unexpectedArgument mnemonic)) := by
  refine ⟨?_,?_⟩
  · intro passed
    obtain ⟨complete,_⟩ := Program.checked_iff.mp (Program.check_eq_ok.mp passed)
    cases built : p.build with
    | ok image => exact .inl ⟨image,rfl⟩
    | error fault =>
      cases complete.build fault built with
      | tooLarge size => exact .inr (.inl ⟨size,rfl⟩)
      | ambiguous name => exact .inr (.inr ⟨name,rfl⟩)
  · intro image made
    have complete := Program.complete_of_build made
    refine ⟨?_,?_⟩
    · rw [Program.check_eq_ok,Program.checked_iff]
      exact and_iff_right complete
    · cases checked : p.check with
      | ok _ => exact .inl rfl
      | error fault =>
        cases complete.check fault checked with
        | duplicate name => exact .inr (.inl ⟨name,rfl⟩)
        | overlap first second => exact .inr (.inr (.inl ⟨first,second,rfl⟩))
        | unexpected mnemonic => exact .inr (.inr (.inr ⟨mnemonic,rfl⟩))

-- The section takes the last byte of memory, so there is no room for the code.
def crowded : Program where
  sections := [⟨"x",0xFFFF,[⟨"x",.bytes [1]⟩]⟩]
  code := [.instruction .push (some (.add (.data "x") (.sub (.label "x") (.literal 1)))),.label "x",
    .instruction .halt none]

def relabelled : Program where
  sections := []
  code := [.label "x",.instruction .push (some (.label "x")),.label "x",
    .instruction .halt (some (.label "nowhere"))]

def relabelledImage : List Byte :=
  magic.bytes ++ terminator.bytes ++ [0x0C,0,4,0] ++ [0x01,0x03,0,0x19]

theorem crowded_relabelled_agree :
    crowded.check = .ok () ∧ crowded.build = .error (.imageTooLarge 65540) ∧
      ((∃ image, crowded.build = .ok image) ∨ (∃ size, crowded.build = .error (.imageTooLarge size)) ∨
        ∃ name, crowded.build = .error (.ambiguousDescriptor name)) ∧
      relabelled.build = .ok relabelledImage ∧ relabelled.check = .error (.duplicateSymbol "x") ∧
      ¬relabelled.WellDeclared := by
  have checked : crowded.check = .ok () := rfl
  have made : relabelled.build = .ok relabelledImage := rfl
  have refused : relabelled.check = .error (.duplicateSymbol "x") := rfl
  obtain ⟨laid,_⟩ := check_and_build_agree crowded
  obtain ⟨_,declared⟩ := check_and_build_agree relabelled
  refine ⟨checked,rfl,laid checked,made,refused,?_⟩
  intro well
  have passed := (declared relabelledImage made).1.mpr well
  cases refused.symm.trans passed

end WordMachine
