import WordMachine.Proofs.Image.Layout
import WordMachine.Proofs.Program.Symbols

-- The code of an image read back from its first byte to its last, without running it. No boundary is marked
-- in the code, so a reader is in step with the builder only because each opcode says how long it is.

namespace WordMachine

open Success

structure Listed where
  instruction : Instruction
  operand : Option Word
  deriving DecidableEq, Repr

def disassemble : List Byte → Option (List Listed)
  | [] => some []
  | opcode :: rest =>
    match Instruction.ofOpcode? opcode with
    | none => none
    | some i =>
      if i.hasOperand then
        match rest with
        | lo :: hi :: rest => (disassemble rest).map (⟨i,some (Word.ofBytes lo hi)⟩ :: ·)
        | _ => none
      else (disassemble rest).map (⟨i,none⟩ :: ·)

def Instruction.listed (i : Instruction) (operand : Word) : Listed :=
  ⟨i,if i.hasOperand then some operand else none⟩

theorem disassemble_encode (i : Instruction) (operand : Word) (rest : List Byte) :
    disassemble (i.encode operand ++ rest) = (disassemble rest).map (i.listed operand :: ·) := by
  unfold Instruction.encode Instruction.listed
  cases has : i.hasOperand with
  | true => simp [disassemble,has,Word.bytes]
  | false => simp [disassemble,has]

theorem disassemble_encodings (sources : List (Instruction × Option Argument)) (operands : List Word) :
    disassemble (List.zipWith (fun source operand => source.1.encode operand) sources operands).flatten =
      some (List.zipWith (fun source operand => source.1.listed operand) sources operands) := by
  induction sources generalizing operands with
  | nil => rfl
  | cons source rest ih =>
    cases operands with
    | nil => rfl
    | cons operand others =>
      rw [List.zipWith_cons_cons,List.flatten_cons,disassemble_encode,ih]
      rfl

theorem disassemble_outlines (elements : List CodeElement) :
    disassemble (elements.flatMap CodeElement.outline) =
      some ((elements.filterMap CodeElement.instruction?).map (·.1.listed 0)) := by
  induction elements with
  | nil => rfl
  | cons element rest ih =>
    cases element with
    | label name => exact ih
    | instruction i argument =>
      rw [List.flatMap_cons,CodeElement.outline,disassemble_encode,ih]
      rfl

-- What the two passes leave. As many words are open as there are operands; each of these is written to, once, and
-- nothing else is.
structure Program.Emits (p : Program) (draft : Draft) (code : Array Byte) : Prop where
  drafted : p.draft = .ok draft
  blank : disassemble draft.code.toList = some (p.instructions.map (·.1.listed 0))
  ready : draft.Ready
  count : draft.patches.size = p.operandCount
  filled : draft.filled ⟨p.codeBase,draft.labels,p.dataTable⟩ = .ok code
  written : ∀ patch ∈ draft.patches.toList, patch.FilledIn ⟨p.codeBase,draft.labels,p.dataTable⟩ code.toList
  kept : ∀ k, (∀ patch ∈ draft.patches.toList, ¬patch.Covers k) → code.toList[k]? = draft.code.toList[k]?

theorem Program.emits_of_emit {p : Program} {draft : Draft} {parts : List (List Byte)}
    (drafted : p.draft = .ok draft) (emitted : p.emit = .ok parts) : p.Emits draft parts.flatten.toArray := by
  obtain ⟨outline,count,filled⟩ := draft_completes drafted
  rw [emitted] at filled
  have ready := draft_ready drafted
  refine ⟨drafted,?_,ready,count,filled,?_,?_⟩
  · rw [outline]
    exact disassemble_outlines p.code
  · exact Patch.foldlM_fill_inside filled ready.apart fun _ => ready.inside
  · intro k outside
    exact Patch.foldlM_fill_outside filled outside

structure Program.Lists (p : Program) (source : Instruction × Option Argument) (listed : Listed) : Prop where
  instruction : listed.instruction = source.1
  operand : source.1.hasOperand = true → ∃ a value, source.2 = some a ∧ listed.operand = some value ∧
    p.Evaluates a value ∧ ∀ other, p.Evaluates a other → other = value
  absent : source.1.hasOperand = false → listed.operand = none

theorem StoresOperand.lists {p : Program} {source : Instruction × Option Argument} {operand : Word}
    (stores : StoresOperand p.symbols source.1 source.2 operand) :
    p.Lists source (source.1.listed operand) := by
  refine ⟨rfl,?_,?_⟩
  · intro has
    obtain ⟨a,given,resolved⟩ := stores.resolved has
    have evaluates := Program.resolve_eq_ok.mp resolved
    exact ⟨a,operand,given,by simp [Instruction.listed,has],evaluates,fun _ also => evaluates.unique also⟩
  · intro without
    simp [Instruction.listed,without]

theorem lists_of_stores {p : Program} {sources : List (Instruction × Option Argument)} {operands : List Word}
    (stores : List.Forall₂ (fun source operand => StoresOperand p.symbols source.1 source.2 operand)
      sources operands) :
    List.Forall₂ p.Lists sources
      (List.zipWith (fun source operand => source.1.listed operand) sources operands) := by
  induction stores with
  | nil => exact .nil
  | cons this _ ih => exact .cons this.lists ih

theorem Program.size_listed {p : Program} {sources : List (Instruction × Option Argument)}
    {listing : List Listed} (lists : List.Forall₂ p.Lists sources listing) :
    totalSize (listing.map (·.instruction.size)) = totalSize (sources.map (·.1.size)) := by
  induction lists with
  | nil => rfl
  | cons this _ ih => rw [List.map_cons,List.map_cons,totalSize_cons,totalSize_cons,ih,this.instruction]

-- For any program that can be built, checked or not, wherever in it a reference stands.
theorem disassembly_lists_source {p : Program} {image : List Byte} (made : p.build = .ok image) :
    ∃ draft code h listing, p.Emits draft code ∧ Header.parse image = .ok h ∧ h.codeBody image = code.toList ∧
      (h.codeBody image).length = h.codeLength.toNat ∧
      disassemble (h.codeBody image) = some listing ∧
      totalSize (listing.map (·.instruction.size)) = h.codeLength.toNat ∧
      List.Forall₂ p.Lists p.instructions listing := by
  obtain ⟨h,parts,built⟩ := Program.built_of_build made
  obtain ⟨draft,drafted⟩ := Program.drafted_of_build made
  obtain ⟨operands,stores,flat⟩ := emitted_operands (mapM_eq_ok.mp built.emitted)
  have lists := lists_of_stores stores
  refine ⟨draft,_,h,_,Program.emits_of_emit drafted built.emitted,built.parse,built.codeBody,?_,?_,?_,lists⟩
  · rw [built.codeBody,built.length_code,built.codeLength]
  · rw [built.codeBody,flat]
    exact disassemble_encodings _ operands
  · rw [Program.size_listed lists,built.codeLength,p.codeSize_eq]
    rfl

-- A label that is referred to between its two definitions, and an argument that HALT does not take.
def redefined : Program where
  sections := [⟨"low",0x10,[⟨"cell",.words [1]⟩,⟨"cell",.bytes [9]⟩]⟩,
    ⟨"high",0x20,[⟨"cell",.bytes [5]⟩]⟩]
  code := [.label "here",.instruction .push (some (.label "here")),.label "here",
    .instruction .cps (some (.sub (.label "here") (.data "cell"))),.instruction .halt (some (.label "nowhere"))]

def redefinedImage : List Byte :=
  magic.bytes ++ [0x18,0,0x10,0,3,0] ++ [0x1B,0,0x20,0,1,0] ++ terminator.bytes ++ [0x1C,0,7,0] ++
    [1,0,9] ++ [5] ++ [0x01,0x24,0,0x06,0x04,0,0x19]

theorem redefined_listed :
    redefined.build = .ok redefinedImage ∧
      redefined.draft = .ok ⟨#[0x01,0,0,0x06,0,0,0x19],[("here",3),("here",0)],
        #[⟨1,.label "here"⟩,⟨4,.sub (.label "here") (.data "cell")⟩]⟩ ∧
      disassemble [0x01,0x24,0,0x06,0x04,0,0x19] = some [⟨.push,some 0x24⟩,⟨.cps,some 4⟩,⟨.halt,none⟩] ∧
      redefined.Evaluates (.label "here") 0x24 ∧
      redefined.Evaluates (.sub (.label "here") (.data "cell")) 4 := by
  have made : redefined.build = .ok redefinedImage := rfl
  obtain ⟨draft,code,h,listing,emits,parsed,_,_,listed,_,lists⟩ := disassembly_lists_source made
  have drafted := emits.drafted
  have found : draft = ⟨#[0x01,0,0,0x06,0,0,0x19],[("here",3),("here",0)],
      #[⟨1,.label "here"⟩,⟨4,.sub (.label "here") (.data "cell")⟩]⟩ := Except.ok.inj (drafted.symm.trans rfl)
  subst found
  have header : h = ⟨[⟨0x18,0x10,3⟩,⟨0x1B,0x20,1⟩],0x1C,7⟩ := Except.ok.inj (parsed.symm.trans rfl)
  subst header
  have found : listing = [⟨.push,some 0x24⟩,⟨.cps,some 4⟩,⟨.halt,none⟩] :=
    Option.some.inj (listed.symm.trans rfl)
  subst found
  cases lists with
  | cons first rest =>
    cases rest with
    | cons second _ =>
      obtain ⟨_,_,given,same,push,_⟩ := first.operand rfl
      cases given
      cases same
      obtain ⟨_,_,given,same,cps,_⟩ := second.operand rfl
      cases given
      cases same
      exact ⟨made,drafted,listed,push,cps⟩

end WordMachine
