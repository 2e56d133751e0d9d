import WordMachine.Image.Build
import WordMachine.Proofs.Program.Symbols

-- The first pass leaves a word open for every operand, and the second one writes over these words once all labels are
-- known. It comes to what one pass would give that knew every value from the start.

namespace WordMachine

open Success

namespace Instruction

def encode (i : Instruction) (operand : Word) : List Byte :=
  i.opcode :: if i.hasOperand then Word.bytes operand else []

@[simp]
theorem length_encode (i : Instruction) (operand : Word) : (i.encode operand).length = i.size := by
  unfold encode size
  split <;> rfl

end Instruction

-- As the first pass leaves it: the operand is still to come.
def CodeElement.outline : CodeElement → List Byte
  | label _ => []
  | instruction i _ => i.encode 0

theorem CodeElement.outline_plain {i : Instruction} {argument : Option Argument} (without : i.hasOperand = false) :
    (CodeElement.instruction i argument).outline = [i.opcode] := by
  simp [outline,Instruction.encode,without]

theorem CodeElement.outline_leaves {i : Instruction} {argument : Option Argument} (has : i.hasOperand = true) :
    (CodeElement.instruction i argument).outline = [i.opcode,0,0] := by
  simp [outline,Instruction.encode,has]
  rfl

-- Zero stands for an operand that is left out.
structure StoresOperand (symbols : Symbols) (i : Instruction) (argument : Option Argument)
    (operand : Word) : Prop where
  resolved : i.hasOperand = true → ∃ a, argument = some a ∧ a.resolve symbols = .ok operand
  absent : i.hasOperand = false → operand = 0

def CodeElement.checkOperand : CodeElement → Except Fault Unit
  | label _ => .ok ()
  | instruction i argument =>
    require (i.hasOperand = true → argument.isSome = true) (.missingArgument i.mnemonic)

def CodeElement.emit (symbols : Symbols) : CodeElement → Except Fault (List Byte)
  | label _ => .ok []
  | instruction i argument =>
    if i.hasOperand then
      match argument with
      | some a => do
        let value ← a.resolve symbols
        return i.opcode :: Word.bytes value
      | none => .error (.missingArgument i.mnemonic)
    else .ok [i.opcode]

def Program.emit (p : Program) : Except Fault (List (List Byte)) :=
  p.code.mapM (CodeElement.emit p.symbols)

namespace CodeElement

theorem emit_instruction {symbols : Symbols} {i : Instruction} {argument : Option Argument}
    {bytes : List Byte} (emitted : (instruction i argument).emit symbols = .ok bytes) :
    ∃ operand, bytes = i.encode operand ∧ StoresOperand symbols i argument operand := by
  simp only [emit] at emitted
  split at emitted
  · rename_i has
    cases argument with
    | none => cases emitted
    | some a =>
      obtain ⟨operand,resolved,same⟩ := bind_eq_ok.mp emitted
      cases same
      exact ⟨operand,by simp [Instruction.encode,has],fun _ => ⟨a,rfl,resolved⟩,by simp [has]⟩
  · rename_i without
    cases emitted
    exact ⟨0,by simp [Instruction.encode,without],by simp [without],fun _ => rfl⟩

theorem length_emit {symbols : Symbols} {element : CodeElement} {bytes : List Byte}
    (emitted : element.emit symbols = .ok bytes) : bytes.length = element.size := by
  cases element with
  | label name =>
    cases emitted
    rfl
  | instruction i argument =>
    obtain ⟨operand,rfl,_⟩ := emit_instruction emitted
    exact i.length_encode operand

def instruction? : CodeElement → Option (Instruction × Option Argument)
  | label _ => none
  | instruction i argument => some (i,argument)

end CodeElement

namespace Program

def instructions (p : Program) : List (Instruction × Option Argument) :=
  p.code.filterMap CodeElement.instruction?

theorem codeSize_eq (p : Program) : p.codeSize = totalSize (p.instructions.map (·.1.size)) := by
  unfold codeSize instructions
  induction p.code with
  | nil => rfl
  | cons element rest ih =>
    cases element with
    | label name =>
      rw [List.filterMap_cons_none rfl,← ih,List.map_cons,totalSize_cons]
      exact Nat.zero_add _
    | instruction i argument =>
      have head : (CodeElement.instruction i argument).instruction? = some (i,argument) := rfl
      rw [List.filterMap_cons_some head,List.map_cons,List.map_cons,totalSize_cons,totalSize_cons,ih]
      rfl

end Program

theorem length_flatten_emit {symbols : Symbols} {elements : List CodeElement}
    {code : List (List Byte)}
    (emitted : List.Forall₂ (fun e bytes => e.emit symbols = .ok bytes) elements code) :
    code.flatten.length = totalSize (elements.map CodeElement.size) := by
  induction emitted with
  | nil => rfl
  | cons this _ ih => simp [ih,CodeElement.length_emit this]

theorem emitted_operands {symbols : Symbols} {elements : List CodeElement} {code : List (List Byte)}
    (emitted : List.Forall₂ (fun e bytes => e.emit symbols = .ok bytes) elements code) :
    ∃ operands,
      List.Forall₂ (fun source operand => StoresOperand symbols source.1 source.2 operand)
        (elements.filterMap CodeElement.instruction?) operands ∧
      code.flatten = (List.zipWith (fun source operand => source.1.encode operand)
        (elements.filterMap CodeElement.instruction?) operands).flatten := by
  induction emitted with
  | nil => exact ⟨[],.nil,rfl⟩
  | @cons element bytes elements code this _ ih =>
    obtain ⟨operands,stores,flat⟩ := ih
    cases element with
    | label name =>
      cases this
      exact ⟨operands,stores,flat⟩
    | instruction i argument =>
      obtain ⟨operand,rfl,stored⟩ := CodeElement.emit_instruction this
      have head : (CodeElement.instruction i argument).instruction? = some (i,argument) := rfl
      rw [List.filterMap_cons_some head]
      exact ⟨operand :: operands,.cons stored stores,by simp [flat]⟩

theorem emitted_at {symbols : Symbols} {elements : List CodeElement} {code : List (List Byte)}
    (emitted : List.Forall₂ (fun e bytes => e.emit symbols = .ok bytes) elements code) {j : Nat}
    {i : Instruction} {argument : Option Argument}
    (found : (elements.filterMap CodeElement.instruction?)[j]? = some (i,argument)) :
    ∃ before operand after, code.flatten = before ++ i.encode operand ++ after ∧
      before.length = totalSize (((elements.filterMap CodeElement.instruction?).take j).map (·.1.size)) ∧
      StoresOperand symbols i argument operand := by
  obtain ⟨operands,stores,flat⟩ := emitted_operands emitted
  rw [flat]
  generalize elements.filterMap CodeElement.instruction? = sources at found stores ⊢
  clear flat
  induction stores generalizing j with
  | nil => simp at found
  | @cons source operand sources operands stored _ ih =>
    cases j with
    | zero =>
      cases found
      exact ⟨[],operand,_,rfl,rfl,stored⟩
    | succ j =>
      obtain ⟨before,value,after,split,length,stores⟩ := ih found
      refine ⟨source.1.encode operand ++ before,value,after,?_,?_,stores⟩
      · simp [split]
      · simp [length]

theorem CodeElement.checkOperand_of_emit {symbols : Symbols} {element : CodeElement} {bytes : List Byte}
    (emitted : element.emit symbols = .ok bytes) : element.checkOperand = .ok () := by
  cases element with
  | label name => rfl
  | instruction i argument =>
    obtain ⟨operand,_,stores⟩ := emit_instruction emitted
    apply require_eq_ok_iff.mpr
    intro has
    obtain ⟨a,rfl,_⟩ := stores.resolved has
    rfl

def Patch.OpenIn (patch : Patch) (code : List Byte) : Prop :=
  ∃ before i after, code = before ++ i.encode 0 ++ after ∧ Instruction.hasOperand i = true ∧
    patch.offset = before.length + 1

theorem Patch.OpenIn.append {patch : Patch} {code : List Byte} (isOpen : patch.OpenIn code) (more : List Byte) :
    patch.OpenIn (code ++ more) := by
  obtain ⟨before,i,after,rfl,has,offset⟩ := isOpen
  exact ⟨before,i,after ++ more,by rw [List.append_assoc],has,offset⟩

namespace Draft

-- All that an element can do to a draft.
inductive Adds (d : Draft) : CodeElement → Draft → Prop where
  | label {name : String} : Adds d (.label name) {d with labels := (name,d.code.size) :: d.labels}
  | plain {i : Instruction} {argument : Option Argument} : i.hasOperand = false →
      Adds d (.instruction i argument) {d with code := d.code.push i.opcode}
  | leaves {i : Instruction} {a : Argument} : i.hasOperand = true →
      Adds d (.instruction i (some a)) {d with
        code := ((d.code.push i.opcode).push 0).push 0
        patches := d.patches.push ⟨d.code.size + 1,a⟩}

variable {d next last : Draft} {element : CodeElement} {elements : List CodeElement}

theorem adds_of_add (added : d.add element = .ok next) : d.Adds element next := by
  cases element with
  | label name =>
    cases added
    exact .label
  | instruction i argument =>
    cases has : i.hasOperand with
    | false =>
      simp only [add,has] at added
      cases added
      exact .plain has
    | true =>
      cases argument with
      | none => simp [add,has] at added
      | some a =>
        simp only [add,has,Array.size_push] at added
        cases added
        exact .leaves has

theorem add_checks (d : Draft) (element : CodeElement) :
    (d.add element).map (fun _ => ()) = element.checkOperand := by
  cases element with
  | label name => rfl
  | instruction i argument =>
    cases has : i.hasOperand with
    | false => simp [add,has,CodeElement.checkOperand,require,Except.map]
    | true => cases argument <;> simp [add,has,CodeElement.checkOperand,require,Except.map]

theorem foldlM_add_checks (d : Draft) (elements : List CodeElement) :
    (elements.foldlM add d).map (fun _ => ()) = elements.forM CodeElement.checkOperand := by
  induction elements generalizing d with
  | nil => rfl
  | cons element rest ih =>
    change _ = (element.checkOperand >>= fun _ => rest.forM CodeElement.checkOperand)
    rw [List.foldlM_cons,← add_checks d element]
    cases d.add element with
    | error fault => rfl
    | ok next => exact ih next

theorem foldlM_add_keeps {P : Draft → Prop} (step : ∀ d element next, d.Adds element next → P d → P next)
    (drafted : elements.foldlM add d = .ok last) (start : P d) : P last := by
  induction elements generalizing d with
  | nil =>
    cases drafted
    exact start
  | cons element rest ih =>
    rw [List.foldlM_cons] at drafted
    obtain ⟨next,added,others⟩ := bind_eq_ok.mp drafted
    exact ih others (step d element next (adds_of_add added) start)

-- What the second pass relies on: each patch is for an operand that is still zero, and no two are for the same.
structure Ready (d : Draft) : Prop where
  isOpen : ∀ patch ∈ d.patches.toList, patch.OpenIn d.code.toList
  apart : d.patches.toList.Pairwise fun first second => first.offset + 2 ≤ second.offset

theorem Ready.inside (ready : d.Ready) {patch : Patch} (member : patch ∈ d.patches.toList) :
    patch.offset + 2 ≤ d.code.size := by
  obtain ⟨before,i,after,code,has,offset⟩ := ready.isOpen patch member
  rw [← Array.length_toList,code,offset]
  simp [Instruction.size,has]
  omega

theorem Adds.ready (adds : d.Adds element next) (ready : d.Ready) : next.Ready := by
  cases adds with
  | label => exact ⟨ready.isOpen,ready.apart⟩
  | plain _ =>
    refine ⟨?_,ready.apart⟩
    intro patch member
    rw [Array.toList_push]
    exact (ready.isOpen patch member).append _
  | @leaves i a has =>
    have code : (((d.code.push i.opcode).push 0).push 0).toList = d.code.toList ++ i.encode 0 := by
      have stored : i.encode 0 = [i.opcode,0,0] := @CodeElement.outline_leaves i none has
      simp [stored]
    have patches : (d.patches.push ⟨d.code.size + 1,a⟩).toList = d.patches.toList ++ [⟨d.code.size + 1,a⟩] :=
      Array.toList_push
    constructor
    · intro patch member
      rcases List.mem_append.mp (patches ▸ member) with earlier | new
      · rw [code]
        exact (ready.isOpen patch earlier).append _
      · cases List.mem_singleton.mp new
        exact ⟨d.code.toList,i,[],by rw [code,List.append_nil],has,rfl⟩
    · rw [patches,List.pairwise_append]
      refine ⟨ready.apart,List.pairwise_singleton _ _,?_⟩
      intro patch member other new
      cases List.mem_singleton.mp new
      exact Nat.le_succ_of_le (ready.inside member)

end Draft

namespace Patch

variable {symbols : Symbols} {code filled : Array Byte} {patch : Patch} {patches : List Patch}

def Covers (patch : Patch) (k : Nat) : Prop := k = patch.offset ∨ k = patch.offset + 1

theorem fill_outside (made : patch.fill symbols code = .ok filled) {k : Nat} (outside : ¬patch.Covers k) :
    filled.toList[k]? = code.toList[k]? := by
  obtain ⟨value,_,same⟩ := bind_eq_ok.mp made
  cases same
  obtain ⟨low,high⟩ := not_or.mp outside
  rw [Array.toList_setIfInBounds,Array.toList_setIfInBounds,List.getElem?_set_ne (Ne.symm high),
    List.getElem?_set_ne (Ne.symm low)]

theorem foldlM_fill_outside (made : patches.foldlM (fill symbols) code = .ok filled) {k : Nat}
    (outside : ∀ patch ∈ patches, ¬patch.Covers k) : filled.toList[k]? = code.toList[k]? := by
  induction patches generalizing code with
  | nil =>
    cases made
    rfl
  | cons patch rest ih =>
    rw [List.foldlM_cons] at made
    obtain ⟨middle,first,others⟩ := bind_eq_ok.mp made
    obtain ⟨this,later⟩ := List.forall_mem_cons.mp outside
    rw [ih others later,fill_outside first this]

def FilledIn (patch : Patch) (symbols : Symbols) (code : List Byte) : Prop :=
  ∃ value, patch.argument.resolve symbols = .ok value ∧ code[patch.offset]? = some (Word.low value) ∧
    code[patch.offset + 1]? = some (Word.high value)

theorem size_fill (made : patch.fill symbols code = .ok filled) : filled.size = code.size := by
  obtain ⟨value,_,same⟩ := bind_eq_ok.mp made
  cases same
  simp

theorem fill_inside (made : patch.fill symbols code = .ok filled) (inside : patch.offset + 2 ≤ code.size) :
    patch.FilledIn symbols filled.toList := by
  obtain ⟨value,resolved,same⟩ := bind_eq_ok.mp made
  cases same
  refine ⟨value,resolved,?_,?_⟩
  · rw [Array.toList_setIfInBounds,Array.toList_setIfInBounds,List.getElem?_set_ne (Nat.succ_ne_self _),
      List.getElem?_set_self (by rw [Array.length_toList]; omega)]
  · rw [Array.toList_setIfInBounds,List.getElem?_set_self (by simp; omega)]

-- No later patch touches the word.
theorem foldlM_fill_inside (made : patches.foldlM (fill symbols) code = .ok filled)
    (apart : patches.Pairwise fun first second => first.offset + 2 ≤ second.offset)
    (inside : ∀ patch ∈ patches, patch.offset + 2 ≤ code.size) :
    ∀ patch ∈ patches, patch.FilledIn symbols filled.toList := by
  induction patches generalizing code with
  | nil => simp
  | cons first rest ih =>
    rw [List.foldlM_cons] at made
    obtain ⟨middle,once,others⟩ := bind_eq_ok.mp made
    obtain ⟨ahead,apart⟩ := List.pairwise_cons.mp apart
    obtain ⟨here,inside⟩ := List.forall_mem_cons.mp inside
    refine List.forall_mem_cons.mpr ⟨?_,?_⟩
    · obtain ⟨value,resolved,low,high⟩ := fill_inside once here
      have clear : ∀ k, first.Covers k → ∀ patch ∈ rest, ¬patch.Covers k := by
        intro k covered patch member also
        have later := ahead patch member
        unfold Covers at covered also
        omega
      refine ⟨value,resolved,?_,?_⟩
      · rw [foldlM_fill_outside others (clear _ (.inl rfl)),low]
      · rw [foldlM_fill_outside others (clear _ (.inr rfl)),high]
    · exact ih others apart fun patch member => size_fill once ▸ inside patch member

theorem fill_next (front rest : List Byte) (a : Argument) :
    fill symbols (front ++ 0 :: 0 :: rest).toArray ⟨front.length,a⟩ =
      (a.resolve symbols).map fun value => (front ++ Word.bytes value ++ rest).toArray := by
  unfold fill
  cases a.resolve symbols with
  | error fault => rfl
  | ok value =>
    have first : (front ++ 0 :: 0 :: rest).set front.length (Word.low value) =
        front ++ Word.low value :: 0 :: rest := by
      rw [List.set_append_right _ _ (Nat.le_refl _),Nat.sub_self]
      rfl
    have second : (front ++ Word.low value :: 0 :: rest).set (front.length + 1) (Word.high value) =
        front ++ Word.bytes value ++ rest := by
      rw [List.set_append_right _ _ (Nat.le_add_right _ 1),Nat.add_sub_cancel_left,List.append_assoc]
      rfl
    apply congrArg Except.ok
    rw [List.setIfInBounds_toArray,List.setIfInBounds_toArray,first,second]

theorem fill_outline {i : Instruction} (has : i.hasOperand = true) (front rest : List Byte) (a : Argument) :
    fill symbols (front ++ (CodeElement.instruction i (some a)).outline ++ rest).toArray ⟨front.length + 1,a⟩ =
      ((CodeElement.instruction i (some a)).emit symbols).map fun bytes => (front ++ bytes ++ rest).toArray := by
  have next := @fill_next symbols (front ++ [i.opcode]) rest a
  rw [List.length_append,List.append_assoc,List.singleton_append] at next
  rw [CodeElement.outline_leaves has,CodeElement.emit,if_pos has,List.append_assoc]
  refine next.trans ?_
  cases a.resolve symbols with
  | error fault => rfl
  | ok value => simp [bind,Except.bind,pure,Except.pure,Except.map]

end Patch

theorem mapM_emit_cons (symbols : Symbols) (element : CodeElement) (elements : List CodeElement) (front : List Byte) :
    (((element :: elements).mapM (CodeElement.emit symbols)).map fun parts => (front ++ parts.flatten).toArray) =
      element.emit symbols >>= fun bytes =>
        (elements.mapM (CodeElement.emit symbols)).map fun parts => (front ++ bytes ++ parts.flatten).toArray := by
  rw [List.mapM_cons]
  cases element.emit symbols with
  | error fault => rfl
  | ok bytes =>
    cases elements.mapM (CodeElement.emit symbols) with
    | error fault => rfl
    | ok parts => simp [bind,Except.bind,pure,Except.pure,Except.map]

-- A draft and what was added to it. Whatever bytes the front of the code has by then, filling in the words left
-- open in the rest gives the stored forms of the elements that the rest was laid out from.
structure Draft.Continues (d last : Draft) (elements : List CodeElement) (added : List Patch) : Prop where
  code : last.code.toList = d.code.toList ++ elements.flatMap CodeElement.outline
  patches : last.patches.toList = d.patches.toList ++ added
  labels : last.labels = Symbols.defineLabels d.code.size d.labels elements
  count : added.length = elements.countP CodeElement.hasOperand
  filled : ∀ symbols (front : List Byte), front.length = d.code.size →
    added.foldlM (Patch.fill symbols) (front ++ elements.flatMap CodeElement.outline).toArray =
      (elements.mapM (CodeElement.emit symbols)).map fun parts => (front ++ parts.flatten).toArray

namespace Draft

variable {d next last : Draft} {element : CodeElement} {elements : List CodeElement} {patches : List Patch}

theorem Adds.continues (adds : d.Adds element next) (others : next.Continues last elements patches) :
    ∃ patches, d.Continues last (element :: elements) patches := by
  cases adds with
  | label =>
    refine ⟨patches,others.code,others.patches,others.labels,?_,?_⟩
    · rw [others.count,List.countP_cons_of_neg (by simp [CodeElement.hasOperand])]
    · intro symbols front length
      rw [mapM_emit_cons]
      refine (others.filled symbols front length).trans ?_
      simp [CodeElement.emit,bind,Except.bind]
  | @plain i argument without =>
    have outline := @CodeElement.outline_plain i argument without
    refine ⟨patches,?_,others.patches,?_,?_,?_⟩
    · rw [others.code,Array.toList_push,List.flatMap_cons,outline,List.append_assoc]
    · rw [others.labels,Array.size_push,Symbols.defineLabels,Instruction.size,without]
      rfl
    · rw [others.count,List.countP_cons_of_neg (by simp [CodeElement.hasOperand,without])]
    · intro symbols front length
      have further := others.filled symbols (front ++ [i.opcode]) (by simp [length])
      rw [List.flatMap_cons,outline,← List.append_assoc,further,mapM_emit_cons]
      simp [CodeElement.emit,without,bind,Except.bind]
  | @leaves i a has =>
    refine ⟨⟨d.code.size + 1,a⟩ :: patches,?_,?_,?_,?_,?_⟩
    · rw [others.code,List.flatMap_cons,CodeElement.outline_leaves has]
      simp
    · rw [others.patches]
      simp
    · rw [others.labels,Symbols.defineLabels,Instruction.size,has]
      simp
    · rw [List.length_cons,others.count,List.countP_cons_of_pos (by simp [CodeElement.hasOperand,has])]
    · intro symbols front length
      have opened := @Patch.fill_outline symbols i has front (elements.flatMap CodeElement.outline) a
      rw [length] at opened
      rw [List.flatMap_cons,← List.append_assoc,List.foldlM_cons,mapM_emit_cons,opened]
      cases emitted : (CodeElement.instruction i (some a)).emit symbols with
      | error fault => rfl
      | ok bytes =>
        have three : bytes.length = 3 := by
          rw [CodeElement.length_emit emitted,CodeElement.size,Instruction.size,if_pos has]
        exact others.filled symbols (front ++ bytes) (by simp [length,three])

theorem continues_of_foldlM (drafted : elements.foldlM add d = .ok last) :
    ∃ patches, d.Continues last elements patches := by
  induction elements generalizing d with
  | nil =>
    cases drafted
    refine ⟨[],by simp,by simp,rfl,rfl,?_⟩
    intro symbols front _
    simp [pure,Except.pure,Except.map]
  | cons element elements ih =>
    rw [List.foldlM_cons] at drafted
    obtain ⟨next,added,others⟩ := bind_eq_ok.mp drafted
    obtain ⟨patches,continues⟩ := ih others
    exact (adds_of_add added).continues continues

end Draft

theorem length_outlines (elements : List CodeElement) :
    (elements.flatMap CodeElement.outline).length = totalSize (elements.map CodeElement.size) := by
  rw [length_flatMap]
  congr 2
  funext element
  cases element with
  | label name => rfl
  | instruction i argument => exact i.length_encode 0

namespace Program

variable {p : Program} {draft : Draft}

theorem draft_checks (p : Program) : p.draft.map (fun _ => ()) = p.code.forM CodeElement.checkOperand :=
  Draft.foldlM_add_checks {} p.code

theorem draft_ready (drafted : p.draft = .ok draft) : draft.Ready := by
  apply Draft.foldlM_add_keeps (fun d element next => Draft.Adds.ready) drafted
  exact ⟨by simp,by simp⟩

theorem drafted_of_build {image : List Byte} (made : p.build = .ok image) : ∃ draft, p.draft = .ok draft := by
  obtain ⟨_,_,rest⟩ := bind_eq_ok.mp made
  obtain ⟨draft,drafted,_⟩ := bind_eq_ok.mp rest
  exact ⟨draft,drafted⟩

theorem symbols_of_draft (drafted : p.draft = .ok draft) :
    (⟨p.codeBase,draft.labels,p.dataTable⟩ : Symbols) = p.symbols := by
  obtain ⟨_,continues⟩ := Draft.continues_of_foldlM drafted
  have labels : draft.labels = p.symbols.labels := continues.labels
  rw [labels]
  rfl

theorem draft_completes (drafted : p.draft = .ok draft) :
    draft.code.toList = p.code.flatMap CodeElement.outline ∧ draft.patches.size = p.operandCount ∧
      draft.filled ⟨p.codeBase,draft.labels,p.dataTable⟩ = p.emit.map fun parts => parts.flatten.toArray := by
  obtain ⟨patches,continues⟩ := Draft.continues_of_foldlM drafted
  have code : draft.code.toList = p.code.flatMap CodeElement.outline := continues.code
  have patched : draft.patches.toList = patches := continues.patches
  refine ⟨code,?_,?_⟩
  · rw [← Array.length_toList,patched,continues.count]
    rfl
  · have filled := continues.filled p.symbols [] rfl
    rw [← code,← patched] at filled
    rw [symbols_of_draft drafted]
    exact filled

theorem build_eq (p : Program) : p.build = (do
    let sections ← placeSections p.headerSize p.sections
    p.code.forM CodeElement.checkOperand
    require (p.codeBase + p.codeSize ≤ memorySize) (.imageTooLarge (p.codeBase + p.codeSize))
    let code ← p.emit
    let codePointer ← fitWord (p.headerSize + p.dataSize)
    let codeLength ← fitWord p.codeSize
    let h : Header := {sections,codePointer,codeLength}
    return h.bytes ++ p.dataBytes ++ code.flatten) := by
  unfold build
  apply bind_congr
  intro sections
  rw [← draft_checks]
  cases drafted : p.draft with
  | error fault => rfl
  | ok draft =>
    obtain ⟨code,_,filled⟩ := draft_completes drafted
    have size : draft.code.size = p.codeSize := by
      rw [← Array.length_toList,code,length_outlines]
      rfl
    change (require _ _ >>= fun _ => draft.filled _ >>= _) = (require _ _ >>= fun _ => p.emit >>= _)
    rw [filled,size]
    apply bind_congr
    intro _
    cases emitted : p.emit with
    | error fault => rfl
    | ok parts =>
      have length : parts.flatten.toArray.size = p.codeSize := length_flatten_emit (mapM_eq_ok.mp emitted)
      change (fitWord _ >>= fun codePointer => fitWord parts.flatten.toArray.size >>= _) = _
      rw [length]
      rfl

end Program

end WordMachine
