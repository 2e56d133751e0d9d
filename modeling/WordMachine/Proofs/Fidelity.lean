import WordMachine.Proofs.Machine.CodeIntact
import WordMachine.Proofs.Program.Symbols

-- Wherever a run has come to, if the next address is that of one of the program's instructions, the next step is that
-- instruction. Nothing is said about an address inside an instruction, which a jump may lead to.

namespace WordMachine

open Success

namespace Program

def addressOf (p : Program) (j : Nat) : Nat :=
  p.codeBase + totalSize ((p.instructions.take j).map (·.1.size))

inductive Operand (p : Program) : Option Argument → Word → Prop where
  | absent : Operand p none 0
  | present {a : Argument} {value : Word} : p.Denotes a value → Operand p (some a) value

theorem Operand.unique {p : Program} {argument : Option Argument} {value other : Word}
    (operand : p.Operand argument value) (also : p.Operand argument other) (checked : p.Checked) :
    other = value := by
  cases operand with
  | absent =>
    cases also
    rfl
  | present denotes =>
    cases also with
    | present alsoDenotes => exact denotes.unique alsoDenotes checked

theorem operand_of_stores {p : Program} {i : Instruction} {argument : Option Argument} {value : Word}
    (stores : StoresOperand p.symbols i argument value) (given : argument.isSome = i.hasOperand) :
    p.Operand argument value := by
  cases has : i.hasOperand with
  | true =>
    obtain ⟨a,rfl,resolved⟩ := stores.resolved has
    exact .present (denotes_of_resolve resolved)
  | false =>
    have none : argument = none := by simpa [has] using given
    rw [none,stores.absent has]
    exact .absent

theorem Checked.argument_given {p : Program} (checked : p.Checked) {j : Nat} {i : Instruction}
    {argument : Option Argument} (found : p.instructions[j]? = some (i,argument)) :
    argument.isSome = i.hasOperand := by
  obtain ⟨element,member,same⟩ := List.mem_filterMap.mp (List.mem_of_getElem? found)
  cases element with
  | label name => cases same
  | instruction first its =>
    cases same
    exact (CodeElement.checkArgument_eq_ok.mp (checked.arguments _ member)).1

end Program

-- The step is the handler's own outcome, so a fault is one that the instruction itself runs into.
theorem step_executes_source {p : Program} {image : List Byte} (made : p.assemble = .ok image)
    (limit : Option Nat) :
    ∃ start, Machine.ofImage ⟨.strict,limit⟩ image = .ok start ∧
      ∀ events m, Ran start events m → m.halted = false →
        ∀ j i argument, p.instructions[j]? = some (i,argument) →
          m.registers.ip = UInt16.ofNat (p.addressOf j) →
          argument.isSome = i.hasOperand ∧
          ∃ operand, p.Operand argument operand ∧
            (∀ other, p.Operand argument other → other = operand) ∧
            m.step = ((Microcode.ofInstruction i operand).run {m with
              registers := {m.registers with ip := UInt16.ofNat (p.addressOf j + i.size)}
              steps := m.steps + 1}).map (fun _ => some i) ∧
            ∀ fault, m.step.result = .error fault →
              (∀ opcode address, fault ≠ .unimplementedOpcode opcode address) ∧
              ∀ address, fault ≠ .memoryFault Violation.fetchOutsideCode.name address := by
  obtain ⟨checked,h,code,built⟩ := p.assembled made
  refine ⟨_,built.load _,?_⟩
  intro events m ran running j i argument found ip
  have holds : HoldsCode p.codeBase code.flatten m := ran.keeps HoldsCode.keeps (built.holdsCode rfl)
  obtain ⟨before,operand,after,located,length,stores⟩ := emitted_at (mapM_eq_ok.mp built.emitted) found
  have address : p.addressOf j = p.codeBase + before.length := by
    rw [length]
    rfl
  have executed := holds.step running located (address ▸ ip) stores.absent
  have given := checked.argument_given found
  have denoted := Program.operand_of_stores stores given
  refine ⟨given,operand,denoted,fun other also => denoted.unique also checked,?_,?_⟩
  · rw [executed,Machine.execute,Machine.past,ip,← UInt16.ofNat_add]
  · intro fault failed
    rw [executed] at failed
    obtain ⟨violation,_,inCode,rfl⟩ := Machine.execute_fault failed
    refine ⟨?_,?_⟩
    · intro _ _ same
      cases same
    · intro _ same
      exact inCode (Violation.name_inj.mp (Fault.memoryFault.inj same).1)

def forwardJump : Program where
  sections := [⟨"table",0x10,[⟨"pad",.reserve 2⟩,⟨"cell",.words [7]⟩]⟩]
  code := [.instruction .push (some (.label "end")),.instruction .jmp none,.instruction .nop none,
    .label "end",.instruction .push (some (.add (.data "cell") (.literal 1))),.instruction .halt none]

def forwardJumpImage : List Byte :=
  magic.bytes ++ [0x12,0,0x10,0,4,0] ++ terminator.bytes ++ [0x16,0,9,0] ++ [0,0,7,0] ++
    [0x01,0x19,0,0x1E,0x1B,0x01,0x13,0,0x19]

theorem forwardJump_executes_source :
    ∃ start, forwardJump.assemble = .ok forwardJumpImage ∧
      Machine.ofImage ⟨.strict,none⟩ forwardJumpImage = .ok start ∧
      start.next.next.step = ((Microcode.ofInstruction .push 0x13).run {start.next.next with
        registers := {start.next.next.registers with ip := 0x1C}
        steps := 3}).map fun _ => some .push := by
  have made : forwardJump.assemble = .ok forwardJumpImage := rfl
  obtain ⟨start,loaded,faithful⟩ := step_executes_source made none
  have install : start = (Machine.new ⟨.strict,none⟩).install ⟨[⟨0x12,0x10,4⟩],0x16,9⟩ forwardJumpImage :=
    Except.ok.inj (loaded.symm.trans rfl)
  have first : start.step.result = .ok (some .push) := by
    rw [install]
    rfl
  have second : start.next.step.result = .ok (some .jmp) := by
    rw [install]
    rfl
  have cell : forwardJump.EntryAt ⟨"cell",.words [7]⟩ 0x12 :=
    ⟨_,List.mem_cons_self,[⟨"pad",.reserve 2⟩],[],rfl,rfl⟩
  have sum : forwardJump.Operand (some (.add (.data "cell") (.literal 1))) (UInt16.ofNat 0x12 + 1) :=
    .present (.add (.data ⟨_,rfl,cell⟩) .literal)
  obtain ⟨_,operand,_,unique,stepped,_⟩ := faithful _ _ ((Ran.nil.next first).next second)
    (by rw [install]; rfl) 3 .push _ rfl (by rw [install]; rfl)
  rw [← unique _ sum] at stepped
  refine ⟨start,made,loaded,?_⟩
  rw [stepped,install]
  rfl

end WordMachine
