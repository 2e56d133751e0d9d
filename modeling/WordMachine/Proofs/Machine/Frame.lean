import WordMachine.Proofs.Machine.Calls
import WordMachine.Proofs.Machine.Loaded

-- Nothing checks the frame size while a program runs, and RET relies on it for the caller's frame pointer. All that can
-- break it are the instructions that move the stack pointer alone.

namespace WordMachine

def Registers.Framed (r : Registers) : Prop := r.sp + r.fs = r.fp

instance (r : Registers) : Decidable r.Framed := inferInstanceAs (Decidable (r.sp + r.fs = r.fp))

namespace Microcode

variable {α β : Type}

-- A push that is refused does not see to this, so nothing is said about failures.
def Balanced (x : Microcode α) : Prop :=
  ∀ m value n, x.run m = ⟨.ok value,n⟩ →
    n.registers.sp + n.registers.fs = m.registers.sp + m.registers.fs

theorem Balanced.then {x : Microcode α} {f : α → Microcode β} (first : x.Balanced)
    (rest : ∀ value, (f value).Balanced) : (x >>= f).Balanced := by
  intro m value n ended
  rw [run_andThen] at ended
  obtain ⟨middle,between,started,ended⟩ := Outcome.andThen_eq_ok ended
  rw [rest middle between value n ended,first m middle between started]

theorem pure_balanced (value : α) : (pure value : Microcode α).Balanced := by
  intro m _ n ended
  cases ended
  rfl

theorem registers_balanced : registers.Balanced := by
  intro m _ n ended
  cases ended
  rfl

theorem readWord_balanced (address : Word) : (readWord address).Balanced := by
  intro m _ n ended
  obtain ⟨_,rfl⟩ := readWord_ended ended
  rfl

theorem writeWord_balanced (address value : Word) : (writeWord address value).Balanced := by
  intro m _ n ended
  cases writeWord_ended ended
  rfl

theorem setRegisters_balanced {change : Registers → Registers}
    (kept : ∀ r, (change r).sp + (change r).fs = r.sp + r.fs) : (setRegisters change).Balanced := by
  intro m _ n ended
  cases ended
  exact kept m.registers

theorem pop_balanced : pop.Balanced := by
  intro m _ n ended
  obtain ⟨_,rfl⟩ := pop_ended ended
  simp only [Machine.popped]
  grind

theorem push_balanced (value : Word) : (push value).Balanced := by
  intro m _ n ended
  cases push_ended ended
  simp only [Machine.pushed]
  grind

theorem jump_balanced (target : Word) : (jump target).Balanced := setRegisters_balanced fun _ => rfl

theorem binary_balanced (f : Word → Word → Word) : (binary f).Balanced :=
  pop_balanced.then fun a => pop_balanced.then fun b => push_balanced (f a b)

theorem updateTop_balanced (f : Word → Word) : (updateTop f).Balanced :=
  registers_balanced.then fun r => (readWord_balanced r.sp).then fun value =>
    writeWord_balanced r.sp (f value)

theorem jumpIf_balanced (condition : Word → Bool) : (jumpIf condition).Balanced := by
  refine pop_balanced.then fun target => pop_balanced.then fun tested => ?_
  split
  · exact jump_balanced target
  · exact pure_balanced ()

theorem jumpComparing_balanced (condition : Word → Word → Bool) : (jumpComparing condition).Balanced := by
  refine pop_balanced.then fun target => pop_balanced.then fun compared => pop_balanced.then fun tested => ?_
  split
  · exact jump_balanced target
  · exact pure_balanced ()

theorem pushLocal_balanced (offset : Word) : (pushLocal offset).Balanced :=
  registers_balanced.then fun r => (readWord_balanced (r.fp - offset)).then push_balanced

end Microcode

namespace Instruction

def movesStackOnly : Instruction → Bool
  | isp | dsp | ssp => true
  | _ => false

end Instruction

theorem Microcode.ofInstruction_balanced {i : Instruction} (operand : Word)
    (both : i.movesStackOnly = false) (noCall : i ≠ .call) (noRet : i ≠ .ret) :
    (ofInstruction i operand).Balanced := by
  cases i with
  | push => exact push_balanced operand
  | pip => exact registers_balanced.then fun r => push_balanced r.ip
  | psp => exact registers_balanced.then fun r => push_balanced r.sp
  | pms => exact pop_balanced.then fun address => (readWord_balanced address).then push_balanced
  | pmf =>
    exact pop_balanced.then fun address => pop_balanced.then fun offset =>
      (readWord_balanced address).then fun value => registers_balanced.then fun r =>
        writeWord_balanced (r.fp + offset) value
  | cps => exact pushLocal_balanced operand
  | add | mul | sub | lsf | rsf | and | or | xor => exact binary_balanced _
  | inc | dec => exact updateTop_balanced _
  | not => exact pop_balanced.then fun value => push_balanced (~~~value)
  | call => exact absurd rfl noCall
  | ret => exact absurd rfl noRet
  | isp | dsp | ssp => cases both
  | iip | dip => exact setRegisters_balanced fun _ => rfl
  | halt =>
    intro m _ n ended
    cases ended
    rfl
  | dbg | nop => exact pure_balanced ()
  | jnz | jz => exact jumpIf_balanced _
  | jmp => exact pop_balanced.then jump_balanced
  | jeq | jne | jgt | jlt | jge | jle => exact jumpComparing_balanced _
  | msm =>
    exact pop_balanced.then fun address => registers_balanced.then fun r =>
      (readWord_balanced r.sp).then fun value => writeWord_balanced address value
  | smv =>
    exact pop_balanced.then fun value => registers_balanced.then fun r =>
      writeWord_balanced (r.fp - operand) value
  | cpos => exact pop_balanced.then pushLocal_balanced

namespace Machine

variable {m n : Machine} {executed : Option Instruction}

-- CALL and RET compute all three registers anew, so they do not need what they establish.
theorem call_framed (stepped : m.step = ⟨.ok (some .call),n⟩) : n.registers.Framed := by
  rw [Registers.Framed,(step_call stepped).2]
  rfl

theorem ret_framed (stepped : m.step = ⟨.ok (some .ret),n⟩) : n.registers.Framed := by
  rw [Registers.Framed,(step_ret stepped).2]
  grind

theorem step_framed (framed : m.registers.Framed) (stepped : m.step = ⟨.ok executed,n⟩)
    (both : ∀ i, executed = some i → i.movesStackOnly = false) : n.registers.Framed := by
  by_cases called : executed = some .call
  · subst called
    exact call_framed stepped
  · by_cases returned : executed = some .ret
    · subst returned
      exact ret_framed stepped
    · have pointer := step_fp stepped called returned
      cases executed with
      | none =>
        obtain ⟨_,rfl⟩ := step_idle stepped
        exact framed
      | some i =>
        obtain ⟨_,_,ended⟩ := step_executed stepped
        have balanced := Microcode.ofInstruction_balanced (m.storedOperand i) (both i rfl)
          (fun same => called (congrArg some same)) fun same => returned (congrArg some same)
        rw [Registers.Framed,pointer,balanced _ _ _ ended]
        exact framed

inductive Fresh : Machine → Prop where
  | new (config : Config) : Fresh (new config)
  | loaded {m start : Machine} {image : List Byte} : m.load image = .ok start → Fresh start

theorem Fresh.framed (fresh : m.Fresh) : m.registers.Framed := by
  cases fresh with
  | new config => rfl
  | loaded loaded =>
    obtain ⟨_,_,rfl⟩ := load_eq_ok.mp loaded
    rfl

end Machine

theorem Ran.framed {start last : Machine} {events : List Event} (ran : Ran start events last)
    (framed : start.registers.Framed)
    (both : ∀ e ∈ events, ∀ i, e.executed = some i → i.movesStackOnly = false) :
    last.registers.Framed := by
  induction ran with
  | nil => exact framed
  | @step m n earlier executed _ stepped ih =>
    have before := ih fun e member => both e (List.mem_append_left _ member)
    exact Machine.step_framed before stepped (both ⟨m,executed⟩ (by simp))

theorem Ran.framed_before {start last : Machine} {events : List Event} (ran : Ran start events last)
    (framed : start.registers.Framed)
    (both : ∀ e ∈ events, ∀ i, e.executed = some i → i.movesStackOnly = false) :
    ∀ e ∈ events, e.machine.registers.Framed := by
  induction ran with
  | nil => simp
  | @step m n earlier executed before _ ih =>
    have others := fun e member => both e (List.mem_append_left _ member)
    intro e member
    rcases List.mem_append.mp member with old | here
    · exact ih others e old
    · cases List.mem_singleton.mp here
      exact before.framed framed others

theorem frame_registers_agree :
    (∀ start events last, Machine.Fresh start → Ran start events last →
      (∀ e ∈ events, e.executed ≠ some .isp ∧ e.executed ≠ some .dsp ∧ e.executed ≠ some .ssp) →
        last.registers.sp + last.registers.fs = last.registers.fp ∧
        ∀ e ∈ events, e.machine.registers.sp + e.machine.registers.fs = e.machine.registers.fp) ∧
    (∀ m n : Machine, m.step = ⟨.ok (some .call),n⟩ ∨ m.step = ⟨.ok (some .ret),n⟩ →
      n.registers.sp + n.registers.fs = n.registers.fp) := by
  refine ⟨?_,?_⟩
  · intro start events last fresh ran none
    have both : ∀ e ∈ events, ∀ i, e.executed = some i → i.movesStackOnly = false := by
      intro e member i executed
      obtain ⟨isp,dsp,ssp⟩ := none e member
      rw [executed] at isp dsp ssp
      cases i <;> first | rfl | contradiction
    exact ⟨ran.framed fresh.framed both,ran.framed_before fresh.framed both⟩
  · rintro m n (called | returned)
    · exact Machine.call_framed called
    · exact Machine.ret_framed returned

-- PUSH 0, PUSH 7, CALL and there, at 7, PUSH 9, RET.
def callingImage : List Byte :=
  magic.bytes ++ terminator.bytes ++ [0x0C,0x00,0x0B,0x00] ++
    [0x01,0x00,0x00,0x01,0x07,0x00,0x12,0x01,0x09,0x00,0x13]

def calling : Machine := (Machine.new ⟨.strict,none⟩).install ⟨[],12,11⟩ callingImage

def brokenFrame : Machine := {nestedCall with registers := {nestedCall.registers with fs := 9}}

theorem calling_frame_agrees :
    (Machine.new ⟨.strict,none⟩).load callingImage = .ok calling ∧
      calling.next.next.next.next.next.registers.Framed ∧
      ¬brokenFrame.registers.Framed ∧ brokenFrame.next.registers.Framed := by
  have loaded : (Machine.new ⟨.strict,none⟩).load callingImage = .ok calling := rfl
  have ran : Ran calling [⟨calling,some .push⟩,⟨calling.next,some .push⟩,⟨calling.next.next,some .call⟩,
      ⟨calling.next.next.next,some .push⟩,⟨calling.next.next.next.next,some .ret⟩]
      calling.next.next.next.next.next :=
    ((((Ran.nil.next rfl).next rfl).next rfl).next rfl).next rfl
  obtain ⟨runs,restored⟩ := frame_registers_agree
  refine ⟨loaded,(runs _ _ _ (.loaded loaded) ran (by simp)).1,by decide,?_⟩
  exact restored brokenFrame _ (.inl rfl)

end WordMachine
