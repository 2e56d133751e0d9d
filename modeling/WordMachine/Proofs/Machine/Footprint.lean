import WordMachine.Proofs.Machine.Stack
import WordMachine.Proofs.Machine.Transfers

-- What a step can change. Every instruction but CALL writes one word at most, and only once nothing more can be
-- refused: a step that fails has changed no byte, however many words it popped and read before.

namespace WordMachine

namespace Machine

-- CALL writes in several places and is not covered here.
def storePlace? (before after : Machine) (operand : Word) : Instruction → Option Word
  | .push | .pip | .psp | .pms | .cps | .cpos | .add | .sub | .mul | .lsf | .rsf | .and | .or | .xor | .not
  | .inc | .dec | .ret => some after.registers.sp
  | .pmf => some (before.registers.fp + before.memory.word (before.registers.sp + 2))
  | .msm => some before.top
  | .smv => some (before.registers.fp - operand)
  | _ => none

end Machine

namespace Microcode

variable {α β : Type} {m : Machine} {place? : Machine → Option Word}

structure Stores (x : Microcode α) (m : Machine) (place? : Machine → Option Word) : Prop where
  failed : ∀ fault n, x.run m = ⟨.error fault,n⟩ → n.memory = m.memory
  ended : ∀ value n, x.run m = ⟨.ok value,n⟩ → n.memory = m.memory ∨
    ∃ place word, place? n = some place ∧ n.memory = m.memory.setWord place word

theorem Stores.nothing {x : Microcode α} (quiet : (x.run m).machine.memory = m.memory) : x.Stores m place? := by
  constructor
  · intro fault n failed
    rwa [failed] at quiet
  · intro value n ended
    rw [ended] at quiet
    exact .inl quiet

theorem writeWord_stores {address value : Word}
    (there : place? {m with memory := m.memory.setWord address value} = some address) :
    (writeWord address value).Stores m place? := by
  constructor
  · intro fault n failed
    unfold writeWord run at failed
    split at failed
    · cases failed
      rfl
    · cases failed
  · intro _ n ended
    rw [writeWord_ended ended]
    exact .inr ⟨address,value,there,rfl⟩

theorem Stores.after {x : Microcode α} {f : α → Microcode β} (quiet : (x.run m).machine.memory = m.memory)
    (rest : ∀ value n, x.run m = ⟨.ok value,n⟩ → (f value).Stores n place?) : (x >>= f).Stores m place? := by
  cases ran : x.run m with
  | mk result middle =>
    rw [ran] at quiet
    constructor
    · intro fault n failed
      rw [run_andThen,ran] at failed
      cases result with
      | error fault =>
        cases failed
        exact quiet
      | ok value => exact ((rest value middle ran).failed fault n failed).trans quiet
    · intro last n ended
      rw [run_andThen,ran] at ended
      cases result with
      | error fault => cases ended
      | ok value =>
        have stored := (rest value middle ran).ended last n ended
        rwa [quiet] at stored

theorem Stores.registers_then {f : Registers → Microcode β} (rest : (f m.registers).Stores m place?) :
    (registers >>= f).Stores m place? := by
  apply Stores.after rfl
  intro r n ended
  cases ended
  exact rest

theorem Stores.setRegisters_then {change : Registers → Registers} {f : Unit → Microcode β}
    (rest : (f ()).Stores {m with registers := change m.registers} place?) :
    (setRegisters change >>= f).Stores m place? := by
  apply Stores.after rfl
  intro _ n ended
  cases ended
  exact rest

theorem Stores.readWord_then {address : Word} {f : Word → Microcode β}
    (rest : (f (m.memory.word address)).Stores m place?) : (readWord address >>= f).Stores m place? := by
  apply Stores.after
  · unfold readWord run
    split <;> rfl
  · intro value n ended
    obtain ⟨rfl,rfl⟩ := readWord_ended ended
    exact rest

theorem Stores.pop_then {f : Word → Microcode β} (rest : (f m.top).Stores (m.popped 1) place?) :
    (pop >>= f).Stores m place? := by
  apply Stores.after
  · simp only [pop,run_andThen,run_registers,Outcome.andThen_ok,readWord,run]
    split <;> rfl
  · intro value n ended
    obtain ⟨rfl,rfl⟩ := pop_ended ended
    exact rest

-- The frame size is counted up after the write, which is still the last thing that may be refused.
theorem push_stores (value : Word) : (push value).Stores m fun n => some n.registers.sp := by
  constructor
  · intro fault n failed
    simp only [push,run_andThen,run_setRegisters,run_registers,Outcome.andThen_ok,writeWord,run] at failed
    split at failed
    · cases failed
      rfl
    · cases failed
  · intro _ n ended
    cases push_ended ended
    exact .inr ⟨_,value,rfl,rfl⟩

theorem binary_stores (f : Word → Word → Word) : (binary f).Stores m fun n => some n.registers.sp :=
  .pop_then (.pop_then (push_stores _))

theorem updateTop_stores (f : Word → Word) : (updateTop f).Stores m fun n => some n.registers.sp :=
  .registers_then (.readWord_then (writeWord_stores rfl))

theorem pushLocal_stores (offset : Word) : (pushLocal offset).Stores m fun n => some n.registers.sp :=
  .registers_then (.readWord_then (push_stores _))

theorem jumpIf_stores (condition : Word → Bool) : (jumpIf condition).Stores m place? := by
  refine .pop_then (.pop_then ?_)
  split
  · exact .nothing rfl
  · exact .nothing rfl

theorem jumpComparing_stores (condition : Word → Word → Bool) : (jumpComparing condition).Stores m place? := by
  refine .pop_then (.pop_then (.pop_then ?_))
  split
  · exact .nothing rfl
  · exact .nothing rfl

theorem ret_stores : ret.Stores m fun n => some n.registers.sp :=
  .registers_then (.readWord_then (.readWord_then (.readWord_then (.setRegisters_then (push_stores _)))))

theorem ofInstruction_stores {i : Instruction} (noCall : i ≠ .call) (operand : Word) :
    (ofInstruction i operand).Stores m fun n => m.storePlace? n operand i := by
  cases i with
  | push => exact push_stores operand
  | pip | psp => exact .registers_then (push_stores _)
  | pms => exact .pop_then (.readWord_then (push_stores _))
  | pmf => exact .pop_then (.pop_then (.readWord_then (.registers_then (writeWord_stores rfl))))
  | cps => exact pushLocal_stores operand
  | add | mul | sub | lsf | rsf | and | or | xor => exact binary_stores _
  | inc | dec => exact updateTop_stores _
  | not => exact .pop_then (push_stores _)
  | call => exact absurd rfl noCall
  | ret => exact ret_stores
  | isp | dsp | iip | dip | halt | dbg | nop => exact .nothing rfl
  | ssp | jmp => exact .pop_then (.nothing rfl)
  | jnz | jz => exact jumpIf_stores _
  | jeq | jne | jgt | jlt | jge | jle => exact jumpComparing_stores _
  | msm => exact .pop_then (.registers_then (.readWord_then (writeWord_stores rfl)))
  | smv => exact .pop_then (.registers_then (writeWord_stores rfl))
  | cpos => exact .pop_then (pushLocal_stores _)

end Microcode

namespace Machine

open Microcode

variable {m n : Machine} {i : Instruction} {fault : Fault}

theorem storePlace?_past (m n : Machine) (operand : Word) (i j : Instruction) :
    (m.past i).storePlace? n operand j = m.storePlace? n operand j := by
  cases j <;> rfl

theorem step_stores (stepped : m.step = ⟨.ok (some i),n⟩) (noCall : i ≠ .call) :
    n.memory = m.memory ∨ ∃ place word, m.storePlace? n (m.storedOperand i) i = some place ∧
      n.memory = m.memory.setWord place word := by
  obtain ⟨_,_,ended⟩ := step_executed stepped
  have stored := (ofInstruction_stores noCall (m.storedOperand i)).ended () n ended
  rwa [storePlace?_past] at stored

theorem step_bytes (stepped : m.step = ⟨.ok (some i),n⟩) (noCall : i ≠ .call) {x : Word}
    (changed : n.memory.byte x ≠ m.memory.byte x) :
    ∃ place, m.storePlace? n (m.storedOperand i) i = some place ∧ (x = place ∨ x = place + 1) := by
  rcases step_stores stepped noCall with same | ⟨place,word,there,stored⟩
  · exact absurd (congrArg (·.byte x) same) changed
  · refine ⟨place,there,?_⟩
    by_cases low : x = place
    · exact .inl low
    · by_cases high : x = place + 1
      · exact .inr high
      · rw [stored,Memory.byte_setWord _ _ _ _ low high] at changed
        exact absurd rfl changed

theorem running_of_failed (failed : m.step = ⟨.error fault,n⟩) : m.halted = false := by
  cases running : m.halted with
  | false => rfl
  | true =>
    rw [step_halted running] at failed
    cases failed

theorem step_failed (failed : m.step = ⟨.error fault,n⟩) (noCall : ¬m.Fetches .call) : n.memory = m.memory := by
  have running := running_of_failed failed
  rcases fetches_or_stuck running with ⟨i,fetches⟩ | stuck
  · have other : i ≠ .call := by
      intro same
      exact noCall (same ▸ fetches)
    rw [step_of_fetches running fetches] at failed
    have stopped : (ofInstruction i (m.storedOperand i)).run (m.past i) = ⟨.error fault,n⟩ :=
      Outcome.map_eq_error failed
    exact (ofInstruction_stores (m := m.past i) other _).failed fault n stopped
  · rw [← stuck.kept.1,next,failed]

theorem next_fp (changed : m.next.registers.fp ≠ m.registers.fp) : m.Fetches .call ∨ m.Fetches .ret := by
  cases running : m.halted with
  | true =>
    rw [next,step_halted running] at changed
    exact absurd rfl changed
  | false =>
    rcases fetches_or_stuck running with ⟨i,fetches⟩ | stuck
    · by_cases call : i = .call
      · exact .inl (call ▸ fetches)
      · by_cases ret : i = .ret
        · exact .inr (ret ▸ fetches)
        · rw [next,step_of_fetches running fetches] at changed
          exact absurd (execute_fp call ret _) changed
    · exact absurd stuck.kept.2.1 changed

theorem next_halted (halted : m.next.halted = true) : m.halted = true ∨ m.step.result = .ok (some .halt) := by
  cases running : m.halted with
  | true => exact .inl rfl
  | false =>
    right
    rcases fetches_or_stuck running with ⟨i,fetches⟩ | stuck
    · rw [next,step_of_fetches running fetches] at halted
      rw [step_of_fetches running fetches]
      by_cases halt : i = .halt
      · subst halt
        rfl
      · rw [execute_halted halt,running] at halted
        cases halted
    · rw [stuck.kept.2.2,running] at halted
      cases halted

theorem failed_halted (failed : m.step = ⟨.error fault,n⟩) : n.halted = m.halted := by
  rw [running_of_failed failed]
  cases halted : n.halted with
  | false => rfl
  | true =>
    have after : m.next.halted = true := by rw [next,failed,halted]
    rcases next_halted after with before | ended
    · rw [running_of_failed failed] at before
      cases before
    · rw [failed] at ended
      cases ended

end Machine

-- Under either guard. A CALL that fails may have written before; that is left open.
theorem step_footprint (m : Machine) :
    (∀ i n, m.step = ⟨.ok (some i),n⟩ → i ≠ .call → ∀ x, n.memory.byte x ≠ m.memory.byte x →
      ∃ place, m.storePlace? n (m.storedOperand i) i = some place ∧ (x = place ∨ x = place + 1)) ∧
    (m.next.registers.fp ≠ m.registers.fp → m.Fetches .call ∨ m.Fetches .ret) ∧
    (m.next.halted = true → m.halted = true ∨ m.step.result = .ok (some .halt)) ∧
    m.next.entry = m.entry ∧ m.next.code = m.code ∧
    ∀ fault n, m.step = ⟨.error fault,n⟩ →
      n.halted = m.halted ∧ (¬m.Fetches .call → n.memory = m.memory) := by
  obtain ⟨_,code,entry⟩ := m.next_setup
  refine ⟨?_,Machine.next_fp,Machine.next_halted,entry,code,?_⟩
  · intro i n stepped noCall x changed
    exact Machine.step_bytes stepped noCall changed
  · intro fault n failed
    exact ⟨Machine.failed_halted failed,Machine.step_failed failed⟩

-- PMF with the address 0x300 and the offset 0x0F on the stack: the word goes to the last address and to the first.
def wrappingStore : Machine :=
  {Machine.new {} with
    memory := (((Memory.zero.setByte 0x100 0x05).setWord 0x200 0x300).setWord 0x202 0x0F).setWord 0x300 0xBEEF
    registers := {ip := 0x100,sp := 0x200,fp := 0xFFF0,fs := 0}}

def refusedPush : Machine :=
  {Machine.new ⟨.strict,none⟩ with
    memory := (Memory.zero.setByte 0 0x01).setByte 1 7
    code := ⟨0,3⟩
    registers := {ip := 0,sp := 4,fp := 4,fs := 0}}

theorem wrappingStore_footprint :
    wrappingStore.step = ⟨.ok (some .pmf),wrappingStore.next⟩ ∧
      wrappingStore.next.memory.byte 0xFFFF = 0xEF ∧ wrappingStore.next.memory.byte 0 = 0xBE ∧
      (∀ x, x ≠ 0xFFFF → x ≠ 0 → wrappingStore.next.memory.byte x = wrappingStore.memory.byte x) ∧
      refusedPush.step = ⟨.error (.memoryFault "write into code" 2),refusedPush.next⟩ ∧
      refusedPush.next.registers.sp = 2 ∧ refusedPush.next.memory = refusedPush.memory := by
  have stepped : wrappingStore.step = ⟨.ok (some .pmf),wrappingStore.next⟩ := rfl
  have failed : refusedPush.step = ⟨.error (.memoryFault "write into code" 2),refusedPush.next⟩ := rfl
  obtain ⟨stores,_⟩ := step_footprint wrappingStore
  obtain ⟨_,_,_,_,_,fails⟩ := step_footprint refusedPush
  refine ⟨stepped,rfl,rfl,?_,failed,rfl,(fails _ _ failed).2 ?_⟩
  · intro x last first
    by_contra changed
    obtain ⟨place,there,here⟩ := stores _ _ stepped (by decide) x changed
    have same : place = 0xFFFF := (Option.some.inj there).symm
    rw [same] at here
    exact here.elim last first
  · intro fetches
    exact absurd fetches.opcode (by decide)

end WordMachine
