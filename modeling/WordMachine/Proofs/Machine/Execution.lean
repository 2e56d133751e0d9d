import WordMachine.Machine.Step
import WordMachine.Proofs.Machine.Actions

-- A step is the fetch of an instruction followed by its actions. Both halves are stated here on their
-- own, so that what follows need not look inside a fetch or a handler again.

namespace WordMachine

theorem Violation.name_inj {left right : Violation} : left.name = right.name ↔ left = right := by
  cases left <;> cases right <;> simp [name]

-- Only CALL and RET move the frame pointer, only HALT halts, and none of them looks at the code.
def Action.Handled (i : Instruction) : Action → Prop
  | .fail _ => False
  | .access (.fetch _) => False
  | .access _ => True
  | .adjust change => i = .call ∨ i = .ret ∨ ∀ r, (change r).fp = r.fp
  | .retire => False
  | .halt => i = .halt

namespace Microcode

variable {i : Instruction}

theorem pop_handled : pop.Every (Action.Handled i) fun _ => True :=
  fun _ => ⟨trivial,fun _ => ⟨.inr (.inr fun _ => rfl),trivial⟩⟩

theorem push_handled (value : Word) : (push value).Every (Action.Handled i) fun _ => True :=
  ⟨.inr (.inr fun _ => rfl),fun _ => ⟨trivial,.inr (.inr fun _ => rfl),trivial⟩⟩

theorem setRegisters_handled {change : Registers → Registers} (kept : ∀ r, (change r).fp = r.fp) :
    (setRegisters change).Every (Action.Handled i) fun _ => True :=
  ⟨.inr (.inr kept),trivial⟩

theorem jump_handled (target : Word) : (jump target).Every (Action.Handled i) fun _ => True :=
  setRegisters_handled fun _ => rfl

theorem popMany_handled (count : Nat) (taken : List Word) :
    (popMany count taken).Every (Action.Handled i) fun _ => True := by
  induction count generalizing taken with
  | zero => trivial
  | succ count ih => exact pop_handled.then fun value => ih (value :: taken)

theorem pushMany_handled (values : List Word) :
    (pushMany values).Every (Action.Handled i) fun _ => True := by
  induction values with
  | nil => trivial
  | cons value rest ih => exact (push_handled value).then fun _ => ih

theorem binary_handled (f : Word → Word → Word) :
    (binary f).Every (Action.Handled i) fun _ => True :=
  pop_handled.then fun a => pop_handled.then fun b => push_handled (f a b)

theorem updateTop_handled (f : Word → Word) :
    (updateTop f).Every (Action.Handled i) fun _ => True :=
  fun _ => ⟨trivial,fun _ => ⟨trivial,trivial⟩⟩

theorem jumpIf_handled (condition : Word → Bool) :
    (jumpIf condition).Every (Action.Handled i) fun _ => True := by
  refine pop_handled.then fun target => pop_handled.then fun tested => ?_
  split
  · exact jump_handled target
  · trivial

theorem jumpComparing_handled (condition : Word → Word → Bool) :
    (jumpComparing condition).Every (Action.Handled i) fun _ => True := by
  refine pop_handled.then fun target => pop_handled.then fun compared => pop_handled.then fun tested => ?_
  split
  · exact jump_handled target
  · trivial

theorem pushLocal_handled (offset : Word) :
    (pushLocal offset).Every (Action.Handled i) fun _ => True :=
  fun _ => ⟨trivial,push_handled⟩

theorem call_handled : call.Every (Action.Handled .call) fun _ => True := by
  intro atCall
  refine pop_handled.then fun target => pop_handled.then fun count => ?_
  refine (popMany_handled count.toNat []).then fun arguments popped => ?_
  refine (push_handled popped.fs).then fun _ => (push_handled atCall.ip).then fun _ => ?_
  exact ⟨.inl rfl,(pushMany_handled arguments).then fun _ => jump_handled target⟩

theorem ret_handled : ret.Every (Action.Handled .ret) fun _ => True :=
  fun _ => ⟨trivial,fun value => ⟨trivial,fun _ => ⟨trivial,fun _ =>
    ⟨.inr (.inl rfl),push_handled value⟩⟩⟩⟩

theorem ofInstruction_handled (i : Instruction) (operand : Word) :
    (ofInstruction i operand).Every (Action.Handled i) fun _ => True := by
  cases i with
  | push => exact push_handled operand
  | pip => exact fun r => push_handled r.ip
  | psp => exact fun r => push_handled r.sp
  | pms => exact pop_handled.then fun _ => ⟨trivial,push_handled⟩
  | pmf => exact pop_handled.then fun _ => pop_handled.then fun _ => ⟨trivial,fun _ _ => ⟨trivial,trivial⟩⟩
  | cps => exact pushLocal_handled operand
  | add | mul | sub | lsf | rsf | and | or | xor => exact binary_handled _
  | inc | dec => exact updateTop_handled _
  | not => exact pop_handled.then fun value => push_handled (~~~value)
  | call => exact call_handled
  | ret => exact ret_handled
  | isp | dsp | iip | dip => exact setRegisters_handled fun _ => rfl
  | ssp => exact pop_handled.then fun _ => setRegisters_handled fun _ => rfl
  | halt => exact ⟨rfl,trivial⟩
  | dbg | nop => trivial
  | jnz | jz => exact jumpIf_handled _
  | jmp => exact pop_handled.then jump_handled
  | jeq | jne | jgt | jlt | jge | jle => exact jumpComparing_handled _
  | msm => exact pop_handled.then fun _ _ => ⟨trivial,fun _ => ⟨trivial,trivial⟩⟩
  | smv => exact pop_handled.then fun _ _ => ⟨trivial,trivial⟩
  | cpos => exact pop_handled.then pushLocal_handled

theorem nextByte_allowed {m : Machine} (allowed : m.refuse? (.fetch m.registers.ip) = none) :
    nextByte.run m = ⟨.ok (m.memory.byte m.registers.ip),
      {m with registers := {m.registers with ip := m.registers.ip + 1}}⟩ := by
  simp [nextByte,run,allowed]

theorem nextByte_taken {m n : Machine} {b : Byte} (taken : nextByte.run m = ⟨.ok b,n⟩) :
    m.refuse? (.fetch m.registers.ip) = none ∧ b = m.memory.byte m.registers.ip ∧
      n = {m with registers := {m.registers with ip := m.registers.ip + 1}} := by
  cases asked : m.refuse? (.fetch m.registers.ip) with
  | none =>
    rw [nextByte_allowed asked] at taken
    cases taken
    exact ⟨rfl,rfl,rfl⟩
  | some fault => simp [nextByte,run,asked] at taken

theorem nextWord_allowed {m : Machine} (first : m.refuse? (.fetch m.registers.ip) = none)
    (second : m.refuse? (.fetch (m.registers.ip + 1)) = none) :
    nextWord.run m = ⟨.ok (m.memory.word m.registers.ip),
      {m with registers := {m.registers with ip := m.registers.ip + 1 + 1}}⟩ := by
  rw [nextWord,run_andThen,nextByte_allowed first,Outcome.andThen_ok,run_andThen,nextByte_allowed second]
  rfl

theorem nextWord_taken {m n : Machine} {w : Word} (taken : nextWord.run m = ⟨.ok w,n⟩) :
    m.refuse? (.fetch m.registers.ip) = none ∧ m.refuse? (.fetch (m.registers.ip + 1)) = none ∧
      w = m.memory.word m.registers.ip ∧
      n = {m with registers := {m.registers with ip := m.registers.ip + 1 + 1}} := by
  rw [nextWord,run_andThen] at taken
  obtain ⟨lo,middle,low,taken⟩ := Outcome.andThen_eq_ok taken
  obtain ⟨first,rfl,rfl⟩ := nextByte_taken low
  rw [run_andThen] at taken
  obtain ⟨hi,last,high,taken⟩ := Outcome.andThen_eq_ok taken
  obtain ⟨second,rfl,rfl⟩ := nextByte_taken high
  cases taken
  exact ⟨first,second,rfl,rfl⟩

def FailsUnimplemented : Action → Prop
  | .fail fault => ∃ opcode address, fault = .unimplementedOpcode opcode address
  | _ => True

theorem nextByte_fails : nextByte.Every FailsUnimplemented fun _ => True :=
  fun _ => ⟨trivial,fun _ => ⟨trivial,trivial⟩⟩

theorem nextWord_fails : nextWord.Every FailsUnimplemented fun _ => True :=
  nextByte_fails.then fun _ => nextByte_fails.then fun _ => trivial

theorem cycle_fails : cycle.Every FailsUnimplemented fun _ => True := by
  intro r
  refine nextByte_fails.then fun opcode => ?_
  split
  · exact ⟨opcode,r.ip,rfl⟩
  · rename_i i _
    have handled : ∀ operand, (do ofInstruction i operand; return i : Microcode Instruction).Every
        FailsUnimplemented fun _ => True := by
      intro operand
      refine ((ofInstruction_handled i operand).mono ?_ fun _ ok => ok).then fun _ => trivial
      intro action allowed
      cases action <;> trivial
    refine ⟨trivial,?_⟩
    split
    · exact nextWord_fails.then handled
    · exact handled 0

end Microcode

namespace Machine

open Microcode

variable {m n : Machine} {i : Instruction} {executed : Option Instruction}

def past (m : Machine) (i : Instruction) : Machine :=
  {m with
    registers := {m.registers with ip := m.registers.ip + UInt16.ofNat i.size}
    steps := m.steps + 1}

def execute (m : Machine) (i : Instruction) (operand : Word) : Outcome (Option Instruction) :=
  ((ofInstruction i operand).run (m.past i)).map fun _ => some i

def storedOperand (m : Machine) (i : Instruction) : Word :=
  if i.hasOperand then m.memory.word (m.registers.ip + 1) else 0

structure Fetches (m : Machine) (i : Instruction) : Prop where
  opcode : m.memory.byte m.registers.ip = i.opcode
  allowed : ∀ k, k < i.size → m.refuse? (.fetch (m.registers.ip + UInt16.ofNat k)) = none

theorem step_halted (halted : m.halted = true) : m.step = ⟨.ok none,m⟩ := by
  simp [step,halted]

theorem step_running (running : m.halted = false) : m.step = (cycle.run m).map some := by
  simp only [step,running,Bool.false_eq_true,if_false]
  split <;> rename_i ended <;> rw [ended] <;> rfl

theorem cycle_of_fetches (fetches : m.Fetches i) :
    cycle.run m = ((ofInstruction i (m.storedOperand i)).run (m.past i)).map fun _ => i := by
  have first : m.refuse? (.fetch m.registers.ip) = none := by
    simpa using fetches.allowed 0 i.size_pos
  cases operand : i.hasOperand with
  | false =>
    simp [cycle,nextByte_allowed first,fetches.opcode,operand,Outcome.andThen_pure,storedOperand,past,
      Instruction.size]
  | true =>
    have size : i.size = 3 := by simp [Instruction.size,operand]
    have second := fetches.allowed 1 (by omega)
    have third := fetches.allowed 2 (by omega)
    have word : nextWord.run {m with
        registers := {m.registers with ip := m.registers.ip + 1},steps := m.steps + 1} = _ :=
      nextWord_allowed second (by rw [UInt16.add_assoc]; exact third)
    simp [cycle,nextByte_allowed first,fetches.opcode,operand,word,Outcome.andThen_pure,storedOperand,
      past,size,UInt16.add_assoc]

theorem step_of_fetches (running : m.halted = false) (fetches : m.Fetches i) :
    m.step = m.execute i (m.storedOperand i) := by
  rw [step_running running,cycle_of_fetches fetches,Outcome.map_map]
  rfl

theorem fetches_of_allowed (opcode : m.memory.byte m.registers.ip = i.opcode)
    (first : m.refuse? (.fetch m.registers.ip) = none)
    (operand : i.hasOperand = true → m.refuse? (.fetch (m.registers.ip + 1)) = none ∧
      m.refuse? (.fetch (m.registers.ip + 1 + 1)) = none) : m.Fetches i := by
  refine ⟨opcode,?_⟩
  intro k inside
  cases has : i.hasOperand with
  | false =>
    have only : k = 0 := by simp [Instruction.size,has] at inside; omega
    simpa [only] using first
  | true =>
    obtain ⟨second,third⟩ := operand has
    simp [Instruction.size,has] at inside
    rcases (by omega : k = 0 ∨ k = 1 ∨ k = 2) with rfl | rfl | rfl
    · simpa using first
    · exact second
    · rw [UInt16.add_assoc] at third
      exact third

theorem fetches_of_cycle (ended : cycle.run m = ⟨.ok i,n⟩) : m.Fetches i := by
  rw [cycle,run_andThen,run_registers,Outcome.andThen_ok,run_andThen] at ended
  obtain ⟨opcode,middle,fetched,ended⟩ := Outcome.andThen_eq_ok ended
  obtain ⟨first,rfl,rfl⟩ := nextByte_taken fetched
  cases found : Instruction.ofOpcode? (m.memory.byte m.registers.ip) with
  | none => simp [found,Microcode.run] at ended
  | some j =>
    have opcode := Instruction.opcode_eq_of_ofOpcode? found
    cases operand : j.hasOperand with
    | false =>
      simp [found,operand,Outcome.andThen_pure] at ended
      obtain ⟨_,rfl,_⟩ := Outcome.map_eq_ok ended
      exact fetches_of_allowed opcode.symm first (by simp [operand])
    | true =>
      simp [found,operand,Outcome.andThen_pure] at ended
      obtain ⟨word,last,taken,ended⟩ := Outcome.andThen_eq_ok ended
      obtain ⟨second,third,_,_⟩ := nextWord_taken taken
      obtain ⟨_,rfl,_⟩ := Outcome.map_eq_ok ended
      exact fetches_of_allowed opcode.symm first fun _ => ⟨second,third⟩

theorem step_executed (stepped : m.step = ⟨.ok (some i),n⟩) :
    m.halted = false ∧ m.Fetches i ∧
      (ofInstruction i (m.storedOperand i)).run (m.past i) = ⟨.ok (),n⟩ := by
  cases running : m.halted with
  | true => rw [step_halted running] at stepped; cases stepped
  | false =>
    rw [step_running running] at stepped
    obtain ⟨j,same,ended⟩ := Outcome.map_eq_ok stepped
    cases same
    have fetches := fetches_of_cycle ended
    rw [cycle_of_fetches fetches] at ended
    obtain ⟨_,_,handled⟩ := Outcome.map_eq_ok ended
    exact ⟨rfl,fetches,handled⟩

theorem step_idle (stepped : m.step = ⟨.ok none,n⟩) : m.halted = true ∧ n = m := by
  cases running : m.halted with
  | true => rw [step_halted running] at stepped; cases stepped; exact ⟨rfl,rfl⟩
  | false =>
    rw [step_running running] at stepped
    obtain ⟨_,impossible,_⟩ := Outcome.map_eq_ok stepped
    cases impossible

theorem refused_violation {access : Access} {fault : Fault} (refused : m.refuse? access = some fault) :
    ∃ violation, access.violation? m.code = some violation ∧
      fault = .memoryFault violation.name access.address := by
  unfold refuse? Guard.refuse? at refused
  split at refused
  · cases refused
  · obtain ⟨violation,found,rfl⟩ := Option.map_eq_some_iff.mp refused
    exact ⟨violation,found,rfl⟩

theorem execute_refused {operand : Word} {fault : Fault}
    (failed : (m.execute i operand).result = .error fault) :
    ∃ access, (∀ address, access ≠ .fetch address) ∧ m.refuse? access = some fault := by
  have handler : ((ofInstruction i operand).run (m.past i)).result = .error fault := by
    revert failed
    simp only [execute,Outcome.map]
    cases ((ofInstruction i operand).run (m.past i)).result <;> simp [Except.map]
  obtain impossible | ⟨access,handled,refused⟩ := run_failure (ofInstruction_handled i operand) handler
  · exact impossible.elim
  · refine ⟨access,?_,refused⟩
    rintro address rfl
    exact handled

theorem execute_fault {operand : Word} {fault : Fault}
    (failed : (m.execute i operand).result = .error fault) :
    ∃ violation address, violation ≠ Violation.fetchOutsideCode ∧
      fault = .memoryFault violation.name address := by
  obtain ⟨access,noFetch,refused⟩ := execute_refused failed
  obtain ⟨violation,found,rfl⟩ := refused_violation refused
  refine ⟨violation,access.address,?_,rfl⟩
  rintro rfl
  cases access with
  | fetch address => exact noFetch address rfl
  | read address => simp [Access.violation?] at found
  | write address =>
    simp only [Access.violation?] at found
    split at found
    · cases found
    · split at found <;> cases found

theorem execute_fp (noCall : i ≠ .call) (noRet : i ≠ .ret) (operand : Word) :
    (m.execute i operand).machine.registers.fp = m.registers.fp := by
  have keeps : Keeps (Action.Handled i) fun n => n.registers.fp = m.registers.fp := by
    refine ⟨fun _ _ _ held _ _ => held,?_,fun _ held _ => held,fun _ held _ => held⟩
    intro n change held allowed
    rcases allowed with called | returned | kept
    · exact absurd called noCall
    · exact absurd returned noRet
    · exact (kept _).trans held
  exact keeps.run (ofInstruction_handled i operand) (m := m.past i) rfl

theorem execute_halted (noHalt : i ≠ .halt) (operand : Word) :
    (m.execute i operand).machine.halted = m.halted := by
  have keeps : Keeps (Action.Handled i) fun n => n.halted = m.halted := by
    refine ⟨fun _ _ _ held _ _ => held,fun _ _ held _ => held,fun _ held _ => held,?_⟩
    intro n _ allowed
    exact absurd allowed noHalt
  exact keeps.run (ofInstruction_handled i operand) (m := m.past i) rfl

theorem step_keeps {P : Machine → Prop} (keeps : Keeps (fun _ => True) P) (start : P m) :
    P m.step.machine := by
  cases running : m.halted with
  | true => rw [step_halted running]; exact start
  | false =>
    rw [step_running running]
    exact keeps.run (every_true cycle) start

theorem step_failure {fault : Fault} (failed : m.step.result = .error fault) :
    (∃ opcode address, fault = .unimplementedOpcode opcode address) ∨
      ∃ access, m.refuse? access = some fault := by
  cases running : m.halted with
  | true => rw [step_halted running] at failed; cases failed
  | false =>
    rw [step_running running] at failed
    have ended : (cycle.run m).result = .error fault := by
      unfold Outcome.map at failed
      cases cause : (cycle.run m).result with
      | ok i => simp [cause,Except.map] at failed
      | error other => simpa [cause,Except.map] using failed
    rcases run_failure cycle_fails ended with unknown | ⟨access,_,refused⟩
    · exact .inl unknown
    · exact .inr ⟨access,refused⟩

end Machine

structure Event where
  machine : Machine
  executed : Option Instruction

inductive Ran : Machine → List Event → Machine → Prop where
  | nil {m : Machine} : Ran m [] m
  | step {origin m n : Machine} {earlier : List Event} {executed : Option Instruction} :
      Ran origin earlier m → m.step = ⟨.ok executed,n⟩ → Ran origin (earlier ++ [⟨m,executed⟩]) n

def Machine.next (m : Machine) : Machine := m.step.machine

namespace Machine

theorem step_eq {m : Machine} {outcome : Except Fault (Option Instruction)}
    (ended : m.step.result = outcome) : m.step = ⟨outcome,m.next⟩ := by
  rw [← ended]
  rfl

theorem next_setup (m : Machine) :
    m.next.config = m.config ∧ m.next.code = m.code ∧ m.next.entry = m.entry := by
  unfold next
  cases running : m.halted with
  | true => rw [step_halted running]; exact ⟨rfl,rfl,rfl⟩
  | false => rw [step_running running]; exact Microcode.run_setup cycle m

-- Steps that failed count as well.
def after (m : Machine) : Nat → Machine
  | 0 => m
  | count + 1 => (m.after count).next

theorem after_keeps {P : Machine → Prop} (keeps : Microcode.Keeps (fun _ => True) P) {m : Machine}
    (start : P m) (count : Nat) : P (m.after count) := by
  induction count with
  | zero => exact start
  | succ count ih => exact step_keeps keeps ih

end Machine

theorem Ran.next {origin m : Machine} {earlier : List Event} {executed : Option Instruction}
    (ran : Ran origin earlier m) (result : m.step.result = .ok executed) :
    Ran origin (earlier ++ [⟨m,executed⟩]) m.next := ran.step (Machine.step_eq result)

theorem Ran.stepped {origin last : Machine} {events : List Event} {e : Event} (ran : Ran origin events last)
    (member : e ∈ events) : e.machine.step.result = .ok e.executed := by
  induction ran with
  | nil => cases member
  | @step m n earlier executed _ stepped ih =>
    rcases List.mem_append.mp member with before | here
    · exact ih before
    · cases List.mem_singleton.mp here
      rw [stepped]

theorem Ran.last {origin last : Machine} {earlier : List Event} {e : Event}
    (ran : Ran origin (earlier ++ [e]) last) :
    Ran origin earlier e.machine ∧ e.machine.step = ⟨.ok e.executed,last⟩ := by
  generalize whole : earlier ++ [e] = events at ran
  cases ran with
  | nil => simp at whole
  | step before stepped =>
    obtain ⟨rfl,same⟩ := List.append_inj' whole rfl
    cases same
    exact ⟨before,stepped⟩

theorem Ran.keeps {P : Machine → Prop} {origin last : Machine} {events : List Event}
    (ran : Ran origin events last) (keeps : Microcode.Keeps (fun _ => True) P) (start : P origin) :
    P last := by
  induction ran with
  | nil => exact start
  | step _ stepped ih =>
    have after := Machine.step_keeps keeps ih
    rwa [stepped] at after

end WordMachine
