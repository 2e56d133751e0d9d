import WordMachine.Machine.Load
import WordMachine.Proofs.Machine.Execution

-- The guard only refuses. A strict machine and the same machine without a guard go through the same
-- states, step by step, up to the first refusal; without a guard nothing is refused at all.

namespace WordMachine

def Fault.OfMemory (fault : Fault) : Prop := ∃ access address, fault = .memoryFault access address

namespace Machine

def unguarded (m : Machine) : Machine := {m with config := {m.config with guard := .off}}

@[simp]
theorem refuse?_unguarded (m : Machine) (access : Access) : m.unguarded.refuse? access = none := rfl

theorem refused_ofMemory {m : Machine} {access : Access} {fault : Fault}
    (refused : m.refuse? access = some fault) : fault.OfMemory := by
  obtain ⟨violation,_,rfl⟩ := refused_violation refused
  exact ⟨_,_,rfl⟩

end Machine

def Event.unguarded (e : Event) : Event := ⟨e.machine.unguarded,e.executed⟩

def Run.unguarded (r : Run) : Run := {r with machine := r.machine.unguarded}

variable {α : Type} {m n : Machine} {fault : Fault}

-- The induction is on what is left to do and never on which instruction it belongs to.
theorem Microcode.run_unguarded (x : Microcode α) (m : Machine)
    (unrefused : ∀ fault, (x.run m).result = .error fault → ¬fault.OfMemory) :
    x.run m.unguarded = ⟨(x.run m).result,(x.run m).machine.unguarded⟩ := by
  induction x generalizing m with
  | done value => rfl
  | fail fault => rfl
  | fetch address next ih =>
    cases asked : m.refuse? (.fetch address) with
    | some fault => exact absurd (Machine.refused_ofMemory asked) (unrefused fault (by simp [run,asked]))
    | none =>
      simp only [run,asked,Machine.refuse?_unguarded] at unrefused ⊢
      exact ih _ m unrefused
  | read address next ih =>
    cases asked : m.refuse? (.read address) with
    | some fault => exact absurd (Machine.refused_ofMemory asked) (unrefused fault (by simp [run,asked]))
    | none =>
      simp only [run,asked,Machine.refuse?_unguarded] at unrefused ⊢
      exact ih _ m unrefused
  | write address value next ih =>
    cases asked : m.refuse? (.write address) with
    | some fault => exact absurd (Machine.refused_ofMemory asked) (unrefused fault (by simp [run,asked]))
    | none =>
      simp only [run,asked,Machine.refuse?_unguarded] at unrefused ⊢
      exact ih _ {m with memory := m.memory.setWord address value} unrefused
  | inspect next ih => exact ih _ m unrefused
  | adjust change next ih => exact ih _ {m with registers := change m.registers} unrefused
  | retire next ih => exact ih _ {m with steps := m.steps + 1} unrefused
  | halt next ih => exact ih _ {m with halted := true} unrefused

theorem Machine.step_unguarded (m : Machine)
    (unrefused : ∀ fault, m.step.result = .error fault → ¬fault.OfMemory) :
    m.unguarded.step = ⟨m.step.result,m.step.machine.unguarded⟩ := by
  cases running : m.halted with
  | true => rw [step_halted running]; exact step_halted running
  | false =>
    have bare : m.unguarded.halted = false := running
    rw [step_running running] at unrefused ⊢
    rw [step_running bare,Microcode.run_unguarded cycle m]
    · rfl
    · intro fault failed
      exact unrefused fault (by simp [Outcome.map,failed,Except.map])

theorem Machine.stepHalts_unguarded {executed : Option Instruction} (stepped : m.step.result = .ok executed) :
    ∃ halted, m.stepHalts.result = .ok halted ∧ m.unguarded.stepHalts.result = .ok halted := by
  have bare := m.step_unguarded (by simp [stepped])
  refine ⟨m.step.machine.halted,?_,?_⟩
  · simp only [stepHalts,stepped]
    rfl
  · simp only [stepHalts,bare,stepped]
    rfl

theorem Ran.unguarded {events : List Event} (ran : Ran m events n) :
    Ran m.unguarded (events.map Event.unguarded) n.unguarded := by
  induction ran with
  | nil => exact .nil
  | @step m n earlier executed _ stepped ih =>
    have bare := m.step_unguarded (by simp [stepped])
    rw [stepped] at bare
    rw [List.map_append]
    exact ih.step bare

theorem Machine.run_unguarded (fuel : Nat) (m : Machine) (log : Log)
    (unrefused : ∀ fault, (m.run fuel log).result? = some (.error fault) → ¬fault.OfMemory) :
    m.unguarded.run fuel log = (m.run fuel log).unguarded := by
  have verdict : m.unguarded.verdict? = m.verdict? := rfl
  induction fuel generalizing m log with
  | zero =>
    simp only [run,verdict]
    split <;> rfl
  | succ fuel ih =>
    simp only [run,verdict] at unrefused ⊢
    cases ended : m.verdict? with
    | some result => rfl
    | none =>
      simp only [ended] at unrefused
      cases stepped : m.step with
      | mk result n =>
        simp only [stepped] at unrefused
        have bare := m.step_unguarded
        rw [stepped] at bare
        cases result with
        | error fault =>
          rw [bare (by simpa using unrefused)]
          rfl
        | ok executed =>
          rw [bare (by simp)]
          exact ih n (n.logExecuted executed log) unrefused rfl

theorem Machine.load_unguarded {image : List Byte} (loaded : m.load image = .ok n) :
    m.unguarded.load image = .ok n.unguarded := by
  unfold load at loaded ⊢
  cases parsed : Header.parse image with
  | error fault => rw [parsed] at loaded; cases loaded
  | ok h => rw [parsed] at loaded; cases loaded; rfl

theorem Machine.refuse?_off (off : m.config.guard = .off) (access : Access) : m.refuse? access = none := by
  rw [refuse?,off,Guard.refuse?]

theorem Microcode.run_off {allowed : Action → Prop} {final : α → Prop} {x : Microcode α}
    (off : m.config.guard = .off) (every : x.Every allowed final) (unfailing : ∀ fault, ¬allowed (.fail fault)) :
    ∃ value n, x.run m = ⟨.ok value,n⟩ := by
  cases ended : x.run m with
  | mk result n =>
    cases result with
    | ok value => exact ⟨value,n,rfl⟩
    | error fault =>
      rcases run_failure every (congrArg Outcome.result ended) with failing | ⟨access,_,refused⟩
      · exact absurd failing (unfailing fault)
      · rw [Machine.refuse?_off off] at refused
        cases refused

theorem Machine.step_off_fails (off : m.config.guard = .off) (failed : m.step = ⟨.error fault,n⟩) :
    ∃ opcode address, fault = .unimplementedOpcode opcode address := by
  rcases step_failure (congrArg Outcome.result failed) with unknown | ⟨access,refused⟩
  · exact unknown
  · rw [refuse?_off off] at refused
    cases refused

theorem Machine.step_off_executes {i : Instruction} (off : m.config.guard = .off) (running : m.halted = false)
    (opcode : m.memory.byte m.registers.ip = i.opcode) : m.step = ⟨.ok (some i),m.next⟩ := by
  have allowed := refuse?_off off
  have fetches := fetches_of_allowed opcode (allowed _) fun _ => ⟨allowed _,allowed _⟩
  obtain ⟨_,last,ended⟩ := Microcode.run_off (m := m.past i) off
    (Microcode.ofInstruction_handled i (m.storedOperand i)) fun _ failing => failing
  apply step_eq
  rw [step_of_fetches running fetches,execute,ended]
  rfl

-- A failure that is no refusal is shared. The machine without a guard only ever fails for want of an instruction.
theorem strict_refines_off {image : List Byte} {limit : Option Nat} {strict : Machine}
    (loaded : Machine.ofImage ⟨.strict,limit⟩ image = .ok strict) :
    Machine.ofImage ⟨.off,limit⟩ image = .ok strict.unguarded ∧
    (∀ events m, Ran strict events m →
      Ran strict.unguarded (events.map Event.unguarded) m.unguarded ∧
      (∀ e ∈ events, ∃ halted, e.machine.stepHalts.result = .ok halted ∧
        e.machine.unguarded.stepHalts.result = .ok halted) ∧
      ∀ fault n, m.step = ⟨.error fault,n⟩ → ¬fault.OfMemory →
        m.unguarded.step = ⟨.error fault,n.unguarded⟩) ∧
    (∀ (m : Machine) fault n, m.config.guard = .off → m.step = ⟨.error fault,n⟩ →
      ∃ opcode address, fault = .unimplementedOpcode opcode address) ∧
    (∀ fuel log, (∀ fault, (strict.run fuel log).result? = some (.error fault) → ¬fault.OfMemory) →
      strict.unguarded.run fuel log = (strict.run fuel log).unguarded) := by
  refine ⟨Machine.load_unguarded loaded,?_,?_,?_⟩
  · intro events m ran
    refine ⟨ran.unguarded,?_,?_⟩
    · intro e member
      exact Machine.stepHalts_unguarded (ran.stepped member)
    · intro fault n stepped unrefused
      have bare := m.step_unguarded (by simpa [stepped] using unrefused)
      rwa [stepped] at bare
  · intro m fault n off stepped
    exact Machine.step_off_fails off stepped
  · intro fuel log unrefused
    exact Machine.run_unguarded fuel strict log unrefused

-- PUSH 3, PMS, HALT: the last two instructions are read as a word, which both machines may do.
def readingImage : List Byte :=
  magic.bytes ++ terminator.bytes ++ [0x0C,0x00,0x05,0x00] ++ [0x01,0x03,0x00,0x04,0x19]

-- PUSH 7, and a byte that is no opcode.
def brokenImage : List Byte :=
  magic.bytes ++ terminator.bytes ++ [0x0C,0x00,0x04,0x00] ++ [0x01,0x07,0x00,0xFF]

theorem strict_refines_off_reading :
    (∃ strict, Machine.ofImage ⟨.strict,some 7⟩ readingImage = .ok strict ∧
      Machine.ofImage ⟨.off,some 7⟩ readingImage = .ok strict.unguarded ∧
      (strict.run 3 ⟨.error,[]⟩).result? = some (.ok 0x1904) ∧
      (strict.unguarded.run 3 ⟨.error,[]⟩).result? = some (.ok 0x1904)) ∧
    ∃ strict m n, Machine.ofImage ⟨.strict,none⟩ brokenImage = .ok strict ∧
      Ran strict [⟨strict,some .push⟩] m ∧ Ran strict.unguarded [⟨strict.unguarded,some .push⟩] m.unguarded ∧
      (∃ halted, strict.stepHalts.result = .ok halted ∧ strict.unguarded.stepHalts.result = .ok halted) ∧
      m.step = ⟨.error (.unimplementedOpcode 0xFF 3),n⟩ ∧
      m.unguarded.step = ⟨.error (.unimplementedOpcode 0xFF 3),n.unguarded⟩ := by
  constructor
  · have loaded : Machine.ofImage ⟨.strict,some 7⟩ readingImage =
        .ok ((Machine.new ⟨.strict,some 7⟩).install ⟨[],12,5⟩ readingImage) := rfl
    have ran : (((Machine.new ⟨.strict,some 7⟩).install ⟨[],12,5⟩ readingImage).run 3
        ⟨.error,[]⟩).result? = some (.ok 0x1904) := rfl
    obtain ⟨off,_,_,alike⟩ := strict_refines_off loaded
    refine ⟨_,loaded,off,ran,?_⟩
    rw [alike 3 ⟨.error,[]⟩ (by simp [ran])]
    exact ran
  · have loaded : Machine.ofImage ⟨.strict,none⟩ brokenImage =
        .ok ((Machine.new ⟨.strict,none⟩).install ⟨[],12,4⟩ brokenImage) := rfl
    have ran : Ran ((Machine.new ⟨.strict,none⟩).install ⟨[],12,4⟩ brokenImage) [⟨_,some .push⟩] _ :=
      Ran.next .nil rfl
    obtain ⟨_,alike,_⟩ := strict_refines_off loaded
    obtain ⟨bare,same,failing⟩ := alike _ _ ran
    have stepped : (Machine.next ((Machine.new ⟨.strict,none⟩).install ⟨[],12,4⟩ brokenImage)).step.result =
        .error (.unimplementedOpcode 0xFF 3) := rfl
    refine ⟨_,_,_,loaded,ran,bare,same _ List.mem_cons_self,Machine.step_eq stepped,?_⟩
    apply failing _ _ (Machine.step_eq stepped)
    intro refused
    obtain ⟨_,_,impossible⟩ := refused
    cases impossible

end WordMachine
