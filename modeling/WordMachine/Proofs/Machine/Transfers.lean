import WordMachine.Proofs.Image.Layout
import WordMachine.Proofs.Machine.Execution

-- What a step takes from memory and puts there, one transfer after another. An access that is refused
-- moves nothing, and neither does anything after it.

namespace WordMachine

inductive Transfer where
  | fetched (address : Word) (byte : Byte)
  | read (address value : Word)
  | written (address value : Word)
  deriving DecidableEq, Repr

def Transfer.fetchedByte? : Transfer → Option Byte
  | fetched _ byte => some byte
  | _ => none

namespace Microcode

variable {α β : Type} {m n : Machine}

-- In step with `run`: each value here is the one that the rest of the microcode is given.
def transfers : Microcode α → Machine → List Transfer
  | done _,_ => []
  | fail _,_ => []
  | fetch address next,m =>
    if (m.refuse? (.fetch address)).isSome then []
    else .fetched address (m.memory.byte address) :: (next (m.memory.byte address)).transfers m
  | read address next,m =>
    if (m.refuse? (.read address)).isSome then []
    else .read address (m.memory.word address) :: (next (m.memory.word address)).transfers m
  | write address value next,m =>
    if (m.refuse? (.write address)).isSome then []
    else .written address value ::
      (next ()).transfers {m with memory := m.memory.setWord address value}
  | inspect next,m => (next m.registers).transfers m
  | adjust change next,m => (next ()).transfers {m with registers := change m.registers}
  | retire next,m => (next ()).transfers {m with steps := m.steps + 1}
  | halt next,m => (next ()).transfers {m with halted := true}

@[simp]
theorem transfers_pure (value : α) (m : Machine) : (pure value : Microcode α).transfers m = [] := rfl

@[simp]
theorem transfers_registers (m : Machine) : registers.transfers m = [] := rfl

@[simp]
theorem transfers_countStep (m : Machine) : countStep.transfers m = [] := rfl

theorem transfers_bind {x : Microcode α} (f : α → Microcode β) {value : α}
    (ended : x.run m = ⟨.ok value,n⟩) :
    (x.bind f).transfers m = x.transfers m ++ (f value).transfers n := by
  induction x generalizing m with
  | done first =>
    cases ended
    rfl
  | fail fault => cases ended
  | fetch address next ih | read address next ih | write address word next ih =>
    simp only [run] at ended
    split at ended
    · cases ended
    · rename_i passed
      simp only [bind,transfers,passed]
      simp [ih _ ended]
  | inspect next ih | adjust change next ih | retire next ih | halt next ih => exact ih _ ended

theorem transfers_bind_error {x : Microcode α} (f : α → Microcode β) {fault : Fault}
    (ended : x.run m = ⟨.error fault,n⟩) : (x.bind f).transfers m = x.transfers m := by
  induction x generalizing m with
  | done first => cases ended
  | fail fault => rfl
  | fetch address next ih | read address next ih | write address word next ih =>
    simp only [run] at ended
    split at ended
    · rename_i refused
      simp [bind,transfers,refused]
    · rename_i passed
      simp only [bind,transfers,passed]
      simp [ih _ ended]
  | inspect next ih | adjust change next ih | retire next ih | halt next ih => exact ih _ ended

theorem Keeps.fetched {P : Machine → Prop} {Q : Word → Byte → Prop} (keeps : Keeps (fun _ => True) P)
    (gives : ∀ m address, P m → m.refuse? (.fetch address) = none → Q address (m.memory.byte address))
    {x : Microcode α} (start : P m) {address : Word} {byte : Byte}
    (member : .fetched address byte ∈ x.transfers m) : Q address byte := by
  induction x generalizing m with
  | done value => cases member
  | fail fault => cases member
  | fetch first next ih =>
    simp only [transfers] at member
    split at member
    · cases member
    · rename_i passed
      rcases List.mem_cons.mp member with same | later
      · cases same
        exact gives m address start (by simpa using passed)
      · exact ih _ start later
  | read first next ih =>
    simp only [transfers] at member
    split at member
    · cases member
    · exact ih _ start ((List.mem_cons.mp member).resolve_left (by simp))
  | write first value next ih =>
    simp only [transfers] at member
    split at member
    · cases member
    · rename_i passed
      have after := keeps.write m first value start trivial (by simpa using passed)
      exact ih () after ((List.mem_cons.mp member).resolve_left (by simp))
  | inspect next ih => exact ih _ start member
  | adjust change next ih => exact ih _ (keeps.adjust m change start trivial) member
  | retire next ih => exact ih _ (keeps.retire m start trivial) member
  | halt next ih => exact ih _ (keeps.halt m start trivial) member

theorem no_fetch_of_handled {i : Instruction} {final : α → Prop} {x : Microcode α}
    (handled : x.Every (Action.Handled i) final) (m : Machine) :
    (x.transfers m).filterMap Transfer.fetchedByte? = [] := by
  induction x generalizing m with
  | done value => rfl
  | fail fault => rfl
  | fetch address next ih => exact handled.1.elim
  | read address next ih =>
    simp only [transfers]
    split
    · rfl
    · exact ih _ (handled.2 _) m
  | write address value next ih =>
    simp only [transfers]
    split
    · rfl
    · exact ih _ handled.2 _
  | inspect next ih => exact ih _ (handled _) m
  | adjust change next ih | retire next ih | halt next ih => exact ih _ handled.2 _

theorem nextByte_refused {fault : Fault} (refused : m.refuse? (.fetch m.registers.ip) = some fault) :
    nextByte.run m = ⟨.error fault,m⟩ ∧ nextByte.transfers m = [] := by
  simp [nextByte,registers,setRegisters,bind_eq,bind,run,transfers,refused]

theorem nextByte_transfers (allowed : m.refuse? (.fetch m.registers.ip) = none) :
    nextByte.transfers m = [.fetched m.registers.ip (m.memory.byte m.registers.ip)] := by
  simp [nextByte,registers,setRegisters,bind_eq,bind,transfers,allowed,pure]

theorem nextWord_transfers (first : m.refuse? (.fetch m.registers.ip) = none)
    (second : m.refuse? (.fetch (m.registers.ip + 1)) = none) :
    nextWord.transfers m = [.fetched m.registers.ip (m.memory.byte m.registers.ip),
      .fetched (m.registers.ip + 1) (m.memory.byte (m.registers.ip + 1))] := by
  rw [nextWord,bind_eq,transfers_bind _ (nextByte_allowed first),nextByte_transfers first,bind_eq,
    transfers_bind _ (nextByte_allowed second),nextByte_transfers second]
  rfl

theorem nextWord_refused_first {fault : Fault}
    (refused : m.refuse? (.fetch m.registers.ip) = some fault) :
    nextWord.run m = ⟨.error fault,m⟩ ∧ nextWord.transfers m = [] := by
  obtain ⟨ended,none⟩ := nextByte_refused refused
  rw [nextWord,run_andThen,ended,bind_eq,transfers_bind_error _ ended,none]
  exact ⟨rfl,rfl⟩

theorem nextWord_refused_second {fault : Fault} (first : m.refuse? (.fetch m.registers.ip) = none)
    (refused : m.refuse? (.fetch (m.registers.ip + 1)) = some fault) :
    nextWord.run m = ⟨.error fault,
        {m with registers := {m.registers with ip := m.registers.ip + 1}}⟩ ∧
      nextWord.transfers m = [.fetched m.registers.ip (m.memory.byte m.registers.ip)] := by
  obtain ⟨ended,none⟩ := @nextByte_refused
    {m with registers := {m.registers with ip := m.registers.ip + 1}} fault refused
  rw [nextWord,run_andThen,nextByte_allowed first,Outcome.andThen_ok,run_andThen,ended,bind_eq,
    transfers_bind _ (nextByte_allowed first),nextByte_transfers first,bind_eq,
    transfers_bind_error _ ended,none]
  exact ⟨rfl,rfl⟩

def dispatch (ip : Word) (opcode : Byte) : Microcode Instruction :=
  match Instruction.ofOpcode? opcode with
  | none => fail (.unimplementedOpcode opcode ip)
  | some i => do
    countStep
    let operand ← if i.hasOperand then nextWord else pure 0
    ofInstruction i operand
    return i

theorem cycle_dispatch : cycle = (do
    let r ← registers
    let opcode ← nextByte
    dispatch r.ip opcode) := rfl

theorem dispatch_unknown {ip : Word} {opcode : Byte} (unknown : Instruction.ofOpcode? opcode = none) :
    dispatch ip opcode = fail (.unimplementedOpcode opcode ip) := by
  simp [dispatch,unknown]

theorem dispatch_opcode (ip : Word) (i : Instruction) : dispatch ip i.opcode = (do
    countStep
    let operand ← if i.hasOperand then nextWord else pure 0
    ofInstruction i operand
    return i) := by
  simp [dispatch]

end Microcode

namespace Machine

open Microcode

variable {m n : Machine} {i : Instruction}

def transfers (m : Machine) : List Transfer := if m.halted then [] else cycle.transfers m

def fetchedBytes (m : Machine) : List Byte := m.transfers.filterMap Transfer.fetchedByte?

theorem fetchedBytes_running (running : m.halted = false) :
    m.fetchedBytes = (cycle.transfers m).filterMap Transfer.fetchedByte? := by
  simp [fetchedBytes,transfers,running]

def pastByte (m : Machine) : Machine :=
  {m with registers := {m.registers with ip := m.registers.ip + 1}}

def pastOpcode (m : Machine) : Machine := {m.pastByte with steps := m.steps + 1}

section Opcode

variable (running : m.halted = false) (first : m.refuse? (.fetch m.registers.ip) = none)

include running first

theorem step_dispatch : m.step =
    ((dispatch m.registers.ip (m.memory.byte m.registers.ip)).run m.pastByte).map some := by
  rw [step_running running,cycle_dispatch,run_andThen,run_registers,Outcome.andThen_ok,run_andThen,
    nextByte_allowed first]
  rfl

theorem transfers_dispatch : m.transfers = .fetched m.registers.ip (m.memory.byte m.registers.ip) ::
    (dispatch m.registers.ip (m.memory.byte m.registers.ip)).transfers m.pastByte := by
  simp only [transfers,running,Bool.false_eq_true,if_false]
  rw [cycle_dispatch,bind_eq,transfers_bind _ (run_registers m),bind_eq,
    transfers_bind _ (nextByte_allowed first),nextByte_transfers first]
  rfl

theorem fetchedBytes_dispatch : m.fetchedBytes = m.memory.byte m.registers.ip ::
    ((dispatch m.registers.ip (m.memory.byte m.registers.ip)).transfers m.pastByte).filterMap
      Transfer.fetchedByte? := by
  rw [fetchedBytes,transfers_dispatch running first]
  rfl

end Opcode

-- Also if it is refused something later.
theorem fetchedBytes_of_fetches (running : m.halted = false) (fetches : m.Fetches i) :
    m.fetchedBytes = i.encode (m.storedOperand i) := by
  have handled : ∀ operand, (do ofInstruction i operand; return i : Microcode Instruction).Every
      (Action.Handled i) fun _ => True := fun operand =>
    (ofInstruction_handled i operand).then fun _ => trivial
  have first : m.refuse? (.fetch m.registers.ip) = none := by
    simpa using fetches.allowed 0 i.size_pos
  rw [fetchedBytes_dispatch running first,fetches.opcode,dispatch_opcode]
  cases has : i.hasOperand with
  | false =>
    simp only [Bool.false_eq_true,if_false]
    rw [bind_eq,transfers_bind _ (run_countStep _),bind_eq,transfers_bind _ (run_pure 0 _)]
    simp only [List.filterMap_append,no_fetch_of_handled (handled 0)]
    simp [Instruction.encode,has]
  | true =>
    have size : i.size = 3 := by simp [Instruction.size,has]
    have second := fetches.allowed 1 (by omega)
    have third : m.refuse? (.fetch (m.registers.ip + 1 + 1)) = none := by
      rw [UInt16.add_assoc]
      exact fetches.allowed 2 (by omega)
    simp only [if_true]
    rw [bind_eq,transfers_bind _ (run_countStep _),bind_eq,transfers_bind _ (nextWord_allowed second third),
      nextWord_transfers second third]
    simp only [List.filterMap_append,no_fetch_of_handled (handled _)]
    simp [Instruction.encode,has,Transfer.fetchedByte?,storedOperand,Memory.word,Word.bytes,pastByte]

theorem operand_refused {fault : Fault} (running : m.halted = false)
    (first : m.refuse? (.fetch m.registers.ip) = none)
    (opcode : m.memory.byte m.registers.ip = i.opcode) (has : i.hasOperand = true)
    (ended : nextWord.run m.pastOpcode = ⟨.error fault,n⟩) :
    m.step = ⟨.error fault,n⟩ ∧ m.fetchedBytes = i.opcode ::
      (nextWord.transfers m.pastOpcode).filterMap Transfer.fetchedByte? := by
  unfold pastOpcode at ended ⊢
  rw [step_dispatch running first,fetchedBytes_dispatch running first,opcode,dispatch_opcode]
  simp only [has,if_true]
  constructor
  · rw [run_andThen,run_countStep,Outcome.andThen_ok,run_andThen]
    exact congrArg _ (congrArg (Outcome.andThen · _) ended)
  · rw [bind_eq,transfers_bind _ (run_countStep _),bind_eq]
    exact congrArg _ (congrArg _ (transfers_bind_error _ ended))

-- The step ends with its fetch, and nothing but `ip` and the count of steps has changed.
inductive Stuck (m : Machine) : Prop where
  | unknown {opcode : Byte} : m.fetchedBytes = [opcode] → Instruction.ofOpcode? opcode = none →
      m.step = ⟨.error (.unimplementedOpcode opcode m.registers.ip),
        {m with registers := {m.registers with ip := m.registers.ip + 1}}⟩ → Stuck m
  -- The byte after those fetched is refused.
  | refused {address : Word} {fault : Fault} {steps : Nat} :
      address = m.registers.ip + UInt16.ofNat m.fetchedBytes.length →
      m.refuse? (.fetch address) = some fault →
      m.step = ⟨.error fault,
        {m with registers := {m.registers with ip := address},steps := steps}⟩ → Stuck m

theorem Stuck.kept (stuck : m.Stuck) : m.next.memory = m.memory ∧ m.next.registers.fp = m.registers.fp ∧
    m.next.halted = m.halted := by
  unfold next
  cases stuck with
  | unknown _ _ stepped => rw [stepped]; exact ⟨rfl,rfl,rfl⟩
  | refused _ _ stepped => rw [stepped]; exact ⟨rfl,rfl,rfl⟩

theorem fetches_or_stuck (running : m.halted = false) : (∃ i, m.Fetches i) ∨ m.Stuck := by
  cases first : m.refuse? (.fetch m.registers.ip) with
  | some fault =>
    right
    obtain ⟨ended,none⟩ := nextByte_refused first
    have bytes : m.fetchedBytes = [] := by
      rw [fetchedBytes_running running,cycle_dispatch,bind_eq,transfers_bind _ (run_registers m),bind_eq,
        transfers_bind_error _ ended,none]
      rfl
    refine @Stuck.refused m _ fault m.steps (by simp [bytes]) first ?_
    rw [step_running running,cycle_dispatch,run_andThen,run_registers,Outcome.andThen_ok,run_andThen,ended]
    rfl
  | none =>
    cases found : Instruction.ofOpcode? (m.memory.byte m.registers.ip) with
    | none =>
      refine .inr (.unknown ?_ found ?_)
      · rw [fetchedBytes_dispatch running first,dispatch_unknown found]
        rfl
      · rw [step_dispatch running first,dispatch_unknown found]
        rfl
    | some i =>
      have opcode := (Instruction.opcode_eq_of_ofOpcode? found).symm
      cases has : i.hasOperand with
      | false => exact .inl ⟨i,fetches_of_allowed opcode first (by simp [has])⟩
      | true =>
        cases second : m.refuse? (.fetch (m.registers.ip + 1)) with
        | some fault =>
          right
          obtain ⟨ended,taken⟩ := @nextWord_refused_first m.pastOpcode fault second
          obtain ⟨stepped,bytes⟩ := operand_refused running first opcode has ended
          rw [taken] at bytes
          exact .refused (by rw [bytes]; rfl) second stepped
        | none =>
          cases third : m.refuse? (.fetch (m.registers.ip + 1 + 1)) with
          | some fault =>
            right
            obtain ⟨ended,taken⟩ := @nextWord_refused_second m.pastOpcode fault second third
            obtain ⟨stepped,bytes⟩ := operand_refused running first opcode has ended
            rw [taken] at bytes
            exact .refused (by rw [bytes,UInt16.add_assoc]; rfl) third stepped
          | none => exact .inl ⟨i,fetches_of_allowed opcode first fun _ => ⟨second,third⟩⟩

def Decided (m : Machine) : Prop :=
  (∃ i operand, m.fetchedBytes = Instruction.encode i operand ∧ m.step = m.execute i operand) ∨ m.Stuck

theorem decided (running : m.halted = false) : m.Decided := by
  rcases fetches_or_stuck running with ⟨i,fetches⟩ | stuck
  · exact .inl ⟨i,m.storedOperand i,fetchedBytes_of_fetches running fetches,step_of_fetches running fetches⟩
  · exact .inr stuck

end Machine

end WordMachine
