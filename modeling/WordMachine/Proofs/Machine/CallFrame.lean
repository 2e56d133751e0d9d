import WordMachine.Proofs.Machine.Calls
import WordMachine.Proofs.Machine.Guard

-- The frame that a CALL lays out. It takes the place of the target, the count and the arguments to the byte:
-- the arguments move down by two words, and the two words that lead back are put above them.

namespace WordMachine

namespace Machine

def argument (m : Machine) (k : Nat) : Word :=
  m.memory.word (m.registers.sp + 4 + 2 * UInt16.ofNat (m.argumentCount.toNat - 1 - k))

def frameWords (m : Machine) : List Word :=
  m.savedSize :: m.returnAddress :: (m.memory.wordsFrom (m.registers.sp + 4) m.argumentCount.toNat).reverse

variable {m n : Machine} {k : Nat}

theorem length_frameWords (m : Machine) : m.frameWords.length = m.argumentCount.toNat + 2 := by
  simp [frameWords]

theorem frameWords_argument (inside : k < m.argumentCount.toNat) :
    m.frameWords[k + 2]? = some (m.argument k) := by
  have reversed : m.frameWords[k + 2]? =
      (m.memory.wordsFrom (m.registers.sp + 4) m.argumentCount.toNat).reverse[k]? := rfl
  rw [reversed,List.getElem?_reverse (by simpa using inside),Memory.length_wordsFrom,
    Memory.wordsFrom_getElem? _ _ (by omega)]
  rfl

theorem step_call_memory (stepped : m.step = ⟨.ok (some .call),n⟩) :
    n.memory =
      m.memory.pushWords (m.registers.sp + 2 * UInt16.ofNat m.frameWords.length) m.frameWords := by
  have above : m.registers.sp + 2 * UInt16.ofNat m.frameWords.length - 2 = m.frameBase + 2 := by
    rw [length_frameWords,UInt16.ofNat_add,UInt16.ofNat_toNat,frameBase]
    grind
  have base : m.frameBase + 2 - 2 = m.frameBase := by grind
  rw [(step_call stepped).1]
  unfold frameWords at above ⊢
  rw [Memory.pushWords,above,Memory.pushWords,base]

theorem step_call_word {value : Word} (stepped : m.step = ⟨.ok (some .call),n⟩)
    (room : 2 * m.argumentCount.toNat + 4 ≤ memorySize) (found : m.frameWords[k]? = some value) :
    n.memory.word (m.registers.sp + 2 * UInt16.ofNat (m.argumentCount.toNat + 1 - k)) = value := by
  have inFrame := @Memory.word_pushWords m.memory m.registers.sp value m.frameWords k
    (by rw [length_frameWords]; omega) found
  rw [← step_call_memory stepped,length_frameWords] at inFrame
  exact inFrame

end Machine

-- Nothing is said about a frame that reaches around memory into itself.
theorem call_lays_out_frame {m : Machine} (off : m.config.guard = .off) (running : m.halted = false)
    (opcode : m.memory.byte m.registers.ip = Instruction.call.opcode)
    (room : 2 * m.argumentCount.toNat + 4 ≤ memorySize) :
    ∃ n, m.step = ⟨.ok (some .call),n⟩ ∧
      n.registers = {
        ip := m.memory.word m.registers.sp
        sp := m.registers.sp
        fp := m.registers.sp + 2 * m.argumentCount
        fs := 2 * m.argumentCount} ∧
      n.memory.word n.registers.fp = m.registers.ip + 1 ∧
      n.memory.word (n.registers.fp + 2) = m.registers.fs - 4 - 2 * m.argumentCount ∧
      (∀ k, k < m.argumentCount.toNat →
        n.memory.word (n.registers.fp - 2 * UInt16.ofNat (k + 1)) = m.argument k) ∧
      ∀ x, 2 * m.argumentCount.toNat + 4 ≤ (x - m.registers.sp).toNat → n.memory.byte x = m.memory.byte x := by
  have stepped := Machine.step_off_executes off running opcode
  have registers := (Machine.step_call stepped).2
  have count : UInt16.ofNat m.argumentCount.toNat = m.argumentCount := UInt16.ofNat_toNat
  refine ⟨m.next,stepped,registers,?_,?_,?_,?_⟩
  · have address := Machine.step_call_word stepped room (rfl : m.frameWords[1]? = some m.returnAddress)
    rw [Nat.add_sub_cancel,count] at address
    rw [registers]
    exact address
  · have size := Machine.step_call_word stepped room (rfl : m.frameWords[0]? = some m.savedSize)
    have above : m.registers.sp + 2 * UInt16.ofNat (m.argumentCount.toNat + 1) = m.frameBase + 2 := by
      rw [UInt16.ofNat_add,count,Machine.frameBase]
      grind
    rw [Nat.sub_zero,above] at size
    rw [registers]
    exact size
  · intro k inside
    have kept := Machine.step_call_word stepped room (Machine.frameWords_argument inside)
    have below := Word.offset_below m.registers.sp (by omega : k + 1 ≤ m.argumentCount.toNat)
    rw [count] at below
    rw [Nat.add_sub_add_right,← below] at kept
    rw [registers]
    exact kept
  · intro x outside
    rw [Machine.step_call_memory stepped]
    apply Memory.byte_pushWords
    rw [Machine.length_frameWords]
    omega

def wrappedCall : Machine where
  config := {guard := .off}
  memory := ((Memory.zero.store 0x10 [0x12]).store 0xFFFF [0x34]).store 0 [0x12,2,0,0xBB,0xBB,0xAA,0xAA]
  code := ⟨0x10,0x11⟩
  registers := {ip := 0x10,sp := 0xFFFF,fp := 0x20,fs := 0x21}
  entry := 0x10
  halted := false
  steps := 0

theorem wrappedCall_frame :
    ∃ n, wrappedCall.step = ⟨.ok (some .call),n⟩ ∧
      n.registers = {ip := 0x1234,sp := 0xFFFF,fp := 3,fs := 4} ∧
      n.memory.word 3 = 0x11 ∧ n.memory.word 5 = 0x19 ∧
      n.memory.word 1 = 0xAAAA ∧ n.memory.word 0xFFFF = 0xBBBB ∧ n.memory.byte 7 = 0 := by
  obtain ⟨n,stepped,registers,address,size,arguments,outside⟩ :=
    call_lays_out_frame (rfl : wrappedCall.config.guard = .off) rfl rfl (by decide)
  have fp : n.registers.fp = 3 := by rw [registers]; rfl
  rw [fp] at address size arguments
  refine ⟨n,stepped,registers,address,size,arguments 0 (by decide),arguments 1 (by decide),?_⟩
  rw [outside 7 (by decide)]
  rfl

end WordMachine
