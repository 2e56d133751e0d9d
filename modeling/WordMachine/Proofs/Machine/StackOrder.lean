import WordMachine.Proofs.Machine.Guard
import WordMachine.Proofs.Machine.Stack

-- The stack is last in, first out wherever it lies, also where it runs around the end of memory or a word on it
-- is split by that end. It holds as many words as memory has room for before they come around to one another.

namespace WordMachine

theorem Word.below_of_offset {top x : Word} {total : Nat} (near : (x - (top - UInt16.ofNat total)).toNat < total) :
    ∃ k, k < total ∧ x = top - UInt16.ofNat (k + 1) := by
  obtain ⟨rest,whole⟩ := Nat.exists_eq_add_of_lt near
  refine ⟨rest,by omega,?_⟩
  have split : UInt16.ofNat total = (x - (top - UInt16.ofNat total)) + UInt16.ofNat (rest + 1) := by
    rw [← @UInt16.ofNat_toNat (x - _),← UInt16.ofNat_add]
    exact congrArg UInt16.ofNat whole
  grind

namespace Memory

theorem byte_pushWords_outside {memory : Memory} {sp x : Word} {values : List Word}
    (outside : ∀ k, k < 2 * values.length → x ≠ sp - UInt16.ofNat (k + 1)) :
    (memory.pushWords sp values).byte x = memory.byte x := by
  have total : UInt16.ofNat (2 * values.length) = 2 * UInt16.ofNat values.length := UInt16.ofNat_mul _ _
  have far : 2 * values.length ≤ (x - (sp - 2 * UInt16.ofNat values.length)).toNat := by
    apply Nat.le_of_not_lt
    intro near
    rw [← total] at near
    obtain ⟨k,inside,same⟩ := Word.below_of_offset near
    exact outside k inside same
  have kept := @byte_pushWords memory _ x values far
  rwa [UInt16.sub_add_cancel] at kept

theorem wordsFrom_pushWords (memory : Memory) (sp : Word) {values : List Word}
    (room : 2 * values.length ≤ memorySize) :
    (memory.pushWords sp values).wordsFrom (sp - 2 * UInt16.ofNat values.length) values.length =
      values.reverse := by
  apply List.ext_getElem?
  intro k
  by_cases inside : k < values.length
  · have index : values.length - 1 - (values.length - 1 - k) = k := by omega
    have found := List.getElem?_eq_getElem (by omega : values.length - 1 - k < values.length)
    have kept := @word_pushWords memory (sp - 2 * UInt16.ofNat values.length) _ _ _ room found
    rw [UInt16.sub_add_cancel,index] at kept
    rw [wordsFrom_getElem? _ _ inside,kept,List.getElem?_reverse inside,found]
  · rw [List.getElem?_eq_none (by rw [length_wordsFrom]; omega),
      List.getElem?_eq_none (by rw [List.length_reverse]; omega)]

end Memory

theorem Machine.popped_pushed (m : Machine) (values : List Word) :
    (m.pushed values).popped values.length =
      {m with memory := m.memory.pushWords m.registers.sp values} := by
  simp only [pushed,popped,UInt16.sub_add_cancel,UInt16.add_sub_cancel]

namespace Microcode

variable {m : Machine}

def popEach : (count : Nat) → Microcode (List Word)
  | 0 => return []
  | count + 1 => do
    let value ← pop
    let rest ← popEach count
    return value :: rest

theorem popMany_run (count : Nat) (taken : List Word) (m : Machine) :
    (popMany count taken).run m = ((popEach count).run m).map fun words => words.reverse ++ taken := by
  induction count generalizing taken m with
  | zero => rfl
  | succ count ih =>
    simp only [popMany,popEach,run_andThen,run_pure,Outcome.andThen_pure,ih]
    cases pop.run m with
    | mk result n =>
      cases result with
      | error fault => rfl
      | ok value => simp [Outcome.map_map]

theorem popEach_off (off : m.config.guard = .off) (count : Nat) :
    (popEach count).run m = ⟨.ok (m.memory.wordsFrom m.registers.sp count),m.popped count⟩ := by
  obtain ⟨turned,n,ended⟩ := run_off off (popMany_handled (i := .call) count []) fun _ failing => failing
  obtain ⟨read,rfl⟩ := popMany_ended ended
  rw [popMany_run] at ended
  obtain ⟨words,same,popped⟩ := Outcome.map_eq_ok ended
  rw [popped,List.reverse_inj.mp (List.append_cancel_right (same.trans read))]

theorem pushMany_off (off : m.config.guard = .off) (values : List Word) :
    (pushMany values).run m = ⟨.ok (),m.pushed values⟩ := by
  obtain ⟨_,n,ended⟩ := run_off off (pushMany_handled (i := .call) values) fun _ failing => failing
  rw [ended,pushMany_ended ended]

theorem popEach_pushMany (off : m.config.guard = .off) {values : List Word}
    (room : 2 * values.length ≤ memorySize) :
    (do pushMany values; popEach values.length).run m =
      ⟨.ok values.reverse,{m with memory := m.memory.pushWords m.registers.sp values}⟩ := by
  have pushed : (m.pushed values).config.guard = .off := off
  rw [run_andThen,pushMany_off off,Outcome.andThen_ok,popEach_off pushed,Machine.popped_pushed]
  congr 2
  exact Memory.wordsFrom_pushWords m.memory m.registers.sp room

end Microcode

open Microcode

-- Popped as CALL pops its arguments, each in front of those before it, the words are in their order again.
theorem stack_last_in_first_out {m : Machine} {values : List Word} (off : m.config.guard = .off)
    (room : values.length ≤ 32768) :
    ∃ memory : Memory,
      (do pushMany values; popEach values.length).run m =
        ⟨.ok values.reverse,{m with memory := memory}⟩ ∧
      (do pushMany values; popMany values.length []).run m = ⟨.ok values,{m with memory := memory}⟩ ∧
      ∀ x, (∀ k, k < 2 * values.length → x ≠ m.registers.sp - UInt16.ofNat (k + 1)) →
        memory.byte x = m.memory.byte x := by
  have space : 2 * values.length ≤ memorySize := Nat.mul_le_mul_left 2 room
  have popped := popEach_pushMany off space
  refine ⟨m.memory.pushWords m.registers.sp values,popped,?_,?_⟩
  · rw [run_andThen,pushMany_off off,Outcome.andThen_ok] at popped ⊢
    rw [popMany_run,popped]
    simp [Outcome.map,Except.map]
  · intro x outside
    exact Memory.byte_pushWords_outside outside

-- A stack just above the start of memory: the second word pushed lies at the last address and the first.
def wrappedStack : Machine where
  config := {guard := .off}
  memory := (Memory.zero.store 0xFFFC [0xEE]).store 3 [0xDD]
  code := ⟨0,0⟩
  registers := {ip := 0x10,sp := 3,fp := 9,fs := 0xFFFE}
  entry := 0x10
  halted := false
  steps := 0

def distinctWords : List Word := (List.range 32768).map UInt16.ofNat

theorem wrappedStack_last_in_first_out :
    (∃ memory : Memory, (do pushMany [0x1111,0x2222,0x3333]; popEach 3).run wrappedStack =
        ⟨.ok [0x3333,0x2222,0x1111],{wrappedStack with memory := memory}⟩ ∧
      (do pushMany [0x1111,0x2222,0x3333]; popMany 3 []).run wrappedStack =
        ⟨.ok [0x1111,0x2222,0x3333],{wrappedStack with memory := memory}⟩ ∧
      memory.byte 0xFFFC = 0xEE ∧ memory.byte 3 = 0xDD) ∧
    ∃ memory : Memory, (do pushMany distinctWords; popEach distinctWords.length).run wrappedStack =
      ⟨.ok distinctWords.reverse,{wrappedStack with memory := memory}⟩ := by
  have off : wrappedStack.config.guard = .off := rfl
  constructor
  · obtain ⟨memory,popped,turned,outside⟩ :=
      @stack_last_in_first_out wrappedStack [0x1111,0x2222,0x3333] off (by decide)
    refine ⟨memory,popped,turned,?_,?_⟩
    · exact outside 0xFFFC (by decide)
    · exact outside 3 (by decide)
  · have room : distinctWords.length ≤ 32768 := by simp [distinctWords]
    obtain ⟨memory,popped,_⟩ := stack_last_in_first_out off room
    exact ⟨memory,popped⟩

end WordMachine
