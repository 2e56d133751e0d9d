import WordMachine.Proofs.Machine.Execution

-- What the stack operations leave when they succeed. Whether the guard is on does not show: it has
-- then refused nothing. Addresses are words throughout, so that a stack may run around the end of memory.

namespace WordMachine

theorem Word.toNat_offset (base : Word) (k : Nat) : (base + UInt16.ofNat k - base).toNat = k % memorySize := by
  have offset : base + UInt16.ofNat k - base = UInt16.ofNat k := by grind
  rw [offset,UInt16.toNat_ofNat']
  rfl

theorem Word.offset_succ (base : Word) (k : Nat) : base + UInt16.ofNat k + 1 = base + UInt16.ofNat (k + 1) := by
  rw [UInt16.ofNat_add,UInt16.add_assoc]
  rfl

theorem Word.offset_below (base : Word) {total k : Nat} (inside : k ≤ total) :
    base + 2 * UInt16.ofNat total - 2 * UInt16.ofNat k = base + 2 * UInt16.ofNat (total - k) := by
  obtain ⟨rest,rfl⟩ := Nat.exists_eq_add_of_le inside
  rw [Nat.add_sub_cancel_left,UInt16.ofNat_add]
  grind

namespace Memory

variable {memory other : Memory} {low x value : Word} {values : List Word} {k : Nat}

def wordsFrom (memory : Memory) (sp : Word) : Nat → List Word
  | 0 => []
  | count + 1 => memory.word sp :: memory.wordsFrom (sp + 2) count

def pushWords (memory : Memory) (sp : Word) : List Word → Memory
  | [] => memory
  | value :: rest => (memory.setWord (sp - 2) value).pushWords (sp - 2) rest

@[simp]
theorem length_wordsFrom (memory : Memory) (sp : Word) (count : Nat) :
    (memory.wordsFrom sp count).length = count := by
  induction count generalizing sp with
  | zero => rfl
  | succ count ih => simp [wordsFrom,ih]

theorem word_congr (first : memory.byte x = other.byte x) (second : memory.byte (x + 1) = other.byte (x + 1)) :
    memory.word x = other.word x := by
  rw [word,word,first,second]

theorem wordsFrom_getElem? (memory : Memory) (sp : Word) {count : Nat} (inside : k < count) :
    (memory.wordsFrom sp count)[k]? = some (memory.word (sp + 2 * UInt16.ofNat k)) := by
  induction count generalizing sp k with
  | zero => omega
  | succ count ih =>
    cases k with
    | zero => simp [wordsFrom]
    | succ k =>
      have further : sp + 2 + 2 * UInt16.ofNat k = sp + 2 * UInt16.ofNat (k + 1) := by
        rw [UInt16.ofNat_add]
        grind
      rw [wordsFrom,List.getElem?_cons_succ,ih _ (by omega),further]

theorem pushWords_cons (memory : Memory) (low value : Word) (rest : List Word) :
    memory.pushWords (low + 2 * UInt16.ofNat (value :: rest).length) (value :: rest) =
      (memory.setWord (low + UInt16.ofNat (2 * rest.length)) value).pushWords
        (low + 2 * UInt16.ofNat rest.length) rest := by
  have below : low + 2 * UInt16.ofNat (value :: rest).length - 2 = low + 2 * UInt16.ofNat rest.length := by
    rw [List.length_cons,UInt16.ofNat_add]
    grind
  rw [pushWords,below,UInt16.ofNat_mul]
  rfl

theorem byte_pushWords (outside : 2 * values.length ≤ (x - low).toNat) :
    (memory.pushWords (low + 2 * UInt16.ofNat values.length) values).byte x = memory.byte x := by
  induction values generalizing memory with
  | nil => rfl
  | cons value rest ih =>
    have further : 2 * rest.length + 2 ≤ (x - low).toNat := outside
    have apart : ∀ k, k < 2 * rest.length + 2 → x ≠ low + UInt16.ofNat k := by
      rintro k inside rfl
      rw [Word.toNat_offset] at further
      have := Nat.mod_le k memorySize
      omega
    rw [pushWords_cons,ih (by omega)]
    apply byte_setWord
    · exact apart _ (by omega)
    · rw [Word.offset_succ]
      exact apart _ (by omega)

theorem word_pushWords (room : 2 * values.length ≤ memorySize) (found : values[k]? = some value) :
    (memory.pushWords (low + 2 * UInt16.ofNat values.length) values).word
      (low + 2 * UInt16.ofNat (values.length - 1 - k)) = value := by
  induction values generalizing memory k with
  | nil => simp at found
  | cons first rest ih =>
    have space : 2 * rest.length + 2 ≤ memorySize := room
    rw [pushWords_cons]
    cases k with
    | zero =>
      cases found
      -- The words pushed later lie below both of its bytes.
      have kept (before : Memory) {j : Nat} (small : j < 2) :
          (before.pushWords (low + 2 * UInt16.ofNat rest.length) rest).byte
            (low + UInt16.ofNat (2 * rest.length + j)) =
          before.byte (low + UInt16.ofNat (2 * rest.length + j)) := by
        apply byte_pushWords
        rw [Word.toNat_offset,Nat.mod_eq_of_lt (by omega)]
        omega
      have same := word_congr (kept (memory.setWord (low + UInt16.ofNat (2 * rest.length)) value)
        (by omega : 0 < 2)) (by rw [Word.offset_succ]; exact kept _ (by omega : 1 < 2))
      have place : UInt16.ofNat (2 * rest.length) = 2 * UInt16.ofNat rest.length := UInt16.ofNat_mul _ _
      rw [Nat.add_zero,word_setWord,place] at same
      rw [List.length_cons,Nat.add_sub_cancel,Nat.sub_zero,place]
      exact same
    | succ k =>
      have index : (first :: rest).length - 1 - (k + 1) = rest.length - 1 - k := by
        rw [List.length_cons]
        omega
      rw [index]
      exact ih (by omega) found

end Memory

namespace Machine

def popped (m : Machine) (count : Nat) : Machine :=
  {m with registers :=
    {m.registers with
      sp := m.registers.sp + 2 * UInt16.ofNat count
      fs := m.registers.fs - 2 * UInt16.ofNat count}}

def pushed (m : Machine) (values : List Word) : Machine :=
  {m with
    memory := m.memory.pushWords m.registers.sp values
    registers := {m.registers with
      sp := m.registers.sp - 2 * UInt16.ofNat values.length
      fs := m.registers.fs + 2 * UInt16.ofNat values.length}}

@[simp]
theorem popped_popped (m : Machine) (first second : Nat) :
    (m.popped first).popped second = m.popped (first + second) := by
  simp only [popped,UInt16.ofNat_add]
  congr 2 <;> grind

theorem pushed_cons (m : Machine) (value : Word) (rest : List Word) :
    (m.pushed [value]).pushed rest = m.pushed (value :: rest) := by
  simp only [pushed,Memory.pushWords,List.length_cons,List.length_nil,UInt16.ofNat_add]
  congr 2 <;> grind

end Machine

namespace Microcode

variable {m n : Machine} {value : Word} {values : List Word} {u : Unit}

theorem readWord_ended {address : Word} (ended : (readWord address).run m = ⟨.ok value,n⟩) :
    value = m.memory.word address ∧ n = m := by
  unfold readWord run at ended
  split at ended
  · cases ended
  · cases ended
    exact ⟨rfl,rfl⟩

theorem writeWord_ended {address : Word} (ended : (writeWord address value).run m = ⟨.ok u,n⟩) :
    n = {m with memory := m.memory.setWord address value} := by
  unfold writeWord run at ended
  split at ended
  · cases ended
  · cases ended
    rfl

theorem pop_ended (ended : pop.run m = ⟨.ok value,n⟩) : value = m.top ∧ n = m.popped 1 := by
  simp only [pop,run_andThen,run_registers,Outcome.andThen_ok] at ended
  obtain ⟨word,middle,taken,ended⟩ := Outcome.andThen_eq_ok ended
  obtain ⟨rfl,rfl⟩ := readWord_ended taken
  cases ended
  exact ⟨rfl,rfl⟩

theorem push_ended (ended : (push value).run m = ⟨.ok u,n⟩) : n = m.pushed [value] := by
  simp only [push,run_andThen,run_setRegisters,run_registers,Outcome.andThen_ok] at ended
  obtain ⟨_,middle,written,ended⟩ := Outcome.andThen_eq_ok ended
  cases writeWord_ended written
  cases ended
  rfl

theorem popMany_ended {count : Nat} {taken : List Word}
    (ended : (popMany count taken).run m = ⟨.ok values,n⟩) :
    values = (m.memory.wordsFrom m.registers.sp count).reverse ++ taken ∧ n = m.popped count := by
  induction count generalizing m taken with
  | zero =>
    cases ended
    simp [Memory.wordsFrom,Machine.popped]
  | succ count ih =>
    simp only [popMany,run_andThen] at ended
    obtain ⟨word,middle,popped,ended⟩ := Outcome.andThen_eq_ok ended
    obtain ⟨rfl,rfl⟩ := pop_ended popped
    obtain ⟨rfl,rfl⟩ := ih ended
    refine ⟨?_,by rw [Machine.popped_popped,Nat.add_comm]⟩
    simp [Memory.wordsFrom,Machine.popped,Machine.top]

theorem pushMany_ended (ended : (pushMany values).run m = ⟨.ok u,n⟩) : n = m.pushed values := by
  induction values generalizing m with
  | nil =>
    cases ended
    simp [Machine.pushed,Memory.pushWords]
  | cons value rest ih =>
    simp only [pushMany,run_andThen] at ended
    obtain ⟨_,middle,pushed,ended⟩ := Outcome.andThen_eq_ok ended
    cases push_ended pushed
    rw [ih ended,Machine.pushed_cons]

end Microcode

end WordMachine
