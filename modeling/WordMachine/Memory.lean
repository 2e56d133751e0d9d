import WordMachine.Program.Basic

-- One byte at each of 65536 addresses, held as a perfect binary tree: zeroed memory is sixteen nodes, and a memory is
-- determined by its bytes (`Bank.ext`).

namespace WordMachine

inductive Bank : Nat → Type where
  | cell (value : Byte) : Bank 0
  | pair {depth : Nat} (even odd : Bank depth) : Bank (depth + 1)
  deriving DecidableEq

namespace Bank

def capacity : Nat → Nat
  | 0 => 1
  | depth + 1 => 2 * capacity depth

def replicate (value : Byte) : (depth : Nat) → Bank depth
  | 0 => cell value
  | depth + 1 => pair (replicate value depth) (replicate value depth)

def get {depth : Nat} : Bank depth → Nat → Byte
  | cell value,_ => value
  | pair even odd,address =>
    if address % 2 = 0 then even.get (address / 2) else odd.get (address / 2)

def set {depth : Nat} : Bank depth → Nat → Byte → Bank depth
  | cell _,_,value => cell value
  | pair even odd,address,value =>
    if address % 2 = 0 then pair (even.set (address / 2) value) odd
    else pair even (odd.set (address / 2) value)

@[simp]
theorem get_replicate (value : Byte) (depth address : Nat) :
    (replicate value depth).get address = value := by
  induction depth generalizing address with
  | zero => rfl
  | succ depth ih => simp [replicate,get,ih]

theorem get_set {depth : Nat} (bank : Bank depth) {a b : Nat} (value : Byte)
    (inside : a < capacity depth) (asked : b < capacity depth) :
    (bank.set a value).get b = if b = a then value else bank.get b := by
  induction bank generalizing a b with
  | cell old =>
    have same : b = a := by simp only [capacity] at inside asked; omega
    simp [same,set,get]
  | @pair depth even odd evenIh oddIh =>
    rw [capacity] at inside asked
    have inHalf : a / 2 < capacity depth := by omega
    have askedHalf : b / 2 < capacity depth := by omega
    rcases Nat.mod_two_eq_zero_or_one a with ha | ha <;>
      rcases Nat.mod_two_eq_zero_or_one b with hb | hb
    · have halves : b / 2 = a / 2 ↔ b = a := by omega
      simp [set,get,ha,hb,evenIh inHalf askedHalf,halves]
    · have apart : b ≠ a := by omega
      simp [set,get,ha,hb,apart]
    · have apart : b ≠ a := by omega
      simp [set,get,ha,hb,apart]
    · have halves : b / 2 = a / 2 ↔ b = a := by omega
      simp [set,get,ha,hb,oddIh inHalf askedHalf,halves]

theorem ext {depth : Nat} {left right : Bank depth}
    (same : ∀ address, address < capacity depth → left.get address = right.get address) :
    left = right := by
  induction left with
  | cell value =>
    cases right with
    | cell other => exact congrArg cell (same 0 (by decide))
  | @pair depth even odd evenIh oddIh =>
    cases right with
    | pair even' odd' =>
      congr 1
      · refine evenIh fun address inside => ?_
        have both := same (2 * address) (by rw [capacity]; omega)
        simpa [get] using both
      · refine oddIh fun address inside => ?_
        have both := same (2 * address + 1) (by rw [capacity]; omega)
        have half : (2 * address + 1) / 2 = address := by omega
        simpa [get,half,Nat.add_mod] using both

end Bank

structure Memory where
  bank : Bank 16
  deriving DecidableEq

namespace Memory

def zero : Memory := ⟨Bank.replicate 0 16⟩

def byte (m : Memory) (address : Word) : Byte := m.bank.get address.toNat

def setByte (m : Memory) (address : Word) (value : Byte) : Memory :=
  ⟨m.bank.set address.toNat value⟩

def word (m : Memory) (address : Word) : Word :=
  Word.ofBytes (m.byte address) (m.byte (address + 1))

def setWord (m : Memory) (address value : Word) : Memory :=
  (m.setByte address (Word.low value)).setByte (address + 1) (Word.high value)

def store (m : Memory) (address : Word) : List Byte → Memory
  | [] => m
  | b :: rest => (m.setByte address b).store (address + 1) rest

def slice (m : Memory) (start : Word) (length : Nat) : List Byte :=
  (List.range (min length (memorySize - start.toNat))).map fun k =>
    m.byte (UInt16.ofNat (start.toNat + k))

@[simp]
theorem byte_zero (address : Word) : zero.byte address = 0 := by simp [zero,byte]

@[simp]
theorem byte_setByte (m : Memory) (a b : Word) (value : Byte) :
    (m.setByte a value).byte b = if b = a then value else m.byte b := by
  have inside : a.toNat < Bank.capacity 16 := a.toNat_lt
  have asked : b.toNat < Bank.capacity 16 := b.toNat_lt
  simp [setByte,byte,Bank.get_set _ value inside asked,UInt16.toNat_inj]

@[ext]
theorem ext {left right : Memory} (same : ∀ address, left.byte address = right.byte address) :
    left = right := by
  have banks : left.bank = right.bank := by
    refine Bank.ext fun address inside => ?_
    have inMemory : address < 65536 := inside
    have both := same (UInt16.ofNat address)
    simpa [byte,Nat.mod_eq_of_lt inMemory] using both
  cases left
  cases right
  exact congrArg mk banks

theorem word_setWord (m : Memory) (address value : Word) :
    (m.setWord address value).word address = value := by
  have apart : address ≠ address + 1 := by grind
  simp [setWord,word,apart]

theorem byte_setWord (m : Memory) (address value x : Word) (low : x ≠ address)
    (high : x ≠ address + 1) : (m.setWord address value).byte x = m.byte x := by
  simp [setWord,low,high]

end Memory

end WordMachine
