-- Bytes and words. A word is two bytes, the low one first, wherever it is stored.

namespace WordMachine

abbrev Byte := UInt8

abbrev Word := UInt16

namespace Word

def low (w : Word) : Byte := w.toUInt8

def high (w : Word) : Byte := (w / 256).toUInt8

def ofBytes (lo hi : Byte) : Word := hi.toUInt16 * 256 + lo.toUInt16

def bytes (w : Word) : List Byte := [low w,high w]

@[simp]
theorem low_ofBytes (lo hi : Byte) : low (ofBytes lo hi) = lo := by
  apply UInt8.toNat.inj
  simp [low,ofBytes]

@[simp]
theorem high_ofBytes (lo hi : Byte) : high (ofBytes lo hi) = hi := by
  apply UInt8.toNat.inj
  have := lo.toNat_lt
  have := hi.toNat_lt
  simp [high,ofBytes]
  omega

@[simp]
theorem ofBytes_low_high (w : Word) : ofBytes (low w) (high w) = w := by
  apply UInt16.toNat.inj
  have := w.toNat_lt
  simp [low,high,ofBytes]
  omega

@[simp]
theorem length_bytes (w : Word) : (bytes w).length = 2 := rfl

end Word

end WordMachine
