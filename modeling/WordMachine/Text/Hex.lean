-- Hexadecimal text: lower-case digits, padded with zeros on the left and never cut.

namespace WordMachine.Hex

def digits (width n : Nat) : String :=
  let shortest := Nat.toDigits 16 n
  String.ofList (List.replicate (width - shortest.length) '0' ++ shortest)

def byte (n : Nat) : String := "0x" ++ digits 2 n

def word (n : Nat) : String := "0x" ++ digits 4 n

end WordMachine.Hex
