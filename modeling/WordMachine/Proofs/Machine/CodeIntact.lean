import WordMachine.Proofs.Machine.Loaded
import WordMachine.Proofs.Machine.Transfers

-- A strict machine cannot write over its code, so what it fetches is what was loaded.

namespace WordMachine

structure HoldsCode (base : Nat) (bytes : List Byte) (m : Machine) : Prop where
  strict : m.config.guard = .strict
  region : m.code = ⟨base,base + bytes.length⟩
  fits : base + bytes.length ≤ memorySize
  held : m.memory.Holds base bytes

namespace HoldsCode

variable {base : Nat} {bytes : List Byte} {m : Machine} {i : Instruction} {operand : Word}

theorem address (holds : HoldsCode base bytes m) {k : Nat} (inside : k < bytes.length) :
    (UInt16.ofNat (base + k)).toNat = base + k :=
  UInt16.toNat_ofNat_of_lt' (Nat.lt_of_lt_of_le (Nat.add_lt_add_left inside base) holds.fits)

theorem write_outside (holds : HoldsCode base bytes m) {address : Word}
    (passed : m.refuse? (.write address) = none) :
    address ≠ 0xFFFF ∧ ¬(base < address.toNat + 2 ∧ address.toNat < base + bytes.length) := by
  simp only [Machine.refuse?,holds.strict,holds.region,Guard.refuse?,Option.map_eq_none_iff,
    Access.violation?] at passed
  split at passed
  · cases passed
  · rename_i notLast
    split at passed
    · cases passed
    · rename_i outside
      exact ⟨notLast,outside⟩

theorem after_write (holds : HoldsCode base bytes m) {address value : Word}
    (passed : m.refuse? (.write address) = none) :
    (m.memory.setWord address value).Holds base bytes := by
  obtain ⟨notLast,outside⟩ := holds.write_outside passed
  intro k b found
  have inside := (List.getElem?_eq_some_iff.mp found).1
  have place := holds.address inside
  -- The word that is written does not wrap, so both of its bytes are told apart by number.
  have second : (address + 1).toNat = address.toNat + 1 := by
    have bound := address.toNat_lt
    have below : address.toNat ≠ 65535 := fun same => notLast (UInt16.toNat_inj.mp same)
    rw [UInt16.toNat_add]
    simp
    omega
  rw [Memory.byte_setWord,holds.held k b found]
  · intro same
    rw [same] at place
    omega
  · intro same
    rw [same] at place
    omega

theorem keeps : Microcode.Keeps (fun _ => True) (HoldsCode base bytes) where
  write _ _ _ holds _ passed := ⟨holds.strict,holds.region,holds.fits,holds.after_write passed⟩
  adjust _ _ holds _ := ⟨holds.strict,holds.region,holds.fits,holds.held⟩
  retire _ holds _ := ⟨holds.strict,holds.region,holds.fits,holds.held⟩
  halt _ holds _ := ⟨holds.strict,holds.region,holds.fits,holds.held⟩

theorem fetch_allowed (holds : HoldsCode base bytes m) {k : Nat} (inside : k < bytes.length) :
    m.refuse? (.fetch (UInt16.ofNat (base + k))) = none := by
  have place := holds.address inside
  simp only [Machine.refuse?,holds.strict,holds.region,Guard.refuse?,Access.violation?,place]
  rw [if_pos ⟨by omega,by omega⟩]
  rfl

theorem fetched (holds : HoldsCode base bytes m) {address : Word}
    (passed : m.refuse? (.fetch address) = none) :
    base ≤ address.toNat ∧ bytes[address.toNat - base]? = some (m.memory.byte address) := by
  simp only [Machine.refuse?,holds.strict,holds.region,Guard.refuse?,Option.map_eq_none_iff,
    Access.violation?] at passed
  split at passed
  · rename_i inside
    have room : address.toNat - base < bytes.length := by omega
    have found := List.getElem?_eq_getElem room
    have place : UInt16.ofNat (base + (address.toNat - base)) = address := by
      rw [Nat.add_sub_cancel' inside.1,UInt16.ofNat_toNat]
    rw [← place,holds.held _ _ found,place]
    exact ⟨inside.1,found⟩
  · cases passed

section Located

variable {before after : List Byte}

theorem byte_at (holds : HoldsCode base bytes m)
    (located : bytes = before ++ i.encode operand ++ after)
    (ip : m.registers.ip = UInt16.ofNat (base + before.length)) {k : Nat} {b : Byte}
    (found : (i.encode operand)[k]? = some b) :
    m.memory.byte (m.registers.ip + UInt16.ofNat k) = b := by
  have inside := (List.getElem?_eq_some_iff.mp found).1
  have there : bytes[before.length + k]? = some b := by
    rw [located,List.append_assoc,List.getElem?_append_right (by omega)]
    rw [Nat.add_sub_cancel_left,List.getElem?_append_left inside,found]
  rw [ip,← UInt16.ofNat_add,Nat.add_assoc]
  exact holds.held _ _ there

theorem fetches (holds : HoldsCode base bytes m)
    (located : bytes = before ++ i.encode operand ++ after)
    (ip : m.registers.ip = UInt16.ofNat (base + before.length)) : m.Fetches i := by
  constructor
  · have byte := holds.byte_at located ip (k := 0) rfl
    simpa using byte
  · intro k inside
    have room : before.length + k < bytes.length := by
      simp only [located,List.length_append,Instruction.length_encode]
      omega
    rw [ip,← UInt16.ofNat_add,Nat.add_assoc]
    exact holds.fetch_allowed room

theorem storedOperand (holds : HoldsCode base bytes m)
    (located : bytes = before ++ i.encode operand ++ after)
    (ip : m.registers.ip = UInt16.ofNat (base + before.length)) (has : i.hasOperand = true) :
    m.storedOperand i = operand := by
  have stored : i.encode operand = [i.opcode,Word.low operand,Word.high operand] := by
    simp [Instruction.encode,has,Word.bytes]
  have low := holds.byte_at located ip (k := 1) (by rw [stored]; rfl)
  have high := holds.byte_at located ip (k := 2) (by rw [stored]; rfl)
  have next : m.registers.ip + 1 + 1 = m.registers.ip + UInt16.ofNat 2 := UInt16.add_assoc _ 1 1
  rw [Machine.storedOperand,if_pos has,Memory.word,next,high]
  change Word.ofBytes (m.memory.byte (m.registers.ip + UInt16.ofNat 1)) _ = _
  rw [low,Word.ofBytes_low_high]

theorem step (holds : HoldsCode base bytes m) (running : m.halted = false)
    (located : bytes = before ++ i.encode operand ++ after)
    (ip : m.registers.ip = UInt16.ofNat (base + before.length))
    (absent : i.hasOperand = false → operand = 0) : m.step = m.execute i operand := by
  have stored : m.storedOperand i = operand := by
    cases has : i.hasOperand with
    | true => exact holds.storedOperand located ip has
    | false => simp [Machine.storedOperand,has,absent has]
  rw [Machine.step_of_fetches running (holds.fetches located ip),stored]

end Located

end HoldsCode

theorem Header.InBounds.holdsCode {h : Header} {image : List Byte} (bounds : h.InBounds image.length)
    {m : Machine} (strict : m.config.guard = .strict) :
    HoldsCode h.codeBase (h.codeBody image) (m.install h image) where
  strict := strict
  region := by
    rw [length_codeBody bounds]
    rfl
  fits := by
    rw [length_codeBody bounds]
    exact bounds.memory
  held := m.holds_codeBody bounds

theorem Built.holdsCode {p : Program} {image : List Byte} {h : Header} {code : List (List Byte)}
    (built : Built p image h code) {m : Machine} (strict : m.config.guard = .strict) :
    HoldsCode p.codeBase code.flatten (m.install h image) := by
  rw [← built.codeBase,← built.codeBody]
  exact built.inBounds.holdsCode strict

theorem HoldsCode.transfer {base : Nat} {bytes : List Byte} {m : Machine} (holds : HoldsCode base bytes m)
    {address : Word} {byte : Byte} (member : .fetched address byte ∈ m.transfers) :
    base ≤ address.toNat ∧ bytes[address.toNat - base]? = some byte := by
  unfold Machine.transfers at member
  split at member
  · cases member
  · exact HoldsCode.keeps.fetched
      (Q := fun address byte => base ≤ address.toNat ∧ bytes[address.toNat - base]? = some byte)
      (fun _ _ holds passed => holds.fetched passed) holds member

theorem Header.codeBody_getElem? {h : Header} {image : List Byte} {k : Nat} {b : Byte}
    (found : (h.codeBody image)[k]? = some b) :
    k < h.codeLength.toNat ∧ image[h.codePointer.toNat + k]? = some b := body_getElem? found

-- Steps that fail are included, and so are attempts to load that do: they leave no other machine behind.
theorem strict_code_intact {m start : Machine} {image : List Byte} (strict : m.config.guard = .strict)
    (loaded : m.load image = .ok start) :
    ∃ h, Header.parse image = .ok h ∧ h.codeStop ≤ memorySize ∧
      (h.codeBody image).length = h.codeLength.toNat ∧
      ∀ count,
        (start.after count).memory.Holds h.codeBase (h.codeBody image) ∧
        (∀ address byte, .fetched address byte ∈ (start.after count).transfers →
          h.codeBase ≤ address.toNat ∧ address.toNat < h.codeStop ∧
          image[h.codePointer.toNat + (address.toNat - h.codeBase)]? = some byte) ∧
        ((start.after count).halted = false → (start.after count).Decided) := by
  obtain ⟨h,parsed,rfl⟩ := Machine.load_eq_ok.mp loaded
  obtain ⟨_,_,bounds⟩ := Header.parse_eq_ok.mp parsed
  refine ⟨h,parsed,bounds.memory,Header.length_codeBody bounds,?_⟩
  intro count
  have holds := Machine.after_keeps HoldsCode.keeps (bounds.holdsCode strict) count
  refine ⟨holds.held,?_,Machine.decided⟩
  intro address byte member
  obtain ⟨begins,found⟩ := holds.transfer member
  obtain ⟨inside,there⟩ := Header.codeBody_getElem? found
  refine ⟨begins,?_,there⟩
  rw [Header.codeStop]
  omega

-- PUSH 5, SSP, CALL: the stack is moved into the code, where CALL finds the target 0 and the count 2. It
-- pushes the frame size and the return address above the code and is refused at the first argument.
def failingCallImage : List Byte :=
  magic.bytes ++ terminator.bytes ++ [0x0C,0x00,0x09,0x00] ++
    [0x01,0x05,0x00,0x18,0x12,0x00,0x00,0x02,0x00]

def failingCall : Machine := (Machine.new ⟨.strict,none⟩).install ⟨[],12,9⟩ failingCallImage

theorem failingCall_code_intact :
    (Machine.new ⟨.strict,none⟩).load failingCallImage = .ok failingCall ∧
      (failingCall.after 2).step.result = .error (.memoryFault "write into code" 7) ∧
      (failingCall.after 2).memory.word 9 = 0 ∧ (failingCall.after 3).memory.word 9 = 5 ∧
      (failingCall.after 3).memory.Holds 0 [0x01,0x05,0x00,0x18,0x12,0x00,0x00,0x02,0x00] ∧
      (failingCall.after 3).transfers = [.fetched 5 0] ∧ failingCallImage[12 + 5]? = some 0 := by
  have loaded : (Machine.new ⟨.strict,none⟩).load failingCallImage = .ok failingCall := rfl
  obtain ⟨h,parsed,_,_,intact⟩ := strict_code_intact rfl loaded
  cases parsed
  obtain ⟨held,consumed,_⟩ := intact 3
  have fetched : (failingCall.after 3).transfers = [.fetched 5 0] := rfl
  refine ⟨loaded,rfl,rfl,rfl,held,fetched,?_⟩
  exact (consumed 5 0 (by rw [fetched]; exact List.mem_cons_self)).2.2

end WordMachine
