import WordMachine.Proofs.Machine.Guard
import WordMachine.Proofs.Machine.Loaded
import WordMachine.Proofs.Machine.Transfers

-- What the rules are is said here by addresses alone. The guard's own test for a write is off beside a region without
-- bytes. It does no harm there, since no step gets past its first fetch.

namespace WordMachine

def CodeRegion.Contains (code : CodeRegion) (x : Nat) : Prop := code.start ≤ x ∧ x < code.stop

instance (code : CodeRegion) (x : Nat) : Decidable (code.Contains x) :=
  inferInstanceAs (Decidable (code.start ≤ x ∧ x < code.stop))

namespace Access

inductive Breaks (code : CodeRegion) : Access → String → Prop where
  | fetch {a : Word} : ¬code.Contains a.toNat → Breaks code (.fetch a) "fetch outside code"
  | readEnd : Breaks code (.read 0xFFFF) "read past end of memory"
  | writeEnd : Breaks code (.write 0xFFFF) "write past end of memory"
  | write {a : Word} : a ≤ 0xFFFE → code.Contains a.toNat ∨ code.Contains (a.toNat + 1) →
      Breaks code (.write a) "write into code"

variable {code : CodeRegion} {access : Access} {text : String}

theorem breaks_fetch {a : Word} :
    (fetch a).Breaks code text ↔ ∃ v, (fetch a).violation? code = some v ∧ text = v.name := by
  simp only [violation?]
  constructor
  · intro breaks
    cases breaks with
    | fetch outside => exact ⟨.fetchOutsideCode,if_neg outside,rfl⟩
  · rintro ⟨v,found,rfl⟩
    split at found
    · cases found
    · rename_i outside
      cases found
      exact .fetch outside

theorem breaks_read {a : Word} :
    (read a).Breaks code text ↔ ∃ v, (read a).violation? code = some v ∧ text = v.name := by
  simp only [violation?]
  constructor
  · intro breaks
    cases breaks with
    | readEnd => exact ⟨.readPastEnd,rfl,rfl⟩
  · rintro ⟨v,found,rfl⟩
    split at found
    · rename_i last
      cases found
      cases last
      exact .readEnd
    · cases found

theorem not_last {a : Word} : a ≠ 0xFFFF ↔ a ≤ 0xFFFE := by
  rw [UInt16.le_iff_toNat_le,Ne,← UInt16.toNat_inj]
  have bound := a.toNat_lt
  change ¬a.toNat = 65535 ↔ a.toNat ≤ 65534
  omega

theorem breaks_write {a : Word} (bytes : code.start < code.stop) :
    (write a).Breaks code text ↔ ∃ v, (write a).violation? code = some v ∧ text = v.name := by
  have touches : code.Contains a.toNat ∨ code.Contains (a.toNat + 1) ↔
      code.start < a.toNat + 2 ∧ a.toNat < code.stop := by
    unfold CodeRegion.Contains
    omega
  simp only [violation?]
  constructor
  · intro breaks
    cases breaks with
    | writeEnd => exact ⟨.writePastEnd,rfl,rfl⟩
    | write below inside =>
      rw [if_neg (not_last.mpr below),if_pos (touches.mp inside)]
      exact ⟨_,rfl,rfl⟩
  · rintro ⟨v,found,rfl⟩
    split at found
    · rename_i last
      cases found
      cases last
      exact .writeEnd
    · rename_i notLast
      split at found
      · rename_i inside
        cases found
        exact .write (not_last.mp notLast) (touches.mpr inside)
      · cases found

theorem breaks_iff (bytes : code.start < code.stop) :
    access.Breaks code text ↔ ∃ v, access.violation? code = some v ∧ text = v.name := by
  cases access with
  | fetch a => exact breaks_fetch
  | read a => exact breaks_read
  | write a => exact breaks_write bytes

theorem Breaks.touches_code (broken : access.Breaks code text) (told : text = "write into code") :
    code.Contains access.address.toNat ∨ code.Contains (access.address.toNat + 1) := by
  cases broken with
  | write _ touched => exact touched
  | fetch _ | readEnd | writeEnd => exact absurd told (by decide)

end Access

def Transfer.access : Transfer → Access
  | fetched address _ => .fetch address
  | read address _ => .read address
  | written address _ => .write address

namespace Microcode

variable {α : Type} {m : Machine} {x : Microcode α}

def firstRefusal? (x : Microcode α) (m : Machine) : Option Fault :=
  ((x.transfers m.unguarded).map Transfer.access).findSome? m.refuse?

theorem result_eq (x : Microcode α) (m : Machine) :
    (x.run m).result = (x.firstRefusal? m).elim (x.run m.unguarded).result .error := by
  unfold firstRefusal?
  induction x generalizing m with
  | done value => rfl
  | fail fault => rfl
  | fetch address next ih =>
    cases asked : m.refuse? (.fetch address) with
    | some fault => simp [run,transfers,Transfer.access,asked]
    | none =>
      simp only [run,transfers,asked,Machine.refuse?_unguarded,Option.isSome_none,Bool.false_eq_true,if_false,
        List.map_cons,List.findSome?_cons,Transfer.access]
      exact ih _ m
  | read address next ih =>
    cases asked : m.refuse? (.read address) with
    | some fault => simp [run,transfers,Transfer.access,asked]
    | none =>
      simp only [run,transfers,asked,Machine.refuse?_unguarded,Option.isSome_none,Bool.false_eq_true,if_false,
        List.map_cons,List.findSome?_cons,Transfer.access]
      exact ih _ m
  | write address value next ih =>
    cases asked : m.refuse? (.write address) with
    | some fault => simp [run,transfers,Transfer.access,asked]
    | none =>
      simp only [run,transfers,asked,Machine.refuse?_unguarded,Option.isSome_none,Bool.false_eq_true,if_false,
        List.map_cons,List.findSome?_cons,Transfer.access]
      exact ih _ {m with memory := m.memory.setWord address value}
  | inspect next ih => exact ih _ m
  | adjust change next ih => exact ih () {m with registers := change m.registers}
  | retire next ih => exact ih () {m with steps := m.steps + 1}
  | halt next ih => exact ih () {m with halted := true}

theorem memoryFault_iff {final : α → Prop} (every : x.Every FailsUnimplemented final) {text : String} {a : Word} :
    (x.run m).result = .error (.memoryFault text a) ↔ x.firstRefusal? m = some (.memoryFault text a) := by
  rw [result_eq]
  cases x.firstRefusal? m with
  | some fault => simp
  | none =>
    refine iff_of_false ?_ (by simp)
    intro failed
    rcases run_failure every failed with ⟨_,_,unknown⟩ | ⟨access,_,refused⟩
    · cases unknown
    · cases refused

end Microcode

namespace Machine

variable {m : Machine} {text : String} {a : Word}

def accesses (m : Machine) : List Access := m.transfers.map Transfer.access

theorem accesses_halted (halted : m.halted = true) : m.unguarded.accesses = [] := by
  simp [accesses,transfers,unguarded,halted]

theorem step_memoryFault_iff : m.step.result = .error (.memoryFault text a) ↔
    m.unguarded.accesses.findSome? m.refuse? = some (.memoryFault text a) := by
  cases running : m.halted with
  | true =>
    rw [step_halted running,accesses_halted running]
    simp
  | false =>
    have made : m.unguarded.accesses = (cycle.transfers m.unguarded).map Transfer.access := by
      simp [accesses,transfers,show m.unguarded.halted = false from running]
    rw [made,← Microcode.firstRefusal?,← Microcode.memoryFault_iff Microcode.cycle_fails,step_running running]
    cases ended : (cycle.run m).result <;> simp [Outcome.map,ended,Except.map]

theorem accesses_running (running : m.halted = false) :
    ∃ later, m.unguarded.accesses = .fetch m.registers.ip :: later := by
  rw [accesses,transfers_dispatch (m := m.unguarded) running rfl]
  exact ⟨_,rfl⟩

def FirstBroken (code : CodeRegion) (accesses : List Access) (text : String) (a : Word) : Prop :=
  ∃ before access after, accesses = before ++ access :: after ∧
    (∀ earlier ∈ before, ∀ other, ¬earlier.Breaks code other) ∧ access.Breaks code text ∧ access.address = a

section Strict

variable (strict : m.config.guard = .strict)

include strict

theorem refuse?_eq_some {access : Access} : m.refuse? access = some (.memoryFault text a) ↔
    (∃ v, access.violation? m.code = some v ∧ text = v.name) ∧ access.address = a := by
  simp only [refuse?,strict,Guard.refuse?,Option.map_eq_some_iff,Fault.memoryFault.injEq]
  constructor
  · rintro ⟨v,found,rfl,rfl⟩
    exact ⟨⟨v,found,rfl⟩,rfl⟩
  · rintro ⟨⟨v,found,rfl⟩,rfl⟩
    exact ⟨v,found,rfl,rfl⟩

theorem refuse?_eq_none {access : Access} : m.refuse? access = none ↔ access.violation? m.code = none := by
  simp only [refuse?,strict,Guard.refuse?,Option.map_eq_none_iff]

theorem firstBroken_iff (bytes : m.code.start < m.code.stop) {accesses : List Access} :
    accesses.findSome? m.refuse? = some (.memoryFault text a) ↔ FirstBroken m.code accesses text a := by
  have kept : ∀ access, m.refuse? access = none ↔ ∀ other, ¬access.Breaks m.code other := by
    intro access
    rw [refuse?_eq_none strict]
    simp only [Access.breaks_iff bytes]
    cases access.violation? m.code with
    | none => simp
    | some v => simp
  rw [List.findSome?_eq_some_iff]
  simp only [FirstBroken,refuse?_eq_some strict,kept,Access.breaks_iff bytes]
  constructor
  · rintro ⟨before,access,after,made,⟨broken,same⟩,fine⟩
    exact ⟨before,access,after,made,fine,broken,same⟩
  · rintro ⟨before,access,after,made,fine,broken,same⟩
    exact ⟨before,access,after,made,⟨broken,same⟩,fine⟩

-- Without code the opcode may not be fetched, and nothing that comes after it is looked at.
theorem firstBroken_of_empty (empty : ¬m.code.start < m.code.stop) {ip : Word} {later : List Access} :
    (.fetch ip :: later).findSome? m.refuse? = some (.memoryFault text a) ↔
      FirstBroken m.code (.fetch ip :: later) text a := by
  have outside : ¬m.code.Contains ip.toNat := by
    unfold CodeRegion.Contains
    omega
  have refused : m.refuse? (.fetch ip) = some (.memoryFault "fetch outside code" ip) :=
    (refuse?_eq_some strict).mpr ⟨Access.breaks_fetch.mp (.fetch outside),rfl⟩
  rw [List.findSome?_cons,refused]
  constructor
  · intro same
    cases same
    exact ⟨[],_,later,rfl,by simp,.fetch outside,rfl⟩
  · rintro ⟨before,access,after,made,fine,broken,rfl⟩
    cases before with
    | nil =>
      cases made
      cases broken
      rfl
    | cons first rest =>
      cases made
      exact absurd (.fetch outside) (fine _ List.mem_cons_self _)

theorem step_reports_first : m.step.result = .error (.memoryFault text a) ↔
    FirstBroken m.code m.unguarded.accesses text a := by
  rw [step_memoryFault_iff]
  by_cases bytes : m.code.start < m.code.stop
  · exact firstBroken_iff strict bytes
  · cases running : m.halted with
    | true =>
      rw [accesses_halted running]
      refine iff_of_false (by simp) ?_
      rintro ⟨before,_,_,made,_⟩
      simp at made
    | false =>
      obtain ⟨later,made⟩ := accesses_running running
      rw [made]
      exact firstBroken_of_empty strict bytes

end Strict

def attempt (m : Machine) (image : List Byte) : Machine :=
  match m.load image with
  | .ok n => n
  | .error _ => m

-- An attempt or a step that fails counts as well.
inductive Reached (config : Config) : Machine → Prop where
  | new : Reached config (new config)
  | load {m : Machine} (image : List Byte) : Reached config m → Reached config (m.attempt image)
  | step {m : Machine} : Reached config m → Reached config m.next

theorem attempt_config (m : Machine) (image : List Byte) : (m.attempt image).config = m.config := by
  unfold attempt
  split
  · rename_i loaded
    obtain ⟨h,_,rfl⟩ := load_eq_ok.mp loaded
    rfl
  · rfl

theorem Reached.config {config : Config} (reached : Reached config m) : m.config = config := by
  induction reached with
  | new => rfl
  | load image _ ih => rw [attempt_config,ih]
  | @step m _ ih => rw [m.next_setup.1,ih]

end Machine

-- So a write into code is only reported of a word that has a byte of the code.
theorem strict_faults_exact {limit : Option Nat} {m : Machine} (reached : Machine.Reached ⟨.strict,limit⟩ m) :
    (∀ text a, m.step.result = .error (.memoryFault text a) ↔
      ∃ before access after, m.unguarded.accesses = before ++ access :: after ∧
        (∀ earlier ∈ before, ∀ other, ¬earlier.Breaks m.code other) ∧
        access.Breaks m.code text ∧ access.address = a) ∧
    ∀ a, m.step.result = .error (.memoryFault "write into code" a) →
      m.code.Contains a.toNat ∨ m.code.Contains (a.toNat + 1) := by
  have strict : m.config.guard = .strict := by rw [reached.config]
  have first : ∀ text a, m.step.result = .error (.memoryFault text a) ↔
      Machine.FirstBroken m.code m.unguarded.accesses text a :=
    fun text a => Machine.step_reports_first strict
  refine ⟨first,?_⟩
  intro a failed
  obtain ⟨_,access,_,_,_,broken,rfl⟩ := (first _ a).mp failed
  exact broken.touches_code rfl

-- A section of two bytes, then the code: PUSH 3, SSP, PUSH 9. The second push is at 1, half of it before the code.
def straddlingImage : List Byte :=
  magic.bytes ++ [0x12,0,0,0,2,0] ++ terminator.bytes ++ [0x14,0,7,0] ++ [0xAA,0xBB] ++
    [0x01,3,0,0x18,0x01,9,0]

def straddling : Machine := (((Machine.new ⟨.strict,none⟩).attempt []).attempt straddlingImage).next.next

theorem straddling_fault_exact :
    Machine.Reached ⟨.strict,none⟩ straddling ∧
      straddling.unguarded.accesses = [.fetch 6,.fetch 7,.fetch 8,.write 1] ∧
      straddling.step.result = .error (.memoryFault "write into code" 1) ∧
      (straddling.code.Contains 1 ∨ straddling.code.Contains 2) ∧ ¬straddling.code.Contains 1 := by
  have reached : Machine.Reached ⟨.strict,none⟩ straddling := .step (.step (.load straddlingImage (.load [] .new)))
  have made : straddling.unguarded.accesses = [.fetch 6,.fetch 7,.fetch 8] ++ .write 1 :: [] := rfl
  have code : straddling.code = ⟨2,9⟩ := rfl
  obtain ⟨first,touched⟩ := strict_faults_exact reached
  have failed : straddling.step.result = .error (.memoryFault "write into code" 1) := by
    refine (first _ _).mpr ⟨_,_,_,made,?_,.write (by decide) (by rw [code]; decide),rfl⟩
    intro earlier member other broken
    simp only [List.mem_cons,List.not_mem_nil,or_false] at member
    rw [code] at broken
    rcases member with rfl | rfl | rfl <;>
      cases broken with
      | fetch outside => exact outside (by decide)
  exact ⟨reached,made,failed,touched 1 failed,by rw [code]; decide⟩

end WordMachine
