import WordMachine.Machine.Semantics

-- A fact that every action of some microcode keeps is a fact that the whole run keeps, however the run ends. The
-- instructions are then only looked at for which actions they are made of.

namespace WordMachine

namespace Outcome

variable {α β : Type}

def map (f : α → β) (o : Outcome α) : Outcome β := ⟨o.result.map f,o.machine⟩

def andThen (o : Outcome α) (after : α → Machine → Outcome β) : Outcome β :=
  match o.result with
  | .ok value => after value o.machine
  | .error fault => ⟨.error fault,o.machine⟩

@[simp]
theorem andThen_ok (value : α) (m : Machine) (after : α → Machine → Outcome β) :
    andThen ⟨.ok value,m⟩ after = after value m := rfl

@[simp]
theorem andThen_error (fault : Fault) (m : Machine) (after : α → Machine → Outcome β) :
    andThen ⟨.error fault,m⟩ after = ⟨.error fault,m⟩ := rfl

theorem andThen_pure (o : Outcome α) (f : α → β) :
    (o.andThen fun value n => ⟨.ok (f value),n⟩) = o.map f := by
  obtain ⟨result,m⟩ := o
  cases result <;> rfl

theorem map_map {γ : Type} (o : Outcome α) (f : α → β) (g : β → γ) :
    (o.map f).map g = o.map fun value => g (f value) := by
  obtain ⟨result,m⟩ := o
  cases result <;> rfl

theorem map_eq_ok {o : Outcome α} {f : α → β} {value : β} {n : Machine}
    (ended : o.map f = ⟨.ok value,n⟩) : ∃ first, f first = value ∧ o = ⟨.ok first,n⟩ := by
  obtain ⟨result,m⟩ := o
  cases result with
  | ok first => cases ended; exact ⟨first,rfl,rfl⟩
  | error fault => cases ended

theorem map_eq_error {o : Outcome α} {f : α → β} {fault : Fault} {n : Machine}
    (ended : o.map f = ⟨.error fault,n⟩) : o = ⟨.error fault,n⟩ := by
  obtain ⟨result,m⟩ := o
  cases result with
  | ok first => cases ended
  | error other => cases ended; rfl

theorem andThen_eq_ok {o : Outcome α} {after : α → Machine → Outcome β} {value : β} {n : Machine}
    (ended : o.andThen after = ⟨.ok value,n⟩) :
    ∃ first m, o = ⟨.ok first,m⟩ ∧ after first m = ⟨.ok value,n⟩ := by
  obtain ⟨result,m⟩ := o
  cases result with
  | ok first => exact ⟨first,m,rfl,ended⟩
  | error fault => cases ended

end Outcome

-- Looking at the registers is no action: it neither changes the machine nor can be refused.
inductive Action where
  | fail (fault : Fault)
  | access (access : Access)
  | adjust (change : Registers → Registers)
  | retire
  | halt

namespace Microcode

variable {α β : Type} {m n : Machine} {fault : Fault}

theorem bind_eq (x : Microcode α) (f : α → Microcode β) : (x >>= f) = x.bind f := rfl

theorem run_bind (x : Microcode α) (f : α → Microcode β) (m : Machine) :
    (x.bind f).run m = (x.run m).andThen fun value n => (f value).run n := by
  induction x generalizing m with
  | done value => rfl
  | fail fault => rfl
  | fetch address next ih | read address next ih | write address value next ih =>
    simp only [bind,run]
    split
    · rfl
    · exact ih _ _
  | inspect next ih | adjust change next ih | retire next ih | halt next ih => exact ih _ _

@[simp]
theorem run_andThen (x : Microcode α) (f : α → Microcode β) (m : Machine) :
    (x >>= f).run m = (x.run m).andThen fun value n => (f value).run n := run_bind x f m

@[simp]
theorem run_pure (value : α) (m : Machine) : (pure value : Microcode α).run m = ⟨.ok value,m⟩ := rfl

@[simp]
theorem run_registers (m : Machine) : registers.run m = ⟨.ok m.registers,m⟩ := rfl

@[simp]
theorem run_setRegisters (change : Registers → Registers) (m : Machine) :
    (setRegisters change).run m = ⟨.ok (),{m with registers := change m.registers}⟩ := rfl

@[simp]
theorem run_countStep (m : Machine) : countStep.run m = ⟨.ok (),{m with steps := m.steps + 1}⟩ := rfl

-- Whatever the memory and the registers hold on the way.
def Every (allowed : Action → Prop) (final : α → Prop) : Microcode α → Prop
  | done value => final value
  | fail fault => allowed (.fail fault)
  | fetch address next => allowed (.access (.fetch address)) ∧ ∀ b, (next b).Every allowed final
  | read address next => allowed (.access (.read address)) ∧ ∀ w, (next w).Every allowed final
  | write address _ next => allowed (.access (.write address)) ∧ (next ()).Every allowed final
  | inspect next => ∀ r, (next r).Every allowed final
  | adjust change next => allowed (.adjust change) ∧ (next ()).Every allowed final
  | retire next => allowed .retire ∧ (next ()).Every allowed final
  | halt next => allowed .halt ∧ (next ()).Every allowed final

@[simp]
theorem every_bind {allowed : Action → Prop} {final : β → Prop} (x : Microcode α)
    (f : α → Microcode β) :
    (x.bind f).Every allowed final ↔ x.Every allowed fun value => (f value).Every allowed final := by
  induction x with
  | done value => rfl
  | fail fault => rfl
  | fetch address next ih | read address next ih | write address value next ih
  | inspect next ih | adjust change next ih | retire next ih | halt next ih => simp only [bind,Every,ih]

theorem Every.mono {allowed wider : Action → Prop} {final goal : α → Prop} {x : Microcode α}
    (every : x.Every allowed final) (actions : ∀ a, allowed a → wider a)
    (values : ∀ value, final value → goal value) : x.Every wider goal := by
  induction x with
  | done value => exact values _ every
  | fail fault => exact actions _ every
  | fetch address next ih => exact ⟨actions _ every.1,fun b => ih b (every.2 b)⟩
  | read address next ih => exact ⟨actions _ every.1,fun w => ih w (every.2 w)⟩
  | inspect next ih => exact fun r => ih r (every r)
  | write address value next ih | adjust change next ih | retire next ih | halt next ih =>
    exact ⟨actions _ every.1,ih () every.2⟩

theorem Every.then {allowed : Action → Prop} {final : β → Prop} {x : Microcode α}
    {f : α → Microcode β} (first : x.Every allowed fun _ => True)
    (rest : ∀ value, (f value).Every allowed final) : (x >>= f).Every allowed final := by
  rw [bind_eq,every_bind]
  exact first.mono (fun _ ok => ok) fun value _ => rest value

theorem every_true (x : Microcode α) : x.Every (fun _ => True) fun _ => True := by
  induction x with
  | done value => trivial
  | fail fault => trivial
  | fetch address next ih => exact ⟨trivial,ih⟩
  | read address next ih => exact ⟨trivial,ih⟩
  | inspect next ih => exact ih
  | write address value next ih | adjust change next ih | retire next ih | halt next ih =>
    exact ⟨trivial,ih ()⟩

structure Keeps (allowed : Action → Prop) (P : Machine → Prop) : Prop where
  write : ∀ m address value, P m → allowed (.access (.write address)) →
    m.refuse? (.write address) = none → P {m with memory := m.memory.setWord address value}
  adjust : ∀ m change, P m → allowed (.adjust change) →
    P {m with registers := change m.registers}
  retire : ∀ m, P m → allowed .retire → P {m with steps := m.steps + 1}
  halt : ∀ m, P m → allowed .halt → P {m with halted := true}

theorem Keeps.run {allowed : Action → Prop} {P : Machine → Prop} {final : α → Prop}
    (keeps : Keeps allowed P) {x : Microcode α} (every : x.Every allowed final) (start : P m) :
    P (x.run m).machine := by
  induction x generalizing m with
  | done value => exact start
  | fail fault => exact start
  | fetch address next ih | read address next ih =>
    simp only [Microcode.run]
    split
    · exact start
    · exact ih _ (every.2 _) start
  | write address value next ih =>
    simp only [Microcode.run]
    split
    · exact start
    · rename_i passed
      exact ih _ every.2 (keeps.write m address value start every.1 passed)
  | inspect next ih => exact ih _ (every _) start
  | adjust change next ih => exact ih _ every.2 (keeps.adjust m change start every.1)
  | retire next ih => exact ih _ every.2 (keeps.retire m start every.1)
  | halt next ih => exact ih _ every.2 (keeps.halt m start every.1)

theorem run_setup (x : Microcode α) (m : Machine) :
    (x.run m).machine.config = m.config ∧ (x.run m).machine.code = m.code ∧
      (x.run m).machine.entry = m.entry := by
  have keeps : Keeps (fun _ => True) fun n =>
      n.config = m.config ∧ n.code = m.code ∧ n.entry = m.entry :=
    ⟨fun _ _ _ held _ _ => held,fun _ _ held _ => held,fun _ held _ => held,fun _ held _ => held⟩
  exact keeps.run (every_true x) ⟨rfl,rfl,rfl⟩

theorem run_failure {allowed : Action → Prop} {final : α → Prop} {x : Microcode α}
    (every : x.Every allowed final) (failed : (x.run m).result = .error fault) :
    allowed (.fail fault) ∨
      ∃ access, allowed (.access access) ∧ m.refuse? access = some fault := by
  induction x generalizing m with
  | done value => cases failed
  | fail fault =>
    cases failed
    exact .inl every
  | fetch address next ih | read address next ih =>
    simp only [run] at failed
    split at failed
    · rename_i refused
      cases failed
      exact .inr ⟨_,every.1,refused⟩
    · exact ih _ (every.2 _) failed
  | write address value next ih =>
    simp only [run] at failed
    split at failed
    · rename_i refused
      cases failed
      exact .inr ⟨_,every.1,refused⟩
    · have cause := ih _ every.2 failed
      exact cause
  | inspect next ih => exact ih _ (every _) failed
  | adjust change next ih | retire next ih | halt next ih =>
    -- The guard looks at nothing that these change.
    simp only [run] at failed
    have cause := ih _ every.2 failed
    exact cause

end Microcode

end WordMachine
