import WordMachine.Proofs.Machine.Execution

-- A run is steps one after another, up to a step that halts or fails, or to the limit. The limit is on the
-- machine's own count of steps, which goes on from one run to the next.

namespace WordMachine

namespace Machine

open Microcode

variable {m last : Machine} {result : Except Fault Word} {count enough limit : Nat} {fault : Fault}

def Runs (m : Machine) (count : Nat) : Prop :=
  ∀ k, k < count → (m.after k).halted = false ∧ ∃ executed, (m.after k).step.result = .ok executed

theorem runs_zero (m : Machine) : m.Runs 0 := by
  intro k before
  omega

theorem runs_succ : m.Runs (count + 1) ↔ m.Runs count ∧ (m.after count).halted = false ∧
    ∃ executed, (m.after count).step.result = .ok executed := by
  constructor
  · intro runs
    exact ⟨fun k before => runs k (by omega),runs count (by omega)⟩
  · intro both k before
    obtain ⟨earlier,this⟩ := both
    rcases Nat.lt_succ_iff_lt_or_eq.mp before with less | rfl
    · exact earlier k less
    · exact this

theorem runs_or_stops (m : Machine) (count : Nat) :
    m.Runs count ∨ ∃ k, k < count ∧ m.Runs k ∧
      ((m.after k).halted = true ∨ ∃ fault, (m.after k).step.result = .error fault) := by
  induction count with
  | zero => exact .inl m.runs_zero
  | succ count ih =>
    rcases ih with runs | ⟨k,before,stops⟩
    · cases halted : (m.after count).halted with
      | true => exact .inr ⟨count,by omega,runs,.inl halted⟩
      | false =>
        cases result : (m.after count).step.result with
        | error fault => exact .inr ⟨count,by omega,runs,.inr ⟨fault,result⟩⟩
        | ok executed => exact .inl (runs_succ.mpr ⟨runs,halted,executed,result⟩)
    · exact .inr ⟨k,by omega,stops⟩

theorem step_counts {executed : Option Instruction} (running : m.halted = false)
    (succeeds : m.step.result = .ok executed) : m.next.steps = m.steps + 1 := by
  have stepped := step_eq succeeds
  cases executed with
  | none =>
    obtain ⟨halted,_⟩ := step_idle stepped
    rw [running] at halted
    cases halted
  | some i =>
    obtain ⟨_,_,ended⟩ := step_executed stepped
    have keeps : Keeps (Action.Handled i) fun n => n.steps = m.steps + 1 :=
      ⟨fun _ _ _ held _ _ => held,fun _ _ held _ => held,fun _ _ counted => counted.elim,
        fun _ held _ => held⟩
    have after := keeps.run (ofInstruction_handled i (m.storedOperand i)) (m := m.past i) rfl
    rwa [ended] at after

theorem Runs.steps (runs : m.Runs count) : (m.after count).steps = m.steps + count := by
  induction count with
  | zero => rfl
  | succ count ih =>
    obtain ⟨earlier,running,executed,succeeds⟩ := runs_succ.mp runs
    change (m.after count).next.steps = m.steps + (count + 1)
    rw [step_counts running succeeds,ih earlier]
    omega

theorem after_config (m : Machine) (count : Nat) : (m.after count).config = m.config := by
  have keeps : Keeps (fun _ => True) fun n => n.config = m.config :=
    ⟨fun _ _ _ held _ _ => held,fun _ _ held _ => held,fun _ held _ => held,fun _ held _ => held⟩
  exact after_keeps keeps rfl count

theorem run_ended (ended : m.verdict? = some result) (fuel : Nat) (log : Log) :
    m.run fuel log = ⟨some result,m,log⟩ := by
  unfold run
  rw [ended]

theorem run_step {executed : Option Instruction} (unended : m.verdict? = none)
    (succeeds : m.step.result = .ok executed) (fuel : Nat) (log : Log) :
    m.run (fuel + 1) log = m.next.run fuel (m.next.logExecuted executed log) := by
  rw [run,unended,step_eq succeeds]

theorem run_failed (unended : m.verdict? = none) (fails : m.step.result = .error fault) (fuel : Nat)
    (log : Log) : m.run (fuel + 1) log = ⟨some (.error fault),m.next,log⟩ := by
  rw [run,unended,step_eq fails]

-- None may always be taken, even where the limit is long passed.
def Allows (m : Machine) (count : Nat) : Prop :=
  ∀ limit, m.config.stepLimit = some limit → count = 0 ∨ m.steps + count ≤ limit

theorem Allows.fewer (allowed : m.Allows (count + 1)) : m.Allows count := by
  intro limit limited
  have room := allowed limit limited
  omega

theorem Runs.unended (runs : m.Runs count) (running : (m.after count).halted = false)
    (allowed : m.Allows (count + 1)) : (m.after count).verdict? = none := by
  unfold verdict?
  rw [running,m.after_config,runs.steps]
  cases limited : m.config.stepLimit with
  | none => rfl
  | some limit =>
    have room := allowed limit limited
    have below : ¬limit ≤ m.steps + count := by omega
    simp [below]

theorem Runs.along (runs : m.Runs count) (allowed : m.Allows count) (fuel : Nat) (log : Log) :
    ∃ reported, m.run (count + fuel) log = (m.after count).run fuel reported := by
  induction count generalizing fuel with
  | zero => exact ⟨log,by rw [Nat.zero_add]; rfl⟩
  | succ count ih =>
    obtain ⟨earlier,running,executed,succeeds⟩ := runs_succ.mp runs
    obtain ⟨reported,before⟩ := ih earlier allowed.fewer (fuel + 1)
    refine ⟨(m.after count).next.logExecuted executed reported,?_⟩
    rw [Nat.add_assoc,Nat.add_comm 1 fuel,before]
    exact run_step (earlier.unended running allowed) succeeds fuel reported

-- More fuel changes nothing, and neither does the log.
def Ends (m : Machine) (enough : Nat) (result : Except Fault Word) (last : Machine) : Prop :=
  ∀ fuel, enough ≤ fuel → ∀ log, ∃ reported, m.run fuel log = ⟨some result,last,reported⟩

theorem Ends.mono {more : Nat} (ends : m.Ends enough result last) (le : enough ≤ more) :
    m.Ends more result last :=
  fun fuel supplied => ends fuel (Nat.le_trans le supplied)

theorem Ends.unique {other : Nat} {also : Except Fault Word} {final : Machine}
    (ends : m.Ends enough result last) (again : m.Ends other also final) :
    result = also ∧ last = final := by
  obtain ⟨_,one⟩ := ends (max enough other) (Nat.le_max_left _ _) ⟨.error,[]⟩
  obtain ⟨_,two⟩ := again (max enough other) (Nat.le_max_right _ _) ⟨.error,[]⟩
  rw [one] at two
  cases two
  exact ⟨rfl,rfl⟩

theorem Runs.ends (runs : m.Runs count) (allowed : m.Allows count)
    (ended : (m.after count).verdict? = some result) : m.Ends count result (m.after count) := by
  intro fuel supplied log
  obtain ⟨reported,along⟩ := runs.along allowed (fuel - count) log
  refine ⟨reported,?_⟩
  rw [Nat.add_sub_cancel' supplied,run_ended ended] at along
  exact along

theorem Runs.ends_halted (runs : m.Runs count) (allowed : m.Allows count)
    (halted : (m.after count).halted = true) :
    m.Ends count (.ok (m.after count).top) (m.after count) :=
  runs.ends allowed (by simp [verdict?,halted])

theorem Runs.ends_failed (runs : m.Runs count) (allowed : m.Allows (count + 1))
    (fails : (m.after count).step.result = .error fault) :
    m.Ends (count + 1) (.error fault) (m.after count).next := by
  have running : (m.after count).halted = false := by
    cases halted : (m.after count).halted with
    | false => rfl
    | true =>
      rw [step_halted halted] at fails
      cases fails
  intro fuel supplied log
  obtain ⟨reported,along⟩ := runs.along allowed.fewer (fuel - (count + 1) + 1) log
  refine ⟨reported,?_⟩
  have split : count + (fuel - (count + 1) + 1) = fuel := by omega
  rw [split,run_failed (runs.unended running allowed) fails] at along
  exact along

theorem run_resume {fuel : Nat} {log : Log} (unended : (m.run fuel log).result? = none) (more : Nat) :
    m.run (fuel + more) log = (m.run fuel log).machine.run more (m.run fuel log).log := by
  induction fuel generalizing m log with
  | zero =>
    cases verdict : m.verdict? with
    | some result => rw [run_ended verdict] at unended; cases unended
    | none =>
      have left : m.run 0 log = ⟨none,m,log⟩ := by rw [run,verdict]
      rw [Nat.zero_add,left]
  | succ fuel ih =>
    cases verdict : m.verdict? with
    | some result => rw [run_ended verdict] at unended; cases unended
    | none =>
      cases stepped : m.step.result with
      | error fault => rw [run_failed verdict stepped] at unended; cases unended
      | ok executed =>
        rw [run_step verdict stepped] at unended ⊢
        rw [Nat.add_right_comm,run_step verdict stepped]
        exact ih unended

theorem ends_of_verdict (ended : m.verdict? = some result) (enough : Nat) : m.Ends enough result m :=
  fun fuel _ log => ⟨log,run_ended ended fuel log⟩

theorem Ends.before {executed : Option Instruction} (unended : m.verdict? = none)
    (succeeds : m.step.result = .ok executed) (ends : m.next.Ends enough result last) :
    m.Ends (enough + 1) result last := by
  intro fuel supplied log
  obtain ⟨rest,rfl⟩ := Nat.exists_eq_add_of_le' (Nat.lt_of_lt_of_le (Nat.succ_pos enough) supplied)
  rw [run_step unended succeeds]
  exact ends rest (by omega) _

theorem ends_of_failure (unended : m.verdict? = none) (fails : m.step.result = .error fault) (enough : Nat) :
    m.Ends (enough + 1) (.error fault) m.next := by
  intro fuel supplied log
  obtain ⟨rest,rfl⟩ := Nat.exists_eq_add_of_le' (Nat.lt_of_lt_of_le (Nat.succ_pos enough) supplied)
  exact ⟨log,run_failed unended fails rest log⟩

theorem ends_of_run {fuel : Nat} {log : Log} (ended : (m.run fuel log).result? = some result) :
    m.Ends fuel result (m.run fuel log).machine := by
  induction fuel generalizing m log with
  | zero =>
    cases verdict : m.verdict? with
    | some found =>
      rw [run_ended verdict] at ended ⊢
      cases ended
      exact ends_of_verdict verdict 0
    | none => rw [run,verdict] at ended; cases ended
  | succ fuel ih =>
    cases verdict : m.verdict? with
    | some found =>
      rw [run_ended verdict] at ended ⊢
      cases ended
      exact ends_of_verdict verdict (fuel + 1)
    | none =>
      cases stepped : m.step.result with
      | error fault =>
        rw [run_failed verdict stepped] at ended ⊢
        cases ended
        exact ends_of_failure verdict stepped fuel
      | ok executed =>
        rw [run_step verdict stepped] at ended ⊢
        exact (ih ended).before verdict stepped

theorem Ends.resumed {fuel : Nat} {log : Log} (unended : (m.run fuel log).result? = none)
    (ends : (m.run fuel log).machine.Ends enough result last) : m.Ends (fuel + enough) result last := by
  obtain ⟨_,ran⟩ := ends enough (Nat.le_refl _) (m.run fuel log).log
  rw [← run_resume unended] at ran
  have whole := ends_of_run (congrArg Run.result? ran)
  rw [ran] at whole
  exact whole

theorem Ends.remaining {fuel : Nat} {log : Log} (ends : m.Ends enough result last)
    (unended : (m.run fuel log).result? = none) :
    fuel < enough ∧ (m.run fuel log).machine.Ends (enough - fuel) result last := by
  have short : fuel < enough := by
    apply Nat.lt_of_not_le
    intro supplied
    obtain ⟨_,ran⟩ := ends fuel supplied log
    rw [ran] at unended
    cases unended
  obtain ⟨_,ran⟩ := ends (fuel + (enough - fuel)) (by omega) log
  rw [run_resume unended] at ran
  have rest := ends_of_run (congrArg Run.result? ran)
  rw [ran] at rest
  exact ⟨short,rest⟩

theorem stepLimit_verdict (limited : m.config.stepLimit = some limit) (running : m.halted = false)
    (reached : limit ≤ m.steps) : m.verdict? = some (.error (.stepLimitExceeded limit)) := by
  simp [verdict?,running,limited,reached]

theorem step_fault_ne (fails : m.step.result = .error fault) (limit : Nat) :
    fault ≠ .stepLimitExceeded limit := by
  rintro rfl
  rcases step_failure fails with ⟨_,_,unknown⟩ | ⟨_,refused⟩
  · cases unknown
  · obtain ⟨_,_,violation⟩ := refused_violation refused
    cases violation

section Limited

variable (limited : m.config.stepLimit = some limit)
include limited

theorem allows_iff : m.Allows count ↔ count ≤ limit - m.steps := by
  constructor
  · intro allowed
    have room := allowed limit limited
    omega
  · intro within other same
    cases limited.symm.trans same
    omega

theorem Runs.exceeded (runs : m.Runs (limit - m.steps))
    (running : (m.after (limit - m.steps)).halted = false) :
    (m.after (limit - m.steps)).verdict? = some (.error (.stepLimitExceeded limit)) := by
  apply stepLimit_verdict
  · rw [after_config,limited]
  · exact running
  · rw [runs.steps]
    omega

end Limited

inductive Stops (m : Machine) (limit : Nat) : Except Fault Word → Machine → Prop where
  | halted {k : Nat} : k ≤ limit - m.steps → m.Runs k → (m.after k).halted = true →
      Stops m limit (.ok (m.after k).top) (m.after k)
  | failed {k : Nat} {fault : Fault} : k < limit - m.steps → m.Runs k →
      (m.after k).step.result = .error fault → Stops m limit (.error fault) (m.after k).next
  | exceeded : m.Runs (limit - m.steps) → (m.after (limit - m.steps)).halted = false →
      Stops m limit (.error (.stepLimitExceeded limit)) (m.after (limit - m.steps))

theorem exists_stops (m : Machine) (limit : Nat) : ∃ result last, m.Stops limit result last := by
  rcases m.runs_or_stops (limit - m.steps) with runs | ⟨k,before,runs,halted | ⟨fault,fails⟩⟩
  · cases halted : (m.after (limit - m.steps)).halted with
    | true => exact ⟨_,_,.halted (Nat.le_refl _) runs halted⟩
    | false => exact ⟨_,_,.exceeded runs halted⟩
  · exact ⟨_,_,.halted (Nat.le_of_lt before) runs halted⟩
  · exact ⟨_,_,.failed before runs fails⟩

theorem Stops.ends (stops : m.Stops limit result last) (limited : m.config.stepLimit = some limit) :
    m.Ends (limit - m.steps) result last := by
  cases stops with
  | halted within runs halted =>
    exact (runs.ends_halted ((allows_iff limited).mpr within) halted).mono within
  | failed before runs fails =>
    exact (runs.ends_failed ((allows_iff limited).mpr before) fails).mono before
  | exceeded runs running =>
    exact runs.ends ((allows_iff limited).mpr (Nat.le_refl _)) (runs.exceeded limited running)

def withLimit (m : Machine) (limit : Option Nat) : Machine :=
  {m with config := {m.config with stepLimit := limit}}

theorem run_withLimit {α : Type} (x : Microcode α) (m : Machine) (other : Option Nat) :
    x.run (m.withLimit other) = ⟨(x.run m).result,(x.run m).machine.withLimit other⟩ := by
  induction x generalizing m with
  | done value => rfl
  | fail fault => rfl
  | fetch address next ih | read address next ih =>
    have asked : ∀ access, (m.withLimit other).refuse? access = m.refuse? access := fun _ => rfl
    simp only [Microcode.run,asked]
    split
    · rfl
    · exact ih _ m
  | write address value next ih =>
    have asked : ∀ access, (m.withLimit other).refuse? access = m.refuse? access := fun _ => rfl
    simp only [Microcode.run,asked]
    split
    · rfl
    · exact ih () {m with memory := m.memory.setWord address value}
  | inspect next ih => exact ih m.registers m
  | adjust change next ih => exact ih () {m with registers := change m.registers}
  | retire next ih => exact ih () {m with steps := m.steps + 1}
  | halt next ih => exact ih () {m with halted := true}

theorem step_withLimit (m : Machine) (other : Option Nat) :
    (m.withLimit other).step = ⟨m.step.result,m.next.withLimit other⟩ := by
  unfold next
  cases running : m.halted with
  | true =>
    rw [step_halted running]
    exact step_halted running
  | false =>
    have also : (m.withLimit other).halted = false := running
    rw [step_running running,step_running also,run_withLimit]
    rfl

theorem after_withLimit (m : Machine) (other : Option Nat) (count : Nat) :
    (m.withLimit other).after count = (m.after count).withLimit other := by
  induction count with
  | zero => rfl
  | succ count ih =>
    change ((m.withLimit other).after count).step.machine = _
    rw [ih,step_withLimit]
    rfl

theorem Runs.withLimit (runs : m.Runs count) (other : Option Nat) : (m.withLimit other).Runs count := by
  intro k before
  rw [after_withLimit,step_withLimit]
  exact runs k before

theorem Stops.withLimit (stops : m.Stops limit result last)
    (ended : result ≠ .error (.stepLimitExceeded limit)) {other : Option Nat}
    (higher : ∀ larger, other = some larger → limit ≤ larger) :
    (m.withLimit other).Ends (limit - m.steps) result (last.withLimit other) := by
  have allowed : ∀ k, k ≤ limit - m.steps → (m.withLimit other).Allows k := by
    intro k within larger same
    have more := higher larger same
    change k = 0 ∨ m.steps + k ≤ larger
    omega
  cases stops with
  | @halted k within runs halted =>
    have ends := (runs.withLimit other).ends_halted (allowed k within) (by rw [after_withLimit]; exact halted)
    rw [after_withLimit] at ends
    exact ends.mono within
  | @failed k fault before runs fails =>
    have ends := (runs.withLimit other).ends_failed (allowed (k + 1) before)
      (by rw [after_withLimit,step_withLimit]; exact fails)
    have left : ((m.withLimit other).after k).next = (m.after k).next.withLimit other :=
      m.after_withLimit other (k + 1)
    rw [left] at ends
    exact ends.mono before
  | exceeded => exact absurd rfl ended

theorem Stops.again (stops : m.Stops limit (.error (.stepLimitExceeded limit)) last)
    (limited : m.config.stepLimit = some limit) (fuel : Nat) (log : Log) :
    last.run fuel log = ⟨some (.error (.stepLimitExceeded limit)),last,log⟩ := by
  cases stops with
  | failed _ _ fails => exact absurd rfl (step_fault_ne fails limit)
  | exceeded runs running => exact run_ended (runs.exceeded limited running) fuel log

end Machine

-- How a run ends under a limit is said by the steps alone. A higher limit only matters to a run that used up its
-- steps, and to run it again does nothing.
theorem run_ends_as_steps {m : Machine} {limit : Nat} (limited : m.config.stepLimit = some limit) :
    ∃ result last, m.Ends (limit - m.steps) result last ∧
      (∀ k, m.Runs k → (m.after k).halted = true → (k = 0 ∨ m.steps + k ≤ limit) →
        result = .ok (m.after k).top ∧ last = m.after k) ∧
      (∀ k fault, m.Runs k → (m.after k).step.result = .error fault → m.steps + k < limit →
        result = .error fault ∧ last = (m.after k).next) ∧
      ((¬∃ k, m.Runs k ∧ (m.after k).halted = true ∧ (k = 0 ∨ m.steps + k ≤ limit)) →
        (¬∃ k fault, m.Runs k ∧ (m.after k).step.result = .error fault ∧ m.steps + k < limit) →
        result = .error (.stepLimitExceeded limit) ∧ m.Runs (limit - m.steps) ∧
          last = m.after (limit - m.steps)) ∧
      (result ≠ .error (.stepLimitExceeded limit) →
        ∀ other : Option Nat, (∀ larger, other = some larger → limit ≤ larger) →
          (m.withLimit other).Ends (limit - m.steps) result (last.withLimit other)) ∧
      (result = .error (.stepLimitExceeded limit) →
        ∀ fuel log, last.run fuel log = ⟨some result,last,log⟩) := by
  obtain ⟨result,last,stops⟩ := m.exists_stops limit
  have ends := stops.ends limited
  refine ⟨result,last,ends,?_,?_,?_,?_,?_⟩
  · intro k runs halted room
    have within : k ≤ limit - m.steps := by omega
    exact ends.unique ((Machine.Stops.halted within runs halted).ends limited)
  · intro k fault runs fails room
    have before : k < limit - m.steps := by omega
    exact ends.unique ((Machine.Stops.failed before runs fails).ends limited)
  · intro unhalted unfailed
    cases stops with
    | @halted k within runs halted => exact absurd ⟨k,runs,halted,by omega⟩ unhalted
    | @failed k fault before runs fails => exact absurd ⟨k,fault,runs,fails,by omega⟩ unfailed
    | exceeded runs running => exact ⟨rfl,runs,rfl⟩
  · intro ended other higher
    exact stops.withLimit ended higher
  · intro exceeded
    rw [exceeded] at stops ⊢
    exact stops.again limited

-- PUSH 7, HALT, by a machine that has three steps behind it and may make two more.
def lastSteps : Machine where
  config := ⟨.off,some 5⟩
  memory := Memory.zero.store 0 [0x01,0x07,0x00,0x19]
  code := ⟨0,4⟩
  registers := .atEntry 0
  entry := 0
  halted := false
  steps := 3

theorem lastSteps_ends_as_steps :
    (∃ last, lastSteps.Ends 2 (.ok 7) last ∧ last.steps = 5 ∧
      (lastSteps.withLimit none).Ends 2 (.ok 7) (last.withLimit none)) ∧
    ∃ last, (lastSteps.withLimit (some 4)).Ends 1 (.error (.stepLimitExceeded 4)) last ∧ last.steps = 4 ∧
      ∀ fuel log, last.run fuel log = ⟨some (.error (.stepLimitExceeded 4)),last,log⟩ := by
  constructor
  · obtain ⟨result,last,ends,halts,_,_,higher,_⟩ := run_ends_as_steps (m := lastSteps) rfl
    have runs : lastSteps.Runs 2 :=
      Machine.runs_succ.mpr ⟨Machine.runs_succ.mpr ⟨lastSteps.runs_zero,rfl,_,rfl⟩,rfl,_,rfl⟩
    obtain ⟨rfl,rfl⟩ := halts 2 runs rfl (.inr (by decide))
    exact ⟨_,ends,rfl,higher (by simp) none (by simp)⟩
  · obtain ⟨result,last,ends,_,_,exceeds,_,again⟩ := run_ends_as_steps (m := lastSteps.withLimit (some 4)) rfl
    have unhalted : ¬∃ k, (lastSteps.withLimit (some 4)).Runs k ∧
        ((lastSteps.withLimit (some 4)).after k).halted = true ∧ (k = 0 ∨ 3 + k ≤ 4) := by
      intro found
      obtain ⟨k,_,halted,room⟩ := found
      rcases (by omega : k = 0 ∨ k = 1) with rfl | rfl
      · cases halted
      · cases halted
    have unfailed : ¬∃ k fault, (lastSteps.withLimit (some 4)).Runs k ∧
        ((lastSteps.withLimit (some 4)).after k).step.result = .error fault ∧ 3 + k < 4 := by
      intro found
      obtain ⟨k,fault,_,fails,room⟩ := found
      cases (by omega : k = 0)
      cases fails
    obtain ⟨rfl,_,rfl⟩ := exceeds unhalted unfailed
    exact ⟨_,ends,rfl,again rfl⟩

end WordMachine
