import WordMachine.Proofs.Machine.Stack

-- A RET finds its way back by two words in memory and the frame pointer alone, so what it restores is right only if
-- every call inside has restored the frame pointer too. The run lemma carries that through the calls still open.

namespace WordMachine

open Microcode

namespace Machine

def argumentCount (m : Machine) : Word := m.memory.word (m.registers.sp + 2)

def frameBase (m : Machine) : Word := m.registers.sp + 2 * m.argumentCount

def returnAddress (m : Machine) : Word := m.registers.ip + 1
def savedSize (m : Machine) : Word := m.registers.fs - 4 - 2 * m.argumentCount

variable {m n : Machine}

theorem step_call (stepped : m.step = ⟨.ok (some .call),n⟩) :
    n.memory = ((m.memory.setWord (m.frameBase + 2) m.savedSize).setWord m.frameBase
        m.returnAddress).pushWords m.frameBase
          (m.memory.wordsFrom (m.registers.sp + 4) m.argumentCount.toNat).reverse ∧
      n.registers = {
        ip := m.top
        sp := m.registers.sp
        fp := m.frameBase
        fs := 2 * m.argumentCount} := by
  obtain ⟨_,_,ended⟩ := step_executed stepped
  simp only [ofInstruction,call,run_andThen,run_registers,Outcome.andThen_ok] at ended
  obtain ⟨target,_,popped,ended⟩ := Outcome.andThen_eq_ok ended
  obtain ⟨rfl,rfl⟩ := pop_ended popped
  obtain ⟨count,_,popped,ended⟩ := Outcome.andThen_eq_ok ended
  obtain ⟨rfl,rfl⟩ := pop_ended popped
  obtain ⟨arguments,_,popped,ended⟩ := Outcome.andThen_eq_ok ended
  obtain ⟨rfl,rfl⟩ := popMany_ended popped
  obtain ⟨_,_,saved,ended⟩ := Outcome.andThen_eq_ok ended
  cases push_ended saved
  obtain ⟨_,_,saved,ended⟩ := Outcome.andThen_eq_ok ended
  cases push_ended saved
  simp only [run_setRegisters,Outcome.andThen_ok] at ended
  obtain ⟨_,_,pushed,ended⟩ := Outcome.andThen_eq_ok ended
  cases pushMany_ended pushed
  cases ended
  have operands (sp : Word) : sp + 2 + 2 = sp + 4 := by grind
  have above (sp count : Word) : sp + 4 + 2 * count - 2 = sp + 2 * count + 2 := by grind
  have base (sp count : Word) : sp + 2 * count + 2 - 2 = sp + 2 * count := by grind
  have size (fs count : Word) : fs - 2 - 2 - 2 * count = fs - 4 - 2 * count := by grind
  have restored (sp count : Word) : sp + 2 * count - 2 * count = sp := by grind
  simp [past,frameBase,savedSize,returnAddress,argumentCount,top,Instruction.size,
    Instruction.hasOperand,Machine.popped,Machine.pushed,Memory.pushWords,operands,above,base,size,restored]

theorem step_ret (stepped : m.step = ⟨.ok (some .ret),n⟩) :
    n.memory = m.memory.setWord (m.registers.fp + 2) m.top ∧
      n.registers = {
        ip := m.memory.word m.registers.fp
        sp := m.registers.fp + 2
        fp := m.registers.fp + 4 + m.memory.word (m.registers.fp + 2)
        fs := m.memory.word (m.registers.fp + 2) + 2} := by
  obtain ⟨_,_,ended⟩ := step_executed stepped
  simp only [ofInstruction,ret,run_andThen,run_registers,Outcome.andThen_ok] at ended
  obtain ⟨value,_,read,ended⟩ := Outcome.andThen_eq_ok ended
  obtain ⟨rfl,rfl⟩ := readWord_ended read
  obtain ⟨address,_,read,ended⟩ := Outcome.andThen_eq_ok ended
  obtain ⟨rfl,rfl⟩ := readWord_ended read
  obtain ⟨size,_,read,ended⟩ := Outcome.andThen_eq_ok ended
  obtain ⟨rfl,rfl⟩ := readWord_ended read
  simp only [run_setRegisters,Outcome.andThen_ok] at ended
  cases push_ended ended
  have result (fp : Word) : fp + 4 - 2 = fp + 2 := by grind
  simp [past,top,Machine.pushed,Memory.pushWords,result]

theorem step_fp {executed : Option Instruction} (stepped : m.step = ⟨.ok executed,n⟩)
    (noCall : executed ≠ some .call) (noRet : executed ≠ some .ret) :
    n.registers.fp = m.registers.fp := by
  cases executed with
  | none =>
    obtain ⟨_,rfl⟩ := step_idle stepped
    rfl
  | some i =>
    obtain ⟨running,fetches,_⟩ := step_executed stepped
    rw [step_of_fetches running fetches] at stepped
    have kept := execute_fp (m := m) (fun same => noCall (congrArg some same))
      (fun same => noRet (congrArg some same)) (m.storedOperand i)
    rwa [stepped] at kept

end Machine

-- The calls that have not returned yet, the innermost first.
def Event.track (opened : List Event) (e : Event) : List Event :=
  match e.executed with
  | some .call => e :: opened
  | some .ret => opened.tail
  | _ => opened

def openCalls (events : List Event) : List Event := events.foldl Event.track []

def callCount (events : List Event) : Nat := events.countP (·.executed = some .call)

def retCount (events : List Event) : Nat := events.countP (·.executed = some .ret)

-- Assumed of a run: the frame registers agree at each call, and the two words that it pushed are in place when its RET
-- reads them. Nothing is assumed about the frame pointer at a RET, or about what else was written.
structure KeepsConvention (events : List Event) : Prop where
  framed : ∀ e ∈ events, e.executed = some .call →
    e.machine.registers.sp + e.machine.registers.fs = e.machine.registers.fp
  intact : ∀ earlier e later call, events = earlier ++ e :: later → e.executed = some .ret →
    (openCalls earlier).head? = some call →
      e.machine.memory.word e.machine.registers.fp = call.machine.returnAddress ∧
      e.machine.memory.word (e.machine.registers.fp + 2) = call.machine.savedSize

def Answered (depth : Nat) (events : List Event) : Prop :=
  ∀ earlier e later, events = earlier ++ e :: later → e.executed = some .ret →
    retCount earlier < depth + callCount earlier

theorem KeepsConvention.earlier {earlier later : List Event}
    (keeps : KeepsConvention (earlier ++ later)) : KeepsConvention earlier := by
  refine ⟨fun e member => keeps.framed e (List.mem_append_left _ member),?_⟩
  intro before e after call same
  exact keeps.intact before e (after ++ later) call (by simp [same])

theorem Answered.earlier {depth : Nat} {earlier later : List Event}
    (answered : Answered depth (earlier ++ later)) : Answered depth earlier := by
  intro before e after same
  exact answered before e (after ++ later) (by simp [same])

theorem callCount_append (first second : List Event) :
    callCount (first ++ second) = callCount first + callCount second := List.countP_append

theorem retCount_append (first second : List Event) :
    retCount (first ++ second) = retCount first + retCount second := List.countP_append

theorem callCount_cons (e : Event) (rest : List Event) :
    callCount (e :: rest) = callCount [e] + callCount rest := callCount_append [e] rest

theorem retCount_cons (e : Event) (rest : List Event) :
    retCount (e :: rest) = retCount [e] + retCount rest := retCount_append [e] rest

theorem Event.track_cases (e : Event) :
    (e.executed = some .call ∧ callCount [e] = 1 ∧ retCount [e] = 0 ∧
      ∀ opened, Event.track opened e = e :: opened) ∨
    (e.executed = some .ret ∧ callCount [e] = 0 ∧ retCount [e] = 1 ∧
      ∀ opened, Event.track opened e = opened.tail) ∨
    (e.executed ≠ some .call ∧ e.executed ≠ some .ret ∧ callCount [e] = 0 ∧ retCount [e] = 0 ∧
      ∀ opened, Event.track opened e = opened) := by
  by_cases called : e.executed = some .call
  · exact .inl ⟨called,by simp [callCount,called],by simp [retCount,called],by simp [track,called]⟩
  · by_cases returned : e.executed = some .ret
    · exact .inr (.inl ⟨returned,by simp [callCount,returned],by simp [retCount,returned],
        by simp [track,returned]⟩)
    · refine .inr (.inr ⟨called,returned,by simp [callCount,called],by simp [retCount,returned],?_⟩)
      intro opened
      unfold track
      split <;> simp_all

theorem Answered.cons {depth : Nat} {e : Event} {rest : List Event}
    (answered : Answered depth (e :: rest)) :
    retCount [e] ≤ depth ∧ Answered (depth + callCount [e] - retCount [e]) rest := by
  have first : retCount [e] ≤ depth := by
    rcases e.track_cases with ⟨_,_,none,_⟩ | ⟨returned,_,one,_⟩ | ⟨_,_,_,none,_⟩
    · omega
    · have enough := answered [] e rest rfl returned
      simp [retCount,callCount] at enough
      omega
    · omega
  refine ⟨first,?_⟩
  intro earlier f later same returned
  have enough := answered (e :: earlier) f later (by rw [same]; rfl) returned
  rw [retCount_cons,callCount_cons] at enough
  omega

theorem foldl_track {inner : List Event} (outer : List Event) {events : List Event}
    (answered : Answered inner.length events) :
    events.foldl Event.track (inner ++ outer) = events.foldl Event.track inner ++ outer ∧
      (events.foldl Event.track inner).length + retCount events = inner.length + callCount events := by
  induction events generalizing inner with
  | nil => exact ⟨rfl,rfl⟩
  | cons e rest ih =>
    obtain ⟨enough,answered⟩ := answered.cons
    have tracked : Event.track (inner ++ outer) e = Event.track inner e ++ outer ∧
        (Event.track inner e).length = inner.length + callCount [e] - retCount [e] := by
      rcases e.track_cases with ⟨_,one,none,track⟩ | ⟨_,none,one,track⟩ | ⟨_,_,none,zero,track⟩
      · simp [track,one,none]
      · cases inner with
        | nil => simp [one] at enough
        | cons top below => simp [track,none,one]
      · simp [track,none,zero]
    rw [← tracked.2] at answered
    obtain ⟨below,count⟩ := ih answered
    rw [List.foldl_cons,List.foldl_cons,tracked.1,retCount_cons,callCount_cons]
    refine ⟨below,?_⟩
    rw [tracked.2] at count
    omega

def Linked (outer : Word) : Word → List Event → Prop
  | fp,[] => fp = outer
  | fp,call :: below => fp = call.machine.frameBase ∧ Linked outer call.machine.registers.fp below

theorem openCalls_concat (earlier : List Event) (e : Event) :
    openCalls (earlier ++ [e]) = Event.track (openCalls earlier) e := by
  simp [openCalls,List.foldl_append]

theorem length_openCalls {events : List Event} (answered : Answered 0 events) :
    (openCalls events).length + retCount events = callCount events := by
  have counted := (@foldl_track [] [] events answered).2
  simpa [openCalls] using counted

theorem mem_openCalls {s m : Machine} {events : List Event} (ran : Ran s events m) {call : Event}
    (opened : call ∈ openCalls events) : call ∈ events ∧ call.executed = some .call := by
  induction ran with
  | nil => cases opened
  | @step m n earlier executed _ _ ih =>
    rw [openCalls_concat] at opened
    rcases Event.track_cases ⟨m,executed⟩ with ⟨called,_,_,track⟩ | ⟨_,_,_,track⟩ | ⟨_,_,_,_,track⟩
    · rw [track] at opened
      rcases List.mem_cons.mp opened with rfl | old
      · exact ⟨by simp,called⟩
      · exact ⟨List.mem_append_left _ (ih old).1,(ih old).2⟩
    · rw [track] at opened
      have old := ih (List.mem_of_mem_tail opened)
      exact ⟨List.mem_append_left _ old.1,old.2⟩
    · rw [track] at opened
      exact ⟨List.mem_append_left _ (ih opened).1,(ih opened).2⟩

theorem Machine.ret_restores {call m n : Machine} (stepped : m.step = ⟨.ok (some .ret),n⟩)
    (frame : m.registers.fp = call.frameBase)
    (address : m.memory.word m.registers.fp = call.returnAddress)
    (size : m.memory.word (m.registers.fp + 2) = call.savedSize) :
    n.top = m.top ∧ n.registers = {
      ip := call.registers.ip + 1
      sp := call.registers.sp + 2 + 2 * call.argumentCount
      fp := call.registers.sp + call.registers.fs
      fs := call.registers.fs - 2 - 2 * call.argumentCount} := by
  obtain ⟨memory,registers⟩ := step_ret stepped
  refine ⟨by rw [top,memory,registers,Memory.word_setWord],?_⟩
  rw [registers,address,size,frame]
  simp only [returnAddress,savedSize,frameBase,Registers.mk.injEq,true_and]
  refine ⟨?_,?_,?_⟩ <;> grind

theorem Ran.linked {s m : Machine} {events : List Event} (ran : Ran s events m)
    (answered : Answered 0 events) (keeps : KeepsConvention events) :
    Linked s.registers.fp m.registers.fp (openCalls events) := by
  induction ran with
  | nil => exact rfl
  | @step m n earlier executed before stepped ih =>
    have linked := ih answered.earlier keeps.earlier
    rw [openCalls_concat]
    rcases Event.track_cases ⟨m,executed⟩ with ⟨called,_,_,track⟩ | ⟨returned,_,_,track⟩ |
      ⟨noCall,noRet,_,_,track⟩
    · cases called
      rw [track,(Machine.step_call stepped).2]
      exact ⟨rfl,linked⟩
    · cases returned
      -- Some call is open, since this RET answers one.
      have enough := answered earlier _ [] rfl rfl
      have counted := length_openCalls answered.earlier
      cases opened : openCalls earlier with
      | nil =>
        rw [opened] at counted
        simp only [List.length_nil] at counted
        omega
      | cons call below =>
        rw [opened] at linked
        obtain ⟨frame,outer⟩ := linked
        obtain ⟨address,size⟩ := keeps.intact earlier _ [] call rfl rfl (by rw [opened]; rfl)
        have innermost : call ∈ openCalls earlier := by simp [opened]
        obtain ⟨member,called⟩ := mem_openCalls before innermost
        have framed := keeps.framed call (List.mem_append_left _ member) called
        rw [track,List.tail_cons,(Machine.ret_restores stepped frame address size).2,framed]
        exact outer
    · rw [track,Machine.step_fp stepped noCall noRet]
      exact linked

def callEvents (s : Machine) (inside : List Event) (callee : Machine) : List Event :=
  ⟨s,some .call⟩ :: inside ++ [⟨callee,some .ret⟩]

-- As many RETs as CALLs have been executed at the end, and not before.
structure Matching (s : Machine) (inside : List Event) (callee : Machine) : Prop where
  pending : ∀ earlier later, callEvents s inside callee = earlier ++ later → earlier ≠ [] → later ≠ [] →
    retCount earlier < callCount earlier
  answered : retCount (callEvents s inside callee) = callCount (callEvents s inside callee)

namespace Matching

variable {s callee : Machine} {inside : List Event}

theorem answers (matching : Matching s inside callee) : Answered 0 (callEvents s inside callee) := by
  intro earlier e later same returned
  cases earlier with
  | nil =>
    cases same
    cases returned
  | cons first rest =>
    have pending := matching.pending (first :: rest) (e :: later) same (by simp) (by simp)
    omega

theorem answers_inside (matching : Matching s inside callee) : Answered 0 inside := by
  intro earlier e later same returned
  have pending := matching.pending (⟨s,some .call⟩ :: earlier ++ [e]) (later ++ [⟨callee,some .ret⟩])
    (by simp [callEvents,same]) (by simp) (by simp)
  have one : retCount [e] = 1 := by simp [retCount,returned]
  have none : callCount [e] = 0 := by simp [callCount,returned]
  rw [retCount_append,callCount_append,retCount_cons,callCount_cons,one,none] at pending
  have call : callCount [⟨s,some .call⟩] = 1 := rfl
  omega

theorem openCalls_inside (matching : Matching s inside callee) :
    openCalls (⟨s,some .call⟩ :: inside) = [⟨s,some .call⟩] := by
  have inner := (@foldl_track [] [⟨s,some .call⟩] inside matching.answers_inside).1
  have counted := length_openCalls matching.answers_inside
  have same := matching.answered
  rw [callEvents,retCount_append,callCount_append,retCount_cons,callCount_cons] at same
  have call : retCount [⟨s,some .call⟩] = 0 ∧ callCount [⟨s,some .call⟩] = 1 := ⟨rfl,rfl⟩
  have ret : retCount [⟨callee,some .ret⟩] = 1 ∧ callCount [⟨callee,some .ret⟩] = 0 := ⟨rfl,rfl⟩
  have closed : inside.foldl Event.track [] = [] := by
    apply List.eq_nil_of_length_eq_zero
    unfold openCalls at counted
    omega
  rw [closed] at inner
  exact inner

end Matching

theorem call_replaced_by_result {s callee last : Machine} {inside : List Event}
    (ran : Ran s (callEvents s inside callee) last) (matching : Matching s inside callee)
    (keeps : KeepsConvention (callEvents s inside callee)) :
    last.registers.ip = s.registers.ip + 1 ∧
      last.registers.fp = s.registers.fp ∧
      last.registers.sp = s.registers.sp + 2 + 2 * s.argumentCount ∧
      last.registers.fs = s.registers.fs - 2 - 2 * s.argumentCount ∧
      last.top = callee.top := by
  obtain ⟨before,stepped⟩ := ran.last
  have only := matching.openCalls_inside
  have linked := before.linked matching.answers.earlier keeps.earlier
  rw [only] at linked
  obtain ⟨address,size⟩ := keeps.intact _ _ [] _ rfl rfl (by rw [only]; rfl)
  obtain ⟨top,registers⟩ := Machine.ret_restores stepped linked.1 address size
  have framed := keeps.framed ⟨s,some .call⟩ (by simp [callEvents]) rfl
  rw [registers]
  exact ⟨rfl,framed,rfl,rfl,top⟩

-- A call with two arguments, which are what the callee calls at once: both RETs are the byte at 3.
def nestedCall : Machine where
  config := {guard := .strict}
  memory := (Memory.zero.store 0 [0x12,0x19,0x12,0x13]).store 0x100 [2,0,2,0,3,0,0,0]
  code := ⟨0,4⟩
  registers := {ip := 0,sp := 0x100,fp := 0x108,fs := 8}
  entry := 0
  halted := false
  steps := 0

def nestedInside : List Event :=
  [⟨nestedCall.next,some .call⟩,⟨nestedCall.next.next,some .ret⟩]

theorem nestedCall_matching : Matching nestedCall nestedInside nestedCall.next.next.next := by
  refine ⟨?_,rfl⟩
  intro earlier later same started unfinished
  match earlier,same with
  | [],_ => contradiction
  | [_],same => cases same; decide
  | [_,_],same => cases same; decide
  | [_,_,_],same => cases same; decide
  | _ :: _ :: _ :: _ :: rest,same => simp_all [callEvents,nestedInside]

theorem nestedCall_keeps :
    KeepsConvention (callEvents nestedCall nestedInside nestedCall.next.next.next) := by
  constructor
  · intro e member called
    simp only [callEvents,nestedInside,List.mem_cons,List.mem_append,List.not_mem_nil,or_false] at member
    rcases member with (rfl | rfl | rfl) | rfl
    · rfl
    · rfl
    · cases called
    · cases called
  · intro earlier e later call same returned opened
    match earlier,same with
    | [],same => cases same; cases returned
    | [_],same => cases same; cases returned
    | [_,_],same => cases same; cases opened; exact ⟨rfl,rfl⟩
    | [_,_,_],same => cases same; cases opened; exact ⟨rfl,rfl⟩
    | _ :: _ :: _ :: _ :: _,same => simp [callEvents,nestedInside] at same

theorem nestedCall_replaced :
    nestedCall.next.next.next.next.registers.ip = 1 ∧
      nestedCall.next.next.next.next.registers.fp = 0x108 ∧
      nestedCall.next.next.next.next.registers.sp = 0x106 ∧
      nestedCall.next.next.next.next.registers.fs = 2 ∧
      nestedCall.next.next.next.next.top = nestedCall.next.next.next.top :=
  call_replaced_by_result ((((Ran.nil.next rfl).next rfl).next rfl).next rfl)
    nestedCall_matching nestedCall_keeps

end WordMachine
