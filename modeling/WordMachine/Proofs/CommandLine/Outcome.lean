import WordMachine.CommandLine.Session
import WordMachine.Proofs.CommandLine.Options
import WordMachine.Proofs.Machine.Loaded
import WordMachine.Proofs.Machine.StepLimit

-- What the program comes to as a whole: its exit code and all that it has written to the standard output by
-- then. It runs the machine piece by piece and may never be done; reading the file is left to its surroundings.

namespace WordMachine.CommandLine

inductive Concludes : Progress → UInt32 → String → Prop where
  | last {progress : Progress} {code : UInt32} :
      progress.turn.next = .inl code → Concludes progress code progress.turn.output
  | more {progress : Progress} {later : Unit → Progress} {code : UInt32} {output : String} :
      progress.turn.next = .inr later → Concludes (later ()) code output →
      Concludes progress code (progress.turn.output ++ output)

def launched (program : String) (arguments : List String) (read : String → Except String (List Byte)) : Progress :=
  Id.run (launch program arguments fun path => pure (read path))

def Exits (program : String) (arguments : List String) (read : String → Except String (List Byte))
    (code : UInt32) (output : String) : Prop :=
  Concludes (launched program arguments read) code output

def exitCode : Except Fault Word → UInt32
  | .ok _ => 0
  | .error _ => 1

def resultLine : Except Fault Word → String
  | .ok result => s!"{result}\n"
  | .error _ => ""

def Progress.ComesTo (code : UInt32) (output : String) : Progress → Prop
  | .finished report => code = report.exitCode ∧ output = report.output
  | .running s => ∃ enough result last, s.machine.Ends enough result last ∧
      code = exitCode result ∧ output = s.output ++ resultLine result

variable {code other : UInt32} {output shown : String}

namespace Session

variable {s : Session} {fuel : Nat} {result : Except Fault Word}

theorem advance_ended (ended : (s.machine.run fuel s.log).result? = some result) :
    ∃ notices, s.advance fuel = .finished ⟨exitCode result,s.output ++ resultLine result,notices⟩ := by
  simp only [advance,ended]
  cases result with
  | ok value => exact ⟨_,rfl⟩
  | error fault =>
    rw [resultLine,String.append_empty]
    exact ⟨_,rfl⟩

theorem advance_unended (unended : (s.machine.run fuel s.log).result? = none) :
    s.advance fuel = .running
      {s with machine := (s.machine.run fuel s.log).machine,log := (s.machine.run fuel s.log).log} := by
  simp only [advance,unended]

end Session

theorem comesTo_of_concludes {progress : Progress} (concludes : Concludes progress code output) :
    progress.ComesTo code output := by
  induction concludes with
  | @last progress code ended =>
    cases progress with
    | finished report =>
      cases ended
      exact ⟨rfl,rfl⟩
    | running s => cases ended
  | @more progress later code output goes _ ih =>
    cases progress with
    | finished report => cases goes
    | running s =>
      cases goes
      unfold Session.proceed at ih
      cases ended : (s.written.machine.run 65536 s.written.log).result? with
      | some result =>
        obtain ⟨notices,done⟩ := Session.advance_ended ended
        rw [done] at ih
        obtain ⟨rfl,rfl⟩ := ih
        exact ⟨_,result,_,Machine.ends_of_run ended,rfl,by simp [Session.written,Progress.turn]⟩
      | none =>
        rw [Session.advance_unended ended] at ih
        obtain ⟨enough,result,last,ends,rfl,rfl⟩ := ih
        exact ⟨_,result,last,ends.resumed ended,rfl,by simp [Session.written,Progress.turn]⟩

theorem concludes_of_ends {s : Session} {enough : Nat} {result : Except Fault Word} {last : Machine}
    (ends : s.machine.Ends enough result last) :
    Concludes (.running s) (exitCode result) (s.output ++ resultLine result) := by
  -- Every piece that does not end the run brings its end nearer.
  induction enough using Nat.strongRecOn generalizing s with
  | ind enough ih =>
    apply Concludes.more rfl
    unfold Session.proceed
    cases ended : (s.written.machine.run 65536 s.written.log).result? with
    | some found =>
      obtain ⟨notices,done⟩ := Session.advance_ended ended
      obtain ⟨rfl,_⟩ := ends.unique (Machine.ends_of_run ended)
      rw [done,Session.written,String.empty_append]
      exact Concludes.last rfl
    | none =>
      obtain ⟨short,rest⟩ := ends.remaining ended
      have later := @ih (enough - 65536) (by omega) {s.written with
        machine := (s.written.machine.run 65536 s.written.log).machine
        log := (s.written.machine.run 65536 s.written.log).log} rest
      rw [Session.advance_unended ended]
      rw [Session.written,String.empty_append] at later
      exact later

theorem concludes_iff {progress : Progress} : Concludes progress code output ↔ progress.ComesTo code output := by
  constructor
  · exact comesTo_of_concludes
  · intro comes
    cases progress with
    | finished report =>
      obtain ⟨rfl,rfl⟩ := comes
      exact .last rfl
    | running s =>
      obtain ⟨enough,result,last,ends,rfl,rfl⟩ := comes
      exact concludes_of_ends ends

theorem Progress.ComesTo.unique {progress : Progress} (first : progress.ComesTo code output)
    (second : progress.ComesTo other shown) : code = other ∧ output = shown := by
  cases progress with
  | finished report =>
    obtain ⟨rfl,rfl⟩ := first
    exact ⟨second.1.symm,second.2.symm⟩
  | running s =>
    obtain ⟨_,result,_,ends,rfl,rfl⟩ := first
    obtain ⟨_,found,_,again,rfl,rfl⟩ := second
    obtain ⟨rfl,_⟩ := ends.unique again
    exact ⟨rfl,rfl⟩

-- What an image comes to. Of the options, nothing but the configuration and the wish for a header is left.
inductive RunsTo (shows : Bool) (config : Config) : Except String (List Byte) → UInt32 → String → Prop where
  | unread {text : String} : RunsTo shows config (.error text) 1 ""
  | unloaded {image : List Byte} {fault : HeaderFault} :
      Header.parse image = .error fault → RunsTo shows config (.ok image) 1 ""
  | ran {image : List Byte} {h : Header} {m last : Machine} {enough : Nat} {result : Except Fault Word} :
      Header.parse image = .ok h → Machine.ofImage config image = .ok m → m.Ends enough result last →
      RunsTo shows config (.ok image) (exitCode result) ((if shows then h.listing else "") ++ resultLine result)

def Settles (config : Config) (contents : Except String (List Byte)) : Prop :=
  ∀ image m, contents = .ok image → Machine.ofImage config image = .ok m →
    ∃ enough result last, m.Ends enough result last

section Image

variable {i : Invocation} {image : List Byte} {h : Header} {m : Machine} {fault : HeaderFault}

theorem start_unloaded (unparsed : Header.parse image = .error fault) :
    ∃ notices, Session.start i (.ok image) = .finished ⟨1,"",notices⟩ := by
  have unloaded : Machine.ofImage i.options.config image = .error fault := Machine.load_eq_error.mpr unparsed
  cases shows : i.options.showHeader with
  | true =>
    simp only [Session.start,shows,unparsed]
    exact ⟨_,rfl⟩
  | false =>
    simp only [Session.start,shows,unloaded]
    exact ⟨_,rfl⟩

theorem start_loaded (parsed : Header.parse image = .ok h) (loaded : Machine.ofImage i.options.config image = .ok m) :
    Session.start i (.ok image) = .running {
      output := if i.options.showHeader then h.listing else ""
      machine := m
      log := m.logLoaded image i.log} := by
  cases shows : i.options.showHeader with
  | true => simp [Session.start,shows,parsed,loaded]
  | false => simp [Session.start,shows,loaded]

end Image

theorem start_comesTo {i : Invocation} {contents : Except String (List Byte)} :
    (Session.start i contents).ComesTo code output ↔
      RunsTo i.options.showHeader i.options.config contents code output := by
  cases contents with
  | error text =>
    constructor
    · intro comes
      obtain ⟨rfl,rfl⟩ := comes
      exact .unread
    · intro runs
      cases runs
      exact ⟨rfl,rfl⟩
  | ok image =>
    cases parsed : Header.parse image with
    | error fault =>
      obtain ⟨notices,started⟩ := @start_unloaded i image fault parsed
      rw [started]
      constructor
      · intro comes
        obtain ⟨rfl,rfl⟩ := comes
        exact .unloaded parsed
      · intro runs
        cases runs with
        | unloaded _ => exact ⟨rfl,rfl⟩
        | ran found _ _ => rw [parsed] at found; cases found
    | ok h =>
      have loaded : Machine.ofImage i.options.config image = .ok _ := Machine.load_eq_ok.mpr ⟨h,parsed,rfl⟩
      rw [start_loaded parsed loaded]
      constructor
      · intro comes
        obtain ⟨enough,result,last,ends,rfl,rfl⟩ := comes
        exact .ran parsed loaded ends
      · intro runs
        cases runs with
        | unloaded failed => rw [parsed] at failed; cases failed
        | ran found also ends =>
          rw [parsed] at found
          rw [loaded] at also
          cases found
          cases also
          exact ⟨_,_,_,ends,rfl,rfl⟩

section Launch

variable {program path : String} {read : String → Except String (List Byte)} {words : List String}
  {settings : List Setting}

theorem launched_help (asked : path = "--help" ∨ path = "-h") :
    launched program (path :: words) read = .finished ⟨0,"",[.plain (usage program)]⟩ := by
  simp [launched,launch,Invocation.ofArguments,asked]

theorem launched_spelled (named : ¬(path = "--help" ∨ path = "-h")) :
    launched program (path :: spell settings) read =
      Session.start ⟨path,({} : Options).amend settings⟩ (read path) := by
  simp [launched,launch,Invocation.ofArguments,named,Options.read_spell]

theorem launched_unspelled (named : ¬(path = "--help" ∨ path = "-h"))
    (unspelled : ∀ settings, words ≠ spell settings) :
    ∃ notices, launched program (path :: words) read = .finished ⟨1,"",notices⟩ := by
  cases accepted : ({} : Options).read words with
  | ok options =>
    obtain ⟨settings,spelled⟩ := spelled_of_read accepted
    exact absurd spelled (unspelled settings)
  | error fault =>
    simp only [launched,launch,Invocation.ofArguments,named,if_false,accepted]
    cases fault <;> exact ⟨_,rfl⟩

theorem exits_spelled (named : ¬(path = "--help" ∨ path = "-h")) :
    Exits program (path :: spell settings) read code output ↔
      RunsTo (.header ∈ settings) (configured settings) (read path) code output := by
  have meant : (({} : Options).amend settings).config = configured settings := by
    simp [Options.amend,configured]
  have shown : (({} : Options).amend settings).showHeader = decide (.header ∈ settings) := by
    simp [Options.amend]
  rw [Exits,concludes_iff,launched_spelled named,start_comesTo,meant,shown]

end Launch

theorem settles_of_limit {config : Config} {limit : Nat} (limited : config.stepLimit = some limit)
    (contents : Except String (List Byte)) : Settles config contents := by
  intro image m _ loaded
  obtain ⟨h,_,rfl⟩ := Machine.load_eq_ok.mp loaded
  obtain ⟨result,last,stops⟩ := Machine.exists_stops _ limit
  exact ⟨_,result,last,stops.ends limited⟩

theorem settles_iff {shows : Bool} {config : Config} {contents : Except String (List Byte)} :
    Settles config contents ↔ ∃ code output, RunsTo shows config contents code output := by
  constructor
  · intro settles
    cases contents with
    | error text => exact ⟨1,"",.unread⟩
    | ok image =>
      cases parsed : Header.parse image with
      | error fault => exact ⟨1,"",.unloaded parsed⟩
      | ok h =>
        have loaded : Machine.ofImage config image = .ok _ := Machine.load_eq_ok.mpr ⟨h,parsed,rfl⟩
        obtain ⟨enough,result,last,ends⟩ := settles image _ rfl loaded
        exact ⟨_,_,.ran parsed loaded ends⟩
  · intro found image m read loaded
    obtain ⟨code,output,runs⟩ := found
    subst read
    cases runs with
    | unloaded failed =>
      obtain ⟨h,parsed,_⟩ := Machine.load_eq_ok.mp loaded
      rw [parsed] at failed
      cases failed
    | ran _ also ends =>
      rw [loaded] at also
      cases also
      exact ⟨_,_,_,ends⟩

theorem runsTo_zero {shows : Bool} {config : Config} {contents : Except String (List Byte)} :
    RunsTo shows config contents 0 output ↔ ∃ image h m enough result last, contents = .ok image ∧
      Header.parse image = .ok h ∧ Machine.ofImage config image = .ok m ∧ m.Ends enough (.ok result) last ∧
      output = (if shows then h.listing else "") ++ s!"{result}\n" := by
  constructor
  · intro runs
    generalize zero : (0 : UInt32) = code at runs
    cases runs with
    | unread => cases zero
    | unloaded _ => cases zero
    | @ran image h m last enough result parsed loaded ends =>
      cases result with
      | error fault => cases zero
      | ok result => exact ⟨image,h,m,enough,result,last,rfl,parsed,loaded,ends,rfl⟩
  · intro succeeded
    obtain ⟨image,h,m,enough,result,last,rfl,parsed,loaded,ends,rfl⟩ := succeeded
    exact .ran parsed loaded ends

-- PUSH 7, HALT.
def sevenImage : List Byte :=
  magic.bytes ++ terminator.bytes ++ [0x0C,0x00,0x04,0x00] ++ [0x01,0x07,0x00,0x19]

def onlySeven (path : String) : Except String (List Byte) :=
  if path = "seven.bin" then .ok sevenImage else .error "missing"

def repeatedLimit : List Setting := [.maxSteps "+9" 9 rfl,.header,.maxSteps "002" 2 rfl,.strict]

def repeatedFlags : List Setting := [.strict,.verbose,.header,.strict,.maxSteps "2" 2 rfl,.header]

end WordMachine.CommandLine
