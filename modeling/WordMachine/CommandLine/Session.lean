import WordMachine.CommandLine.Options
import WordMachine.Machine.Load
import WordMachine.Machine.Step

-- The program without its surroundings: reading the file and writing are left to the caller.

namespace WordMachine

def Header.listing (h : Header) : String :=
  let sections := h.sections.mapIdx fun index d =>
    let file := Hex.word d.filePointer.toNat
    let base := Hex.word d.loadOffset.toNat
    s!"  [{index}] file {file}  load {base}  {d.byteLength} bytes\n"
  let file := Hex.word h.codePointer.toNat
  let base := Hex.word h.codeBase
  "Sections:\n" ++ String.join sections ++
    s!"Code: file {file}  load {base}  {h.codeLength} bytes\n"

namespace CommandLine

def usage (program : String) : String :=
  String.join (List.map (· ++ "\n")
    [s!"Usage: {program} <image.bin> [OPTIONS]",
      "",
      "Options:",
      "  --strict           Fault on code writes and fetches outside code",
      "  --max-steps <n>    Abort after n instructions without HALT",
      "  --header           Print the image header before running",
      "  --verbose          Enable debug logging"])

inductive Notice where
  | line (line : Log.Line)
  | plain (text : String)
  deriving DecidableEq, Repr

def Notice.render (style : Log.Style) (stamp : String) : Notice → String
  | line l => l.render style stamp
  | plain text => text

structure Report where
  exitCode : UInt32
  output : String
  notices : List Notice
  deriving DecidableEq, Repr

namespace Report

def failure (output : String) (log : Log) (errors : List String) : Report where
  exitCode := 1
  output := output
  notices := (errors.foldl (fun log text => log.error fun _ => text) log).lines.map .line

end Report

structure Invocation where
  path : String
  options : Options
  deriving DecidableEq, Repr

namespace Invocation

def log (i : Invocation) : Log where
  threshold := if i.options.verbose then .debug else .info

def ofArguments (program : String) : List String → Except Report Invocation
  | [] => .error ⟨1,"",[.plain (usage program)]⟩
  | path :: rest =>
    if path = "--help" ∨ path = "-h" then .error ⟨0,"",[.plain (usage program)]⟩
    else
      match ({} : Options).read rest with
      | .ok options => .ok {path,options}
      | .error fault =>
        let line := Notice.line ⟨.error,fault.message⟩
        match fault with
        | .unexpected _ => .error ⟨1,"",[line,.plain (usage program)]⟩
        | _ => .error ⟨1,"",[line]⟩

end Invocation

structure Session where
  output : String
  machine : Machine
  log : Log

inductive Progress where
  | running (session : Session)
  | finished (report : Report)

namespace Session

def start (i : Invocation) (contents : Except String (List Byte)) : Progress :=
  match contents with
  | .error text => .finished (.failure "" i.log [s!"Failed to read {i.path}: {text}"])
  | .ok image =>
    let listing := if i.options.showHeader then Header.listing <$> Header.parse image else .ok ""
    match listing with
    | .error fault => .finished (.failure "" i.log [fault.toFault.message])
    | .ok listing =>
      match Machine.ofImage i.options.config image with
      | .error fault =>
        .finished (.failure listing i.log [s!"Load failed: {fault.toFault.message}"])
      | .ok machine => .running {output := listing,machine,log := machine.logLoaded image i.log}

def advance (fuel : Nat) (s : Session) : Progress :=
  let run := s.machine.run fuel s.log
  match run.result? with
  | none => .running {s with machine := run.machine,log := run.log}
  | some (.ok result) =>
    let log := run.log.info fun _ => s!"{run.machine.steps} steps"
    .finished ⟨0,s.output ++ s!"{result}\n",log.lines.map .line⟩
  | some (.error fault) =>
    .finished (.failure s.output run.log
      [s!"Execution failed: {fault.message}",run.machine.registers.render])

def written (s : Session) : Session :=
  {s with output := "",log := {s.log with latest := []}}

def proceed (s : Session) : Progress := s.written.advance 65536

end Session

-- What is written next, and then either the exit code or how it goes on. That is not begun before all is written.
structure Turn where
  output : String
  notices : List Notice
  next : UInt32 ⊕ (Unit → Progress)

def Progress.turn : Progress → Turn
  | .finished report => ⟨report.output,report.notices,.inl report.exitCode⟩
  | .running session => ⟨session.output,session.log.lines.map .line,.inr fun _ => session.proceed⟩

def launch {m : Type → Type} [Monad m] (program : String) (arguments : List String)
    (read : String → m (Except String (List Byte))) : m Progress :=
  match Invocation.ofArguments program arguments with
  | .error report => return .finished report
  | .ok i => return Session.start i (← read i.path)

end CommandLine

end WordMachine
