import WordMachine.Calendar
import WordMachine.CommandLine.Session
import Std.Time.DateTime.Timestamp

namespace WordMachine.CommandLine

def readFailure : IO.Error → String
  | .noFileOrDirectory .. => "No such file or directory (os error 2)"
  | .permissionDenied .. => "Permission denied (os error 13)"
  | .inappropriateType .. => "Is a directory (os error 21)"
  | other => toString other

def readImage (path : String) : IO (Except String (List Byte)) := do
  try
    let contents ← IO.FS.readBinFile path
    return .ok contents.data.toList
  catch failure =>
    return .error (readFailure failure)

def terminalStyle : IO Log.Style := do
  let terminal ← IO.getEnv "TERM"
  let refused ← IO.getEnv "NO_COLOR"
  let able := match terminal with
    | some name => name != "dumb"
    | none => false
  return {coloured := able && refused.isNone}

def writeNotice (style : Log.Style) (notice : Notice) : IO Unit := do
  let now ← Std.Time.Timestamp.now
  let stamp := timestamp now.toMillisecondsSinceUnixEpoch.val.toNat
  IO.eprint (notice.render style stamp)

partial def finish (style : Log.Style) (progress : Progress) : IO UInt32 := do
  let turn := progress.turn
  IO.print turn.output
  turn.notices.forM (writeNotice style)
  match turn.next with
  | .inl exitCode => return exitCode
  | .inr later => finish style (later ())

end WordMachine.CommandLine

open WordMachine.CommandLine in
def main (arguments : List String) : IO UInt32 := do
  let style ← terminalStyle
  let progress ← launch "vmfc" arguments readImage
  finish style progress
