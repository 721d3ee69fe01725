import MeteredScript.Command

namespace MeteredScript

/-! # The command line -/

/-- The fault behind an error number, which may come negated. -/
def faultOfCode? (code : UInt32) : Option FileFault :=
  match min code (0 - code) with
  | 20 => some .notDirectory
  | 21 => some .directory
  | 36 => some .nameTooLong
  | _ => none

def faultOfError (e : IO.Error) : FileFault :=
  match e with
  | .noFileOrDirectory .. => .missing
  | .inappropriateType _ code _ | .invalidArgument _ code _ =>
    (faultOfCode? code).getD (.other (toString e))
  | _ => .other (toString e)

def readText (file : String) : IO (Except FileFault String) := do
  try
    let bytes ← IO.FS.readBinFile file
    return (String.fromUTF8? bytes).elim (.error .notText) .ok
  catch e => return .error (faultOfError e)

/-- Answers a command from files, and prints what it leaves behind. -/
def answer (arguments : List String) : IO UInt32 := do
  let report ← match Command.ofArguments? arguments with
    | none => do
      IO.eprintln usageText
      pure Report.usage
    | some command => do
      let texts ← command.files.mapM fun file => return (file, ← readText file)
      pure (command.report fun file => (Entries.get? file texts).getD (.error .missing))
  IO.print report.output
  if let some text := report.failure then IO.eprintln text
  return report.exitCode.toUInt32

end MeteredScript

/-- The command line. -/
def main (arguments : List String) : IO UInt32 := MeteredScript.answer arguments
