import TwoCnf.Command.Run
import TwoCnf.Reference.Propagation

/-!
# Main — the command line

Reads the arguments, carries the command out on the files of the system, and prints the report. The second
opinion is that of `Propagation.engine`. The log and the complaints go to standard error.
-/

namespace TwoCnf

/-- The refusal behind an error of the system. -/
def OsError.ofSystem (e : IO.Error) : OsError :=
  match e with
  | .noFileOrDirectory _ _ _ => .noSuchFile
  | .inappropriateType _ 21 _ => .isADirectory
  | .inappropriateType _ _ _ => .notADirectory
  | .invalidArgument _ 36 _ => .nameTooLong
  | .permissionDenied _ _ _ => ⟨"Permission denied", 13⟩
  | other => ⟨toString other, 0⟩

/-- The files of the system. -/
def systemFiles : Files IO where
  read path := do
    try
      return .ok (← IO.FS.readBinFile path)
    catch e =>
      let refusal := OsError.ofSystem e
      return .error (if refusal = .isADirectory then .reading refusal else .opening refusal)
  write path text := do
    try
      IO.FS.writeFile path text
      return .ok ()
    catch e =>
      return .error (OsError.ofSystem e)

end TwoCnf

def main (args : List String) : IO UInt32 := do
  match TwoCnf.Invocation.parse? args with
  | none =>
      IO.eprintln "error: the arguments are not understood"
      return UInt32.ofNat TwoCnf.usageExitCode
  | some invocation =>
      let report ← invocation.command.run TwoCnf.systemFiles TwoCnf.Propagation.engine
      report.transcript.output.forM IO.println
      (report.logLines invocation.verbosity).forM IO.eprintln
      report.complaintLines.forM IO.eprintln
      return UInt32.ofNat report.exitCode
