import Telemetry.Command.Stream
import Telemetry.FileTree.Walk

/-!
The outcome of a command: what it writes to the two output streams, how it ends, and the file tree
that it leaves behind. A stream that refuses a part of what is written ends a command as well: with
a reason where the command looks at the result of the write, else by an abort.
-/

namespace Telemetry.Command

/-- What a command runs on: whether output is coloured, the two output streams, and what the system
denies. -/
structure Host where
  color : Bool
  stdout : Stream
  stderr : Stream
  access : Access

/-- A host without colours on which nothing is refused. -/
def Host.plain : Host := ⟨false, .unlimited, .unlimited, .full⟩

inductive ExitCode where
  | success
  /-- The command did its work, and names were left open though that was not wanted. -/
  | unresolved
  /-- The command could not do its work. -/
  | error
  deriving DecidableEq, Repr

def ExitCode.number : ExitCode → Nat
  | .success => 0
  | .unresolved => 1
  | .error => 2

inductive Failure where
  | walk (fault : WalkFault)
  | create (path : String) (error : FileError)
  | makeFolder (path : String) (error : FileError)
  | write (path : String) (error : FileError)
  | stream (error : StreamError)
  deriving DecidableEq, Repr

def Failure.message : Failure → String
  | .walk fault => fault.message
  | .create path error => "creating " ++ path ++ ": " ++ error.message
  | .makeFolder path error => "creating directory " ++ path ++ ": " ++ error.message
  | .write path error => "writing " ++ path ++ ": " ++ error.message
  | .stream error => error.message

inductive Ending where
  | exit (code : ExitCode)
  | failure (reason : Failure)
  /-- A message could not be written, and nobody looks at that. -/
  | abort
  deriving DecidableEq, Repr

/-- How a command ends after a message: if the stream does not take all of it, by an abort. -/
def Ending.after (s : Stream) (message : String) (code : ExitCode) : Ending :=
  if s.takes message then .exit code else .abort

/-- What a command does. Its texts are those that it writes, whatever the streams take of them. -/
structure Outcome where
  stdout : String
  stderr : String
  ending : Ending
  tree : FileTree

/-- What the program writes to the error stream: a command that breaks off says why. What the system
says about an abort is left out. -/
def Outcome.diagnostics (o : Outcome) : String :=
  match o.ending with
  | .exit _ | .abort => o.stderr
  | .failure reason => o.stderr ++ "Error: " ++ reason.message ++ "\n"

def abortCode : Nat := 101

/-- The exit code of the program: a command that breaks off could not do its work, and the reason
must find its way to the error stream. -/
def Outcome.exitCode (stderr : Stream) (o : Outcome) : Nat :=
  match o.ending with
  | .exit code => code.number
  | .failure _ => if stderr.takes o.diagnostics then ExitCode.error.number else abortCode
  | .abort => abortCode

end Telemetry.Command
