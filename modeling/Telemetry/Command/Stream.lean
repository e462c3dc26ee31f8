import Telemetry.Text.Utf8

/-!
The output streams of a command. A stream takes what is written to it byte by byte. A limited one
refuses what it has no room for any more, as a full device does, or a pipe that nobody reads.
-/

namespace Telemetry.Command

open Telemetry.Text

/-- The reasons for which a stream refuses what is written to it. -/
inductive StreamError where
  | inputOutput
  | noSpace
  | brokenPipe
  deriving DecidableEq, Repr

def StreamError.message : StreamError → String
  | .inputOutput => "Input/output error (os error 5)"
  | .noSpace => "No space left on device (os error 28)"
  | .brokenPipe => "Broken pipe (os error 32)"

/-- An output stream by what it takes: everything, or so many bytes. -/
inductive Stream where
  | unlimited
  | limited (room : Nat) (error : StreamError)
  deriving DecidableEq, Repr

namespace Stream

/-- The part of a text that a stream takes. -/
def taken (s : Stream) (text : String) : List UInt8 :=
  match s with
  | .unlimited => encode text.toList
  | .limited room _ => (encode text.toList).take room

/-- Why a stream refuses a text, if it does not take all of it. -/
def refusal? (s : Stream) (text : String) : Option StreamError :=
  match s with
  | .unlimited => none
  | .limited room error => if room < (encode text.toList).length then some error else none

def takes (s : Stream) (text : String) : Bool :=
  (s.refusal? text).isNone

@[simp] theorem takes_empty (s : Stream) : s.takes "" = true := by
  cases s <;> simp [takes, refusal?, encode]

theorem takes_eq_true_iff {s : Stream} {text : String} :
    s.takes text = true ↔ s.refusal? text = none :=
  Option.isNone_iff_eq_none

end Stream

end Telemetry.Command
