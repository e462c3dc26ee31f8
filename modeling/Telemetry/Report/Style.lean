/-!
Styled text for terminals. A styled text is written between the escape sequence of its style and a
reset, or plainly when colours are off. Text is padded to its width inside the style; a reset that
occurs in the text itself is followed by the style again, and counts towards the width.
-/

namespace Telemetry.Report

/-- What the surroundings say about colours: whether the output goes to a terminal, and the settings
that force colours, forbid them or allow them, where they are given. The setting `0` is a refusal. -/
structure ColorSettings where
  terminal : Bool
  force : Option String
  forbid : Option String
  allow : Option String
  deriving DecidableEq, Repr

/-- Whether colours are used. What is forced wins over what is forbidden, and either over the
terminal. -/
def ColorSettings.useColor (s : ColorSettings) : Bool :=
  s.force.any (· ≠ "0") || (s.forbid.isNone && s.terminal && !s.allow.any (· = "0"))

inductive Style where
  | bold
  | dimmed
  | red
  | green
  | yellow
  | blue
  | boldCyan
  deriving DecidableEq, Repr

/-- The codes that switch a style on. -/
def Style.codes : Style → String
  | .bold => "1"
  | .dimmed => "2"
  | .red => "31"
  | .green => "32"
  | .yellow => "33"
  | .blue => "34"
  | .boldCyan => "1;36"

def Style.on (s : Style) : List Char :=
  '\x1b' :: '[' :: s.codes.toList ++ ['m']

def reset : List Char := ['\x1b', '[', '0', 'm']

/-- Puts `again` behind every reset in a text. The first `skip` characters belong to a reset that
was seen already, behind whose last character it is put. -/
def restoreAfterResets (again : List Char) : (skip : Nat) → List Char → List Char
  | _, [] => []
  | skip + 2, c :: cs => c :: restoreAfterResets again (skip + 1) cs
  | 1, c :: cs => c :: again ++ restoreAfterResets again 0 cs
  | 0, c :: cs =>
    c :: restoreAfterResets again (if reset.isPrefixOf (c :: cs) then 3 else 0) cs

/-- Fills a text up to a width with spaces at the end. -/
def pad (width : Nat) (text : List Char) : List Char :=
  text ++ List.replicate (width - text.length) ' '

def styled (color : Bool) (style : Style) (width : Nat) (text : String) : String :=
  if color then
    String.ofList
      (style.on ++ pad width (restoreAfterResets style.on 0 text.toList) ++ reset)
  else String.ofList (pad width text.toList)

def padded (width : Nat) (text : String) : String :=
  String.ofList (pad width text.toList)

end Telemetry.Report
