import Backtrack.Text.Bytes

/-!
# What can be wrong with a pattern
-/

namespace Backtrack.Regex

inductive Defect where
  | invalidUtf8 | missingBracket | missingParen | unexpectedParen | missingRepeatArgument
  | invalidRepeatOp | invalidRepeatSize | invalidCharRange | invalidEscape | invalidNamedCapture
  | invalidPerlOp | trailingBackslash | nestedTooDeeply | tooLarge
  deriving DecidableEq, Repr

def Defect.message : Defect → Bytes
  | invalidUtf8 => "invalid UTF-8"
  | missingBracket => "missing closing ]"
  | missingParen => "missing closing )"
  | unexpectedParen => "unexpected )"
  | missingRepeatArgument => "missing argument to repetition operator"
  | invalidRepeatOp => "invalid nested repetition operator"
  | invalidRepeatSize => "invalid repeat count"
  | invalidCharRange => "invalid character class range"
  | invalidEscape => "invalid escape sequence"
  | invalidNamedCapture => "invalid named capture"
  | invalidPerlOp => "invalid or unsupported Perl syntax"
  | trailingBackslash => "trailing backslash at end of expression"
  | nestedTooDeeply => "expression nests too deeply"
  | tooLarge => "expression too large"

structure Error where
  defect : Defect
  piece : Bytes
  deriving DecidableEq, Repr

def Error.message (e : Error) : Bytes :=
  "error parsing regexp: " ++ e.defect.message ++ ": `" ++ e.piece ++ "`"

end Backtrack.Regex
