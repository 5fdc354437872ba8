import Jack.Scanner

/-!
# Compile errors

Compilation stops at its first error. An error knows its category and, unless it concerns the end
of the source or the way in or out, the span of the text it names.
-/

namespace Jack

inductive Error
  | scan (e : ScanError)
  | unexpectedToken (expected found : String) (span : Span)
  | unexpectedEnd (expected : String)
  | trailingInput (className found : String) (span : Span)
  | undefinedSymbol (name : String) (span : Span)
  | alreadyDefined (name : String) (span : Span)
  /-- A call on a variable that holds no object. -/
  | invalidCallTarget (name typeName subroutineName : String) (span : Span)
  /-- An instruction could not be written, for the given reason. -/
  | emit (reason : String)
  deriving DecidableEq, Repr

namespace ScanError

def message : ScanError → String
  | invalidToken lexeme _ => s!"invalid token `{lexeme}`"
  | numberTooLarge lexeme _ => s!"integer constant `{lexeme}` is out of range (0..=32767)"
  | characterTooLarge lexeme _ =>
    s!"string constant `{lexeme}` contains a character outside 0..=32767"
  | openString _ => "unterminated string constant"
  | read reason => s!"failed to read source: {reason}"

def span? : ScanError → Option Span
  | invalidToken _ span | numberTooLarge _ span | characterTooLarge _ span
  | openString span => some span
  | read _ => none

end ScanError

namespace Error

inductive Category
  | lexical | syntactic | semantic | input | output
  deriving DecidableEq, Repr

def Category.text : Category → String
  | lexical => "lexical"
  | syntactic => "syntax"
  | semantic => "semantic"
  | input => "input"
  | output => "output"

def category : Error → Category
  | scan (.read _) => .input
  | scan _ => .lexical
  | unexpectedToken .. | unexpectedEnd _ | trailingInput .. => .syntactic
  | undefinedSymbol .. | alreadyDefined .. | invalidCallTarget .. => .semantic
  | emit _ => .output

def message : Error → String
  | scan e => e.message
  | unexpectedToken expected found _ => s!"expected {expected}, found `{found}`"
  | unexpectedEnd expected => s!"expected {expected}, found end of input"
  | trailingInput className found _ => s!"unexpected `{found}` after the end of class `{className}`"
  | undefinedSymbol name _ => s!"undefined symbol `{name}`"
  | alreadyDefined name _ => s!"`{name}` is already defined in this scope"
  | invalidCallTarget name typeName subroutineName _ =>
    s!"cannot call `{subroutineName}` on `{name}` of primitive type `{typeName}`"
  | emit reason => s!"failed to emit instruction: {reason}"

def span? : Error → Option Span
  | scan e => e.span?
  | unexpectedToken _ _ span | trailingInput _ _ span | undefinedSymbol _ span
  | alreadyDefined _ span | invalidCallTarget _ _ _ span => some span
  | unexpectedEnd _ | emit _ => none

end Error

end Jack
