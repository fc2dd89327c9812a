import TableScript.Fault
import TableScript.Number.Numeral

/-!
# Numbers read during a run

The text of a number literal is read when the literal is evaluated, and an input line when a
format asks for a number.
-/

namespace TableScript.Reading

/-- The number that a literal stands for. -/
def ofLiteral (form : NumberForm) (text : String) : Except Cause Value :=
  match form with
  | .integer =>
    match Number.readIntegerLiteral? text with
    | some value => .ok (.integer value)
    | none => .error (.integerLiteral text)
  | .float =>
    match Number.readFloatLiteral? text with
    | some value => .ok (.float value)
    | none => .error (.floatLiteral text)

/-- Whether a format asks for a number. -/
def isNumberFormat (format : String) : Bool :=
  ["n", "*n", "number", "*number"].contains format

/-- The number that an input line holds, blanks at its ends apart: with a point it is a
floating-point number, without one an integer. -/
def ofLine (line : String) : Except Cause Value :=
  let characters := Text.trim line.toList
  if characters.contains '.' then
    match Number.parseFloat? (String.ofList characters) with
    | some value => .ok (.float value)
    | none => .error (.numberLine line)
  else
    match Number.parseInteger? characters with
    | some value => .ok (.integer value)
    | none => .error (.numberLine line)

end TableScript.Reading
