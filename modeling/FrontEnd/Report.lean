import FrontEnd.Diagnostic
import FrontEnd.Line
import FrontEnd.Text.WhiteSpace

/-!
Diagnostics as they are shown: the message, the name of the source, the line it is about with a
caret under the place, and the tip. The line is shown without the spaces and tabs it begins with
and without the white space it ends with; the caret counts characters of the line as shown, not
bytes. A caret that is too far to the right cannot be drawn, and then nothing of the diagnostic is
shown.
-/

namespace FrontEnd

/-- Why a diagnostic cannot be shown. -/
inductive ReportError
  | caretTooFar
deriving DecidableEq

def ReportError.message : ReportError → String
  | .caretTooFar => "Formatting argument out of range"

namespace Location

def isIndent (c : Char) : Bool :=
  c = ' ' || c = '\t'

/-- How many characters are left out in front of the line. -/
def indent (l : Location) : Nat :=
  (l.text.takeWhile isIndent).length

/-- The line as it is shown. -/
def shown (l : Location) : List Char :=
  ((l.text.dropWhile isIndent).reverse.dropWhile Text.isWhiteSpace).reverse

/-- The column in characters. A column inside a character stays the column in bytes. -/
def charColumn (l : Location) : Nat :=
  match Text.dropBytes? l.column l.text with
  | some after => l.text.length - after.length
  | none => l.column

/-- How far to the right of the line's first shown character the caret stands. -/
def caret (l : Location) : Nat :=
  l.charColumn - l.indent

/-- The furthest to the right that a caret can stand. -/
def caretLimit : Nat := 65534

/-- The line between its margins, and the caret under it. -/
def excerpt (l : Location) : Except ReportError String :=
  let number := toString l.number
  let margin := String.ofList (List.replicate (number.length + 1) ' ') ++ "|"
  if l.caret ≤ caretLimit then
    .ok <| margin ++ "\n" ++
      number ++ " | " ++ String.ofList l.shown ++ "\n" ++
      margin ++ " " ++ String.ofList (List.replicate l.caret '-') ++ "^\n"
  else
    .error .caretTooFar

end Location

namespace Diagnostic

/-- A diagnostic as it is shown for the source it is about. -/
def report (d : Diagnostic) (source : String) : Except ReportError String :=
  let excerpt := ((locate? source d.position.offset).map Location.excerpt).getD (.ok "")
  excerpt.map fun excerpt =>
    "Error: " ++ d.cause.name ++ " (" ++ d.cause.message ++ ")\n" ++
      "-> " ++ d.position.source ++ "\n" ++ excerpt ++
      (d.cause.tip?.map fun tip => "tip: " ++ tip ++ "\n").getD ""

/-- Diagnostics as they are shown one after the other, up to the first that cannot be shown. -/
def reports (source : String) : List Diagnostic → String × Option ReportError
  | [] => ("", none)
  | d :: ds =>
      match d.report source with
      | .error e => ("", some e)
      | .ok report =>
          let (later, failure) := reports source ds
          (report ++ later, failure)

end Diagnostic

end FrontEnd
