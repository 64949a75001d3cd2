import Scaffold.Pass

/-!
What the commands print. Every line is indented by two spaces and begins with a sign: a filled
circle for success, a diamond for failure, an empty diamond for a remark.
-/
namespace Scaffold.CommandLine.Report

def line (s : String) : String := s ++ "\n"

def success (s : String) : String := line ("  ◉ " ++ s)

def remark (s : String) : String := line ("  ◇ " ++ s)

def dim (s : String) : String := line ("  " ++ s)

def nope : String := line "" ++ line "  ◆ Nope." ++ line ""

/-- A text filled up with blanks to a number of characters. -/
def padded (width : Nat) (s : String) : String :=
  s ++ String.ofList (List.replicate (width - s.length) ' ')

def rule (length : Nat) : String := String.ofList (List.replicate length '─')

/-- The width of a box, borders included. -/
def boxWidth : Nat := 55

def boxHeader (title : String) : String :=
  let title := " " ++ title ++ " "
  line ("  ╭─" ++ title ++ rule (boxWidth - (title.length + 4)) ++ "╮")

def boxLine (content : String) : String := line ("  │ " ++ padded (boxWidth - 2) content ++ "│")

def boxFooter : String := line ("  ╰" ++ rule (boxWidth - 2) ++ "╯")

def classLine (d : ClassDesc) : String :=
  "▸ " ++ padded 28 d.name ++ " " ++ d.target ++ " · " ++ toString d.properties.length ++
    " props " ++ toString d.methods.length ++ " methods"

def notes (d : ClassDesc) : String :=
  String.join (d.notes.map fun note => dim (d.name ++ ": " ++ note))

/-- All generated classes in a box, with the notes on them below it. -/
def classes (ds : List ClassDesc) : String :=
  if ds.isEmpty then remark "No annotated models found." ++ line ""
  else
    boxHeader "CLASSES" ++ boxLine "" ++ String.join (ds.map fun d => boxLine (classLine d)) ++
      boxLine "" ++ boxFooter ++ String.join (ds.map notes) ++ line ""

def summary (t : Tally) : String :=
  line ("    " ++ toString t.models ++ " models · " ++ toString t.classes ++ " classes · " ++
    toString t.definitions ++ " types")

def generated (output : String) (o : Output) : String :=
  success ("Wrote " ++ output) ++ line "" ++ classes o.classes ++ summary o.tally ++ line ""

def checked (t : Tally) : String := success "Looking good." ++ line "" ++ summary t

def typesWritten (count : Nat) (path : String) : String :=
  success (toString count ++ " definitions written to " ++ path)

def timing (milliseconds : String) : String := remark ("Done in " ++ milliseconds ++ "ms")

end Scaffold.CommandLine.Report
