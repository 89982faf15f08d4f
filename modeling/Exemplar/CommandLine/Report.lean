import Exemplar.Generator
import Exemplar.Text.Quoted

/-!
# Reports

What the program prints: the pattern, the generator it was compiled into, some strings that match,
some that do not, and how long compiling took. A report may be colored.

## Main definitions

* `Ink`, `paint`: colored text
* `Report`: the contents of a report
* `Report.text`: the report as it is printed
-/

namespace Exemplar.CommandLine

/-! ### Colors -/

/-- A way to set off text on a terminal. -/
inductive Ink where
  | bold | dim | red | green | yellow | blue | cyan | gray
deriving DecidableEq, Repr

/-- The number that selects the ink in an escape sequence. -/
def Ink.code : Ink → Nat
  | bold => 1
  | dim => 2
  | red => 31
  | green => 32
  | yellow => 33
  | blue => 34
  | cyan => 36
  | gray => 90

/-- Text in the ink, or as it is if the report is not colored. -/
def Ink.paint (color : Bool) (ink : Ink) (text : String) : String :=
  if color then s!"\x1b[{ink.code}m" ++ text ++ "\x1b[0m" else text

/-! ### Contents -/

/-- The strings of a generator, or what was said instead of them. -/
structure Samples where
  /-- The generator in writing. -/
  generator : String
  strings : List (Except String (List Char))

/-- How long compiling took. -/
structure Timing where
  total : String
  parse : String
  pad : String

/-- The contents of a report. -/
structure Report where
  pattern : String
  compiled : Compiled
  /-- Strings that match, if they were asked for. -/
  matching : Option Samples
  /-- Strings that do not match, if a generator of them could be derived. -/
  mismatching : Option Samples
  timing : Timing

/-! ### Text -/

/-- The lines about the generator. -/
def generatorLines (color : Bool) (compiled : Compiled) : List String :=
  let paint := Ink.paint color
  let length := compiled.generator.length
  let most := if length.isOpen then "∞" else toString length.most
  [ "  " ++ paint .blue "normalized:" ++ " " ++ paint .bold compiled.generator.text,
    "  " ++ paint .blue "length:" ++ " " ++ paint .yellow (toString length.least) ++ ".."
      ++ paint .yellow most
      ++ "  " ++ paint .dim "│ anchored:" ++ " "
      ++ paint .cyan (toString compiled.generator.anchored)
      ++ "  " ++ paint .dim "│ nodes:" ++ " " ++ paint .cyan (toString compiled.tree.size)
      ++ " " ++ paint .dim s!"→ {compiled.generator.root.size}" ]

/-- The line about a string. -/
def sampleLine (color : Bool) (i : Nat) (string : Except String (List Char)) : String :=
  let paint := Ink.paint color
  "  " ++ paint .gray s!"[{i}]" ++ " " ++
    match string with
    | .ok text =>
      paint .bold (paint .green (quoted (String.ofList text))) ++ " "
        ++ paint .dim s!"({text.length} chars)"
    | .error message => paint .red s!"✗ {message}"

/-- The lines about some strings. -/
def sampleLines (color : Bool) (samples : Samples) : List String :=
  ("  " ++ Ink.dim.paint color "generator:" ++ " " ++ Ink.blue.paint color samples.generator)
    :: samples.strings.mapIdx (sampleLine color)

/-- The lines that stand where there are no strings that do not match. -/
def noComplementLines (color : Bool) : List String :=
  [ Ink.dim.paint color "  No complement could be derived",
    "",
    Ink.yellow.paint color "Possible reasons:",
    "  • The pattern is unanchored and matches the empty string",
    "  • Every character can start a match and the pattern has no minimum length",
    "",
    Ink.dim.paint color "  Tip: Set REXGEN_DEBUG=1 to see complement derivation details" ]

/-- The line about the time that compiling took. -/
def timingLine (color : Bool) (timing : Timing) : String :=
  "  Total: " ++ Ink.green.paint color timing.total
    ++ "  │  Parse: " ++ Ink.cyan.paint color timing.parse
    ++ "  │  Normalize: " ++ Ink.dim.paint color timing.pad

/-- A section with a heading. -/
def sectionLines (color : Bool) (heading : String) (lines : List String) : List String :=
  "" :: Ink.gray.paint color ("━━━ " ++ heading ++ " ━━━") :: lines

/-- The lines of a report. -/
def Report.lines (color : Bool) (r : Report) : List String :=
  let heading := "⚙  Pattern: \"" ++ r.pattern ++ "\""
  ["", Ink.bold.paint color (Ink.cyan.paint color heading)]
    ++ sectionLines color "Compiled" (generatorLines color r.compiled)
    ++ (r.matching.map fun s => sectionLines color "Matching" (sampleLines color s)).getD []
    ++ sectionLines color "Not matching"
      ((r.mismatching.map (sampleLines color)).getD (noComplementLines color))
    ++ sectionLines color "Timing" [timingLine color r.timing]
    ++ [""]

/-- Lines as text: each one with its end. -/
def unlines (lines : List String) : String := String.join (lines.map (· ++ "\n"))

/-- The report as it is printed. -/
def Report.text (color : Bool) (r : Report) : String := unlines (r.lines color)

end Exemplar.CommandLine
