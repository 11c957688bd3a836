import ModelAssembly.Assembly.Outcome
/-!
Reports: how diagnostics and failures are shown to the user.
-/

namespace ModelAssembly

structure Report where
  text : String
  code : Option String := none
  -- The failure that ends a run has no severity of its own.
  severity : Option Severity := none
  help : Option String := none

namespace Report

-- The provenance of the first primary label, if it has a file.
def location (d : Diagnostic) : Option Provenance :=
  ((d.labels.find? (·.isPrimary)).map (·.provenance)).filter (·.file.isSome)

def ofDiagnostic (d : Diagnostic) : Report where
  text := d.message ++ ((location d).map fun p => s!" (at {p.text})").getD ""
  code := d.code.map (·.text)
  severity := some d.severity
  help := d.help

def ofError (e : AssemblyError) : Report where
  text := e.message
  code := some "menagerie::assembly"

-- The reports of a failed assembly: its diagnostics and then the failure.
def ofFailure (e : AssemblyError) (ds : List Diagnostic) : List Report :=
  ds.map ofDiagnostic ++ [ofError e]

def mark : Option Severity → String
  | none | some .error => "x"
  | some .warning => "!"
  | some .info => ">"

-- The line of `text` behind a lead of its own; the spaces at its end are dropped.
def line (lead text : String) : String :=
  lead ++ String.ofList (text.toList.reverse.dropWhile (· = ' ')).reverse ++ "\n"

-- The lines of `text`, the first behind `first` and the others behind `rest`.
def paragraph (first rest text : String) : String :=
  match text.splitOn "\n" with
  | [] => line first ""
  | l :: ls => line first l ++ String.join (ls.map (line rest))

-- The code, a blank line, the marked text, and the help.
def render (r : Report) : String :=
  (r.code.map (· ++ "\n\n")).getD "" ++
    paragraph s!"  {mark r.severity} " "  | " r.text ++
    (r.help.map (paragraph "  help: " "        ")).getD ""

end Report
end ModelAssembly
