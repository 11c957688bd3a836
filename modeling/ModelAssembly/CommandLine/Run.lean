import ModelAssembly.Outline
import ModelAssembly.Report
import ModelAssembly.Storage
import ModelAssembly.Toml.Document
/-!
A run of the program: from the texts of a bundle and of the settings to an outline. Settings are
looked for in the file that the user names, then in the working directory, then in the user's own
directory; they are read before the bundle is.
-/

namespace ModelAssembly.CommandLine

-- The texts of the files that a run reads; a missing file has none.
structure Files where
  bundle : Option String := none
  -- The file that the user names, if there is such a wish.
  namedSettings : Option (Option String) := none
  localSettings : Option String := none
  systemSettings : Option String := none
  -- The outline can be written to where it should go.
  canWrite : Bool := true

inductive RunError where
  | settingsMissing
  | settingsMalformed
  | bundleMissing
  | bundleMalformed
  | assemblyFailed (error : AssemblyError) (diagnostics : List Diagnostic)
  | outputRefused

namespace RunError

def fileFailure (text : String) : Report :=
  { text := "I/O error: " ++ text, code := some "menagerie::io" }

-- How the failure is shown, after what was found out before it.
def reports : RunError → List Report
  | settingsMissing => [fileFailure "Missing configuration file"]
  | settingsMalformed => [fileFailure "Failed to parse TOML configuration"]
  | bundleMissing => [fileFailure "cannot read the bundle"]
  | bundleMalformed => [{ text := "Invalid syntax bundle", code := some "menagerie::bundle" }]
  | assemblyFailed error diagnostics => Report.ofFailure error diagnostics
  | outputRefused => [fileFailure "cannot write the outline"]

end RunError

-- What a run comes to.
structure Success where
  outline : String
  diagnostics : List Diagnostic

namespace Success

def warnings (s : Success) : List String :=
  s.diagnostics.map fun d => (Report.ofDiagnostic d).render

end Success

namespace Files

def readSettings (text : String) : Except RunError AssemblySettings :=
  match (Toml.parse text).bind (AssemblySettings.ofDatum? .toml) with
  | some settings => .ok settings
  | none => .error .settingsMalformed

-- The settings of the first file that there is. One that the user names must be there.
def settings (f : Files) : Except RunError AssemblySettings :=
  match f.namedSettings with
  | some (some text) => readSettings text
  | some none => .error .settingsMissing
  | none =>
    match f.localSettings.or f.systemSettings with
    | some text => readSettings text
    | none => .ok {}

def readBundle (f : Files) : Except RunError Bundle :=
  match f.bundle with
  | none => .error .bundleMissing
  | some text =>
    match (Toml.parse text).bind (Bundle.ofDatum? .toml) with
    | some b => .ok b
    | none => .error .bundleMalformed

def run (f : Files) : Except RunError Success := do
  let settings ← f.settings
  let bundle ← f.readBundle
  let outcome := bundle.assemble { settings }
  match outcome.result with
  | .error e => .error (.assemblyFailed e outcome.diagnostics)
  | .ok m =>
    if f.canWrite then
      return { outline := m.outline, diagnostics := outcome.diagnostics }
    else
      .error .outputRefused

end Files
end ModelAssembly.CommandLine
