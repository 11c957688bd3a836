import ModelAssembly.CommandLine.Arguments
import ModelAssembly.CommandLine.Run
/-!
The program: reads a bundle and writes the outline of its model. Warnings and errors go to the
standard error stream.
-/

namespace ModelAssembly.CommandLine

def usage : String := "Usage: menagerie [OPTIONS] <INPUT>

Arguments:
  <INPUT>  Path to the input syntax bundle

Options:
  -o, --output <OUTPUT>        Path to write the model outline to; printed to stdout when omitted
  -c, --config <CONFIG>        Path to configuration file (TOML)
      --log-level <LOG_LEVEL>  Log level (off, error, warn, info, debug, trace) [default: info]
  -h, --help                   Print help
  -V, --version                Print version
"

namespace ArgumentError

def message : ArgumentError → String
  | missingInput => "the input is missing"
  | unknown argument => s!"unexpected argument '{argument}'"
  | missingValue _ => "an option lacks its value"
  | repeated _ => "an option is given twice"
  | unexpectedValue option => s!"the option '--{option}' takes no value"
  | helpRequested => usage
  | versionRequested => "menagerie-cli 0.1.0"

end ArgumentError

-- The text of a file, if there is such a file.
def readText (path : String) : IO (Option String) := do
  try
    return some (← IO.FS.readFile path)
  catch _ =>
    return none

-- Where the settings of the user are kept.
def systemSettingsPath : IO (Option String) := do
  let base ← match ← IO.getEnv "XDG_CONFIG_HOME" with
    | some dir => pure (some dir)
    | none => return (← IO.getEnv "HOME").map (· ++ "/.config/menagerie/config.toml")
  return base.map (· ++ "/menagerie/config.toml")

def readFiles (a : Arguments) : IO Files := do
  let named ← match a.config with
    | some path => pure (some (← readText path))
    | none => pure none
  let system ← match ← systemSettingsPath with
    | some path => readText path
    | none => pure none
  return {
    bundle := ← readText a.input
    namedSettings := named
    localSettings := ← readText "menagerie/config.toml"
    systemSettings := system }

-- Writes the outline; tells whether that was possible.
def writeOutline (a : Arguments) (outline : String) : IO Bool := do
  match a.output with
  | none =>
    IO.print outline
    return true
  | some path =>
    try
      IO.FS.writeFile path outline
      return true
    catch _ =>
      return false

def showErrors (a : Arguments) (e : RunError) : IO Unit := do
  unless a.logLevel = "off" do
    for r in e.reports do
      IO.eprint r.render

def runWith (args : List String) : IO UInt32 := do
  match Arguments.parse args with
  | .error .helpRequested =>
    IO.print usage
    return 0
  | .error .versionRequested =>
    IO.println ArgumentError.versionRequested.message
    return 0
  | .error e =>
    IO.eprintln s!"error: {e.message}"
    return 2
  | .ok a =>
    match (← readFiles a).run with
    | .error e =>
      showErrors a e
      return 1
    | .ok success =>
      unless a.logLevel = "off" || a.logLevel = "error" do
        for w in success.warnings do
          IO.eprint w
      if ← writeOutline a success.outline then
        return 0
      showErrors a .outputRefused
      return 1

end ModelAssembly.CommandLine

def main (args : List String) : IO UInt32 := ModelAssembly.CommandLine.runWith args
