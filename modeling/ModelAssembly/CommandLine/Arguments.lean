/-!
Command line arguments: one input, and options that take one value each and may be given once. A
value stands in the same argument as its option or in the next one, which must then not look like
an option. After `--` no argument is an option.
-/

namespace ModelAssembly.CommandLine

inductive Setting where
  | output
  | config
  | logLevel
deriving DecidableEq

structure Arguments where
  input : String
  output : Option String := none
  config : Option String := none
  logLevel : String := "info"
deriving DecidableEq

-- Why no arguments were read. A request for help or for the version counts as one.
inductive ArgumentError where
  | missingInput
  -- No such option, or an input too many.
  | unknown (argument : String)
  | missingValue (setting : Setting)
  | repeated (setting : Setting)
  -- The option takes no value.
  | unexpectedValue (option : String)
  | helpRequested
  | versionRequested
deriving DecidableEq

-- What was read so far.
structure Reading where
  input : Option String := none
  output : Option String := none
  config : Option String := none
  logLevel : Option String := none
  -- The last option that had no value in its own argument, with its value once that has come.
  pending : Option (Setting × Option String) := none

namespace Reading

def get? (r : Reading) : Setting → Option String
  | .output => r.output
  | .config => r.config
  | .logLevel => r.logLevel

def set (r : Reading) (s : Setting) (value : String) : Except ArgumentError Reading :=
  if (r.get? s).isSome then .error (.repeated s)
  else match s with
    | .output => .ok { r with output := some value }
    | .config => .ok { r with config := some value }
    | .logLevel => .ok { r with logLevel := some value }

-- Sets the pending option.
def settle (r : Reading) : Except ArgumentError Reading :=
  match r.pending with
  | none => .ok r
  | some (s, none) => .error (.missingValue s)
  | some (s, some value) => { r with pending := none }.set s value

-- Takes an option, with its value if that stands in the same argument.
def option (r : Reading) (s : Setting) : Option String → Except ArgumentError Reading
  | some value => do (← r.settle).set s value
  | none => do return { ← r.settle with pending := some (s, none) }

-- Takes `--name` or `--name=value`, without the dashes.
def long (r : Reading) (argument : List Char) : Except ArgumentError Reading :=
  let name := String.ofList (argument.takeWhile (· ≠ '='))
  let value := match argument.dropWhile (· ≠ '=') with
    | [] => none
    | _ :: v => some (String.ofList v)
  let flag (request : ArgumentError) := match value with
    | some _ => .error (.unexpectedValue name)
    | none => do
      let _ ← r.settle
      .error request
  match name with
  | "output" => r.option .output value
  | "config" => r.option .config value
  | "log-level" => r.option .logLevel value
  | "help" => flag .helpRequested
  | "version" => flag .versionRequested
  | _ => .error (.unknown (String.ofList ('-' :: '-' :: argument)))

-- Takes `-o`, `-ovalue` or `-o=value`, without the dash.
def short (r : Reading) (argument : List Char) : Except ArgumentError Reading :=
  let value : List Char → Option String
    | [] => none
    | '=' :: v => some (String.ofList v)
    | v => some (String.ofList v)
  match argument with
  | 'o' :: v => r.option .output (value v)
  | 'c' :: v => r.option .config (value v)
  | 'h' :: _ => do
    let _ ← r.settle
    .error .helpRequested
  | 'V' :: _ => do
    let _ ← r.settle
    .error .versionRequested
  | _ => .error (.unknown (String.ofList ('-' :: argument)))

def positional (r : Reading) (argument : String) : Except ArgumentError Reading :=
  match r.input with
  | some _ => .error (.unknown argument)
  | none => do return { ← r.settle with input := some argument }

-- Takes an argument that does not look like an option: the value that an option waits for, or the
-- input.
def plain (r : Reading) (argument : String) : Except ArgumentError Reading :=
  match r.pending with
  | some (s, none) => .ok { r with pending := some (s, some argument) }
  | _ => r.positional argument

-- Takes one argument. A dash alone does not look like an option.
def take (r : Reading) (argument : String) : Except ArgumentError Reading :=
  match argument.toList with
  | '-' :: '-' :: name => r.long name
  | '-' :: c :: rest => r.short (c :: rest)
  | _ => r.plain argument

-- Takes all arguments, up to `--` and from there on.
def takeAll (r : Reading) : List String → Except ArgumentError Reading
  | [] => .ok r
  | argument :: rest =>
    if argument = "--" then rest.foldlM positional r
    else do (← r.take argument).takeAll rest

end Reading

namespace Arguments

-- Reads the arguments that follow the name of the program.
def parse (arguments : List String) : Except ArgumentError Arguments := do
  let r ← (← ({} : Reading).takeAll arguments).settle
  match r.input with
  | none => .error .missingInput
  | some input =>
    return { input, output := r.output, config := r.config, logLevel := r.logLevel.getD "info" }

end Arguments
end ModelAssembly.CommandLine
