/-
  The arguments of the command line.

  An argument that starts with a hyphen, other than the hyphen alone, is an
  option; after `--` there are no more options.  The other arguments are
  expressions.

      --log-level LEVEL, --log-level=LEVEL    the log filter, at most once
      --version, -V                           show the version

  * `Arguments.read` reads the arguments from left to right, up to the first
    error or the request for the version.

  Left out are the request for help (`--help` and `-h`) and several short options
  in one argument (such as `-Vx`): here they are unknown options.
-/

namespace ReversePolish.Program

/-- The arguments of a calculation. -/
structure Arguments where
  logLevel : Option String := none
  expressions : List String := []
  deriving DecidableEq

/-- What the arguments ask for. -/
inductive Request where
  | showVersion
  | calculate (arguments : Arguments)
  deriving DecidableEq

/-- A fault in the use of the options. -/
inductive UsageError where
  | unknownOption (argument : String)
  | missingValue
  | repeatedOption
  deriving DecidableEq

/-- The fault in words. -/
def UsageError.message : UsageError → String
  | unknownOption argument => s!"unexpected argument '{argument}' found"
  | missingValue => "a value is required for '--log-level <LOG_LEVEL>' but none was supplied"
  | repeatedOption => "the argument '--log-level <LOG_LEVEL>' cannot be used multiple times"

/-- Options start with a hyphen. -/
def isOption (argument : String) : Bool :=
  match argument.toList with
  | '-' :: _ :: _ => true
  | _ => false

/-- The value in `--log-level=VALUE`. -/
def attachedLevel? (argument : String) : Option String :=
  let start := "--log-level=".toList
  if start.isPrefixOf argument.toList then
    some (.ofList (argument.toList.drop start.length))
  else none

namespace Arguments

/-- The arguments with one more expression. -/
def addExpression (arguments : Arguments) (expression : String) : Arguments :=
  { arguments with expressions := arguments.expressions ++ [expression] }

/-- The arguments with the log level, which may be given only once. -/
def setLevel (arguments : Arguments) (level : String) : Except UsageError Arguments :=
  match arguments.logLevel with
  | none => .ok { arguments with logLevel := some level }
  | some _ => .error .repeatedOption

/-- Read the rest of the arguments. -/
def readFrom (arguments : Arguments) : List String → Except UsageError Request
  | [] => .ok (.calculate arguments)
  | "--" :: rest =>
    .ok (.calculate { arguments with expressions := arguments.expressions ++ rest })
  | "--version" :: _ | "-V" :: _ => .ok .showVersion
  | ["--log-level"] => .error .missingValue
  | "--log-level" :: level :: rest =>
    if isOption level then .error .missingValue
    else do (← arguments.setLevel level).readFrom rest
  | argument :: rest =>
    match attachedLevel? argument with
    | some level => do (← arguments.setLevel level).readFrom rest
    | none =>
      if isOption argument then .error (.unknownOption argument)
      else (arguments.addExpression argument).readFrom rest

/-- Read the arguments. -/
def read (arguments : List String) : Except UsageError Request :=
  readFrom {} arguments

end Arguments

end ReversePolish.Program
