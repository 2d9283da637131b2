/-!
# Log lines

An activity reports what it does in lines, each with a weight and the part of
the program that it speaks for.  Lines are values: an activity returns them
beside its result, and whoever runs the activity decides what to show.

The form of a shown line, and that lines from some weight up are shown, is what the
library `env_logger` documents, without the time of day.
-/

namespace FlatArchive.Log

/-- The weight of a line. -/
inductive Level
  | debug
  | info
  | warn
  deriving DecidableEq, Repr

/-- The part of the program that a line speaks for. -/
inductive Origin
  /-- Laying archives out and reading them. -/
  | container
  /-- Moving files between a tree and an archive. -/
  | transfer
  /-- Checking that an archive gives back what went into it. -/
  | roundTrip
  deriving DecidableEq, Repr

/-- One line of the log. -/
structure Line where
  level : Level
  origin : Origin
  message : String
  deriving DecidableEq, Repr

namespace Level

/-- The name of a level. -/
def name : Level → String
  | .debug => "DEBUG"
  | .info => "INFO"
  | .warn => "WARN"

end Level

/-- The name under which a part of the program appears. -/
def Origin.name : Origin → String
  | .container => "tatix_ar::container"
  | .transfer => "tatix_ar::archive"
  | .roundTrip => "tatix_ar::selftest"

/-- Pads a name to five characters, so that what follows it lines up. -/
def padded (name : String) : String :=
  name ++ String.ofList (List.replicate (5 - name.length) ' ')

/-- Moves what follows a line break in by four spaces. -/
def indented (message : String) : String :=
  String.ofList (message.toList.flatMap fun c =>
    if c = '\n' then ['\n', ' ', ' ', ' ', ' '] else [c])

/-- A line as it is shown, with its line break. -/
def Line.render (line : Line) : String :=
  s!"[{padded line.level.name} {line.origin.name}] {indented line.message}\n"

/-- Whether a line is shown: details only to those who ask for them. -/
def Line.shown (verbose : Bool) (line : Line) : Bool :=
  verbose || line.level ≠ .debug

end FlatArchive.Log
