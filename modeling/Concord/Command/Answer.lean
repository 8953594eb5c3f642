import Concord.Command.Arguments
import Concord.Command.Run

/-!
What a command answers, as text: its result, or the words for what went wrong. The files that it
reads and writes are named here and handled by whoever runs it.
-/

namespace Concord

/-- The result of a command: a text to show, and maybe a file to write, by its path. -/
structure Answer where
  text : String
  file : Option (String × String) := none
deriving DecidableEq, Repr

namespace Command

/-- The paths that a command reads. -/
def paths : Command → List String
  | .tree state _ => [state]
  | .diff desired observed _ => [desired, observed]
  | .run options => options.desired :: options.observed.toList

/-- Whether a command goes on until it is told to stop. -/
def isUnlimited : Command → Bool
  | .run options => options.maxPasses.isNone
  | _ => false

/-- Does what a command asks for. -/
def answer (c : Command) (settings : Settings) (read : FileReader) (stop : Option Nat)
    (now : Instant) : Except CommandError Answer :=
  match c with
  | .tree state kind => do
      return { text := treesText (← trees read state kind) }
  | .diff desired observed kind => do
      return { text := differencesText (← differences read desired observed kind) }
  | .run options => do
      let (report, state) ← options.run settings read stop now
      return {
        text := (Wire.runReport report).toPretty
        file := options.output.map fun path => (path, state.toText) }

/-- How the program is used. -/
def usage : String :=
  "\n".intercalate
    [ "Keeps network fabric configuration converged with a desired-state store",
      "",
      "Usage: fabsync [-c CONFIG] tree -s STATE [-k KIND]",
      "       fabsync [-c CONFIG] diff -d DESIRED -o OBSERVED [-k KIND]",
      "       fabsync [-c CONFIG] run -d DESIRED [-o OBSERVED] [-m PASSES] [--output OUTPUT]",
      "",
      "KIND is config, operational or monitored." ]

/-- The name and the version of the program. -/
def version : String :=
  "fabsync 0.1.0"

end Command

namespace UsageError

/-- Whether what was asked for is a text about the program. -/
def isQuestion (e : UsageError) : Bool :=
  e = .displayHelp || e = .displayVersion

/-- The wording of an error, or the text that was asked for. -/
def message : UsageError → String
  | .displayHelp | .nothingAsked => Command.usage
  | .displayVersion => Command.version
  | .invalidValue => "error: an option has no value, or one that it cannot have"
  | .valueValidation => "error: the value of an option is not a number"
  | .unknownArgument => "error: unexpected argument"
  | .invalidSubcommand => "error: unrecognized subcommand"
  | .missingRequired => "error: a required option was not provided"
  | .missingSubcommand => "error: a subcommand is required"
  | .argumentConflict => "error: an option cannot be used multiple times"
  | .tooManyValues => "error: a flag takes no value"

end UsageError

/-- The wording of an error: the widest context first, and the causes below it, which are numbered
if there are several. -/
def CommandError.text (e : CommandError) : String :=
  match e.contexts ++ [e.causeMessage] with
  | [] => ""
  | [line] => s!"Error: {line}"
  | [line, cause] => s!"Error: {line}\n\nCaused by:\n    {cause}"
  | line :: causes =>
      s!"Error: {line}\n\nCaused by:" ++
        String.join (causes.zipIdx.map fun c => s!"\n    {c.2}: {c.1}")

end Concord
