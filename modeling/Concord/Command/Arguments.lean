import Concord.Command.Basic

/-!
The command line. Options have a long name and most of them a short one, and each takes one value:
the next argument, or what follows an equals sign or the short name at once. A word that starts
with a dash is never the value of the option before it. Values are checked, and repetitions
refused, when the next option or the end of the command comes.
-/

namespace Concord

/-- Why a command line is no command. -/
inductive UsageError where
  | displayHelp
  | displayVersion
  /-- Nothing at all was asked for. -/
  | nothingAsked
  /-- An option has no value, or none of those it may have. -/
  | invalidValue
  /-- The value of an option does not read as what it should be. -/
  | valueValidation
  | unknownArgument
  | invalidSubcommand
  | missingRequired
  | missingSubcommand
  /-- An option is given twice. -/
  | argumentConflict
  /-- A flag has a value. -/
  | tooManyValues
deriving DecidableEq, Repr

namespace Arguments

/-- The options. -/
inductive OptionName where
  | config
  | state
  | kind
  | desired
  | observed
  | maxPasses
  | output
deriving DecidableEq, Repr

namespace OptionName

/-- The long name of an option. -/
def long : OptionName → String
  | .config => "config"
  | .state => "state"
  | .kind => "kind"
  | .desired => "desired"
  | .observed => "observed"
  | .maxPasses => "max-passes"
  | .output => "output"

/-- The short name of an option. -/
def short? : OptionName → Option Char
  | .config => some 'c'
  | .state => some 's'
  | .kind => some 'k'
  | .desired => some 'd'
  | .observed => some 'o'
  | .maxPasses => some 'm'
  | .output => none

end OptionName

/-- The words for kinds. -/
def kindOf? (word : String) : Option TreeKind :=
  TreeKind.all.find? fun kind => kind.toText = word

/-- The number of sixty-four bits that a word is: digits, maybe after a plus sign. -/
def countOf? (word : String) : Option UInt64 :=
  let ds := match word.toList with
    | '+' :: rest => rest
    | cs => cs
  if ds.isEmpty || !ds.all Char.isDigit then none
  else
    let n := ds.foldl (fun n c => 10 * n + (c.toNat - 48)) 0
    if n < UInt64.size then some (UInt64.ofNat n) else none

/-- Refuses a value that an option cannot have. -/
def check (name : OptionName) (word : String) : Except UsageError Unit :=
  match name with
  | .kind => if (kindOf? word).isSome then .ok () else .error .invalidValue
  | .maxPasses => if (countOf? word).isSome then .ok () else .error .valueValidation
  | _ => if word.isEmpty then .error .invalidValue else .ok ()

/-- What a command line was found to hold so far: options with values that were checked, and the
option that came last, with its value if there was one. -/
structure Found where
  values : List (OptionName × String) := []
  latest : Option (OptionName × Option String) := none

namespace Found

/-- The value of an option. -/
def get? (f : Found) (name : OptionName) : Option String :=
  f.values.lookup name

/-- Takes an option with its value in: it must have one, must not have been given before, and the
value has to be one that it can have. -/
def accept (f : Found) (name : OptionName) (word : Option String) : Except UsageError Found := do
  let some word := word | .error .invalidValue
  if (f.get? name).isSome then .error .argumentConflict
  check name word
  return { values := f.values ++ [(name, word)] }

/-- Takes the option that came last in. -/
def settle (f : Found) : Except UsageError Found :=
  match f.latest with
  | none => .ok f
  | some (name, word) => { f with latest := none }.accept name word

/-- Whether the option that came last still waits for its value. -/
def isWaiting (f : Found) : Bool :=
  match f.latest with
  | some (_, none) => true
  | _ => false

/-- The option that came last gets its value. -/
def give (f : Found) (word : String) : Found :=
  { f with latest := f.latest.map fun l => (l.1, some word) }

/-- A new option comes, with a value that is attached to it or without. -/
def start (f : Found) (name : OptionName) (attached : Option String)
    : Except UsageError Found := do
  let f ← f.settle
  match attached with
  | some word => f.accept name word
  | none => return { f with latest := some (name, none) }

end Found

/-- What the names on a command line may stand for: options, and what its subcommands are. -/
structure Grammar where
  options : List OptionName
  subcommands : List String := []
  hasVersion : Bool := false

/-- A long option after its dashes. -/
def Grammar.long (g : Grammar) (f : Found) (word : String) : Except UsageError Found :=
  let name := String.ofList (word.toList.takeWhile (· ≠ '='))
  let attached := match word.toList.dropWhile (· ≠ '=') with
    | [] => none
    | _ :: rest => some (String.ofList rest)
  match g.options.find? fun o => o.long = name with
  | some o => f.start o attached
  | none =>
      let flag? : Option UsageError :=
        if name = "help" then some .displayHelp
        else if name = "version" && g.hasVersion then some .displayVersion
        else none
      match flag? with
      | none => .error .unknownArgument
      | some e =>
          if attached.isSome then .error .tooManyValues
          else do
            let _ ← f.settle
            .error e

/-- Short options after their dash. -/
def Grammar.short (g : Grammar) (f : Found) : List Char → Except UsageError Found
  | [] => .ok f
  | c :: rest =>
      match g.options.find? fun o => o.short? = some c with
      | some o =>
          match rest with
          | [] => f.start o none
          | '=' :: value => f.start o (some (String.ofList value))
          | value => f.start o (some (String.ofList value))
      | none =>
          if c = 'h' then do
            let _ ← f.settle
            .error .displayHelp
          else if c = 'V' && g.hasVersion then do
            let _ ← f.settle
            .error .displayVersion
          else .error .unknownArgument

/-- The error of a word that is neither an option nor a value. -/
def Grammar.stray (g : Grammar) (word : String) (afterDashes : Bool) : UsageError :=
  if g.subcommands.isEmpty || (afterDashes && g.subcommands.contains word) then .unknownArgument
  else .invalidSubcommand

/-- Reads arguments up to a subcommand: what they hold, and the subcommand with what follows it.
After two dashes no word is an option. -/
def Grammar.scan (g : Grammar) (f : Found)
    : List String → Except UsageError (Found × Option (String × List String))
  | [] => .ok (f, none)
  | word :: rest =>
      if !f.isWaiting && g.subcommands.contains word then .ok (f, some (word, rest))
      else
        match word.toList with
        | ['-', '-'] =>
            match rest with
            | [] => .ok (f, none)
            | stray :: _ => .error (g.stray stray true)
        | '-' :: '-' :: long => do g.scan (← g.long f (String.ofList long)) rest
        | '-' :: c :: short => do g.scan (← g.short f (c :: short)) rest
        | _ =>
            if f.isWaiting then g.scan (f.give word) rest
            else .error (g.stray word false)

/-- The word that asks for help. -/
def helpWord : String :=
  "help"

/-- The names of the commands. -/
def commandWords : List String :=
  ["tree", "diff", "run"]

/-- What may stand before the command. -/
def outer : Grammar where
  options := [.config]
  subcommands := commandWords ++ [helpWord]
  hasVersion := true

/-- The options of a command, of which some have to be there. -/
def optionsOf (command : String) : List OptionName × List OptionName :=
  if command = "tree" then ([.state], [.kind])
  else if command = "diff" then ([.desired, .observed], [.kind])
  else ([.desired], [.observed, .maxPasses, .output])

/-- Help on a command, which has to be one. -/
def help : List String → UsageError
  | [] => .displayHelp
  | word :: rest =>
      if outer.subcommands.contains word && rest.isEmpty then .displayHelp else .invalidSubcommand

/-- The command of options that were found. -/
def build (command : String) (f : Found) : Command :=
  let path (name : OptionName) : String := (f.get? name).getD ""
  let kind : TreeKind := ((f.get? .kind).bind kindOf?).getD .config
  if command = "tree" then .tree (path .state) kind
  else if command = "diff" then .diff (path .desired) (path .observed) kind
  else
    .run
      { desired := path .desired
        observed := f.get? .observed
        maxPasses := (f.get? .maxPasses).bind countOf?
        output := f.get? .output }

/-- Reads the arguments of a command: the command, and a configuration file if one is named. -/
def readCommand (command : String) (arguments : List String)
    : Except UsageError (Command × Option String) := do
  let (required, optional) := optionsOf command
  let g : Grammar := { options := required ++ optional ++ [.config] }
  let (f, _) ← g.scan {} arguments
  let f ← f.settle
  if required.all fun name => (f.get? name).isSome then
    return (build command f, f.get? .config)
  else .error .missingRequired

end Arguments

/-- Reads a command line: the command, and the path of the configuration file if one is named,
which may be done before the command or after it. -/
def Command.ofArguments (arguments : List String)
    : Except UsageError (Command × Option String) := do
  let (f, found) ← Arguments.outer.scan {} arguments
  match found with
  | some (word, rest) =>
      if word = Arguments.helpWord then .error (Arguments.help rest)
      else
        let (command, config) ← Arguments.readCommand word rest
        let f ← f.settle
        return (command, config <|> f.get? .config)
  | none =>
      let f ← f.settle
      if f.values.isEmpty then .error .nothingAsked else .error .missingSubcommand

end Concord
