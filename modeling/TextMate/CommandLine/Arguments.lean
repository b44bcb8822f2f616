import TextMate.Journal

/-!
# Command-line arguments

There are two commands: `generate [-o PATH] [--log LEVEL]` and `inspect [--log LEVEL]`. A third, `help`,
may be followed by the name of a command. Before a command, `--version` and `--help` are understood. Long
options take their value as the next argument or after an
equals sign; the short `-o` takes it as the next argument or right behind, with or without an equals
sign.

The next argument counts as a value unless it looks like an option, that is, starts with a dash and goes
on. A double dash ends the options, and since no command takes anything else, it ends the arguments.
-/

namespace TextMate.CommandLine

/-- What the user asks for. -/
inductive Command where
  /-- Write the document of the grammar to a path. -/
  | generate (output : Option String) (threshold : Option Severity)
  /-- Summarise the grammar. -/
  | inspect (threshold : Option Severity)
  | version
  | help
  deriving DecidableEq, Repr

/-- Why arguments are refused. -/
inductive UsageError where
  | missingCommand
  | unknownCommand (text : String)
  | unexpectedArgument (text : String)
  | unexpectedValue (option : String)
  | missingValue (option : String)
  | invalidValue (option value : String)
  | repeatedOption (option : String)
  deriving DecidableEq, Repr

/-- The wording of an error. -/
def UsageError.message : UsageError → String
  | .missingCommand => "a command is required"
  | .unknownCommand text => s!"unrecognized command '{text}'"
  | .unexpectedArgument text => s!"unexpected argument '{text}'"
  | .unexpectedValue option => s!"option '{option}' takes no value"
  | .missingValue option => s!"option '{option}' requires a value"
  | .invalidValue option value => s!"invalid value '{value}' for option '{option}'"
  | .repeatedOption option => s!"option '{option}' was given more than once"

/-! ### The form of an argument -/

/-- An argument by its form. -/
inductive Form where
  /-- A double dash. -/
  | separator
  /-- A name after two dashes, and what follows the first equals sign. -/
  | long (name : String) (value : Option String)
  /-- A character after one dash, and what follows it. -/
  | short (name : Char) (rest : List Char)
  /-- Anything else, a single dash included. -/
  | plain
  deriving DecidableEq, Repr

/-- What stands before and after the first equals sign, if there is one. -/
def splitAtEquals (cs : List Char) : String × Option String :=
  let name := String.ofList (cs.takeWhile (· != '='))
  match cs.dropWhile (· != '=') with
  | [] => (name, none)
  | _ :: value => (name, some (String.ofList value))

/-- The form of an argument. -/
def Form.of (argument : String) : Form :=
  match argument.toList with
  | ['-', '-'] => .separator
  | '-' :: '-' :: cs => let (name, value) := splitAtEquals cs; .long name value
  | '-' :: c :: rest => .short c rest
  | _ => .plain

/-- The value written right behind a short option, if any. One equals sign before it is dropped. -/
def attachedValue : List Char → Option String
  | [] => none
  | '=' :: value => some (String.ofList value)
  | value => some (String.ofList value)

/-! ### Options -/

/-- The options of commands. -/
inductive Key where
  | output
  | log
  deriving DecidableEq, Repr

/-- The name of an option, for messages. -/
def Key.name : Key → String
  | .output => "--output"
  | .log => "--log"

/-- The option with a long name, among those allowed. -/
def Key.ofLong? (allowed : List Key) (name : String) : Option Key :=
  allowed.find? (·.name == "--" ++ name)

/-- The option with a short name, among those allowed. -/
def Key.ofShort? (allowed : List Key) (name : Char) : Option Key :=
  if name = 'o' then allowed.find? (· == .output) else none

/-- The threshold for journal records that a level stands for. -/
def threshold? : String → Option (Option Severity)
  | "off" => some none
  | "error" => some (some .error)
  | "warn" => some (some .warn)
  | "info" => some (some .info)
  | "debug" => some (some .debug)
  | "trace" => some (some .trace)
  | _ => none

/-- The options given so far. -/
structure Options where
  output : Option String := none
  log : Option (Option Severity) := none
  deriving DecidableEq, Repr

/-- Give an option a value. Each option is given at most once, and a path is not empty. -/
def Options.set (options : Options) (key : Key) (value : String) : Except UsageError Options :=
  match key with
  | .output =>
    if options.output.isSome then
      .error (.repeatedOption key.name)
    else if value.isEmpty then
      .error (.invalidValue key.name value)
    else
      .ok { options with output := some value }
  | .log =>
    if options.log.isSome then
      .error (.repeatedOption key.name)
    else
      match threshold? value with
      | some threshold => .ok { options with log := some threshold }
      | none => .error (.invalidValue key.name value)

/-- The options of a command, or `none` if help is asked for. -/
def parseOptions (allowed : List Key) : Options → List String → Except UsageError (Option Options)
  | options, [] => .ok (some options)
  | options, argument :: rest =>
    let valueFrom (key : Key) (attached : Option String) :
        Except UsageError (Option Options) :=
      match attached with
      | some value => do parseOptions allowed (← options.set key value) rest
      | none =>
        match rest with
        | value :: rest =>
          if Form.of value = .plain then do
            parseOptions allowed (← options.set key value) rest
          else
            .error (.missingValue key.name)
        | [] => .error (.missingValue key.name)
    match Form.of argument with
    | .plain => .error (.unexpectedArgument argument)
    | .separator =>
      match rest with
      | [] => .ok (some options)
      | next :: _ => .error (.unexpectedArgument next)
    | .long name value =>
      match Key.ofLong? allowed name with
      | some key => valueFrom key value
      | none =>
        if name = "help" then
          if value.isSome then .error (.unexpectedValue argument) else .ok none
        else
          .error (.unexpectedArgument argument)
    | .short name cs =>
      match Key.ofShort? allowed name with
      | some key => valueFrom key (attachedValue cs)
      | none => if name = 'h' then .ok none else .error (.unexpectedArgument argument)

/-! ### Commands -/

/-- Help may be asked for in general or about one command. -/
def parseHelp : List String → Except UsageError Command
  | [] => .ok .help
  | name :: rest =>
    if name ∈ ["generate", "inspect", "help"] then
      match rest with
      | [] => .ok .help
      | next :: _ => .error (.unknownCommand next)
    else
      .error (.unknownCommand name)

/-- The command with its options. -/
def parseCommand (name : String) (arguments : List String) : Except UsageError Command :=
  match name with
  | "generate" => do
    match ← parseOptions [.output, .log] {} arguments with
    | some options => return .generate options.output (options.log.getD none)
    | none => return .help
  | "inspect" => do
    match ← parseOptions [.log] {} arguments with
    | some options => return .inspect (options.log.getD none)
    | none => return .help
  | "help" => parseHelp arguments
  | _ => .error (.unknownCommand name)

/-- What a list of arguments asks for. -/
def Command.parse : List String → Except UsageError Command
  | [] => .error .missingCommand
  | argument :: rest =>
    match Form.of argument with
    | .plain => parseCommand argument rest
    | .separator => .error .missingCommand
    | .long name value =>
      if name = "version" || name = "help" then
        if value.isSome then
          .error (.unexpectedValue argument)
        else
          .ok (if name = "version" then .version else .help)
      else
        .error (.unexpectedArgument argument)
    | .short name _ =>
      if name = 'V' then
        .ok .version
      else if name = 'h' then
        .ok .help
      else
        .error (.unexpectedArgument argument)

end TextMate.CommandLine
