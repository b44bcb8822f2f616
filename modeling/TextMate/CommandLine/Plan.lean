import TextMate.CommandLine.Arguments
import TextMate.CommandLine.FileTree
import TextMate.CommandLine.Style
import TextMate.Error
import TextMate.Lumen.Grammar

/-!
# What a command does

A command prints text, may try to write one file, and ends with an exit code. This module says so as
data: a `Plan` that the program carries out on a terminal and a disk, and that `Plan.runIn` carries out
on a `FileTree`.
-/

namespace TextMate.CommandLine

/-- What is left to do. -/
inductive Plan where
  /-- Print to standard output and standard error, and end with an exit code. -/
  | finish (code : UInt32) (out err : String)
  /-- Print to standard output and write a file; go on with the reason if that fails. -/
  | write (out path content : String) (next : (failure : Option String) → Plan)

/-- What a plan leaves behind. -/
structure Outcome where
  code : UInt32
  out : String
  err : String
  tree : FileTree
  deriving DecidableEq, Repr

/-- Carry out a plan on a tree of files. -/
def Plan.runIn : Plan → FileTree → Outcome
  | .finish code out err, tree => ⟨code, out, err, tree⟩
  | .write out path content next, tree =>
    let outcome := match tree.write path content with
      | .ok tree => (next none).runIn tree
      | .error e => (next (some e.message)).runIn tree
    { outcome with out := out ++ outcome.out }

/-! ### Text -/

/-- Lines of text, each with its end. -/
def unlines (lines : List String) : String :=
  String.join (lines.map (· ++ "\n"))

/-- The lines for the records that pass a threshold. -/
def journalText (threshold : Option Severity) (records : List Record) : String :=
  unlines ((records.filter (·.severity.passes threshold)).map Record.line)

/-- End with an error. -/
def fail (colors : Bool) (out reason : String) : Plan :=
  .finish 1 out (unlines [Style.redBold.paint colors "Error:" ++ " " ++ reason])

/-! ### Commands -/

/-- Build and compile the bundled grammar, and go on with the text of the journal. -/
def withLumen (colors : Bool) (threshold : Option Severity)
    (next : Grammar → Document → (journal : String) → Plan) : Plan :=
  let journal (events : Array Document.Event) : String :=
    journalText threshold (events.toList.map Document.Event.record)
  match (Lumen.grammar.run 0).1 with
  | .error e => fail colors "" (Error.invalidRule e).message
  | .ok grammar =>
    match grammar.compile with
    | .error failure => fail colors (journal failure.journal) (Error.compile failure.error).message
    | .ok document => next grammar document (journal document.journal)

/-- The report on a document that has been written. -/
def generatedText (colors : Bool) (grammar : Grammar) (path : String) : String :=
  unlines
    [Style.greenBold.paint colors "✓ Grammar generated",
     "  Name:       " ++ Style.cyan.paint colors grammar.name,
     "  Scope:      " ++ Style.cyan.paint colors grammar.scopeName,
     "  Patterns:   " ++ toString grammar.topLevel.length,
     "  Repository: " ++ toString grammar.repository.size,
     "  Output:     " ++ Style.yellow.paint colors path]

/-- Write the document to a path, or to standard output if the path is a dash. -/
def generate (colors : Bool) (output : Option String) (threshold : Option Severity) : Plan :=
  withLumen colors threshold fun grammar document journal =>
    let path := output.getD (grammar.name.toLower ++ ".tmLanguage.json")
    if path = "-" then
      .finish 0 (journal ++ unlines [document.text]) ""
    else
      let size := document.text.utf8ByteSize
      let writing : Record := ⟨.info, "scopegen", s!"writing {size} bytes to {path}"⟩
      .write (journal ++ journalText threshold [writing]) path document.text fun
        | none => .finish 0 (generatedText colors grammar path) ""
        | some reason => fail colors "" s!"cannot write {path}: {reason}"

/-- Summarise the grammar and its document. -/
def inspect (colors : Bool) (threshold : Option Severity) : Plan :=
  withLumen colors threshold fun grammar document journal =>
    let entries := grammar.repository.entries.toList.map fun entry =>
      "  #" ++ Style.green.paint colors entry.name ++ " " ++ entry.rule.describe
    let summary :=
      [Style.bold.paint colors "Grammar:",
       "  Name:      " ++ Style.cyan.paint colors grammar.name,
       "  Scope:     " ++ Style.cyan.paint colors grammar.scopeName,
       "  Top level: " ++ toString grammar.topLevel.length ++ " rules",
       "",
       Style.bold.paint colors "Repository:"]
      ++ (if entries.isEmpty then ["  (empty)"] else entries)
      ++ ["",
          Style.bold.paint colors "Document:" ++ " " ++ toString document.text.utf8ByteSize
            ++ " bytes"]
    .finish 0 (journal ++ unlines summary) ""

/-- How the program is used. -/
def helpText : String :=
  unlines
    ["TextMate grammars from typed pattern and rule trees",
     "",
     "Usage: scopegen <COMMAND>",
     "",
     "Commands:",
     "  generate [-o|--output PATH] [--log LEVEL]  Compile the bundled Lumen grammar, `-` for stdout",
     "  inspect [--log LEVEL]                      Summarize the bundled grammar",
     "  help                                       Print this message",
     "",
     "Options:",
     "  -h, --help     Print help",
     "  -V, --version  Print version"]

/-- What to do about a list of arguments. -/
def plan (colors : Bool) (arguments : List String) : Plan :=
  match Command.parse arguments with
  | .error e => .finish 2 "" (unlines ["error: " ++ e.message])
  | .ok .version => .finish 0 (unlines ["scopegen 0.1.0"]) ""
  | .ok .help => .finish 0 helpText ""
  | .ok (.generate output threshold) => generate colors output threshold
  | .ok (.inspect threshold) => inspect colors threshold

end TextMate.CommandLine
