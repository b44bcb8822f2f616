/-!
# Journal records

A record says what a program is doing, how much that matters, and which part of the program says so. A
reader sets a threshold and sees the records that matter at least as much.
-/

namespace TextMate

/-- How much a record matters, the most pressing first. -/
inductive Severity where
  | error
  | warn
  | info
  | debug
  | trace
  deriving DecidableEq, Repr

namespace Severity

/-- The name of a severity in a line of a journal. -/
def label : Severity → String
  | .error => "ERROR"
  | .warn => "WARN"
  | .info => "INFO"
  | .debug => "DEBUG"
  | .trace => "TRACE"

/-- The position in the list of severities. -/
def rank : Severity → Nat
  | .error => 1
  | .warn => 2
  | .info => 3
  | .debug => 4
  | .trace => 5

/-- Whether records of this severity pass a threshold. Without a threshold none does. -/
def passes (severity : Severity) : (threshold : Option Severity) → Bool
  | none => false
  | some threshold => severity.rank ≤ threshold.rank

end Severity

/-- A line of a journal. -/
structure Record where
  severity : Severity
  /-- The part of the program that speaks. -/
  target : String
  message : String
  deriving DecidableEq, Repr

/-- The record as a line of text: the severity in five columns, the target in brackets, the message. -/
def Record.line (r : Record) : String :=
  let label := r.severity.label
  label.pushn ' ' (5 - label.length) ++ " [" ++ r.target ++ "] " ++ r.message

end TextMate
