import LenientR.Problem
import LenientR.Report.Styled

/-!
# Messages

A headline with its severity, and under it a body and a hint where there are any.
-/

namespace LenientR.Report

inductive Severity
  | error
  | warning
deriving DecidableEq

structure Message where
  severity : Severity
  title : String
  body : String
  hint : Option String

namespace Message

def error (title : String) : Message := ⟨.error, title, "", none⟩

def warning (title : String) : Message := ⟨.warning, title, "", none⟩

def ofProblem (problem : Problem) : Message :=
  ⟨.error, problem.title, problem.message, problem.hint⟩

def headline : Severity → Segment
  | .error => ⟨[.red, .bold], "✕ Error"⟩
  | .warning => ⟨[.yellow, .bold], "⚠ Warning"⟩

def styled (message : Message) : Styled :=
  [headline message.severity, ⟨[.bold], ":"⟩, plainText " ", ⟨[.bold], message.title⟩,
    plainText "\n"] ++
  (if message.body.isEmpty then [] else [plainText (message.body ++ "\n")]) ++
  match message.hint with
  | none => []
  | some hint => [⟨[.cyan, .italic], "hint:"⟩, plainText (" " ++ hint ++ "\n")]

end Message

end LenientR.Report
