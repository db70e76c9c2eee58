import Mathlib.Data.List.Basic

/-!
# `Diagnostics`: collected errors

A `Diagnostics` echoes every message to its stream, if it has one, and keeps the errors.
The printf-style members format first, and give up if that yields no text.
-/

namespace NPFoundation

inductive Behavior where
  | debug
  | info
  | warning
  | error
  deriving DecidableEq, Repr

structure Message where
  behavior : Behavior
  text : String
  deriving DecidableEq, Repr

structure Diagnostics where
  /-- What was written to the stream so far; `none` for a null stream. -/
  stream : Option String
  prefixText : String
  errors : List Message
  deriving DecidableEq, Repr

/-- A string as `%s` prints it: up to the first NUL. -/
def cString (text : String) : String := String.ofList (text.toList.takeWhile (· ≠ '\x00'))

namespace Diagnostics

variable (diag : Diagnostics)

/-- `Diagnostics{nullptr}`. -/
def quiet : Diagnostics := { stream := none, prefixText := "", errors := [] }

/-- What a message adds to the stream. -/
def line (message : Message) : String :=
  (if diag.prefixText = "" then "" else "[" ++ cString diag.prefixText ++ "] ")
    ++ cString message.text ++ "\n"

/-- `append(const Message &)`. -/
def append (message : Message) : Diagnostics :=
  { diag with
    stream := diag.stream.map fun out => out ++ diag.line message
    errors := if message.behavior = .error then diag.errors ++ [message] else diag.errors }

/-- `append(Behavior, const char *, va_list)`. The text is what formatting yields, `none` if it
fails. -/
def appendFormatted (behavior : Behavior) (text : Option String) : Diagnostics :=
  match text with
  | none => diag
  | some text => if text.isEmpty then diag else diag.append ⟨behavior, text⟩

def debug (text : String) : Diagnostics := diag.appendFormatted .debug (some text)

def info (text : String) : Diagnostics := diag.appendFormatted .info (some text)

def warning (text : String) : Diagnostics := diag.appendFormatted .warning (some text)

def error (text : String) : Diagnostics := diag.appendFormatted .error (some text)

def hasError : Bool := !diag.errors.isEmpty

def noError : Bool := diag.errors.isEmpty

def getErrors : List Message := diag.errors

def clearError : Diagnostics := { diag with errors := [] }

end Diagnostics

end NPFoundation
