import TsonicNode.Lib.Effect

/-!
# Text and errors of the runtime

A `Text` is a string as its characters. `Error` is what a raising function
raises, `TsError` the error value handed to callbacks and `error` listeners.
`error_new` wraps a message.
-/

namespace TsonicNode

abbrev Text := List Char

/-- A raised error. -/
structure Error where
  message : String
  deriving DecidableEq, Repr

/-- An error value of the source language. -/
structure TsError where
  message : String
  deriving DecidableEq, Repr

def errorNew (message : String) : TsError := ⟨message⟩

end TsonicNode
