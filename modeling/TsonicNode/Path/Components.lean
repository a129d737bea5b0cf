import TsonicNode.Lib.Segments

/-!
# Components of a path

What both dialects call a component. A path is the list of its bytes, as the
source reads it.
-/

namespace TsonicNode.Path

open TsonicNode.Lib

abbrev Bytes := List UInt8

def dot : Bytes := [46]

def dotDot : Bytes := [46, 46]

/-- Empty, or a dot. -/
def isIdle (value : Bytes) : Bool := value == [] || value == dot

theorem isIdle_dotDot : isIdle dotDot = false := by decide

end TsonicNode.Path
