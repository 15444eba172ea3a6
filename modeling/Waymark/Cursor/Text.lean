import Waymark.Cursor.Basic

/-!
# Cursors in words

The text that shows a cursor: each kind by name, with its position or with the cursor under it.
-/

namespace Waymark

/-- The name of a record with the texts of its fields, in order. -/
def recordText (name : String) (fields : List (String × String)) : String :=
  name ++ " \x7b " ++ ", ".intercalate (fields.map fun f => f.1 ++ ": " ++ f.2) ++ " \x7d"

def ByteStream.text (s : ByteStream) : String :=
  let current := match s.peek with
    | some b => s!"Some({b})"
    | none => "None"
  recordText "ByteStreamCursor"
    [("current", current), ("position", toString s.position), ("failed", toString s.failure.isSome)]

def Cursor.text {α : Type} : Cursor α → String
  | slice (.shared _ xs) p => s!"SliceCursor({p}/{xs.length})"
  | slice (.stored _ n) p => s!"SliceMutCursor({p}/{n})"
  | repeated _ _ p => s!"RepeatCursor({p})"
  | iota _ x => recordText "Iota" [("value", toString x)]
  | stream s => s.text
  | counted b r => recordText "CountedCursor" [("base", b.text), ("remaining", toString r)]
  | moving b => recordText "MoveCursor" [("base", b.text)]
  | forwardOnly b => recordText "ForwardOnly" [("inner", b.text)]

end Waymark
