import Texelwise.Text.Basic

/-!
# Line comments

A comment runs from `//` to the end of its line. Removing comments also settles line ends: a
line break is written as one `'\n'`, and a break at the very end of the text opens no line.

* `lines`: the lines of a text without their ends.
* `stripComments`: every line up to its first `//`.
-/

namespace Texelwise.Text

/-- Drops one carriage return at the end. -/
def dropReturn (t : Text) : Text :=
  if t.getLast? = some '\r' then t.dropLast else t

/-- The lines of a text. A line ends with `'\n'` or with `'\r'` and `'\n'`; the part after the
last `'\n'` is a line of its own unless it is empty, and keeps a carriage return. -/
def lines (t : Text) : List Text :=
  let parts := cut '\n' t
  let last := parts.getLast?.getD []
  parts.dropLast.map dropReturn ++ if last.isEmpty then [] else [last]

/-- The text before the first `//`. -/
def beforeComment : Text → Text
  | '/' :: '/' :: _ => []
  | c :: rest => c :: beforeComment rest
  | [] => []

/-- Removes the comment of every line. -/
def stripComments (t : Text) : Text :=
  ['\n'].intercalate ((lines t).map beforeComment)

end Texelwise.Text
