import Texelwise.Pattern.Basic

/-!
# Patterns in print

A pattern is written in the manner of a regular expression: literals with every mark escaped, one
fixed form for each class of tokens, and parentheses around captures.
-/

namespace Texelwise

/-- Writes a literal with a backslash before every character that is no letter, digit or
underscore. -/
def Text.escape : Text → Text
  | [] => []
  | c :: rest => if isWordChar c then c :: escape rest else '\\' :: c :: escape rest

/-- The printed form of an atom. -/
def Atom.display : Atom → Text
  | .literal text => text.escape
  | .alphanumeric => "\\w+".toList
  | .numeric => "[0-9]+".toList
  | .codeBlock => "[\\w\\s\\+\\-\\*\\/%\\(\\),:;]+".toList
  | .spaceOptional => "\\s*".toList
  | .spaceMandated => "\\s+".toList

/-- The printed form of a pattern. -/
def Pattern.display : Pattern → Text
  | .nil => []
  | .atom a p => a.display ++ p.display
  | .capture inner p => '(' :: inner.display ++ ')' :: p.display

end Texelwise
