import Texelwise.Text.Basic

/-!
# Tokens

A token is a piece of text with a kind. Tokens are lossless: the texts of a token list, put
together, are the text that was split, so a text can be changed token by token.

* `TokenKind.ofStart`: the kind is fixed by the first character and, for a point, the next one.
* `TokenKind.continues`: whether a character belongs to a token after the character before it.
* `Token.textOf`, `Token.locate`: the text of a token list and the byte range of each token.
-/

namespace Texelwise

/-- The four kinds of tokens. -/
inductive TokenKind where
  /-- A letter or underscore, then letters, digits and underscores. -/
  | ident
  /-- A numeric literal with its fraction, exponent and suffix. -/
  | number
  /-- A run of blanks. -/
  | space
  /-- Any other single character. -/
  | punct
  deriving DecidableEq, Repr

/-- Letters, digits and the underscore, all of them ASCII. -/
def isWordChar (c : Char) : Bool := c.isAlphanum || c = '_'

namespace TokenKind

/-- The kind of the token that starts with `c` and has `rest` after that character. -/
def ofStart (c : Char) (rest : Text) : TokenKind :=
  if Text.isBlank c then .space
  else if c.isAlpha || c = '_' then .ident
  else if c.isDigit || (c = '.' && rest.head?.any Char.isDigit) then .number
  else .punct

/-- Whether a token of this kind goes on with `c` after the character `before`. A sign belongs to
a number only directly after `e` or `E`. -/
def continues (before c : Char) : TokenKind → Bool
  | .ident => isWordChar c
  | .number => isWordChar c || c = '.' || ((c = '+' || c = '-') && (before = 'e' || before = 'E'))
  | .space => Text.isBlank c
  | .punct => false

end TokenKind

/-- A piece of text with its kind. -/
structure Token where
  kind : TokenKind
  text : Text
  deriving DecidableEq, Repr

namespace Token

/-- The text of a token list. -/
def textOf (ts : List Token) : Text := ts.flatMap Token.text

@[simp] theorem textOf_nil : textOf [] = [] := rfl

@[simp] theorem textOf_cons (t : Token) (ts : List Token) :
    textOf (t :: ts) = t.text ++ textOf ts := rfl

@[simp] theorem textOf_append (ss ts : List Token) :
    textOf (ss ++ ts) = textOf ss ++ textOf ts := by
  simp [textOf]

/-- A token with the byte range it takes in its text. -/
structure Located where
  token : Token
  start : Nat
  stop : Nat
  deriving DecidableEq, Repr

/-- The byte range of each token, for a list that starts at byte `start`. -/
def locate (start : Nat) : List Token → List Located
  | [] => []
  | t :: ts =>
    let stop := start + Text.byteLength t.text
    ⟨t, start, stop⟩ :: locate stop ts

end Token

end Texelwise
