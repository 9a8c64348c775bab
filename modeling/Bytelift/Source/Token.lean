import Bytelift.Text

/-!
# Tokens of a source line

A line is a sequence of tokens between blanks, tabs and commas, up to a `#`, which starts a comment. A
token that starts with a double quote runs to the next quote without a backslash in front; every other
token runs to the next blank, tab, comma or `#`.
-/

namespace Bytelift.Source

open Text (byte)

/-- Whether a byte only stands between tokens. -/
def isSeparator (b : UInt8) : Bool := b == byte ' ' || b == byte '\t' || b == byte ','

/-- Whether a byte ends a plain token. -/
def endsWord (b : UInt8) : Bool := isSeparator b || b == byte '#'

/-- Where the tokenizer stands; a token being read is held backwards. -/
inductive LexState
  | between
  | word (rev : Text)
  | quoted (rev : Text)
  /-- Behind a backslash in a quoted token. -/
  | escaped (rev : Text)
  deriving DecidableEq, Repr

/-- Reads the tokens of the rest of a line; `none` if a quoted token does not end. -/
def tokensFrom : LexState → Text → List Text → Option (List Text)
  | .between, [], acc => some acc.reverse
  | .word rev, [], acc => some (rev.reverse :: acc).reverse
  | .quoted _, [], _ | .escaped _, [], _ => none
  | .between, b :: t, acc =>
    if b = byte '#' then some acc.reverse
    else if isSeparator b then tokensFrom .between t acc
    else if b = byte '"' then tokensFrom (.quoted [b]) t acc
    else tokensFrom (.word [b]) t acc
  | .word rev, b :: t, acc =>
    if b = byte '#' then some (rev.reverse :: acc).reverse
    else if isSeparator b then tokensFrom .between t (rev.reverse :: acc)
    else tokensFrom (.word (b :: rev)) t acc
  | .quoted rev, b :: t, acc =>
    if b = byte '"' then tokensFrom .between t ((b :: rev).reverse :: acc)
    else if b = byte '\\' then tokensFrom (.escaped (b :: rev)) t acc
    else tokensFrom (.quoted (b :: rev)) t acc
  | .escaped rev, b :: t, acc => tokensFrom (.quoted (b :: rev)) t acc

def tokenize (line : Text) : Option (List Text) := tokensFrom .between line []

end Bytelift.Source
