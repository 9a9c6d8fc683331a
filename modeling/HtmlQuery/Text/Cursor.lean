import HtmlQuery.Text.Scan

/-! A cursor over a text: the characters already read and the rest. -/
namespace HtmlQuery

/-- A text split into the characters read so far and the rest. -/
structure Cursor where
  consumed : List Char
  rest : List Char
deriving Inhabited, Repr

namespace Cursor
open Scan

def ofString (s : String) : Cursor := ⟨[], s.toList⟩

def source (c : Cursor) : List Char := c.consumed ++ c.rest

def position (c : Cursor) : Nat := byteSize c.consumed

def isEof (c : Cursor) : Bool := c.rest.isEmpty

def peek? (c : Cursor) : Option Char := c.rest.head?

def peekMatches (c : Cursor) (lit : String) : Bool := lit.toList.isPrefixOf c.rest

/-- Moves over the part of a split of the rest. -/
def advance (c : Cursor) (r : List Char × List Char) : String × Cursor :=
  (String.ofList r.1, ⟨c.consumed ++ r.1, r.2⟩)

def readChar (c : Cursor) : Option Char × Cursor :=
  match c.rest with
  | [] => (none, c)
  | x :: xs => (some x, ⟨c.consumed ++ [x], xs⟩)

/-- Moves to byte offset `n`, clamped to the end and rounded forward to a character boundary. -/
def seek (c : Cursor) (n : Nat) : Cursor :=
  let r := splitAtByte n c.source
  ⟨r.1, r.2⟩

/-- Reads up to the first occurrence of `lit` outside quoted runs, and over it when `inclusive`. -/
def readUntil (c : Cursor) (lit : String) (inclusive : Bool) : String × Cursor :=
  let r := breakOutsideQuotes lit.toList none c.rest
  c.advance (if inclusive then takeLiteral lit.toList r else r)

/-- Reads up to the first occurrence of `lit`, and over it when `inclusive`; quotes mean nothing. -/
def readUntilLiteral (c : Cursor) (lit : String) (inclusive : Bool) : String × Cursor :=
  let r := breakAt lit.toList c.rest
  c.advance (if inclusive then takeLiteral lit.toList r else r)

def readUntilAnyOf (c : Cursor) (set : List Char) : String × Cursor :=
  c.advance (breakAtAny set c.rest)

def skipWhile (c : Cursor) (set : List Char) : Cursor :=
  (c.advance (spanOf set c.rest)).2

/-- Reads the content of the element named `tag` up to the closing tag that balances it. -/
def readBalanced (c : Cursor) (tag : String) : String × Cursor :=
  match breakBalanced ('<' :: tag.toList) ('<' :: '/' :: tag.toList) 0 c.rest with
  | none => ("", c)
  | some r =>
    let inner := c.advance r
    (inner.1, (inner.2.readUntil ">" true).2)

end Cursor
end HtmlQuery
