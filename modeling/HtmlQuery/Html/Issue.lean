/-! Malformed markup that the tree builder recovers from, with where it stands in the input. -/
namespace HtmlQuery
namespace Html

/-- The kinds of malformed markup. -/
inductive IssueKind where
  | strayEndTag
  | unterminatedElement
  | unterminatedComment
  | emptyTagName
  | depthLimit
deriving DecidableEq, Repr, Inhabited

def IssueKind.text : IssueKind → String
  | .strayEndTag => "stray end tag"
  | .unterminatedElement => "unterminated element"
  | .unterminatedComment => "unterminated comment"
  | .emptyTagName => "empty tag name"
  | .depthLimit => "nesting too deep"

/-- One recovery: its kind, the offending markup, and the byte offset where that markup starts. -/
structure Issue where
  kind : IssueKind
  markup : String
  offset : Nat
deriving DecidableEq, Repr, Inhabited

/-- The first line of a text: up to the first line feed, without a carriage return before it. -/
def firstLine (s : List Char) : List Char :=
  let line := s.takeWhile (· != '\n')
  if line.length < s.length && line.getLast? == some '\r' then line.dropLast else line

/-- The first line of a text, cut to 40 characters and an ellipsis when it is longer. -/
def abbreviate (s : String) : String :=
  let line := firstLine s.toList
  if line.length > 40 then String.ofList (line.take 40) ++ "…" else String.ofList line

def Issue.message (i : Issue) : String :=
  i.kind.text ++ " `" ++ abbreviate i.markup ++ "`"

end Html
end HtmlQuery
