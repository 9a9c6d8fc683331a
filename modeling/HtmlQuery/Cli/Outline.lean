import HtmlQuery.Cli.Style
import HtmlQuery.Tree.Basic

/-! The tree as the tool prints it: one line per node in document order, indented two spaces per
level, each piece in the style its palette gives it. -/
namespace HtmlQuery
namespace Cli
open Style

/-- A text with line feeds and spaces made visible. -/
def visibleText (s : String) : String :=
  String.ofList (s.toList.flatMap fun c => if c = '\n' then ['\\', 'n'] else if c = ' ' then ['·'] else [c])

/-- The styles of the pieces of a line. -/
structure Palette where
  tag : String → String
  attrName : String → String
  attrValue : String → String
  text : String → String
  comment : String → String
  declaration : String → String

def Palette.terminal : Palette where
  tag := cyan
  attrName := yellow
  attrValue := green
  text := dimmed
  comment := brightBlack
  declaration := magenta

/-- The line of a node, without indentation. -/
def nodeLine (p : Palette) : NodeData → String
  | .element e =>
    "<" ++ p.tag e.tag ++ String.join (e.attrs.entries.map fun (name, v) =>
      match v with
      | .text s => " " ++ p.attrName name ++ "=" ++ p.attrValue ("\"" ++ s ++ "\"")
      | .flag => " " ++ p.attrName name) ++ ">"
  | .text s => p.text ("\"" ++ visibleText s ++ "\"")
  | .comment s => p.comment ("<!--" ++ s ++ "-->")
  | .declaration s => p.declaration ("<!" ++ s ++ ">")

/-- The lines of the subtree at `id`, `depth` levels in, going at most `fuel` levels down. -/
def outlineUpTo (p : Palette) (t : Tree) : Nat → Nat → NodeId → String
  | 0, _, _ => ""
  | fuel + 1, depth, id =>
    match t.get? id with
    | none => ""
    | some n =>
      String.ofList (List.replicate (2 * depth) ' ') ++ nodeLine p n.data ++ "\n" ++
        String.join (n.children.toList.map (outlineUpTo p t fuel (depth + 1)))

def outline (p : Palette) (t : Tree) (id : NodeId) : String := outlineUpTo p t t.size 0 id

end Cli
end HtmlQuery
