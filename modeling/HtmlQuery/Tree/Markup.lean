import HtmlQuery.Tree.Tags
import HtmlQuery.Tree.Basic

/-! Writing a tree back as markup. -/
namespace HtmlQuery
namespace Markup

/-- An attribute value in quotes. -/
def quote (v : String) : String :=
  if !v.toList.contains '\x22' then "\"" ++ v ++ "\""
  else if !v.toList.contains '\x27' then "\x27" ++ v ++ "\x27"
  else "\"" ++ String.ofList (v.toList.flatMap fun c => if c = '\x22' then "&quot;".toList else [c]) ++
    "\""

def openTag (e : Element) : String :=
  "<" ++ e.tag ++ String.join (e.attrs.entries.map fun (name, v) =>
    " " ++ name ++ match v with
      | .text s => "=" ++ quote s
      | .flag => "") ++ ">"

end Markup

namespace Tree

/-- The markup of the node `id`, going at most `fuel` levels down. -/
def markupUpTo (t : Tree) : Nat → NodeId → String
  | 0, _ => ""
  | fuel + 1, id =>
    match t.get? id with
    | none => ""
    | some n =>
      let inner := String.join (n.children.toList.map (t.markupUpTo fuel))
      match n.data with
      | .element e =>
        if id = NodeId.root then inner
        else if Tags.isVoid e.tag && n.children.isEmpty then Markup.openTag e
        else Markup.openTag e ++ inner ++ "</" ++ e.tag ++ ">"
      | .text s => s
      | .comment s => "<!--" ++ s ++ "-->"
      | .declaration s => "<!" ++ s ++ ">"

/-- The markup of a node and its subtree; empty for an unknown node. -/
def outerHtml (t : Tree) (id : NodeId) : String := t.markupUpTo t.size id

def innerHtml (t : Tree) (id : NodeId) : String :=
  String.join ((t.children id).map (t.markupUpTo t.size))

/-- The texts of the subtree at `id`, in document order, going at most `fuel` levels down. -/
def textsUpTo (t : Tree) : Nat → NodeId → List String
  | 0, _ => []
  | fuel + 1, id =>
    match t.data? id with
    | some (.text s) => [s]
    | some (.element _) => (t.children id).flatMap (t.textsUpTo fuel)
    | _ => []

def innerText (t : Tree) (id : NodeId) : String := "\n".intercalate (t.textsUpTo t.size id)

end Tree
end HtmlQuery
