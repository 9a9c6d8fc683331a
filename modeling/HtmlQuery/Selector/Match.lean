import HtmlQuery.Selector.Chain
import HtmlQuery.Tree.Walk

/-! Matching a selector against an element of a tree, greedily from the chain's head. -/
namespace HtmlQuery
namespace Selector

def Link.accepts (l : Link) (e : Element) : Bool := l.conditions.all (·.holds e)

/-- The first of `candidates` whose element passes `link`. -/
def firstAccepting (t : Tree) (link : Link) : List NodeId → Option NodeId
  | [] => none
  | m :: ms =>
    match t.element? m with
    | none => none
    | some e => if link.accepts e then some m else firstAccepting t link ms

/-- Whether the chain with links `links`, head first, matches at `n`. -/
def matchLinks (t : Tree) : List Link → NodeId → Bool → Bool
  | [], _, _ => true
  | link :: before, n, climb =>
    match firstAccepting t link (if climb then n :: t.ancestors n else [n]) with
    | none => false
    | some m =>
      match before with
      | [] => true
      | _ :: _ =>
        match link.combinator with
        | .descendant =>
          match t.parent? m with
          | some p => matchLinks t before p true
          | none => false
        | .child =>
          match t.parent? m with
          | some p => matchLinks t before p false
          | none => false
        | .nextSibling =>
          match t.previousElementSibling? m with
          | some s => matchLinks t before s false
          | none => false
        | .subsequentSibling => (t.previousElementSiblings m).any fun s => matchLinks t before s false

def Chain.selects (c : Chain) (t : Tree) (n : NodeId) : Bool := matchLinks t c.links n false

end Selector

namespace SelectorList
open Selector

def selects (l : SelectorList) (t : Tree) (n : NodeId) : Bool := l.chains.any (·.selects t n)

/-- The elements of the subtree at `scope` that the list matches, in document order. -/
def queryAll (l : SelectorList) (t : Tree) (scope : NodeId) : List NodeId :=
  (t.iterElements scope).filter (l.selects t)

def queryFirst (l : SelectorList) (t : Tree) (scope : NodeId) : Option NodeId :=
  (t.iterElements scope).find? (l.selects t)

end SelectorList
end HtmlQuery
