import HtmlQuery.Selector.Match

/-! Which links a query looks at, and in what order. -/
namespace HtmlQuery
namespace Selector

/-- How many links, from the head, matching `links` at `n` looks at. -/
def consultDepth (t : Tree) : List Link → NodeId → Bool → Nat
  | [], _, _ => 0
  | link :: before, n, climb =>
    if !t.isElement n then 0
    else
      1 + match firstAccepting t link (if climb then n :: t.ancestors n else [n]) with
      | none => 0
      | some m =>
        match before with
        | [] => 0
        | _ :: _ =>
          match link.combinator with
          | .descendant =>
            match t.parent? m with
            | some p => consultDepth t before p true
            | none => 0
          | .child =>
            match t.parent? m with
            | some p => consultDepth t before p false
            | none => 0
          | .nextSibling =>
            match t.previousElementSibling? m with
            | some s => consultDepth t before s false
            | none => 0
          | .subsequentSibling =>
            ((t.previousElementSiblings m).foldl (fun (acc : Bool × Nat) s =>
              if acc.1 then acc
              else (matchLinks t before s false, max acc.2 (consultDepth t before s false)))
              (false, 0)).2

def consultAt (t : Tree) (n : NodeId) : List Chain → List Nat → List Link × List Nat × Bool
  | [], seen => ([], seen, false)
  | c :: cs, seen :: seens =>
    let depth := consultDepth t c.links n false
    let fresh := (c.links.drop seen).take (depth - seen)
    if c.selects t n then (fresh, max seen depth :: seens, true)
    else
      let r := consultAt t n cs seens
      (fresh ++ r.1, max seen depth :: r.2.1, r.2.2)
  | _ :: _, [] => ([], [], false)

end Selector

namespace SelectorList
open Selector

/-- The links that a query looks at, in the order it first looks at them. -/
def consultOrderFrom (l : SelectorList) (t : Tree) (firstOnly : Bool) :
    List NodeId → List Nat → List Link
  | [], _ => []
  | n :: ns, seen =>
    let r := consultAt t n l.chains seen
    if r.2.2 && firstOnly then r.1 else r.1 ++ l.consultOrderFrom t firstOnly ns r.2.1

def consultOrder (l : SelectorList) (t : Tree) (firstOnly : Bool) : List Link :=
  l.consultOrderFrom t firstOnly (t.iterElements NodeId.root) (l.chains.map fun _ => 0)

end SelectorList
end HtmlQuery
