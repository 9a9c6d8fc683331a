import HtmlQuery.Tree.Basic

/-! Walks over a tree: the elements of a subtree in document order, and element siblings. -/
namespace HtmlQuery
namespace Tree

def elementsUpTo (t : Tree) : Nat → NodeId → List NodeId
  | 0, _ => []
  | fuel + 1, id =>
    if t.isElement id then id :: (t.children id).flatMap (t.elementsUpTo fuel) else []

/-- The elements of the subtree at `id` in pre-order. -/
def elements (t : Tree) (id : NodeId) : List NodeId := t.elementsUpTo t.size id

/-- One step of the element iterator, whose next node is last on the stack. -/
def nextElement (t : Tree) (stack : List NodeId) : Option (NodeId × List NodeId) :=
  match stack.getLast? with
  | none => none
  | some id => some (id, stack.dropLast ++ ((t.children id).filter t.isElement).reverse)

/-- What the element iterator yields from `stack` in at most `fuel` steps. -/
def iterateElements (t : Tree) : Nat → List NodeId → List NodeId
  | 0, _ => []
  | fuel + 1, stack =>
    match t.nextElement stack with
    | none => []
    | some (id, stack') => id :: t.iterateElements fuel stack'

/-- The elements the iterator over the subtree at `id` yields. -/
def iterElements (t : Tree) (id : NodeId) : List NodeId :=
  t.iterateElements t.size (if t.isElement id then [id] else [])

/-- The element children of the parent of `id`. -/
def elementSiblings (t : Tree) (id : NodeId) (skipSelf : Bool) : List NodeId :=
  match t.parent? id with
  | none => []
  | some p => (t.children p).filter fun c => t.isElement c && !(skipSelf && c == id)

/-- The element siblings before `id`; all of them when `id` is not among them. -/
def previousElementSiblings (t : Tree) (id : NodeId) : List NodeId :=
  (t.elementSiblings id false).takeWhile (· != id)

/-- The element siblings after `id`; none when `id` is not among them. -/
def nextElementSiblings (t : Tree) (id : NodeId) : List NodeId :=
  match (t.elementSiblings id false).dropWhile (· != id) with
  | [] => []
  | _ :: after => after

/-- The nearest element before `id` among the children of its parent. -/
def previousElementSibling? (t : Tree) (id : NodeId) : Option NodeId := do
  let p ← t.parent? id
  let cs := t.children p
  if cs.contains id then (cs.takeWhile (· != id)).reverse.find? t.isElement else none

/-- The nearest element after `id` among the children of its parent. -/
def nextElementSibling? (t : Tree) (id : NodeId) : Option NodeId := do
  let p ← t.parent? id
  match (t.children p).dropWhile (· != id) with
  | [] => none
  | _ :: after => after.find? t.isElement

end Tree
end HtmlQuery
