import HtmlQuery.Tree.Attrs
import HtmlQuery.Text.Blank

/-! A document tree kept in an arena, whose nodes refer to each other by index. -/
namespace HtmlQuery

/-- The index of a node in its tree. -/
structure NodeId where
  index : Nat
deriving DecidableEq, Repr, Inhabited

def NodeId.root : NodeId := ⟨0⟩

/-- How error messages write an index. -/
def NodeId.describe (id : NodeId) : String := "NodeId(" ++ toString id.index ++ ")"

/-- The text of the `id` attribute, when it has one. -/
def Attrs.idText (a : Attrs) : Option String :=
  match a.get? "id" with
  | some (.text v) => some v
  | _ => none

/-- The white-space separated words of the text of the `class` attribute, when it has one. -/
def Attrs.classWords (a : Attrs) : List String :=
  match a.get? "class" with
  | some (.text v) => (Blank.words v.toList).map String.ofList
  | _ => []

/-- An element as it is kept, with its id and class list cached. -/
structure ElementData where
  tag : String
  attrs : Attrs := Attrs.empty
  id : Option String
  classList : List String
deriving DecidableEq, Repr

namespace ElementData

def refresh (d : ElementData) : ElementData :=
  { d with id := d.attrs.idText, classList := d.attrs.classWords }

def withAttributes (tag : String) (attrs : Attrs) : ElementData :=
  refresh { tag, attrs, id := none, classList := [] }

def setAttribute (d : ElementData) (name : String) (v : AttrValue) : ElementData :=
  refresh { d with attrs := d.attrs.insert name v }

/-- Removes an attribute and gives its old value. -/
def removeAttribute (d : ElementData) (name : String) : Option AttrValue × ElementData :=
  (d.attrs.get? name, refresh { d with attrs := d.attrs.erase name })

/-- The cache agrees with the attributes. -/
def Fresh (d : ElementData) : Prop := d.id = d.attrs.idText ∧ d.classList = d.attrs.classWords

theorem fresh_refresh (d : ElementData) : d.refresh.Fresh := ⟨rfl, rfl⟩

end ElementData

/-- An element whose cache agrees with its attributes. -/
structure Element extends ElementData where
  id := attrs.idText
  classList := attrs.classWords
  fresh : toElementData.Fresh := by exact ⟨rfl, rfl⟩
deriving Repr

instance : DecidableEq Element := fun a b =>
  decidable_of_iff (a.toElementData = b.toElementData) (by cases a; cases b; simp)

instance : Inhabited Element := ⟨{ tag := "" }⟩

namespace Element

/-- The element of a tag and its attributes, with its cache computed from them. -/
def withAttributes (tag : String) (attrs : Attrs) : Element :=
  ⟨ElementData.withAttributes tag attrs, ElementData.fresh_refresh _⟩

@[simp] theorem withAttributes_tag (tag : String) (attrs : Attrs) :
    (withAttributes tag attrs).tag = tag := rfl

@[simp] theorem withAttributes_attrs (tag : String) (attrs : Attrs) :
    (withAttributes tag attrs).attrs = attrs := rfl

@[simp] theorem withAttributes_tag_attrs (e : Element) : withAttributes e.tag e.attrs = e := by
  obtain ⟨⟨tag, attrs, id, classList⟩, ⟨hid, hcl⟩⟩ := e
  dsimp only at hid hcl
  subst hid hcl
  rfl

def id? (e : Element) : Option String := e.id

def classes (e : Element) : List String := e.classList

def hasClass (e : Element) (name : String) : Bool := e.classList.contains name

def setAttr (e : Element) (name : String) (v : AttrValue) : Element :=
  ⟨e.toElementData.setAttribute name v, ElementData.fresh_refresh _⟩

def removeAttr (e : Element) (name : String) : Element :=
  ⟨(e.toElementData.removeAttribute name).2, ElementData.fresh_refresh _⟩

end Element

/-- What a node holds. A comment is written `<!--…-->`, a declaration `<!…>`. -/
inductive NodeData where
  | element (e : Element)
  | text (content : String)
  | comment (content : String)
  | declaration (content : String)
deriving DecidableEq, Repr, Inhabited

/-- The node name: an element's tag, `#text`, or `#declaration` for comments and declarations. -/
def NodeData.name : NodeData → String
  | .element e => e.tag
  | .text _ => "#text"
  | .comment _ | .declaration _ => "#declaration"

/-- A node with its links. -/
structure Node where
  data : NodeData
  parent : Option NodeId := none
  children : Array NodeId := #[]
deriving Repr, Inhabited

/-- Why attaching or changing a node fails. -/
inductive TreeError where
  | unknownNode (id : NodeId)
  | notAnElement (id : NodeId)
  | isRoot
  | alreadyAttached (id : NodeId)
  | cycle (parent child : NodeId)
deriving DecidableEq, Repr

def TreeError.message : TreeError → String
  | .unknownNode id => "node " ++ id.describe ++ " does not exist in this tree"
  | .notAnElement id => "node " ++ id.describe ++ " is not an element and cannot have children"
  | .isRoot => "the document root cannot be appended to another node"
  | .alreadyAttached id => "node " ++ id.describe ++ " already has a parent"
  | .cycle parent child => "appending " ++ child.describe ++ " to " ++ parent.describe ++
      " would create a cycle"

/-- An arena of nodes; index 0 is the root. -/
structure Tree where
  nodes : Array Node
deriving Repr, Inhabited

namespace Tree

def empty : Tree := ⟨#[{ data := .element { tag := ":root" } }]⟩

/-- The number of nodes, attached or not. -/
def size (t : Tree) : Nat := t.nodes.size

def get? (t : Tree) (id : NodeId) : Option Node := t.nodes[id.index]?

def contains (t : Tree) (id : NodeId) : Bool := id.index < t.size

def data? (t : Tree) (id : NodeId) : Option NodeData := (t.get? id).map (·.data)

def element? (t : Tree) (id : NodeId) : Option Element :=
  match t.data? id with
  | some (.element e) => some e
  | _ => none

def isElement (t : Tree) (id : NodeId) : Bool := (t.element? id).isSome

def parent? (t : Tree) (id : NodeId) : Option NodeId := (t.get? id).bind (·.parent)

def children (t : Tree) (id : NodeId) : List NodeId :=
  match t.get? id with
  | some n => n.children.toList
  | none => []

/-- Adds a detached node at the next index. -/
def alloc (t : Tree) (d : NodeData) : Tree × NodeId :=
  let id : NodeId := ⟨t.size⟩
  (⟨t.nodes.push { data := d }⟩, id)

/-- The parent, its parent, and so on, for at most `fuel` steps. -/
def ancestorsUpTo (t : Tree) : Nat → NodeId → List NodeId
  | 0, _ => []
  | fuel + 1, id =>
    match t.parent? id with
    | none => []
    | some p => p :: t.ancestorsUpTo fuel p

/-- The parent, its parent, and so on up to a node without a parent. -/
def ancestors (t : Tree) (id : NodeId) : List NodeId := t.ancestorsUpTo t.size id

def isDescendantOf (t : Tree) (id ancestor : NodeId) : Bool := (t.ancestors id).contains ancestor

/-- Why `child` cannot be attached under `parent`, in the order checked. -/
def appendFailure? (t : Tree) (parent child : NodeId) : Option TreeError :=
  match t.data? parent with
  | none => some (.unknownNode parent)
  | some (.element _) =>
    match t.get? child with
    | none => some (.unknownNode child)
    | some c =>
      if child = NodeId.root then some .isRoot
      else if c.parent.isSome then some (.alreadyAttached child)
      else if child = parent || t.isDescendantOf parent child then some (.cycle parent child)
      else none
  | some _ => some (.notAnElement parent)

/-- Attaches `child` under `parent` without checking anything. -/
def link (t : Tree) (parent child : NodeId) : Tree :=
  ⟨(t.nodes.modify parent.index fun n => { n with children := n.children.push child }).modify
    child.index fun n => { n with parent := some parent }⟩

/-- Attaches `child` at the end of the children of `parent`, or says why it cannot. -/
def appendChild (t : Tree) (parent child : NodeId) : Except TreeError Tree :=
  match t.appendFailure? parent child with
  | some e => .error e
  | none => .ok (t.link parent child)

def updateElement (t : Tree) (id : NodeId) (f : Element → Element) : Except TreeError Tree :=
  match t.data? id with
  | none => .error (.unknownNode id)
  | some (.element _) =>
    .ok ⟨t.nodes.modify id.index fun n =>
      match n.data with
      | .element e => { n with data := .element (f e) }
      | _ => n⟩
  | some _ => .error (.notAnElement id)

def setAttribute (t : Tree) (id : NodeId) (name : String) (v : AttrValue) : Except TreeError Tree :=
  t.updateElement id (·.setAttr name v)

def removeAttribute (t : Tree) (id : NodeId) (name : String) :
    Except TreeError (Option AttrValue × Tree) :=
  (t.updateElement id (·.removeAttr name)).map fun t' =>
    ((t.element? id).bind (·.attrs.get? name), t')

end Tree
end HtmlQuery
