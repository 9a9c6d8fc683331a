import HtmlQuery.Proofs.Tree.WellFormed

/-! The trees a program can build, from the tree that holds only the root. -/
namespace HtmlQuery

/-- One call of the tree's interface that can change the tree. -/
inductive Edit where
  | createElement (tag : String) (attrs : List (String × AttrValue))
  | createText (text : String)
  | createComment (content : String)
  | createDeclaration (content : String)
  | appendChild (parent child : NodeId)
  | setAttribute (id : NodeId) (name : String) (value : AttrValue)
  | removeAttribute (id : NodeId) (name : String)
  | parseFragment (cfg : Html.Config) (parent : NodeId) (html : String)

namespace Edit

def apply : Edit → Tree → Tree
  | .createElement tag attrs, t => (t.alloc (.element (.withAttributes tag (Attrs.ofList attrs)))).1
  | .createText text, t => (t.alloc (.text text)).1
  | .createComment content, t => (t.alloc (.comment content)).1
  | .createDeclaration content, t => (t.alloc (.declaration content)).1
  | .appendChild parent child, t =>
    match t.appendChild parent child with
    | .ok t' => t'
    | .error _ => t
  | .setAttribute id name value, t =>
    match t.setAttribute id name value with
    | .ok t' => t'
    | .error _ => t
  | .removeAttribute id name, t =>
    match t.removeAttribute id name with
    | .ok (_,t') => t'
    | .error _ => t
  | .parseFragment cfg parent html, t => (Html.buildInto cfg t parent html).1

def run : List Edit → Tree → Tree
  | [], t => t
  | e :: es, t => run es (e.apply t)

end Edit

namespace Tree
namespace WellFormed

variable {t : Tree} (h : WellFormed t)
include h

theorem attach (d : Html.Draft) (hd : d.tree = t) (p : NodeId) (x : NodeData) :
    WellFormed (d.attach p x).1.tree := by
  subst hd
  rw [Html.Draft.attach_eq]
  split
  · next hf => exact (h.alloc x).link hf
  · exact h.alloc x

theorem buildInto (cfg : Html.Config) (p : NodeId) (html : String) :
    WellFormed (Html.buildInto cfg t p html).1 :=
  Html.build_preserves (fun d => WellFormed d.tree) (fun d _ _ hd _ => hd.attach d rfl _ _)
    (fun d _ _ _ hd => by rwa [Html.Draft.report_tree]) cfg p 0 0 html.toList { tree := t } h

theorem removeAttribute {id : NodeId} {name : String} {v : Option AttrValue} {t' : Tree}
    (hr : t.removeAttribute id name = .ok (v,t')) : WellFormed t' := by
  unfold Tree.removeAttribute at hr
  cases hu : t.updateElement id (·.removeAttr name) with
  | error e => rw [hu] at hr; cases hr
  | ok u =>
    rw [hu] at hr
    cases hr
    refine h.updateElement ?_ hu
    intro e
    rfl

theorem apply (e : Edit) : WellFormed (e.apply t) := by
  cases e with
  | createElement tag attrs => exact h.alloc _
  | createText text => exact h.alloc _
  | createComment content => exact h.alloc _
  | createDeclaration content => exact h.alloc _
  | appendChild parent child =>
    simp only [Edit.apply]
    split
    · next t' ht' => exact h.appendChild ht'
    · exact h
  | setAttribute id name value =>
    simp only [Edit.apply]
    split
    · next t' ht' =>
      unfold Tree.setAttribute at ht'
      refine h.updateElement ?_ ht'
      intro e
      rfl
    · exact h
  | removeAttribute id name =>
    simp only [Edit.apply]
    split
    · next v t' ht' => exact h.removeAttribute ht'
    · exact h
  | parseFragment cfg parent html => exact h.buildInto cfg parent html

end WellFormed
end Tree

namespace Edit

theorem run_wellFormed (es : List Edit) {t : Tree} (h : t.WellFormed) : (run es t).WellFormed := by
  induction es generalizing t with
  | nil => exact h
  | cons e es ih => exact ih (h.apply e)

/-- After any edits from the empty tree the arena is a tree. -/
theorem run_empty_isTree (es : List Edit) :
    let t := run es Tree.empty
    t.WellFormed ∧ (∀ n, ¬ t.Ancestor n n) ∧ (∀ n a, a ∈ t.ancestors n ↔ t.Ancestor a n) ∧
      ∀ n, t.Below NodeId.root n → n = NodeId.root ∨ t.Ancestor NodeId.root n := by
  intro t
  have h : t.WellFormed := run_wellFormed es Tree.wellFormed_empty
  exact ⟨h,h.acyclic,fun _ _ => h.mem_ancestors_iff,fun _ hn => h.ancestor_root_of_below hn⟩

end Edit
end HtmlQuery
