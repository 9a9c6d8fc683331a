import HtmlQuery.Tree.Markup
import HtmlQuery.Proofs.Tree.WellFormed

/-! A node's subtree as a plain tree, and the markup the tree writes for it. -/
namespace HtmlQuery

/-- A node and its subtree as markup describes them. -/
inductive Doc where
  | element (tag : String) (attrs : Attrs) (children : List Doc)
  | text (s : String)
  | comment (s : String)
  | declaration (s : String)
deriving Repr

namespace Doc

/-- The plain tree of a node's data over the plain trees of its children. -/
def ofData : NodeData → List Doc → Doc
  | .element e, cs => .element e.tag e.attrs cs
  | .text s, _ => .text s
  | .comment s, _ => .comment s
  | .declaration s, _ => .declaration s

mutual
/-- The markup of a plain tree, written as the tree writes a node other than the root. -/
def markup : Doc → String
  | .element tag attrs cs =>
    if Tags.isVoid tag && cs.isEmpty then Markup.openTag (.withAttributes tag attrs)
    else Markup.openTag (.withAttributes tag attrs) ++ markupAll cs ++ "</" ++ tag ++ ">"
  | .text s => s
  | .comment s => "<!--" ++ s ++ "-->"
  | .declaration s => "<!" ++ s ++ ">"

def markupAll : List Doc → String
  | [] => ""
  | d :: ds => markup d ++ markupAll ds
end

mutual
def attrsList : Doc → List Attrs
  | .element _ attrs cs => attrs :: attrsListAll cs
  | _ => []

def attrsListAll : List Doc → List Attrs
  | [] => []
  | d :: ds => attrsList d ++ attrsListAll ds
end

end Doc

namespace Tree

/-- The subtree at `id` as a plain tree, read at most `fuel` levels down. -/
def viewUpTo (t : Tree) : Nat → NodeId → Option Doc
  | 0, _ => none
  | fuel + 1, id =>
    match t.get? id with
    | none => none
    | some n => (n.children.toList.mapM (t.viewUpTo fuel)).map (Doc.ofData n.data)

def view (t : Tree) (id : NodeId) : Option Doc := t.viewUpTo t.size id

theorem mapM_cons_eq_some {f : NodeId → Option Doc} {x : NodeId} {xs : List NodeId}
    {ds : List Doc} :
    (x :: xs).mapM f = some ds ↔ ∃ d ds', f x = some d ∧ xs.mapM f = some ds' ∧ ds = d :: ds' := by
  simp only [List.mapM_cons,Option.pure_def,Option.bind_eq_bind,Option.bind_eq_some_iff,
    Option.some.injEq]
  constructor
  · rintro ⟨d,hd,ds',hds',rfl⟩
    exact ⟨d,ds',hd,hds',rfl⟩
  · rintro ⟨d,ds',hd,hds',rfl⟩
    exact ⟨d,hd,ds',hds',rfl⟩

theorem isEmpty_of_mapM {f : NodeId → Option Doc} {xs : List NodeId} {ds : List Doc}
    (h : xs.mapM f = some ds) : ds.isEmpty = xs.isEmpty := by
  cases xs with
  | nil =>
    cases h
    rfl
  | cons x xs =>
    obtain ⟨d,ds',-,-,rfl⟩ := mapM_cons_eq_some.mp h
    rfl

theorem viewUpTo_succ {t : Tree} {k : Nat} {id : NodeId} {d : Doc}
    (h : t.viewUpTo (k + 1) id = some d) :
    ∃ n ds, t.get? id = some n ∧ n.children.toList.mapM (t.viewUpTo k) = some ds ∧
      d = Doc.ofData n.data ds := by
  simp only [viewUpTo] at h
  split at h
  · cases h
  · next n hn =>
    obtain ⟨ds,hds,rfl⟩ := Option.map_eq_some_iff.mp h
    exact ⟨n,ds,hn,hds,rfl⟩

theorem viewUpTo_succ_of_data? {t : Tree} {k : Nat} {id : NodeId} {x : NodeData} {ds : List Doc}
    (hx : t.data? id = some x) (hds : (t.children id).mapM (t.viewUpTo k) = some ds) :
    t.viewUpTo (k + 1) id = some (Doc.ofData x ds) := by
  obtain ⟨n,hn⟩ : ∃ n, t.get? id = some n := by
    cases h : t.get? id with
    | none => simp [data?,h] at hx
    | some n => exact ⟨n,rfl⟩
  have hdata : n.data = x := by simpa [data?,hn] using hx
  have hch : t.children id = n.children.toList := by simp [children,hn]
  simp only [viewUpTo,hn]
  rw [← hch,hds,hdata]
  rfl

section Markup

variable {t : Tree} (hroot : ∀ m, NodeId.root ∉ t.children m)
include hroot

theorem join_markupUpTo (k : Nat)
    (ih : ∀ id d, id ≠ NodeId.root → t.viewUpTo k id = some d → t.markupUpTo k id = d.markup) :
    ∀ (m : NodeId) (ids : List NodeId) (ds : List Doc), (∀ x ∈ ids, x ∈ t.children m) →
      ids.mapM (t.viewUpTo k) = some ds →
      String.join (ids.map (t.markupUpTo k)) = Doc.markupAll ds := by
  intro m ids
  induction ids with
  | nil =>
    intro ds _ h
    cases h
    rfl
  | cons x xs ihx =>
    intro ds hmem h
    obtain ⟨d,ds',hd,hds',rfl⟩ := mapM_cons_eq_some.mp h
    have hx : x ≠ NodeId.root := fun he => hroot m (he ▸ hmem x List.mem_cons_self)
    rw [List.map_cons,String.join_cons,ih x d hx hd,
      ihx ds' (fun y hy => hmem y (List.mem_cons_of_mem _ hy)) hds']
    rfl

theorem markupUpTo_of_viewUpTo (k : Nat) :
    ∀ id d, id ≠ NodeId.root → t.viewUpTo k id = some d → t.markupUpTo k id = d.markup := by
  induction k with
  | zero => intro id d _ h; cases h
  | succ k ih =>
    intro id d hid h
    obtain ⟨n,ds,hn,hds,rfl⟩ := viewUpTo_succ h
    have hch : ∀ x ∈ n.children.toList, x ∈ t.children id := by simp [children,hn]
    have hjoin := join_markupUpTo hroot k ih id _ ds hch hds
    have hlen : ds.isEmpty = n.children.isEmpty := by
      rw [isEmpty_of_mapM hds,Array.isEmpty_toList]
    simp only [markupUpTo,hn]
    cases hdata : n.data with
    | element e => simp [Doc.ofData,Doc.markup,hid,hjoin,hlen]
    | text s => rfl
    | comment s => rfl
    | declaration s => rfl

theorem markupUpTo_root {k : Nat} {tag : String} {attrs : Attrs} {cs : List Doc}
    (h : t.viewUpTo k NodeId.root = some (.element tag attrs cs)) :
    t.markupUpTo k NodeId.root = Doc.markupAll cs := by
  cases k with
  | zero => cases h
  | succ k =>
    obtain ⟨n,ds,hn,hds,hd⟩ := viewUpTo_succ h
    have hch : ∀ x ∈ n.children.toList, x ∈ t.children NodeId.root := by simp [children,hn]
    have hjoin := join_markupUpTo hroot k (markupUpTo_of_viewUpTo hroot k) _ _ ds hch hds
    simp only [markupUpTo,hn]
    cases hdata : n.data with
    | element e =>
      rw [hdata] at hd
      simp only [Doc.ofData,Doc.element.injEq] at hd
      simp [hd.2.2,hjoin]
    | text s => rw [hdata] at hd; cases hd
    | comment s => rw [hdata] at hd; cases hd
    | declaration s => rw [hdata] at hd; cases hd

end Markup

/-! ## The view reads every node -/

theorem isSome_mapM {f : NodeId → Option Doc} :
    ∀ {l : List NodeId}, (∀ x ∈ l, (f x).isSome) → (l.mapM f).isSome
  | [], _ => rfl
  | x :: xs, h => by
    obtain ⟨d,hd⟩ := Option.isSome_iff_exists.mp (h x List.mem_cons_self)
    obtain ⟨ds,hds⟩ := Option.isSome_iff_exists.mp
      (isSome_mapM fun y hy => h y (List.mem_cons_of_mem _ hy))
    simp [List.mapM_cons,hd,hds]

namespace WellFormed

variable {t : Tree} (h : t.WellFormed)
include h

theorem root_not_mem_children (m : NodeId) : NodeId.root ∉ t.children m := by
  rw [h.mem_children_iff,h.root_parent]
  simp

theorem viewUpTo_isSome : ∀ (k : Nat) (n : NodeId), n.index < t.size →
    t.size ≤ k + (t.ancestors n).length → (t.viewUpTo k n).isSome := by
  intro k
  induction k with
  | zero =>
    intro n hn hk
    have := h.length_ancestors_lt hn
    omega
  | succ k ih =>
    intro n hn hk
    cases hnode : t.get? n with
    | none => exact absurd (get?_eq_none_iff.mp hnode) (by omega)
    | some node =>
      have hch : ∀ c ∈ node.children.toList, (t.viewUpTo k c).isSome := fun c hc => by
        have hmem : c ∈ t.children n := by simp [children,hnode,hc]
        exact ih c (h.lt_size_of_mem n c hmem) (by rw [h.length_ancestors_child hmem]; omega)
      simp only [viewUpTo,hnode,Option.isSome_map]
      exact isSome_mapM hch

theorem view_isSome {n : NodeId} (hn : n.index < t.size) : (t.view n).isSome :=
  h.viewUpTo_isSome t.size n hn (Nat.le_add_right _ _)

end WellFormed

end Tree
end HtmlQuery
