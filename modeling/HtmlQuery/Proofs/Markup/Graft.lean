import HtmlQuery.Proofs.Markup.Doc
import HtmlQuery.Proofs.Tree.Reachable

/-! Grafting a plain forest under a node, in document order, as the builder makes its nodes. -/
namespace HtmlQuery

namespace Doc

mutual
def count : Doc → Nat
  | .element _ _ cs => countAll cs + 1
  | _ => 1

def countAll : List Doc → Nat
  | [] => 0
  | d :: ds => count d + countAll ds
end

end Doc

namespace Tree

/-- Makes a node and links it as the last child of `p`. -/
def attachNew (t : Tree) (p : NodeId) (x : NodeData) : Tree := (t.alloc x).1.link p ⟨t.size⟩

mutual
/-- Makes the nodes of a plain tree in document order under `p`. -/
def graft (t : Tree) (p : NodeId) : Doc → Tree
  | .element tag attrs cs => (t.attachNew p (.element (.withAttributes tag attrs))).graftAll ⟨t.size⟩ cs
  | .text s => t.attachNew p (.text s)
  | .comment s => t.attachNew p (.comment s)
  | .declaration s => t.attachNew p (.declaration s)

def graftAll (t : Tree) (p : NodeId) : List Doc → Tree
  | [] => t
  | d :: ds => (t.graft p d).graftAll p ds
end

section AttachNew

variable (t : Tree) (p : NodeId) (x : NodeData)

@[simp] theorem size_attachNew : (t.attachNew p x).size = t.size + 1 := by
  simp [attachNew]

theorem get?_attachNew {m : NodeId} (hm : m ≠ p) (hlt : m.index < t.size) :
    (t.attachNew p x).get? m = t.get? m := by
  have hne : m ≠ ⟨t.size⟩ := fun h => by subst h; exact Nat.lt_irrefl _ hlt
  rw [attachNew,get?_link,get?_alloc,if_neg (by omega)]
  cases t.get? m <;> simp [hm,hne]

theorem data?_attachNew_parent (hp : p.index < t.size) : (t.attachNew p x).data? p = t.data? p := by
  rw [attachNew,data?_link,data?_alloc_of_lt _ _ _ hp]

theorem children_attachNew_parent (hp : p.index < t.size) :
    (t.attachNew p x).children p = t.children p ++ [⟨t.size⟩] := by
  rw [attachNew,children_link _ _ _ _ (by simp; omega),if_pos rfl,children_alloc]

theorem data?_attachNew_new : (t.attachNew p x).data? ⟨t.size⟩ = some x := by
  rw [attachNew,data?_link,data?_alloc,if_pos rfl]

theorem children_attachNew_new (hp : p.index < t.size) :
    (t.attachNew p x).children ⟨t.size⟩ = [] := by
  have hne : (⟨t.size⟩ : NodeId) ≠ p := fun h => by subst h; simp at hp
  rw [attachNew,children_link _ _ _ _ (by simp; omega),if_neg hne,children_alloc]
  exact children_of_size_le (Nat.le_refl _)

end AttachNew

/-- `u` agrees with `t` on the nodes from index `a` up to the end of `t`. -/
def AgreeFrom (u t : Tree) (a : Nat) : Prop :=
  ∀ m, a ≤ m.index → m.index < t.size → u.get? m = t.get? m

namespace AgreeFrom

variable {u t : Tree} {a : Nat} (h : AgreeFrom u t a)
include h

theorem mono {b : Nat} (hab : a ≤ b) : AgreeFrom u t b := fun m hb hm => h m (by omega) hm

theorem data? (m : NodeId) (ha : a ≤ m.index) (hm : m.index < t.size) : u.data? m = t.data? m := by
  simp [Tree.data?,h m ha hm]

theorem children (m : NodeId) (ha : a ≤ m.index) (hm : m.index < t.size) :
    u.children m = t.children m := by
  simp [Tree.children,h m ha hm]

end AgreeFrom

theorem Doc.countAll_append (fs gs : List Doc) :
    Doc.countAll (fs ++ gs) = Doc.countAll fs + Doc.countAll gs := by
  induction fs with
  | nil => simp [Doc.countAll]
  | cons f fs ih => simp [Doc.countAll,ih]; omega

/-- `u` is `t` with the forest `fs` grafted under `p` at the new nodes `ids`. -/
structure Grafts (t : Tree) (p : NodeId) (u : Tree) (ids : List NodeId) (fs : List Doc) : Prop where
  size_eq : u.size = t.size + Doc.countAll fs
  get?_eq : ∀ m, m ≠ p → m.index < t.size → u.get? m = t.get? m
  data?_eq : u.data? p = t.data? p
  children_eq : u.children p = t.children p ++ ids
  view : ∀ v, AgreeFrom v u t.size → ∀ k, Doc.countAll fs ≤ k → ids.mapM (v.viewUpTo k) = some fs

namespace Grafts

theorem nil (t : Tree) (p : NodeId) : Grafts t p t [] [] :=
  ⟨rfl,fun _ _ _ => rfl,rfl,by simp,fun _ _ _ _ => rfl⟩

theorem countAll_leaf {x : NodeData} (hx : ∀ e, x ≠ .element e) :
    Doc.countAll [Doc.ofData x []] = 1 := by
  cases x <;> simp_all [Doc.ofData,Doc.countAll,Doc.count]

theorem leaf (t : Tree) {p : NodeId} (hp : p.index < t.size) (x : NodeData)
    (hx : ∀ e, x ≠ .element e) : Grafts t p (t.attachNew p x) [⟨t.size⟩] [Doc.ofData x []] where
  size_eq := by rw [countAll_leaf hx,size_attachNew]
  get?_eq _ hm hlt := get?_attachNew t p x hm hlt
  data?_eq := data?_attachNew_parent t p x hp
  children_eq := children_attachNew_parent t p x hp
  view v hv k hk := by
    obtain ⟨k,rfl⟩ : ∃ k', k = k' + 1 := ⟨k - 1,by rw [countAll_leaf hx] at hk; omega⟩
    have hn : (⟨t.size⟩ : NodeId).index < (t.attachNew p x).size := by simp
    have hdata : v.data? ⟨t.size⟩ = some x :=
      (hv.data? ⟨t.size⟩ (Nat.le_refl _) hn).trans (data?_attachNew_new t p x)
    have hch : (v.children ⟨t.size⟩).mapM (v.viewUpTo k) = some [] := by
      rw [hv.children ⟨t.size⟩ (Nat.le_refl _) hn,children_attachNew_new t p x hp]
      rfl
    simp [viewUpTo_succ_of_data? hdata hch]

theorem element (t : Tree) {p : NodeId} (hp : p.index < t.size) (tag : String) (attrs : Attrs)
    {u : Tree} {ids : List NodeId} {cs : List Doc}
    (h : Grafts (t.attachNew p (.element (.withAttributes tag attrs))) ⟨t.size⟩ u ids cs) :
    Grafts t p u [⟨t.size⟩] [.element tag attrs cs] := by
  have hpn : p ≠ ⟨t.size⟩ := fun he => by subst he; simp at hp
  have hplt : p.index < (t.attachNew p (.element (.withAttributes tag attrs))).size := by simp; omega
  refine ⟨?_,fun m hm hlt => ?_,?_,?_,fun v hv k hk => ?_⟩
  · rw [h.size_eq]
    simp [Doc.countAll,Doc.count]
    omega
  · have hmn : m ≠ ⟨t.size⟩ := fun he => by subst he; simp at hlt
    rw [h.get?_eq m hmn (by simp; omega),get?_attachNew t p _ hm hlt]
  · rw [Tree.data?,h.get?_eq p hpn hplt,← Tree.data?,data?_attachNew_parent t p _ hp]
  · rw [Tree.children,h.get?_eq p hpn hplt,← Tree.children,children_attachNew_parent t p _ hp]
  · have hcount : Doc.countAll [Doc.element tag attrs cs] = Doc.countAll cs + 1 := by
      simp [Doc.countAll,Doc.count]
    obtain ⟨k,rfl⟩ : ∃ k', k = k' + 1 := ⟨k - 1,by omega⟩
    have hn : (⟨t.size⟩ : NodeId).index < u.size := by
      rw [h.size_eq,size_attachNew]
      show t.size < _
      omega
    have hdata : v.data? ⟨t.size⟩ = some (.element (.withAttributes tag attrs)) :=
      (hv.data? ⟨t.size⟩ (Nat.le_refl _) hn).trans (h.data?_eq.trans (data?_attachNew_new t p _))
    have hch : v.children ⟨t.size⟩ = ids := by
      rw [hv.children ⟨t.size⟩ (Nat.le_refl _) hn,h.children_eq,children_attachNew_new t p _ hp]
      rfl
    have hcs : ids.mapM (v.viewUpTo k) = some cs :=
      h.view v (hv.mono (by simp)) k (by omega)
    have hview := viewUpTo_succ_of_data? hdata (hch ▸ hcs)
    simp [hview,Doc.ofData]

theorem append {t u₁ u : Tree} {p : NodeId} {ids₁ ids₂ : List NodeId} {fs₁ fs₂ : List Doc}
    (h₁ : Grafts t p u₁ ids₁ fs₁) (h₂ : Grafts u₁ p u ids₂ fs₂) (hp : p.index < t.size) :
    Grafts t p u (ids₁ ++ ids₂) (fs₁ ++ fs₂) := by
  refine ⟨?_,fun m hm hlt => ?_,h₂.data?_eq.trans h₁.data?_eq,?_,fun v hv k hk => ?_⟩
  · rw [h₂.size_eq,h₁.size_eq,Doc.countAll_append]
    omega
  · exact (h₂.get?_eq m hm (by rw [h₁.size_eq]; omega)).trans (h₁.get?_eq m hm hlt)
  · rw [h₂.children_eq,h₁.children_eq,List.append_assoc]
  · have hv₁ : AgreeFrom v u₁ t.size := fun m ha hm =>
      (hv m ha (by rw [h₂.size_eq]; omega)).trans
        (h₂.get?_eq m (fun he => by subst he; omega) hm)
    have hv₂ : AgreeFrom v u u₁.size := hv.mono (by rw [h₁.size_eq]; omega)
    rw [Doc.countAll_append] at hk
    rw [List.mapM_append,h₁.view v hv₁ k (by omega),h₂.view v hv₂ k (by omega)]
    rfl

end Grafts

mutual
theorem graft_grafts : ∀ (d : Doc) (t : Tree) (p : NodeId), p.index < t.size →
    Grafts t p (t.graft p d) [⟨t.size⟩] [d]
  | .element tag attrs cs, t, p, hp => by
    obtain ⟨ids,h⟩ := graftAll_grafts cs (t.attachNew p (.element (.withAttributes tag attrs))) ⟨t.size⟩ (by simp)
    exact Grafts.element t hp tag attrs h
  | .text s, t, p, hp => Grafts.leaf t hp (.text s) fun _ h => by cases h
  | .comment s, t, p, hp => Grafts.leaf t hp (.comment s) fun _ h => by cases h
  | .declaration s, t, p, hp => Grafts.leaf t hp (.declaration s) fun _ h => by cases h

theorem graftAll_grafts : ∀ (ds : List Doc) (t : Tree) (p : NodeId), p.index < t.size →
    ∃ ids, Grafts t p (t.graftAll p ds) ids ds
  | [], t, p, _ => ⟨[],Grafts.nil t p⟩
  | d :: ds, t, p, hp => by
    have h₁ := graft_grafts d t p hp
    obtain ⟨ids,h₂⟩ := graftAll_grafts ds (t.graft p d) p (by rw [h₁.size_eq]; omega)
    exact ⟨_,h₁.append h₂ hp⟩
end

theorem appendFailure?_alloc {t : Tree} (h : t.WellFormed) {p : NodeId}
    (hp : t.isElement p = true) (x : NodeData) : (t.alloc x).1.appendFailure? p ⟨t.size⟩ = none := by
  obtain ⟨e,he⟩ := isElement_iff.mp hp
  have hplt : p.index < t.size := lt_size_of_data? (element?_eq_some.mp he)
  have hdata : (t.alloc x).1.data? p = some (.element e) := by
    rw [data?_alloc_of_lt _ _ _ hplt]
    exact element?_eq_some.mp he
  have hget : (t.alloc x).1.get? ⟨t.size⟩ = some { data := x } := by rw [get?_alloc,if_pos rfl]
  have hroot : (⟨t.size⟩ : NodeId) ≠ NodeId.root := fun he => by
    have := h.size_pos
    rw [← NodeId.index_inj] at he
    simp [NodeId.root] at he
    omega
  have hne : (⟨t.size⟩ : NodeId) ≠ p := fun he => by subst he; simp at hplt
  -- the fresh node has no descendants, so it is no ancestor of `p`
  have hdesc : (t.alloc x).1.isDescendantOf p ⟨t.size⟩ = false := by
    cases hd : (t.alloc x).1.isDescendantOf p ⟨t.size⟩ with
    | false => rfl
    | true =>
      have ha := (h.alloc x).isDescendantOf_iff.mp hd
      have := (ha.of_parent?_eq fun m => (parent?_alloc t x m).symm).lt_size fun _ _ => h.parent_lt
      simp at this
  unfold appendFailure?
  simp [hdata,hget,hroot,hne,hdesc]

theorem isElement_graft {t : Tree} {p : NodeId} (hp : t.isElement p = true) (d : Doc) :
    (t.graft p d).isElement p = true := by
  obtain ⟨e,he⟩ := isElement_iff.mp hp
  have hplt : p.index < t.size := lt_size_of_data? (element?_eq_some.mp he)
  simp [isElement,element?,(graft_grafts d t p hplt).data?_eq,element?_eq_some.mp he]

theorem WellFormed.attachNew {t : Tree} (h : t.WellFormed) {p : NodeId} (hp : t.isElement p = true)
    (x : NodeData) : (t.attachNew p x).WellFormed :=
  (h.alloc x).link (appendFailure?_alloc h hp x)

mutual
theorem WellFormed.graft : ∀ (d : Doc) {t : Tree} {p : NodeId}, t.WellFormed →
    t.isElement p = true → (t.graft p d).WellFormed
  | .element tag attrs cs, t, p, h, hp => by
    have hn : (t.attachNew p (.element (.withAttributes tag attrs))).isElement ⟨t.size⟩ = true := by
      simp [isElement,element?,data?_attachNew_new]
    exact WellFormed.graftAll cs (h.attachNew hp _) hn
  | .text _, _, _, h, hp => h.attachNew hp _
  | .comment _, _, _, h, hp => h.attachNew hp _
  | .declaration _, _, _, h, hp => h.attachNew hp _

theorem WellFormed.graftAll : ∀ (ds : List Doc) {t : Tree} {p : NodeId}, t.WellFormed →
    t.isElement p = true → (t.graftAll p ds).WellFormed
  | [], _, _, h, _ => h
  | d :: ds, _, _, h, hp => WellFormed.graftAll ds (WellFormed.graft d h hp) (isElement_graft hp d)
end

end Tree

theorem Html.Draft.attach_eq_attachNew {d : Html.Draft} (h : d.tree.WellFormed) {p : NodeId}
    (hp : d.tree.isElement p = true) (x : NodeData) :
    d.attach p x = (⟨d.tree.attachNew p x,d.issues⟩,some ⟨d.tree.size⟩) := by
  rw [Html.Draft.attach_eq,Tree.appendFailure?_alloc h hp x]
  rfl

end HtmlQuery
