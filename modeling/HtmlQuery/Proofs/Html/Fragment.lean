import HtmlQuery.Proofs.Markup.Graft
import HtmlQuery.Proofs.Tree.DocumentOrder

/-! Parsing markup into a node of a tree: under an element the result is a plain forest grafted under
it in pre-order; under any other old node every new node stays detached. -/
namespace HtmlQuery
namespace Html
open Scan

end Html

/-! ## Under an element: a grafted forest -/

namespace Tree

theorem graft_leaf (t : Tree) (p : NodeId) {x : NodeData} (hx : ∀ e, x ≠ .element e) :
    t.graft p (Doc.ofData x []) = t.attachNew p x := by
  cases x with
  | element e => exact absurd rfl (hx e)
  | text s => simp [Doc.ofData, graft]
  | comment s => simp [Doc.ofData, graft]
  | declaration s => simp [Doc.ofData, graft]

theorem graftAll_cons (t : Tree) (p : NodeId) (d : Doc) (ds : List Doc) :
    t.graftAll p (d :: ds) = (t.graft p d).graftAll p ds := by
  simp [graftAll]

end Tree

namespace Html.Builds

theorem graftAll {p : NodeId} {d d' : Draft} (h : Builds p d d') :
    d.tree.WellFormed → d.tree.isElement p = true → ∃ fs, d'.tree = d.tree.graftAll p fs := by
  induction h with
  | done => exact fun _ _ => ⟨[], by simp [Tree.graftAll]⟩
  | report k m o _ ih =>
    rw [Draft.report_tree] at ih
    exact ih
  | @leaf p d d' x hx _ ih =>
    intro hwf hp
    rw [Draft.attach_eq_attachNew hwf hp] at ih
    have hp' : (d.tree.attachNew p x).isElement p = true := by
      rw [← Tree.graft_leaf _ _ hx]
      exact Tree.isElement_graft hp _
    obtain ⟨fs, hfs⟩ := ih (hwf.attachNew hp x) hp'
    exact ⟨Doc.ofData x [] :: fs, by rw [hfs, Tree.graftAll_cons, Tree.graft_leaf _ _ hx]⟩
  | refused _ hatt _ _ =>
    intro hwf hp
    rw [Draft.attach_eq_attachNew hwf hp] at hatt
    simp at hatt
  | @element p node d d₁ d₂ d' e _ hatt _ _ ihin ihrest =>
    intro hwf hp
    rw [Draft.attach_eq_attachNew hwf hp] at hatt
    obtain ⟨rfl, hnode⟩ := Prod.mk.inj hatt
    obtain rfl := Option.some.inj hnode
    have hnew : (d.tree.attachNew p (.element e)).isElement ⟨d.tree.size⟩ = true := by
      simp [Tree.isElement, Tree.element?, Tree.data?_attachNew_new]
    obtain ⟨cs, hcs⟩ := ihin (hwf.attachNew hp _) hnew
    have hgraft : d₂.tree = d.tree.graft p (.element e.tag e.attrs cs) := by
      rw [hcs, Tree.graft, Element.withAttributes_tag_attrs]
    obtain ⟨fs, hfs⟩ := ihrest (hgraft ▸ Tree.WellFormed.graft _ hwf hp) (hgraft ▸ Tree.isElement_graft hp _)
    exact ⟨.element e.tag e.attrs cs :: fs, by rw [hfs, hgraft, Tree.graftAll_cons]⟩

end Html.Builds

/-! ## Under a node that is not an element: detached nodes -/

namespace Tree

/-- `u` is `t` with nodes added after its own, each detached and without children. -/
structure Detaches (t u : Tree) : Prop where
  size_le : t.size ≤ u.size
  get?_eq : ∀ m, m.index < t.size → u.get? m = t.get? m
  detached : ∀ m, t.size ≤ m.index → m.index < u.size → u.parent? m = none ∧ u.children m = []

namespace Detaches

theorem refl (t : Tree) : Detaches t t :=
  ⟨Nat.le_refl _, fun _ _ => rfl, fun _ h₁ h₂ => absurd h₂ (by omega)⟩

theorem alloc (t : Tree) (x : NodeData) : Detaches t (t.alloc x).1 where
  size_le := by simp
  get?_eq m hm := by rw [get?_alloc, if_neg (by omega)]
  detached m h₁ h₂ := by
    rw [parent?_alloc, children_alloc]
    exact ⟨parent?_of_size_le h₁, children_of_size_le h₁⟩

theorem trans {t₁ t₂ t₃ : Tree} (h₁ : Detaches t₁ t₂) (h₂ : Detaches t₂ t₃) : Detaches t₁ t₃ where
  size_le := Nat.le_trans h₁.size_le h₂.size_le
  get?_eq m hm := (h₂.get?_eq m (Nat.lt_of_lt_of_le hm h₁.size_le)).trans (h₁.get?_eq m hm)
  detached m ha hb := by
    by_cases hm : m.index < t₂.size
    · have hparent : t₃.parent? m = t₂.parent? m := by simp [parent?, h₂.get?_eq m hm]
      have hchildren : t₃.children m = t₂.children m := by simp [children, h₂.get?_eq m hm]
      rw [hparent, hchildren]
      exact h₁.detached m ha hm
    · exact h₂.detached m (by omega) hb

end Detaches

theorem isElement_alloc_of_lt (t : Tree) (x : NodeData) {m : NodeId} (hm : m.index < t.size) :
    (t.alloc x).1.isElement m = t.isElement m := by
  simp [isElement, element?, data?_alloc_of_lt _ _ _ hm]

end Tree

theorem Html.Draft.attach_of_not_isElement {d : Html.Draft} {p : NodeId} (hp : p.index < d.tree.size)
    (hne : d.tree.isElement p = false) (x : NodeData) :
    d.attach p x = (⟨(d.tree.alloc x).1, d.issues⟩, none) := by
  obtain ⟨n, hn⟩ : ∃ n, d.tree.get? p = some n := Option.ne_none_iff_exists'.mp
    fun h => absurd (Tree.get?_eq_none_iff.mp h) (by omega)
  have hdata : (d.tree.alloc x).1.data? p = some n.data := by
    rw [Tree.data?_alloc_of_lt _ _ _ hp]
    simp [Tree.data?, hn]
  have hfail : (d.tree.alloc x).1.appendFailure? p ⟨d.tree.size⟩ = some (.notAnElement p) := by
    unfold Tree.appendFailure?
    rw [hdata]
    cases hnd : n.data with
    | element e =>
      have : d.tree.isElement p = true := by simp [Tree.isElement, Tree.element?, Tree.data?, hn, hnd]
      simp_all
    | text _ => rfl
    | comment _ => rfl
    | declaration _ => rfl
  rw [Html.Draft.attach_eq, hfail]

namespace Html.Builds

theorem detaches {p : NodeId} {d d' : Draft} (h : Builds p d d') :
    p.index < d.tree.size → d.tree.isElement p = false → Tree.Detaches d.tree d'.tree := by
  induction h with
  | done => exact fun _ _ => .refl _
  | report k m o _ ih =>
    rw [Draft.report_tree] at ih
    exact ih
  | @leaf p d d' x _ _ ih =>
    intro hp hne
    rw [Draft.attach_of_not_isElement hp hne] at ih
    have hp' : p.index < (d.tree.alloc x).1.size := by simp; omega
    exact (Tree.Detaches.alloc _ x).trans
      (ih hp' (by rw [Tree.isElement_alloc_of_lt _ _ hp]; exact hne))
  | @refused p d d₁ d' e _ hatt _ ih =>
    intro hp hne
    rw [Draft.attach_of_not_isElement hp hne] at hatt
    obtain ⟨rfl, -⟩ := Prod.mk.inj hatt
    have hp' : p.index < (d.tree.alloc (.element e)).1.size := by simp; omega
    exact (Tree.Detaches.alloc _ _).trans
      (ih hp' (by rw [Tree.isElement_alloc_of_lt _ _ hp]; exact hne))
  | element _ hatt _ _ _ _ =>
    intro hp hne
    rw [Draft.attach_of_not_isElement hp hne] at hatt
    simp at hatt

end Html.Builds

/-! ## The new nodes in pre-order -/

namespace Tree

def preorderUpTo (t : Tree) : Nat → NodeId → List NodeId
  | 0, _ => []
  | fuel + 1, id => id :: (t.children id).flatMap (t.preorderUpTo fuel)

/-- The nodes of the subtree at `id` in pre-order. -/
def preorder (t : Tree) (id : NodeId) : List NodeId := t.preorderUpTo t.size id

theorem preorderUpTo_succ (t : Tree) (fuel : Nat) (id : NodeId) :
    t.preorderUpTo (fuel + 1) id = id :: (t.children id).flatMap (t.preorderUpTo fuel) := rfl

theorem preorderUpTo_attachNew (t : Tree) {p : NodeId} (hp : p.index < t.size) (x : NodeData)
    {v : Tree} (hv : AgreeFrom v (t.attachNew p x) t.size) {k : Nat} (hk : 1 ≤ k) :
    v.preorderUpTo k ⟨t.size⟩ = [⟨t.size⟩] := by
  obtain ⟨k, rfl⟩ : ∃ k', k = k' + 1 := ⟨k - 1, by omega⟩
  have hn : (⟨t.size⟩ : NodeId).index < (t.attachNew p x).size := by simp
  rw [preorderUpTo_succ, hv.children ⟨t.size⟩ (Nat.le_refl _) hn, children_attachNew_new t p x hp]
  rfl

mutual
theorem preorderUpTo_graft : ∀ (d : Doc) (t : Tree) (p : NodeId), p.index < t.size →
    ∀ v, AgreeFrom v (t.graft p d) t.size → ∀ k, d.count ≤ k →
      v.preorderUpTo k ⟨t.size⟩ = (List.range' t.size d.count).map NodeId.mk
  | .element tag attrs cs, t, p, hp, v, hv, k, hk => by
    have hcount : (Doc.element tag attrs cs).count = Doc.countAll cs + 1 := by simp [Doc.count]
    obtain ⟨k, rfl⟩ : ∃ k', k = k' + 1 := ⟨k - 1, by omega⟩
    have hplt : (⟨t.size⟩ : NodeId).index < (t.attachNew p (.element (.withAttributes tag attrs))).size := by simp
    obtain ⟨ids, h⟩ := graftAll_grafts cs (t.attachNew p (.element (.withAttributes tag attrs))) ⟨t.size⟩ hplt
    have hu : t.graft p (.element tag attrs cs) =
        (t.attachNew p (.element (.withAttributes tag attrs))).graftAll ⟨t.size⟩ cs := by
      simp [graft]
    rw [hu] at hv
    have hn : (⟨t.size⟩ : NodeId).index < ((t.attachNew p (.element (.withAttributes tag attrs))).graftAll
        ⟨t.size⟩ cs).size := by
      rw [h.size_eq]
      simp
      omega
    have hch : v.children ⟨t.size⟩ = ids := by
      rw [hv.children ⟨t.size⟩ (Nat.le_refl _) hn, h.children_eq, children_attachNew_new t p _ hp]
      rfl
    have hrest := preorderUpTo_graftAll cs _ ⟨t.size⟩ hplt ids h v (hv.mono (by simp)) k
      (by omega)
    rw [preorderUpTo_succ, hch, hrest, hcount, size_attachNew]
    simp [List.range'_succ]
  | .text s, t, p, hp, v, hv, k, hk => preorderUpTo_attachNew t hp (.text s) hv hk
  | .comment s, t, p, hp, v, hv, k, hk => preorderUpTo_attachNew t hp (.comment s) hv hk
  | .declaration s, t, p, hp, v, hv, k, hk => preorderUpTo_attachNew t hp (.declaration s) hv hk

theorem preorderUpTo_graftAll : ∀ (ds : List Doc) (t : Tree) (p : NodeId), p.index < t.size →
    ∀ ids, Grafts t p (t.graftAll p ds) ids ds → ∀ v, AgreeFrom v (t.graftAll p ds) t.size →
      ∀ k, Doc.countAll ds ≤ k →
        ids.flatMap (v.preorderUpTo k) = (List.range' t.size (Doc.countAll ds)).map NodeId.mk
  | [], t, p, _, ids, h, v, hv, k, hk => by
    have hids : ids = [] := by simpa [graftAll] using h.children_eq
    subst hids
    rfl
  | d :: ds, t, p, hp, ids, h, v, hv, k, hk => by
    have h₁ := graft_grafts d t p hp
    obtain ⟨ids₂, h₂⟩ := graftAll_grafts ds (t.graft p d) p (by rw [h₁.size_eq]; omega)
    have hsize : (t.graft p d).size = t.size + d.count := by
      rw [h₁.size_eq]
      simp [Doc.countAll]
    have hcount : Doc.countAll (d :: ds) = d.count + Doc.countAll ds := rfl
    have hids : ids = ⟨t.size⟩ :: ids₂ := by
      have e := h.children_eq
      rw [graftAll_cons, h₂.children_eq, h₁.children_eq, List.append_assoc] at e
      exact (List.append_cancel_left e).symm
    subst hids
    rw [graftAll_cons] at hv
    have hv₁ : AgreeFrom v (t.graft p d) t.size := fun m ha hm =>
      (hv m ha (by rw [h₂.size_eq]; omega)).trans (h₂.get?_eq m (fun he => by subst he; omega) hm)
    have hv₂ : AgreeFrom v ((t.graft p d).graftAll p ds) (t.graft p d).size :=
      hv.mono (by omega)
    rw [List.flatMap_cons, preorderUpTo_graft d t p hp v hv₁ k (by omega),
      preorderUpTo_graftAll ds (t.graft p d) p (by omega) ids₂ h₂ v hv₂ k (by omega), hsize, hcount,
      ← List.map_append, List.range'_append_1]
end

theorem preorder_graftAll_empty (fs : List Doc) :
    (Tree.empty.graftAll NodeId.root fs).preorder NodeId.root =
      (List.range (Tree.empty.graftAll NodeId.root fs).size).map NodeId.mk := by
  obtain ⟨ids, h⟩ := graftAll_grafts fs Tree.empty NodeId.root (by decide)
  have hsize : (Tree.empty.graftAll NodeId.root fs).size = Doc.countAll fs + 1 := by
    rw [h.size_eq]
    simp [Tree.empty, Tree.size, Nat.add_comm]
  have hch : (Tree.empty.graftAll NodeId.root fs).children NodeId.root = ids := by
    rw [h.children_eq]
    rfl
  rw [preorder, hsize, preorderUpTo_succ, hch,
    preorderUpTo_graftAll fs _ _ (by decide) ids h _ (fun _ _ _ => rfl) _ (Nat.le_refl _),
    List.range_eq_range', List.range'_succ]
  rfl

theorem parent?_attachNew (t : Tree) (p : NodeId) (x : NodeData) {m : NodeId} (hm : m.index < t.size) :
    (t.attachNew p x).parent? m = t.parent? m := by
  have hne : m ≠ ⟨t.size⟩ := fun h => by subst h; exact Nat.lt_irrefl _ hm
  rw [attachNew, parent?_link _ _ _ _ (by simp), if_neg hne, parent?_alloc]

mutual
theorem parent?_graft : ∀ (d : Doc) (t : Tree) (p m : NodeId), p.index < t.size → m.index < t.size →
    (t.graft p d).parent? m = t.parent? m
  | .element tag attrs cs, t, p, m, _, hm => by
    rw [show t.graft p (.element tag attrs cs) =
        (t.attachNew p (.element (.withAttributes tag attrs))).graftAll ⟨t.size⟩ cs by simp [graft],
      parent?_graftAll cs _ _ m (by simp) (by simp; omega), parent?_attachNew t p _ hm]
  | .text s, t, p, m, _, hm => parent?_attachNew t p (.text s) hm
  | .comment s, t, p, m, _, hm => parent?_attachNew t p (.comment s) hm
  | .declaration s, t, p, m, _, hm => parent?_attachNew t p (.declaration s) hm

theorem parent?_graftAll : ∀ (ds : List Doc) (t : Tree) (p m : NodeId), p.index < t.size →
    m.index < t.size → (t.graftAll p ds).parent? m = t.parent? m
  | [], t, p, m, _, _ => by simp [graftAll]
  | d :: ds, t, p, m, hp, hm => by
    have hsize := (graft_grafts d t p hp).size_eq
    rw [graftAll_cons, parent?_graftAll ds _ p m (by omega) (by omega), parent?_graft d t p m hp hm]
end

end Tree

/-! ## Walks over a built tree -/

namespace Tree

theorem mem_preorderUpTo {t : Tree} (hwf : t.WellFormed) {n : NodeId} :
    ∀ {k : Nat} {c : NodeId}, n ∈ t.preorderUpTo k c → n = c ∨ (t.parent? n).isSome := by
  intro k
  induction k with
  | zero => simp [preorderUpTo]
  | succ k ih =>
    intro c hn
    rw [preorderUpTo_succ, List.mem_cons, List.mem_flatMap] at hn
    rcases hn with rfl | ⟨c', hc', hn⟩
    · exact .inl rfl
    · rcases ih hn with rfl | hs
      · exact .inr (by rw [(hwf.mem_children_iff n c).mp hc']; rfl)
      · exact .inr hs

theorem elementsUpTo_eq_filter {t : Tree} (hwf : t.WellFormed) :
    ∀ (k : Nat) (n : NodeId), t.elementsUpTo k n = (t.preorderUpTo k n).filter t.isElement := by
  intro k
  induction k with
  | zero => intro n; rfl
  | succ k ih =>
    intro n
    rw [elementsUpTo, preorderUpTo_succ]
    by_cases hn : t.isElement n = true
    · rw [if_pos hn, List.filter_cons_of_pos hn, List.filter_flatMap, funext ih]
    · rw [if_neg hn, hwf.leaf n (by simpa using hn)]
      simp [hn]

end Tree

theorem SelectorList.isElement_of_selects {l : SelectorList} {t : Tree} {n : NodeId}
    (h : l.selects t n = true) : t.isElement n = true := by
  obtain ⟨c, -, hc⟩ := List.any_eq_true.mp h
  cases he : t.element? n with
  | none =>
    simp [Selector.Chain.selects, Selector.Chain.links, Selector.matchLinks,
      Selector.firstAccepting, he] at hc
  | some e => simp [Tree.isElement, he]

namespace Html

theorem buildInto_eq_graftAll {t : Tree} (hwf : t.WellFormed) {p : NodeId}
    (hp : t.isElement p = true) (cfg : Config) (html : String) :
    ∃ fs, (buildInto cfg t p html).1 = t.graftAll p fs :=
  (build_builds cfg p 0 0 html.toList { tree := t }).graftAll hwf hp

theorem buildInto_of_isElement {t : Tree} (hwf : t.WellFormed) {p : NodeId}
    (hp : t.isElement p = true) (cfg : Config) (html : String) :
    ∃ tops, (buildInto cfg t p html).1.children p = t.children p ++ tops ∧
      tops.flatMap (buildInto cfg t p html).1.preorder =
        (List.range' t.size ((buildInto cfg t p html).1.size - t.size)).map NodeId.mk ∧
      (buildInto cfg t p html).1.data? p = t.data? p ∧
      (buildInto cfg t p html).1.parent? p = t.parent? p ∧
      ∀ m, m ≠ p → m.index < t.size → (buildInto cfg t p html).1.get? m = t.get? m := by
  obtain ⟨fs, hfs⟩ := buildInto_eq_graftAll hwf hp cfg html
  obtain ⟨e, he⟩ := Tree.isElement_iff.mp hp
  have hplt : p.index < t.size := Tree.lt_size_of_data? (Tree.element?_eq_some.mp he)
  obtain ⟨ids, h⟩ := Tree.graftAll_grafts fs t p hplt
  rw [hfs]
  refine ⟨ids, h.children_eq, ?_, h.data?_eq, Tree.parent?_graftAll fs t p p hplt hplt, h.get?_eq⟩
  rw [h.size_eq, Nat.add_sub_cancel_left]
  exact Tree.preorderUpTo_graftAll fs t p hplt ids h _ (fun _ _ _ => rfl) _ (by rw [h.size_eq]; omega)

theorem buildInto_of_not_isElement {t : Tree} {p : NodeId} (hp : p.index < t.size)
    (hne : t.isElement p = false) (cfg : Config) (html : String) :
    (∀ m, m.index < t.size → (buildInto cfg t p html).1.get? m = t.get? m) ∧
      ∀ m, t.size ≤ m.index → m.index < (buildInto cfg t p html).1.size →
        (buildInto cfg t p html).1.parent? m = none ∧ (buildInto cfg t p html).1.children m = [] :=
  let h := (build_builds cfg p 0 0 html.toList { tree := t }).detaches hp hne
  ⟨h.get?_eq, h.detached⟩

theorem parseDocument_preorder (cfg : Config) (html : String) :
    (∀ n : NodeId, 1 ≤ n.index → n.index < (parseDocument cfg html).1.size →
      ((parseDocument cfg html).1.parent? n).isSome) ∧
    (parseDocument cfg html).1.elements NodeId.root =
      ((List.range (parseDocument cfg html).1.size).map NodeId.mk).filter
        (parseDocument cfg html).1.isElement ∧
    ∀ l : SelectorList, l.queryAll (parseDocument cfg html).1 NodeId.root =
      ((List.range (parseDocument cfg html).1.size).map NodeId.mk).filter
        (l.selects (parseDocument cfg html).1) := by
  have hroot : Tree.empty.isElement NodeId.root = true := by decide
  obtain ⟨fs, hfs⟩ := buildInto_eq_graftAll Tree.wellFormed_empty hroot cfg html
  have hd : (parseDocument cfg html).1 = Tree.empty.graftAll NodeId.root fs := hfs
  rw [hd]
  have hwf := Tree.WellFormed.graftAll fs Tree.wellFormed_empty hroot
  have hpre := Tree.preorder_graftAll_empty fs
  refine ⟨fun n h₁ h₂ => ?_, ?_, fun l => ?_⟩
  · have hmem : n ∈ (Tree.empty.graftAll NodeId.root fs).preorder NodeId.root := by
      rw [hpre]
      simp only [List.mem_map, List.mem_range]
      exact ⟨n.index, h₂, rfl⟩
    rcases Tree.mem_preorderUpTo hwf hmem with rfl | hs
    · simp [NodeId.root] at h₁
    · exact hs
  · rw [Tree.elements, Tree.elementsUpTo_eq_filter hwf, ← Tree.preorder, hpre]
  · rw [SelectorList.queryAll, hwf.iterElements_eq_elements, Tree.elements,
      Tree.elementsUpTo_eq_filter hwf, ← Tree.preorder, hpre, List.filter_filter]
    congr 1
    funext n
    cases hs : l.selects (Tree.empty.graftAll NodeId.root fs) n with
    | false => rfl
    | true => simp [SelectorList.isElement_of_selects hs]

/-- Building markup into a node of a reachable tree appends the new nodes in pre-order under an
element, and leaves them detached under any other old node. -/
theorem buildInto_preorder_attached (es : List Edit) (cfg : Config) (p : NodeId) (html : String) :
    let t := Edit.run es Tree.empty
    let u := (buildInto cfg t p html).1
    (t.isElement p = true →
      ∃ tops, u.children p = t.children p ++ tops ∧
        tops.flatMap u.preorder = (List.range' t.size (u.size - t.size)).map NodeId.mk ∧
        u.data? p = t.data? p ∧ u.parent? p = t.parent? p ∧
        ∀ m, m ≠ p → m.index < t.size → u.get? m = t.get? m) ∧
    (p.index < t.size → t.isElement p = false →
      (∀ m, m.index < t.size → u.get? m = t.get? m) ∧
      ∀ m, t.size ≤ m.index → m.index < u.size → u.parent? m = none ∧ u.children m = []) ∧
    let d := (parseDocument cfg html).1
    (∀ n : NodeId, 1 ≤ n.index → n.index < d.size → (d.parent? n).isSome) ∧
      d.elements NodeId.root = ((List.range d.size).map NodeId.mk).filter d.isElement ∧
      ∀ l : SelectorList, l.queryAll d NodeId.root =
        ((List.range d.size).map NodeId.mk).filter (l.selects d) := by
  intro t u
  have hwf : t.WellFormed := Edit.run_wellFormed es Tree.wellFormed_empty
  exact ⟨fun hp => buildInto_of_isElement hwf hp cfg html,
    fun hp hne => buildInto_of_not_isElement hp hne cfg html, parseDocument_preorder cfg html⟩

/-- Under a parent that is not yet a node, the text after the first node is attached under it. -/
theorem buildInto_unknown_parent_attaches :
    let u := (buildInto {} Tree.empty ⟨1⟩ "<a>x</a>").1
    Tree.empty.size = 1 ∧ u.parent? ⟨2⟩ = some ⟨1⟩ ∧ u.children ⟨1⟩ = [⟨2⟩] := by
  decide +kernel

end Html

end HtmlQuery
