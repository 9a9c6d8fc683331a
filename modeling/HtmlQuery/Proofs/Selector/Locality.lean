import HtmlQuery.Proofs.Tree.Siblings

/-! Matching at a node reads the node, its ancestors and the element siblings before them, so edits
that only grow the tree keep the results of the nodes already there. -/
namespace HtmlQuery
namespace Tree

/-- `u` is `t` grown at the ends. -/
structure Grows (t u : Tree) : Prop where
  size_le : t.size ≤ u.size
  data?_eq : ∀ m, m.index < t.size → u.data? m = t.data? m
  parent?_of_eq_some : ∀ m q, t.parent? m = some q → u.parent? m = some q
  children_append : ∀ m, ∃ extra, u.children m = t.children m ++ extra

namespace Grows

variable {t u : Tree}

theorem refl (t : Tree) : Grows t t :=
  ⟨Nat.le_refl _, fun _ _ => rfl, fun _ _ h => h, fun _ => ⟨[], by simp⟩⟩

theorem trans {w : Tree} (h₁ : Grows t u) (h₂ : Grows u w) : Grows t w where
  size_le := Nat.le_trans h₁.size_le h₂.size_le
  data?_eq m hm := (h₂.data?_eq m (Nat.lt_of_lt_of_le hm h₁.size_le)).trans (h₁.data?_eq m hm)
  parent?_of_eq_some m q h := h₂.parent?_of_eq_some m q (h₁.parent?_of_eq_some m q h)
  children_append m := by
    obtain ⟨e₁, he₁⟩ := h₁.children_append m
    obtain ⟨e₂, he₂⟩ := h₂.children_append m
    exact ⟨e₁ ++ e₂, by rw [he₂, he₁, List.append_assoc]⟩

theorem element?_eq (h : Grows t u) {m : NodeId} (hm : m.index < t.size) :
    u.element? m = t.element? m := by
  simp [element?, h.data?_eq m hm]

theorem isElement_eq (h : Grows t u) {m : NodeId} (hm : m.index < t.size) :
    u.isElement m = t.isElement m := by
  simp [isElement, h.element?_eq hm]

end Grows

theorem grows_alloc (t : Tree) (x : NodeData) : Grows t (t.alloc x).1 where
  size_le := by simp
  data?_eq m hm := data?_alloc_of_lt t x m hm
  parent?_of_eq_some m q h := by rwa [parent?_alloc]
  children_append m := ⟨[], by simp⟩

theorem grows_link {t : Tree} {p c : NodeId} (hp : p.index < t.size) (hc : c.index < t.size)
    (hcp : t.parent? c = none) : Grows t (t.link p c) where
  size_le := by simp
  data?_eq m _ := data?_link t p c m
  parent?_of_eq_some m q h := by
    have hmc : m ≠ c := by
      rintro rfl
      rw [hcp] at h
      cases h
    rw [parent?_link t p c m hc, if_neg hmc]
    exact h
  children_append m := by
    rw [children_link t p c m hp]
    split
    · exact ⟨[c], rfl⟩
    · exact ⟨[], by simp⟩

theorem lt_size_of_appendFailure?_eq_none {t : Tree} {p c : NodeId}
    (h : t.appendFailure? p c = none) : p.index < t.size ∧ c.index < t.size := by
  unfold appendFailure? at h
  split at h
  · cases h
  · next e he =>
    split at h
    · cases h
    · next n hn => exact ⟨lt_size_of_data? he, lt_size_of_get? hn⟩
  · cases h

end Tree

namespace Html
open HtmlQuery.Tree

theorem Draft.grows_attach (d : Draft) (p : NodeId) (x : NodeData) :
    Grows d.tree (d.attach p x).1.tree ∧
      ∀ m, m.index < d.tree.size → (d.attach p x).1.tree.parent? m = d.tree.parent? m := by
  rw [Draft.attach_eq]
  split
  · next hf =>
    have hnew : (d.tree.alloc x).1.parent? ⟨d.tree.size⟩ = none := by
      rw [parent?_alloc]
      exact parent?_of_size_le (Nat.le_refl _)
    obtain ⟨hp, hc⟩ := lt_size_of_appendFailure?_eq_none hf
    refine ⟨(grows_alloc d.tree x).trans (grows_link hp hc hnew), fun m hm => ?_⟩
    have hmc : m ≠ ⟨d.tree.size⟩ := by
      rintro rfl
      exact Nat.lt_irrefl _ hm
    rw [parent?_link _ _ _ _ hc, if_neg hmc, parent?_alloc]
  · exact ⟨grows_alloc d.tree x, fun m _ => parent?_alloc d.tree x m⟩

theorem buildInto_grows (cfg : Config) (t : Tree) (p : NodeId) (html : String) :
    Grows t (buildInto cfg t p html).1 ∧
      ∀ m, m.index < t.size → (buildInto cfg t p html).1.parent? m = t.parent? m := by
  refine build_preserves
    (fun d => Grows t d.tree ∧ ∀ m, m.index < t.size → d.tree.parent? m = t.parent? m)
    (fun d q x hd _ => ?_) (fun d k mk o hd => by rwa [Draft.report_tree]) cfg p 0 0 html.toList
    { tree := t } ⟨Grows.refl t, fun _ _ => rfl⟩
  obtain ⟨hg, hpar⟩ := Draft.grows_attach d q x
  refine ⟨hd.1.trans hg, fun m hm => ?_⟩
  rw [hpar m (Nat.lt_of_lt_of_le hm hd.1.size_le), hd.2 m hm]

end Html

namespace Tree

theorem ancestorsUpTo_congr {t u : Tree} {n : NodeId}
    (h : ∀ a, (a = n ∨ Ancestor t a n) → u.parent? a = t.parent? a) (k : Nat) :
    u.ancestorsUpTo k n = t.ancestorsUpTo k n := by
  induction k generalizing n with
  | zero => rfl
  | succ k ih =>
    simp only [ancestorsUpTo, h n (.inl rfl)]
    split
    · rfl
    · next q hq =>
      rw [ih fun a ha => h a (.inr (ha.elim (fun he => he ▸ .parent hq) (.up hq)))]

theorem ancestorsUpTo_of_length_lt {t : Tree} {k k' : Nat} {n : NodeId}
    (h : (t.ancestorsUpTo k n).length < k) (hk : k ≤ k') :
    t.ancestorsUpTo k' n = t.ancestorsUpTo k n := by
  induction k generalizing n k' with
  | zero => cases h
  | succ k ih =>
    obtain ⟨k', rfl⟩ : ∃ j, k' = j + 1 := ⟨k' - 1, by omega⟩
    simp only [ancestorsUpTo] at h ⊢
    split
    · rfl
    · next q hq =>
      rw [hq, List.length_cons] at h
      rw [ih (by omega) (by omega)]

end Tree

namespace Selector
open HtmlQuery.Tree

variable {t u : Tree}

/-- The node is a node of `t`, and it and its ancestors have the same parents in `u`. -/
structure Unmoved (t u : Tree) (m : NodeId) : Prop where
  lt_size : m.index < t.size
  parent?_eq : ∀ a, (a = m ∨ Ancestor t a m) → u.parent? a = t.parent? a

namespace Unmoved

variable {m : NodeId}

theorem parent?_eq_self (h : Unmoved t u m) : u.parent? m = t.parent? m := h.parent?_eq m (.inl rfl)

variable (hwf : t.WellFormed) (h : Unmoved t u m)
include hwf h

theorem ancestor {a : NodeId} (ha : Ancestor t a m) : Unmoved t u a :=
  ⟨ha.lt_size (fun _ _ => hwf.parent_lt), fun b hb => h.parent?_eq b
    (.inr (hb.elim (fun he => he ▸ ha) (fun hba => hba.trans ha)))⟩

theorem parent {q : NodeId} (hq : t.parent? m = some q) : Unmoved t u q :=
  h.ancestor hwf (.parent hq)

theorem sibling (hg : Grows t u) {q s : NodeId} {before after : List NodeId}
    (hq : t.parent? m = some q) (hcs : t.children q = before ++ m :: after) (hs : s ∈ before) :
    Unmoved t u s := by
  have hmem : s ∈ t.children q := by simp [hcs, hs]
  have hsq : t.parent? s = some q := (hwf.mem_children_iff s q).mp hmem
  refine ⟨hwf.lt_size_of_mem q s hmem, fun a ha => ?_⟩
  rcases ha with rfl | ha
  · rw [hg.parent?_of_eq_some a q hsq, hsq]
  · rcases ha.eq_or_of_parent hsq with rfl | haq
    · exact (h.parent hwf hq).parent?_eq a (.inl rfl)
    · exact (h.parent hwf hq).parent?_eq a (.inr haq)

theorem ancestors_eq (hg : Grows t u) : u.ancestors m = t.ancestors m := by
  rw [ancestors, ancestorsUpTo_congr h.parent?_eq]
  exact ancestorsUpTo_of_length_lt (hwf.length_ancestors_lt h.lt_size) hg.size_le

theorem candidates (c : Bool) {x : NodeId} (hx : x ∈ (if c then m :: t.ancestors m else [m])) :
    Unmoved t u x := by
  cases c with
  | false =>
    rw [List.mem_singleton.mp hx]
    exact h
  | true =>
    rcases List.mem_cons.mp hx with rfl | hx
    · exact h
    · exact h.ancestor hwf (hwf.mem_ancestors_iff.mp hx)

end Unmoved

theorem firstAccepting_congr (hg : Grows t u) (l : Link) {cands : List NodeId}
    (hc : ∀ x ∈ cands, x.index < t.size) : firstAccepting u l cands = firstAccepting t l cands := by
  induction cands with
  | nil => rfl
  | cons x xs ih =>
    simp only [firstAccepting, hg.element?_eq (hc x List.mem_cons_self),
      ih fun y hy => hc y (List.mem_cons_of_mem _ hy)]

theorem split_children (hwf : t.WellFormed) (hg : Grows t u) {m q : NodeId}
    (hq : t.parent? m = some q) :
    ∃ before after extra, t.children q = before ++ m :: after ∧
      u.children q = before ++ m :: (after ++ extra) ∧ m ∉ before ∧
      before.filter u.isElement = before.filter t.isElement := by
  obtain ⟨before, after, hcs, hb⟩ := exists_split_first ((hwf.mem_children_iff m q).mpr hq)
  obtain ⟨extra, hext⟩ := hg.children_append q
  refine ⟨before, after, extra, hcs, by rw [hext, hcs]; simp, hb, List.filter_congr fun s hs => ?_⟩
  exact hg.isElement_eq (hwf.lt_size_of_mem q s (by simp [hcs, hs]))

section Siblings
variable {m : NodeId} (hwf : t.WellFormed) (hg : Grows t u) (h : Unmoved t u m)
include hwf hg h

theorem previousElementSibling?_congr :
    u.previousElementSibling? m = t.previousElementSibling? m ∧
      ∀ s, t.previousElementSibling? m = some s → Unmoved t u s := by
  cases hq : t.parent? m with
  | none =>
    have hu : u.parent? m = none := by rw [h.parent?_eq_self, hq]
    rw [previousElementSibling?_of_parent?_eq_none hu,
      previousElementSibling?_of_parent?_eq_none hq]
    exact ⟨rfl, fun _ hs => by cases hs⟩
  | some q =>
    have hu : u.parent? m = some q := by rw [h.parent?_eq_self, hq]
    obtain ⟨before, after, extra, hcs, hcu, hb, hfilter⟩ := split_children hwf hg hq
    rw [previousElementSibling?_split hu hcu hb, previousElementSibling?_split hq hcs hb, hfilter]
    refine ⟨rfl, fun s hs => h.sibling hwf hg hq hcs ?_⟩
    exact (List.mem_filter.mp (List.mem_of_getLast? hs)).1

theorem previousElementSiblings_congr (hm : t.isElement m = true) :
    u.previousElementSiblings m = t.previousElementSiblings m ∧
      ∀ s ∈ t.previousElementSiblings m, Unmoved t u s := by
  cases hq : t.parent? m with
  | none =>
    have hu : u.parent? m = none := by rw [h.parent?_eq_self, hq]
    rw [previousElementSiblings_of_parent?_eq_none hu,
      previousElementSiblings_of_parent?_eq_none hq]
    exact ⟨rfl, fun _ hs => by cases hs⟩
  | some q =>
    have hu : u.parent? m = some q := by rw [h.parent?_eq_self, hq]
    obtain ⟨before, after, extra, hcs, hcu, hb, hfilter⟩ := split_children hwf hg hq
    have hmu : u.isElement m = true := by rw [hg.isElement_eq h.lt_size, hm]
    rw [(elementSiblings_of_isElement hu hcu hb hmu).1,
      (elementSiblings_of_isElement hq hcs hb hm).1, hfilter]
    exact ⟨rfl, fun s hs => h.sibling hwf hg hq hcs (List.mem_filter.mp hs).1⟩

end Siblings

theorem matchLinks_congr (hwf : t.WellFormed) (hg : Grows t u) (links : List Link) :
    ∀ m climb, Unmoved t u m → matchLinks u links m climb = matchLinks t links m climb := by
  induction links with
  | nil => intro m climb _; rfl
  | cons l before ih =>
    intro m climb h
    have hcands : ∀ x ∈ (if climb then m :: t.ancestors m else [m]), x.index < t.size :=
      fun x hx => (h.candidates hwf climb hx).lt_size
    have hfirst : firstAccepting u l (if climb then m :: u.ancestors m else [m]) =
        firstAccepting t l (if climb then m :: t.ancestors m else [m]) := by
      rw [h.ancestors_eq hwf hg, firstAccepting_congr hg l hcands]
    simp only [matchLinks, hfirst]
    split
    · rfl
    · next m' hm' =>
      obtain ⟨hmem, hpass⟩ := firstAccepting_sound hm'
      have h' := h.candidates hwf climb hmem
      split
      · rfl
      · split
        · rw [h'.parent?_eq_self]
          split
          · next q hq => exact ih q true (h'.parent hwf hq)
          · rfl
        · rw [h'.parent?_eq_self]
          split
          · next q hq => exact ih q false (h'.parent hwf hq)
          · rfl
        · obtain ⟨hsib, hup⟩ := previousElementSibling?_congr hwf hg h'
          rw [hsib]
          split
          · next s hs => exact ih s false (hup s hs)
          · rfl
        · obtain ⟨hsibs, hup⟩ := previousElementSiblings_congr hwf hg h' hpass.isElement
          rw [hsibs, Bool.eq_iff_iff, List.any_eq_true, List.any_eq_true]
          exact exists_congr fun s => and_congr_right fun hs => by rw [ih s false (hup s hs)]

theorem selects_congr (hwf : t.WellFormed) (hg : Grows t u) (L : SelectorList) {n : NodeId}
    (h : Unmoved t u n) : L.selects u n = L.selects t n := by
  simp only [SelectorList.selects, Chain.selects, matchLinks_congr hwf hg _ n false h]

end Selector

namespace Tree

theorem WellFormed.below_of_ancestor {t : Tree} (hwf : WellFormed t) {c n : NodeId}
    (h : Ancestor t c n) : Below t c n := by
  induction h with
  | parent hp => exact .child .refl ((hwf.mem_children_iff _ _).mpr hp)
  | up hp _ ih => exact .child ih ((hwf.mem_children_iff _ _).mpr hp)

end Tree

/-- Appending and building never change the match results of the nodes already there. -/
theorem run_selects_frame (es : List Edit) :
    let t := Edit.run es Tree.empty
    (∀ p c t', t.appendChild p c = .ok t' → ∀ (L : SelectorList) n, n.index < t.size →
      ¬ t.Below c n → L.selects t' n = L.selects t n) ∧
    ∀ cfg p html (L : SelectorList) n, n.index < t.size →
      L.selects (Html.buildInto cfg t p html).1 n = L.selects t n := by
  intro t
  have hwf : t.WellFormed := Edit.run_wellFormed es Tree.wellFormed_empty
  refine ⟨fun p c t' ha L n hn hbelow => ?_, fun cfg p html L n hn => ?_⟩
  · unfold Tree.appendChild at ha
    split at ha
    · cases ha
    · next hf =>
      cases ha
      obtain ⟨-, -, -, hcp, -, -⟩ := hwf.of_appendFailure?_eq_none hf
      obtain ⟨hp, hc⟩ := Tree.lt_size_of_appendFailure?_eq_none hf
      refine Selector.selects_congr hwf (Tree.grows_link hp hc hcp) L ⟨hn, fun a ha => ?_⟩
      have hac : a ≠ c := by
        rintro rfl
        rcases ha with rfl | ha
        · exact hbelow .refl
        · exact hbelow (hwf.below_of_ancestor ha)
      rw [Tree.parent?_link t p c a hc, if_neg hac]
  · -- building moves no old node, so every old node and its ancestors keep their parents
    obtain ⟨hg, hpar⟩ := Html.buildInto_grows cfg t p html
    refine Selector.selects_congr hwf hg L ⟨hn, fun a ha => hpar a ?_⟩
    rcases ha with rfl | ha
    · exact hn
    · exact ha.lt_size fun _ _ => hwf.parent_lt

end HtmlQuery
