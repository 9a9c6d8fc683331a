import HtmlQuery.Proofs.Tree.Reachable
import HtmlQuery.Selector.Match

/-! Document order: the element walk and the element iterator list a subtree in pre-order. -/
namespace HtmlQuery
namespace Tree

/-- Whether `x` is `s` or lies below it, by the walk up from `x`. -/
def inSubtree (t : Tree) (s x : NodeId) : Bool := x == s || t.isDescendantOf x s

variable {t : Tree} {s x : NodeId}

theorem Ancestor.comparable {a b : NodeId} (ha : t.Ancestor a x) (hb : t.Ancestor b x) :
    a = b ∨ t.Ancestor a b ∨ t.Ancestor b a := by
  induction ha generalizing b with
  | parent hp =>
    rcases hb.eq_or_of_parent hp with rfl | hb
    · exact .inl rfl
    · exact .inr (.inr hb)
  | up hp _ ih =>
    rcases hb.eq_or_of_parent hp with rfl | hb
    · exact .inr (.inl ‹_›)
    · exact ih hb

theorem Ancestor.of_below_child {c p : NodeId} (hc : t.parent? c = some p)
    (hx : x = c ∨ t.Ancestor c x) : t.Ancestor p x := by
  rcases hx with rfl | hx
  · exact .parent hc
  · exact Ancestor.trans (.parent hc) hx

theorem flatMap_eq_of_unique {l : List NodeId} {f : NodeId → List NodeId} (hl : l.Nodup)
    (hs : s ∈ l) (hf : ∀ c ∈ l, c ≠ s → f c = []) : l.flatMap f = f s := by
  induction l with
  | nil => cases hs
  | cons c cs ih =>
    obtain ⟨hc, hcs⟩ := List.nodup_cons.mp hl
    rw [List.flatMap_cons]
    by_cases hcs' : c = s
    · subst hcs'
      rw [List.flatMap_eq_nil_iff.mpr fun d hd => hf d (List.mem_cons_of_mem _ hd)
        fun he => hc (he ▸ hd), List.append_nil]
    · rw [hf c List.mem_cons_self hcs', List.nil_append]
      exact ih hcs ((List.mem_cons.mp hs).resolve_left (Ne.symm hcs'))
        fun d hd => hf d (List.mem_cons_of_mem _ hd)

theorem nextElement_concat (rest : List NodeId) (n : NodeId) :
    t.nextElement (rest ++ [n]) = some (n, rest ++ ((t.children n).filter t.isElement).reverse) := by
  simp [nextElement]

theorem iterateElements_succ {k : Nat} {stack stack' : List NodeId} {n : NodeId}
    (hn : t.nextElement stack = some (n, stack')) :
    t.iterateElements (k + 1) stack = n :: t.iterateElements k stack' := by
  simp [iterateElements, hn]

namespace WellFormed

variable (h : t.WellFormed)
include h

theorem not_below_child {c p : NodeId} (hc : t.parent? c = some p) : ¬ (p = c ∨ t.Ancestor c p) :=
  fun hp => h.acyclic p (Ancestor.of_below_child hc hp)

theorem not_ancestor_sibling {c p : NodeId} (hc : t.parent? c = some p) (hs : t.parent? s = some p) :
    ¬ t.Ancestor c s :=
  fun hcs => h.not_below_child hc ((hcs.eq_or_of_parent hs).imp Eq.symm id)

theorem eq_of_below_siblings {c p : NodeId} (hc : t.parent? c = some p) (hs : t.parent? s = some p)
    (hxc : x = c ∨ t.Ancestor c x) (hxs : x = s ∨ t.Ancestor s x) : c = s := by
  rcases hxc with rfl | hxc <;> rcases hxs with rfl | hxs
  · rfl
  · exact absurd hxs (h.not_ancestor_sibling hs hc)
  · exact absurd hxc (h.not_ancestor_sibling hc hs)
  · rcases Ancestor.comparable hxc hxs with he | hcs | hsc
    · exact he
    · exact absurd hcs (h.not_ancestor_sibling hc hs)
    · exact absurd hsc (h.not_ancestor_sibling hs hc)

theorem inSubtree_iff : t.inSubtree s x = true ↔ x = s ∨ t.Ancestor s x := by
  simp [inSubtree, h.isDescendantOf_iff]

theorem mem_elementsUpTo : ∀ {k : Nat} {s : NodeId}, x ∈ t.elementsUpTo k s →
    t.isElement s = true ∧ t.isElement x = true ∧ (x = s ∨ t.Ancestor s x) := by
  intro k
  induction k with
  | zero => simp [elementsUpTo]
  | succ k ih =>
    intro s hx
    simp only [elementsUpTo] at hx
    split at hx
    · next hs =>
      rcases List.mem_cons.mp hx with rfl | hx
      · exact ⟨hs, hs, .inl rfl⟩
      · obtain ⟨c, hc, hxc⟩ := List.mem_flatMap.mp hx
        have hcs : t.parent? c = some s := (h.mem_children_iff c s).mp hc
        obtain ⟨-, hxe, hbelow⟩ := ih hxc
        exact ⟨hs, hxe, .inr (Ancestor.of_below_child hcs hbelow)⟩
    · simp at hx

theorem elementsUpTo_succ : ∀ (k : Nat) (n : NodeId), t.size ≤ k + (t.ancestors n).length →
    t.elementsUpTo (k + 1) n = t.elementsUpTo k n := by
  intro k
  induction k with
  | zero =>
    intro n hk
    cases hn : t.isElement n
    · simp [elementsUpTo, hn]
    · obtain ⟨e, he⟩ := isElement_iff.mp hn
      have := h.length_ancestors_lt (lt_size_of_data? (element?_eq_some.mp he))
      omega
  | succ k ih =>
    intro n hk
    rw [elementsUpTo, elementsUpTo]
    congr 2
    refine List.flatMap_congr fun c hc => ih c ?_
    rw [h.length_ancestors_child hc]
    omega

theorem elements_eq (n : NodeId) :
    t.elements n = if t.isElement n then n :: (t.children n).flatMap t.elements else [] := by
  obtain ⟨k, hk⟩ : ∃ k, t.size = k + 1 := ⟨t.size - 1, by have := h.size_pos; omega⟩
  rw [elements, hk, elementsUpTo]
  congr 2
  refine List.flatMap_congr fun c hc => ?_
  have hc1 : 1 ≤ (t.ancestors c).length := by rw [h.length_ancestors_child hc]; omega
  rw [elements, hk, h.elementsUpTo_succ k c (by omega)]

theorem elements_of_isElement_eq_false (hs : t.isElement s = false) : t.elements s = [] := by
  rw [h.elements_eq, if_neg (by simp [hs])]

theorem mem_elements_self (hx : t.isElement x = true) : x ∈ t.elements x := by
  rw [h.elements_eq, if_pos hx]
  exact List.mem_cons_self

theorem elements_subset_of_ancestor (ha : t.Ancestor s x) : t.elements x ⊆ t.elements s := by
  have hchild : ∀ {c p : NodeId}, t.parent? c = some p → t.elements c ⊆ t.elements p := by
    intro c p hc y hy
    rw [h.elements_eq p, if_pos (h.isElement_of_parent? hc)]
    exact List.mem_cons_of_mem _ (List.mem_flatMap.mpr ⟨c, (h.mem_children_iff c p).mpr hc, hy⟩)
  induction ha with
  | parent hp => exact hchild hp
  | up hp _ ih => exact fun y hy => ih (hchild hp hy)

theorem mem_elements_iff :
    x ∈ t.elements s ↔ t.isElement s = true ∧ t.isElement x = true ∧ (x = s ∨ t.Ancestor s x) := by
  refine ⟨h.mem_elementsUpTo, fun ⟨_, hx, hbelow⟩ => ?_⟩
  rcases hbelow with rfl | ha
  · exact h.mem_elements_self hx
  · exact h.elements_subset_of_ancestor ha (h.mem_elements_self hx)

theorem nodup_elementsUpTo : ∀ (k : Nat) (n : NodeId), (t.elementsUpTo k n).Nodup := by
  intro k
  induction k with
  | zero => simp [elementsUpTo]
  | succ k ih =>
    intro n
    simp only [elementsUpTo]
    split
    · have hbelow : ∀ c ∈ t.children n, ∀ y ∈ t.elementsUpTo k c, t.parent? c = some n ∧
          (y = c ∨ t.Ancestor c y) := fun c hc _ hy =>
        ⟨(h.mem_children_iff c n).mp hc, (h.mem_elementsUpTo hy).2.2⟩
      refine List.nodup_cons.mpr ⟨fun hn => ?_, List.nodup_flatMap.mpr ⟨fun c _ => ih c, ?_⟩⟩
      · obtain ⟨c, hc, hnc⟩ := List.mem_flatMap.mp hn
        obtain ⟨hcn, hbel⟩ := hbelow c hc n hnc
        exact h.not_below_child hcn hbel
      · refine (h.children_nodup n).pairwise_of_forall_ne fun c hc c' hc' hne y hy hy' => hne ?_
        obtain ⟨hcn, hyc⟩ := hbelow c hc y hy
        obtain ⟨hcn', hyc'⟩ := hbelow c' hc' y hy'
        exact h.eq_of_below_siblings hcn hcn' hyc hyc'
    · exact List.nodup_nil

theorem nodup_elements : (t.elements s).Nodup := h.nodup_elementsUpTo _ _

theorem length_elements_le : (t.elements s).length ≤ t.size :=
  length_le_size_of_nodup h.nodup_elements fun _ hx =>
    lt_size_of_isElement (h.mem_elements_iff.mp hx).2.1

theorem flatMap_filter_isElement (l : List NodeId) :
    (l.filter t.isElement).flatMap t.elements = l.flatMap t.elements := by
  induction l with
  | nil => rfl
  | cons c cs ih =>
    cases hc : t.isElement c
    · simp [hc, ih, h.elements_of_isElement_eq_false hc]
    · simp [hc, ih]

theorem iterateElements_eq : ∀ (k : Nat) (stack : List NodeId), (∀ n ∈ stack, t.isElement n = true) →
    (stack.reverse.flatMap t.elements).length ≤ k →
    t.iterateElements k stack = stack.reverse.flatMap t.elements := by
  intro k
  induction k with
  | zero =>
    intro stack _ hk
    rw [List.eq_nil_of_length_eq_zero (Nat.le_zero.mp hk)]
    rfl
  | succ k ih =>
    intro stack hel hk
    rcases List.eq_nil_or_concat' stack with rfl | ⟨rest, n, rfl⟩
    · rfl
    · have hn : t.isElement n = true := hel n (by simp)
      have hpending : (rest ++ ((t.children n).filter t.isElement).reverse).reverse.flatMap t.elements =
          (t.children n).flatMap t.elements ++ rest.reverse.flatMap t.elements := by
        rw [List.reverse_append, List.reverse_reverse, List.flatMap_append, h.flatMap_filter_isElement]
      have hwalk : (rest ++ [n]).reverse.flatMap t.elements =
          n :: ((t.children n).flatMap t.elements ++ rest.reverse.flatMap t.elements) := by
        rw [List.reverse_append, List.reverse_singleton, List.singleton_append, List.flatMap_cons,
          h.elements_eq, if_pos hn, List.cons_append]
      have hel' : ∀ m ∈ rest ++ ((t.children n).filter t.isElement).reverse, t.isElement m = true := by
        intro m hm
        rcases List.mem_append.mp hm with hm | hm
        · exact hel m (List.mem_append_left _ hm)
        · exact (List.mem_filter.mp (List.mem_reverse.mp hm)).2
      rw [hwalk] at hk ⊢
      rw [iterateElements_succ (nextElement_concat rest n),
        ih _ hel' (by rw [hpending]; simpa using hk), hpending]

theorem iterateElements_start {k : Nat} (hk : (t.elements s).length ≤ k) :
    t.iterateElements k (if t.isElement s then [s] else []) = t.elements s := by
  split
  · next hs => simpa using h.iterateElements_eq k [s] (by simpa using hs) (by simpa using hk)
  · next hs =>
    rw [h.elements_of_isElement_eq_false (by simpa using hs)]
    cases k <;> rfl

theorem iterElements_eq_elements : t.iterElements s = t.elements s :=
  h.iterateElements_start h.length_elements_le

theorem filter_inSubtree_elements_self : (t.elements s).filter (t.inSubtree s) = t.elements s :=
  List.filter_eq_self.mpr fun _ hy => (h.inSubtree_iff).mpr (h.mem_elements_iff.mp hy).2.2

theorem filter_inSubtree_elements_parent {p : NodeId} (hs : t.parent? s = some p) :
    (t.elements p).filter (t.inSubtree s) = t.elements s := by
  have hsp : s ∈ t.children p := (h.mem_children_iff s p).mpr hs
  rw [h.elements_eq p, if_pos (h.isElement_of_parent? hs)]
  have hp : t.inSubtree s p = false :=
    Bool.eq_false_iff.mpr fun hin => h.not_below_child hs ((h.inSubtree_iff).mp hin)
  rw [List.filter_cons_of_neg (by simp [hp]), List.filter_flatMap]
  refine (flatMap_eq_of_unique (h.children_nodup p) hsp fun c hc hcs => ?_).trans
    h.filter_inSubtree_elements_self
  refine List.filter_eq_nil_iff.mpr fun y hy hin => hcs ?_
  exact h.eq_of_below_siblings ((h.mem_children_iff c p).mp hc) hs (h.mem_elements_iff.mp hy).2.2
    ((h.inSubtree_iff).mp hin)

theorem filter_inSubtree_elements_ancestor {u : NodeId} (hu : t.Ancestor u s) :
    (t.elements u).filter (t.inSubtree s) = t.elements s := by
  induction hu with
  | parent hp => exact h.filter_inSubtree_elements_parent hp
  | @up p n hp _ ih =>
    have hnarrow : ∀ y, (t.inSubtree n y && t.inSubtree p y) = t.inSubtree n y := by
      intro y
      cases hy : t.inSubtree n y
      · rfl
      · have hpy : t.inSubtree p y = true :=
          (h.inSubtree_iff).mpr (.inr (Ancestor.of_below_child hp ((h.inSubtree_iff).mp hy)))
        simp [hpy]
    rw [← h.filter_inSubtree_elements_parent hp, ← ih, List.filter_filter]
    exact List.filter_congr fun y _ => (hnarrow y).symm

end WellFormed
end Tree

namespace Edit

/-- The element iterator yields the subtree of `s` in pre-order, each element once, and queries
follow it. -/
theorem run_elements_documentOrder (es : List Edit) (l : SelectorList) (s : NodeId) :
    let t := run es Tree.empty
    (∀ k, (t.elements s).length ≤ k →
      t.iterateElements k (if t.isElement s then [s] else []) = t.iterElements s) ∧
    t.iterElements s = t.elements s ∧
    t.iterElements s = (if t.isElement s then s :: (t.children s).flatMap t.iterElements else []) ∧
    (∀ x, x ∈ t.iterElements s ↔ t.isElement s = true ∧ t.isElement x = true ∧
      (x = s ∨ t.Ancestor s x)) ∧
    (t.iterElements s).Nodup ∧
    (l.queryAll t s).Sublist (t.iterElements s) ∧
    (∀ x, x ∈ l.queryAll t s ↔ x ∈ t.iterElements s ∧ l.selects t x = true) ∧
    (l.queryAll t s).Nodup ∧
    ((s = NodeId.root ∨ t.Ancestor NodeId.root s) →
      l.queryAll t s = (l.queryAll t NodeId.root).filter (t.inSubtree s)) ∧
    l.queryFirst t s = (l.queryAll t s).head? := by
  intro t
  have h : t.WellFormed := run_wellFormed es Tree.wellFormed_empty
  have hiter : t.iterElements = t.elements := funext fun _ => h.iterElements_eq_elements
  refine ⟨fun k hk => by rw [hiter]; exact h.iterateElements_start hk, by rw [hiter], ?_,
    fun _ => by rw [hiter]; exact h.mem_elements_iff, by rw [hiter]; exact h.nodup_elements,
    List.filter_sublist, fun _ => by simp [SelectorList.queryAll],
    by rw [SelectorList.queryAll, hiter]; exact h.nodup_elements.filter _, fun hs => ?_,
    List.head?_filter.symm⟩
  · rw [hiter]
    exact h.elements_eq s
  · have hsub : (t.elements NodeId.root).filter (t.inSubtree s) = t.elements s := by
      rcases hs with rfl | hs
      · exact h.filter_inSubtree_elements_self
      · exact h.filter_inSubtree_elements_ancestor hs
    simp only [SelectorList.queryAll, hiter, List.filter_filter, ← hsub]
    exact List.filter_congr fun y _ => Bool.and_comm _ _

end Edit
end HtmlQuery
