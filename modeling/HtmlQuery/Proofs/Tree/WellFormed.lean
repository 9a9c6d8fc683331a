import HtmlQuery.Proofs.Tree.Ancestry
import HtmlQuery.Proofs.Html.Drafts

/-! The arena is a tree after any sequence of edits. -/
namespace HtmlQuery
namespace Tree

/-- `n` lies in the subtree of `r`, going down through children lists. -/
inductive Below (t : Tree) (r : NodeId) : NodeId → Prop
  | refl : Below t r r
  | child {m n : NodeId} : Below t r m → n ∈ t.children m → Below t r n

/-- The shape of a tree: the invariant of every arena that edits can reach. -/
structure WellFormed (t : Tree) : Prop where
  mem_children_iff : ∀ c p, c ∈ t.children p ↔ t.parent? c = some p
  children_nodup : ∀ p, (t.children p).Nodup
  lt_size_of_mem : ∀ p c, c ∈ t.children p → c.index < t.size
  root_parent : t.parent? NodeId.root = none
  root_tag : (t.element? NodeId.root).map (·.tag) = some ":root"
  leaf : ∀ n, t.isElement n = false → t.children n = []
  grounded : ∀ n, Grounded t n

namespace WellFormed

variable {t : Tree} (h : WellFormed t)
include h

theorem parent_lt {x q : NodeId} (hx : t.parent? x = some q) : q.index < t.size :=
  lt_size_of_mem_children ((h.mem_children_iff x q).mpr hx)

theorem acyclic (n : NodeId) : ¬ Ancestor t n n := (h.grounded n).not_ancestor_self

theorem mem_ancestors_iff {a n : NodeId} : a ∈ t.ancestors n ↔ Ancestor t a n :=
  Tree.mem_ancestors_iff h.acyclic fun _ _ => h.parent_lt

theorem isDescendantOf_iff {n a : NodeId} : t.isDescendantOf n a = true ↔ Ancestor t a n := by
  simp [isDescendantOf,h.mem_ancestors_iff]

theorem length_ancestors_lt {n : NodeId} (hn : n.index < t.size) :
    (t.ancestors n).length < t.size :=
  length_ancestorsUpTo_lt h.acyclic (fun _ _ => h.parent_lt) hn _

theorem length_ancestors_child {m c : NodeId} (hc : c ∈ t.children m) :
    (t.ancestors c).length = (t.ancestors m).length + 1 := by
  have hp : t.parent? c = some m := (h.mem_children_iff c m).mp hc
  have hnodc : (t.ancestors c).Nodup := nodup_ancestorsUpTo h.acyclic _ _
  have hnodm : (m :: t.ancestors m).Nodup :=
    List.nodup_cons.mpr ⟨fun hm => h.acyclic m (h.mem_ancestors_iff.mp hm),
      nodup_ancestorsUpTo h.acyclic _ _⟩
  have hperm : (t.ancestors c).Perm (m :: t.ancestors m) := by
    refine (List.perm_ext_iff_of_nodup hnodc hnodm).mpr fun a => ?_
    rw [List.mem_cons,h.mem_ancestors_iff,h.mem_ancestors_iff]
    exact ⟨fun ha => ha.eq_or_of_parent hp,fun ha => ha.elim (fun he => he ▸ .parent hp) (.up hp)⟩
  rw [hperm.length_eq,List.length_cons]

theorem isElement_of_parent? {c p : NodeId} (hc : t.parent? c = some p) : t.isElement p = true := by
  cases he : t.isElement p
  · have := h.leaf p he
    rw [← (h.mem_children_iff c p)] at hc
    simp [this] at hc
  · rfl

theorem size_pos : 0 < t.size := by
  have hr := h.root_tag
  cases he : t.element? NodeId.root with
  | none => simp [he] at hr
  | some e => exact lt_size_of_data? (element?_eq_some.mp he)

theorem ancestor_root_of_below {n : NodeId} (hn : Below t NodeId.root n) :
    n = NodeId.root ∨ Ancestor t NodeId.root n := by
  induction hn with
  | refl => exact .inl rfl
  | @child m n _ hmem ih =>
    have hp := (h.mem_children_iff n m).mp hmem
    rcases ih with rfl | hroot
    · exact .inr (.parent hp)
    · exact .inr (.up hp hroot)

theorem of_shape {t' : Tree} (hpar : ∀ m, t'.parent? m = t.parent? m)
    (hch : ∀ m, t'.children m = t.children m) (hsize : t'.size = t.size)
    (hel : ∀ m, t'.isElement m = t.isElement m)
    (htag : (t'.element? NodeId.root).map (·.tag) = (t.element? NodeId.root).map (·.tag)) :
    WellFormed t' where
  mem_children_iff c p := by rw [hch,hpar]; exact h.mem_children_iff c p
  children_nodup p := by rw [hch]; exact h.children_nodup p
  lt_size_of_mem p c hc := by rw [hsize]; exact h.lt_size_of_mem p c (by rwa [← hch])
  root_parent := by rw [hpar]; exact h.root_parent
  root_tag := by rw [htag]; exact h.root_tag
  leaf n hn := by rw [hch]; exact h.leaf n (by rwa [← hel])
  grounded n := (h.grounded n).of_parent?_eq hpar

theorem alloc (d : NodeData) : WellFormed (t.alloc d).1 where
  mem_children_iff c p := by
    simp only [children_alloc,parent?_alloc]
    exact h.mem_children_iff c p
  children_nodup p := by rw [children_alloc]; exact h.children_nodup p
  lt_size_of_mem p c hc := by
    rw [size_alloc]
    have := h.lt_size_of_mem p c (by rwa [children_alloc] at hc)
    omega
  root_parent := by rw [parent?_alloc]; exact h.root_parent
  root_tag := by
    have hlt : NodeId.root.index < t.size := h.size_pos
    simp only [element?,data?_alloc_of_lt _ _ _ hlt]
    exact h.root_tag
  leaf n hn := by
    rw [children_alloc]
    cases hc : t.children n with
    | nil => rfl
    | cons c cs =>
      have hlt := lt_size_of_mem_children (show c ∈ t.children n by simp [hc])
      have hel : t.isElement n = false := by
        simpa [isElement,element?,data?_alloc_of_lt _ _ _ hlt] using hn
      simp [h.leaf n hel] at hc
  grounded n := (h.grounded n).of_parent?_eq (parent?_alloc t d)

theorem of_appendFailure?_eq_none {p c : NodeId} (hf : t.appendFailure? p c = none) :
    t.isElement p = true ∧ c.index < t.size ∧ c ≠ NodeId.root ∧ t.parent? c = none ∧ c ≠ p ∧
      ¬ Ancestor t c p := by
  unfold appendFailure? at hf
  split at hf
  · cases hf
  · next e he =>
    split at hf
    · cases hf
    · next n hn =>
      have hp : t.isElement p = true := isElement_iff.mpr ⟨e,element?_eq_some.mpr he⟩
      by_cases hroot : c = NodeId.root
      · simp [hroot] at hf
      · by_cases hpar : n.parent.isSome
        · simp [hroot,hpar] at hf
        · by_cases hcyc : (c = p || t.isDescendantOf p c) = true
          · simp [hroot,hpar,hcyc] at hf
          · simp only [Bool.or_eq_true,decide_eq_true_eq,not_or] at hcyc
            refine ⟨hp,lt_size_of_get? hn,hroot,?_,hcyc.1,fun ha => hcyc.2 (h.isDescendantOf_iff.mpr ha)⟩
            simpa [parent?,hn] using hpar
  · cases hf

theorem link {p c : NodeId} (hf : t.appendFailure? p c = none) : WellFormed (t.link p c) := by
  obtain ⟨hp,hc,hcroot,hcpar,hcp,hanc⟩ := h.of_appendFailure?_eq_none hf
  have hplt : p.index < t.size := by
    obtain ⟨e,he⟩ := isElement_iff.mp hp
    exact lt_size_of_data? (element?_eq_some.mp he)
  have hpar := fun m => parent?_link t p c m hc
  have hch := fun m => children_link t p c m hplt
  have hcnot : ∀ q, c ∉ t.children q := fun q hq => by
    rw [h.mem_children_iff,hcpar] at hq
    cases hq
  refine ⟨fun c' p' => ?_,fun p' => ?_,fun p' c' hc' => ?_,?_,?_,fun n hn => ?_,?_⟩
  · rw [hch,hpar]
    by_cases h1 : p' = p <;> by_cases h2 : c' = c
    · subst h1 h2; simp
    · simp [h1,h2,h.mem_children_iff]
    · subst h2; simp [h1,hcnot,Ne.symm h1]
    · simp [h1,h2,h.mem_children_iff]
  · rw [hch]
    split
    · refine List.nodup_append.mpr ⟨h.children_nodup p',by simp,fun a ha b hb => ?_⟩
      rw [List.mem_singleton] at hb
      subst hb
      rintro rfl
      exact hcnot p' ha
    · exact h.children_nodup p'
  · rw [size_link]
    rw [hch] at hc'
    split at hc'
    · rcases List.mem_append.mp hc' with hc' | hc'
      · exact h.lt_size_of_mem _ _ hc'
      · simp only [List.mem_singleton] at hc'
        subst hc'
        exact hc
    · exact h.lt_size_of_mem _ _ hc'
  · rw [hpar,if_neg (Ne.symm hcroot)]
    exact h.root_parent
  · rw [element?_link]
    exact h.root_tag
  · rw [isElement_link] at hn
    rw [hch,if_neg (fun he => by rw [he,hp] at hn; cases hn)]
    exact h.leaf n hn
  · -- the child's old chain ended at itself, and the parent's chain does not pass the child
    have hkeep : ∀ x, Grounded t x → x ≠ c → ¬ Ancestor t c x → Grounded (t.link p c) x := by
      intro x hx
      induction hx with
      | top hn => exact fun hxc _ => .top (by rw [hpar,if_neg hxc,hn])
      | @up x q hq _ ih =>
        intro hxc hcx
        refine .up (by rw [hpar,if_neg hxc,hq]) (ih ?_ ?_)
        · rintro rfl
          exact hcx (.parent hq)
        · exact fun hcq => hcx (.up hq hcq)
    have hcg : Grounded (t.link p c) c :=
      .up (by rw [hpar,if_pos rfl]) (hkeep p (h.grounded p) (Ne.symm hcp) hanc)
    intro n
    induction h.grounded n with
    | @top x hx =>
      by_cases hxc : x = c
      · subst hxc; exact hcg
      · exact .top (by rw [hpar,if_neg hxc,hx])
    | @up x q hq _ ih =>
      by_cases hxc : x = c
      · subst hxc; exact hcg
      · exact .up (by rw [hpar,if_neg hxc,hq]) ih

theorem appendChild {p c : NodeId} {t' : Tree} (ha : t.appendChild p c = .ok t') : WellFormed t' := by
  unfold Tree.appendChild at ha
  split at ha
  · cases ha
  · next hf =>
    cases ha
    exact h.link hf

theorem updateElement {id : NodeId} {f : Element → Element} {t' : Tree}
    (hf : ∀ e, (f e).tag = e.tag) (hu : t.updateElement id f = .ok t') : WellFormed t' := by
  refine h.of_shape (updateElement_parent? hu) (updateElement_children hu) (updateElement_size hu)
    (fun m => ?_) ?_
  · simp only [isElement,updateElement_element? hu m]
    split <;> cases t.element? m <;> rfl
  · rw [updateElement_element? hu]
    split
    · cases t.element? NodeId.root <;> simp [hf]
    · rfl

end WellFormed

theorem wellFormed_empty : WellFormed Tree.empty := by
  have hch : ∀ m, Tree.empty.children m = [] := by
    intro ⟨i⟩
    cases i <;> simp [Tree.empty,children,get?]
  have hpar : ∀ m, Tree.empty.parent? m = none := by
    intro ⟨i⟩
    cases i <;> simp [Tree.empty,parent?,get?]
  exact ⟨fun c p => by simp [hch,hpar],fun p => by simp [hch],fun p c hc => by simp [hch] at hc,
    hpar _,rfl,fun n _ => hch n,fun n => .top (hpar n)⟩

end Tree
end HtmlQuery
