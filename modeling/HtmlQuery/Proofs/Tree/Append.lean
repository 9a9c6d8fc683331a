import HtmlQuery.Proofs.Tree.Reachable

/-! Attaching a node, exactly. -/
namespace HtmlQuery
namespace Tree

/-- What attaching `c` at the end of the children of `p` needs. -/
structure Attachable (t : Tree) (p c : NodeId) : Prop where
  parent_isElement : t.isElement p = true
  child_lt : c.index < t.size
  child_ne_root : c ≠ NodeId.root
  child_detached : t.parent? c = none
  child_ne_parent : c ≠ p
  not_ancestor : ¬ t.Ancestor c p

variable {t : Tree} {p c : NodeId}

theorem appendFailure?_of_size_le (hp : t.size ≤ p.index) :
    t.appendFailure? p c = some (.unknownNode p) := by
  have hd : t.data? p = none := by simp [data?, get?_eq_none_iff.mpr hp]
  simp [appendFailure?, hd]

theorem appendFailure?_of_not_isElement (hp : p.index < t.size) (he : t.isElement p = false) :
    t.appendFailure? p c = some (.notAnElement p) := by
  unfold appendFailure?
  cases hd : t.data? p with
  | none =>
    have hg : t.get? p = none := by simpa [data?] using hd
    exact absurd (get?_eq_none_iff.mp hg) (Nat.not_le.mpr hp)
  | some x =>
    cases x with
    | element e => simp [isElement, element?, hd] at he
    | text s => rfl
    | comment s => rfl
    | declaration s => rfl

theorem appendFailure?_of_isElement (hp : t.isElement p = true) :
    t.appendFailure? p c =
      if t.size ≤ c.index then some (.unknownNode c)
      else if c = NodeId.root then some .isRoot
      else if (t.parent? c).isSome then some (.alreadyAttached c)
      else if c = p ∨ t.isDescendantOf p c = true then some (.cycle p c)
      else none := by
  obtain ⟨e, he⟩ := isElement_iff.mp hp
  unfold appendFailure?
  rw [element?_eq_some.mp he]
  cases hc : t.get? c with
  | none => simp [get?_eq_none_iff.mp hc]
  | some n =>
    have hlt : ¬ t.size ≤ c.index := Nat.not_le.mpr (lt_size_of_get? hc)
    simp [hlt, parent?, hc]

theorem appendFailure?_of_child_size_le (hp : t.isElement p = true) (hc : t.size ≤ c.index) :
    t.appendFailure? p c = some (.unknownNode c) := by
  rw [appendFailure?_of_isElement hp, if_pos hc]

theorem appendFailure?_of_attached (hp : t.isElement p = true) (hc : c.index < t.size)
    (hroot : c ≠ NodeId.root) (hpar : (t.parent? c).isSome) :
    t.appendFailure? p c = some (.alreadyAttached c) := by
  rw [appendFailure?_of_isElement hp, if_neg (Nat.not_le.mpr hc), if_neg hroot, if_pos hpar]

theorem appendChild_eq_error {e : TreeError} (h : t.appendFailure? p c = some e) :
    t.appendChild p c = .error e := by
  simp [appendChild, h]

namespace WellFormed

variable (h : t.WellFormed)
include h

theorem appendFailure?_eq_none_iff : t.appendFailure? p c = none ↔ t.Attachable p c := by
  refine ⟨fun hf => ?_, fun ha => ?_⟩
  · obtain ⟨hp, hc, hroot, hpar, hcp, hanc⟩ := h.of_appendFailure?_eq_none hf
    exact ⟨hp, hc, hroot, hpar, hcp, hanc⟩
  · have hcyc : ¬ (c = p ∨ t.isDescendantOf p c = true) := by
      rw [h.isDescendantOf_iff]
      exact not_or.mpr ⟨ha.child_ne_parent, ha.not_ancestor⟩
    rw [appendFailure?_of_isElement ha.parent_isElement, if_neg (Nat.not_le.mpr ha.child_lt),
      if_neg ha.child_ne_root, ha.child_detached, if_neg (by simp), if_neg hcyc]

theorem appendChild_eq_ok_iff {t' : Tree} :
    t.appendChild p c = .ok t' ↔ t.Attachable p c ∧ t' = t.link p c := by
  rw [← h.appendFailure?_eq_none_iff]
  unfold Tree.appendChild
  cases t.appendFailure? p c with
  | none => simp [eq_comm]
  | some e => simp

theorem appendFailure?_root (hp : t.isElement p = true) :
    t.appendFailure? p NodeId.root = some .isRoot := by
  have hlt : ¬ t.size ≤ NodeId.root.index := Nat.not_le.mpr h.size_pos
  rw [appendFailure?_of_isElement hp, if_neg hlt, if_pos rfl]

theorem appendFailure?_cycle (hp : t.isElement p = true) (hc : c.index < t.size)
    (hroot : c ≠ NodeId.root) (hpar : t.parent? c = none) (hcyc : c = p ∨ t.Ancestor c p) :
    t.appendFailure? p c = some (.cycle p c) := by
  rw [appendFailure?_of_isElement hp, if_neg (Nat.not_le.mpr hc), if_neg hroot, hpar,
    if_neg (by simp), if_pos (by rwa [h.isDescendantOf_iff])]

end WellFormed

theorem Attachable.link_frame (ha : t.Attachable p c) :
    (t.link p c).size = t.size ∧ (∀ m, (t.link p c).data? m = t.data? m) ∧
      (∀ m, (t.link p c).children m = if m = p then t.children p ++ [c] else t.children m) ∧
      ∀ m, (t.link p c).parent? m = if m = c then some p else t.parent? m := by
  have hp : p.index < t.size := by
    obtain ⟨e, he⟩ := isElement_iff.mp ha.parent_isElement
    exact lt_size_of_data? (element?_eq_some.mp he)
  refine ⟨size_link t p c, data?_link t p c, fun m => ?_, fun m => parent?_link t p c m ha.child_lt⟩
  rw [children_link t p c m hp]
  split
  · next hm => rw [hm]
  · rfl

end Tree

namespace Edit

/-- `appendChild` succeeds exactly when the node can be attached, and otherwise reports the first
failing check and changes nothing. -/
theorem run_appendChild_exact (es : List Edit) (p c : NodeId) :
    let t := run es Tree.empty
    ((∃ t', t.appendChild p c = .ok t') ↔ t.Attachable p c) ∧
    (t.size ≤ p.index → t.appendChild p c = .error (.unknownNode p)) ∧
    (p.index < t.size → t.isElement p = false → t.appendChild p c = .error (.notAnElement p)) ∧
    (t.isElement p = true → t.size ≤ c.index → t.appendChild p c = .error (.unknownNode c)) ∧
    (t.isElement p = true → c = NodeId.root → t.appendChild p c = .error .isRoot) ∧
    (t.isElement p = true → c.index < t.size → c ≠ NodeId.root → (t.parent? c).isSome →
      t.appendChild p c = .error (.alreadyAttached c)) ∧
    (t.isElement p = true → c.index < t.size → c ≠ NodeId.root → t.parent? c = none →
      (c = p ∨ t.Ancestor c p) → t.appendChild p c = .error (.cycle p c)) ∧
    (∀ e, t.appendChild p c = .error e → (Edit.appendChild p c).apply t = t) ∧
    ∀ t', t.appendChild p c = .ok t' →
      t'.size = t.size ∧ (∀ m, t'.data? m = t.data? m) ∧
      (∀ m, t'.children m = if m = p then t.children p ++ [c] else t.children m) ∧
      ∀ m, t'.parent? m = if m = c then some p else t.parent? m := by
  intro t
  have h : t.WellFormed := run_wellFormed es Tree.wellFormed_empty
  refine ⟨⟨fun ⟨t', ht'⟩ => ((h.appendChild_eq_ok_iff).mp ht').1,
      fun ha => ⟨_, (h.appendChild_eq_ok_iff).mpr ⟨ha, rfl⟩⟩⟩,
    fun hp => Tree.appendChild_eq_error (Tree.appendFailure?_of_size_le hp),
    fun hp he => Tree.appendChild_eq_error (Tree.appendFailure?_of_not_isElement hp he),
    fun hp hc => Tree.appendChild_eq_error (Tree.appendFailure?_of_child_size_le hp hc),
    fun hp hroot => hroot ▸ Tree.appendChild_eq_error (h.appendFailure?_root hp),
    fun hp hc hroot hpar => Tree.appendChild_eq_error (Tree.appendFailure?_of_attached hp hc hroot hpar),
    fun hp hc hroot hpar hcyc => Tree.appendChild_eq_error (h.appendFailure?_cycle hp hc hroot hpar hcyc),
    fun e he => by simp [apply, he], fun t' ht' => ?_⟩
  obtain ⟨ha, rfl⟩ := (h.appendChild_eq_ok_iff).mp ht'
  exact ha.link_frame

end Edit
end HtmlQuery
