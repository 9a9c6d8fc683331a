import HtmlQuery.Tree.Basic

/-! What each edit of the arena does to the parent, the children and the data of every node. -/
namespace HtmlQuery

theorem NodeId.index_inj {m n : NodeId} : m.index = n.index ↔ m = n := by
  cases m; cases n; simp

namespace Tree

variable {t t' : Tree} {p c m : NodeId}

theorem get?_eq_none_iff : t.get? m = none ↔ t.size ≤ m.index := by
  simp [get?,size]

theorem lt_size_of_get? {n : Node} (h : t.get? m = some n) : m.index < t.size := by
  rcases Nat.lt_or_ge m.index t.size with hm | hm
  · exact hm
  · rw [get?_eq_none_iff.mpr hm] at h
    cases h

@[simp] theorem parent?_of_size_le (h : t.size ≤ m.index) : t.parent? m = none := by
  simp [parent?,get?_eq_none_iff.mpr h]

@[simp] theorem children_of_size_le (h : t.size ≤ m.index) : t.children m = [] := by
  simp [children,get?_eq_none_iff.mpr h]

theorem lt_size_of_parent? {q : NodeId} (h : t.parent? m = some q) : m.index < t.size := by
  rcases Nat.lt_or_ge m.index t.size with hm | hm
  · exact hm
  · rw [parent?_of_size_le hm] at h
    cases h

theorem lt_size_of_mem_children (h : c ∈ t.children m) : m.index < t.size := by
  rcases Nat.lt_or_ge m.index t.size with hm | hm
  · exact hm
  · rw [children_of_size_le hm] at h
    cases h

theorem lt_size_of_data? {x : NodeData} (h : t.data? m = some x) : m.index < t.size := by
  obtain ⟨n,hn,-⟩ := Option.map_eq_some_iff.mp h
  exact lt_size_of_get? hn

theorem isElement_iff : t.isElement m = true ↔ ∃ e, t.element? m = some e := by
  simp [isElement,Option.isSome_iff_exists]

theorem element?_eq_some {e : Element} : t.element? m = some e ↔ t.data? m = some (.element e) := by
  unfold element?
  split <;> simp_all

theorem lt_size_of_isElement (h : t.isElement m = true) : m.index < t.size := by
  obtain ⟨e, he⟩ := isElement_iff.mp h
  exact lt_size_of_data? (element?_eq_some.mp he)

/-! ## Allocation -/

section Alloc
variable (t : Tree) (d : NodeData) (m : NodeId)

@[simp] theorem size_alloc : (t.alloc d).1.size = t.size+1 := by
  simp [alloc,size]

@[simp] theorem alloc_snd : (t.alloc d).2 = ⟨t.size⟩ := rfl

theorem get?_alloc :
    (t.alloc d).1.get? m = if m.index = t.size then some { data := d } else t.get? m := by
  simp only [alloc,get?,size]
  exact Array.getElem?_push

@[simp] theorem parent?_alloc : (t.alloc d).1.parent? m = t.parent? m := by
  by_cases h : m.index = t.size
  · have hn : t.get? m = none := get?_eq_none_iff.mpr (Nat.le_of_eq h.symm)
    simp [parent?,get?_alloc,h,hn]
  · simp [parent?,get?_alloc,h]

@[simp] theorem children_alloc : (t.alloc d).1.children m = t.children m := by
  by_cases h : m.index = t.size
  · rw [children_of_size_le (Nat.le_of_eq h.symm)]
    simp [children,get?_alloc,h]
  · simp [children,get?_alloc,h]

theorem data?_alloc :
    (t.alloc d).1.data? m = if m.index = t.size then some d else t.data? m := by
  rw [data?,get?_alloc]
  split <;> simp [data?]

theorem data?_alloc_of_lt (h : m.index < t.size) : (t.alloc d).1.data? m = t.data? m := by
  rw [data?_alloc,if_neg (by omega)]

end Alloc

/-! ## Linking a child to a parent -/

section Link
variable (t : Tree) (p c m : NodeId)

@[simp] theorem size_link : (t.link p c).size = t.size := by
  simp [link,size]

theorem get?_link : (t.link p c).get? m = (t.get? m).map fun n =>
    { n with children := if m = p then n.children.push c else n.children,
             parent := if m = c then some p else n.parent } := by
  simp only [link,get?,Array.getElem?_modify,NodeId.index_inj]
  by_cases hp : p = m <;> by_cases hc : c = m <;> cases t.nodes[m.index]? <;>
    simp [hp,hc,Eq.comm]

@[simp] theorem data?_link : (t.link p c).data? m = t.data? m := by
  simp only [data?,get?_link]
  cases t.get? m <;> rfl

@[simp] theorem element?_link : (t.link p c).element? m = t.element? m := by
  simp [element?]

@[simp] theorem isElement_link : (t.link p c).isElement m = t.isElement m := by
  simp [isElement]

theorem parent?_link (hc : c.index < t.size) :
    (t.link p c).parent? m = if m = c then some p else t.parent? m := by
  rw [parent?,get?_link]
  by_cases h : m = c
  · subst h
    obtain ⟨n,hn⟩ := Option.isSome_iff_exists.mp (by simpa [get?,size] using hc :
      (t.get? m).isSome)
    simp [hn]
  · cases hm : t.get? m <;> simp [h,parent?,hm]

theorem children_link (hp : p.index < t.size) :
    (t.link p c).children m = if m = p then t.children m ++ [c] else t.children m := by
  rw [children,get?_link]
  by_cases h : m = p
  · subst h
    obtain ⟨n,hn⟩ := Option.isSome_iff_exists.mp (by simpa [get?,size] using hp :
      (t.get? m).isSome)
    simp [hn,children]
  · cases hm : t.get? m <;> simp [h,children,hm]

end Link

/-! ## Changing an element -/

theorem updateElement_ok {id : NodeId} {f : Element → Element}
    (h : t.updateElement id f = .ok t') :
    ∃ e, t.element? id = some e ∧
      ∀ m, t'.get? m = if m = id then (t.get? m).map ({ · with data := .element (f e) })
        else t.get? m := by
  unfold updateElement at h
  split at h
  · cases h
  · next e he =>
    cases h
    refine ⟨e,element?_eq_some.mpr he,fun m => ?_⟩
    simp only [get?,Array.getElem?_modify,NodeId.index_inj]
    by_cases hm : m = id
    · subst hm
      have hd : (t.get? m).map (·.data) = some (.element e) := he
      simp only [get?] at hd
      cases hn : t.nodes[m.index]? with
      | none => simp [hn] at hd
      | some n =>
        simp only [hn,Option.map_some,Option.some.injEq] at hd
        simp [hd]
    · simp [hm,Ne.symm hm]
  · cases h

theorem updateElement_parent? {id : NodeId} {f : Element → Element}
    (h : t.updateElement id f = .ok t') (m : NodeId) : t'.parent? m = t.parent? m := by
  obtain ⟨e,-,hget⟩ := updateElement_ok h
  simp only [parent?,hget m]
  split <;> cases t.get? m <;> rfl

theorem updateElement_children {id : NodeId} {f : Element → Element}
    (h : t.updateElement id f = .ok t') (m : NodeId) : t'.children m = t.children m := by
  obtain ⟨e,-,hget⟩ := updateElement_ok h
  by_cases hm : m = id
  · simp only [children,hget m,if_pos hm]
    cases t.get? m <;> rfl
  · simp only [children,hget m,if_neg hm]

theorem updateElement_size {id : NodeId} {f : Element → Element}
    (h : t.updateElement id f = .ok t') : t'.size = t.size := by
  unfold updateElement at h
  split at h <;> cases h
  simp [size]

theorem updateElement_element? {id : NodeId} {f : Element → Element}
    (h : t.updateElement id f = .ok t') (m : NodeId) :
    t'.element? m = if m = id then (t.element? m).map f else t.element? m := by
  obtain ⟨e,he,hget⟩ := updateElement_ok h
  by_cases hm : m = id
  · subst hm
    obtain ⟨n,hn,hnd⟩ := Option.map_eq_some_iff.mp (element?_eq_some.mp he)
    rw [if_pos rfl,he]
    simp [element?,data?,hget m,hn]
  · simp only [element?,data?,hget m,if_neg hm]

end Tree
end HtmlQuery
