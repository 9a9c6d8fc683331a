import Mathlib.Data.List.TakeWhile
import HtmlQuery.Proofs.Selector.Semantics

/-! The element siblings of a node, found in two ways. -/
namespace HtmlQuery
namespace Tree

variable {t : Tree} {n p : NodeId}

/-! ## Cutting a list at a node -/

section Cut
variable {l before after : List NodeId}

theorem takeWhile_ne_of_not_mem (h : n ∉ l) : l.takeWhile (· != n) = l :=
  List.takeWhile_eq_self_iff.mpr fun _ ha => by simpa using ne_of_mem_of_not_mem ha h

theorem dropWhile_ne_of_not_mem (h : n ∉ l) : l.dropWhile (· != n) = [] :=
  List.dropWhile_eq_nil_iff.mpr fun _ ha => by simpa using ne_of_mem_of_not_mem ha h

theorem dropWhile_ne_split (h : n ∉ before) :
    (before ++ n :: after).dropWhile (· != n) = n :: after := by
  rw [List.dropWhile_append, dropWhile_ne_of_not_mem h, List.isEmpty_nil, if_pos rfl]
  simp

theorem find?_reverse (f : NodeId → Bool) (l : List NodeId) :
    l.reverse.find? f = (l.filter f).getLast? := by
  rw [← List.head?_filter, List.filter_reverse, List.head?_reverse]

end Cut

/-! ## The helpers, each cut once -/

section Parentless
variable (h : t.parent? n = none)
include h

theorem elementSiblings_of_parent?_eq_none (b : Bool) : t.elementSiblings n b = [] := by
  simp [elementSiblings, h]

theorem previousElementSiblings_of_parent?_eq_none : t.previousElementSiblings n = [] := by
  simp [previousElementSiblings, elementSiblings_of_parent?_eq_none h]

theorem previousElementSibling?_of_parent?_eq_none : t.previousElementSibling? n = none := by
  simp [previousElementSibling?, h]

theorem siblings_of_parent?_eq_none :
    (∀ b, t.elementSiblings n b = []) ∧ t.previousElementSiblings n = [] ∧
      t.nextElementSiblings n = [] ∧ t.previousElementSibling? n = none ∧
      t.nextElementSibling? n = none :=
  ⟨elementSiblings_of_parent?_eq_none h, previousElementSiblings_of_parent?_eq_none h,
    by simp [nextElementSiblings, elementSiblings_of_parent?_eq_none h],
    previousElementSibling?_of_parent?_eq_none h, by simp [nextElementSibling?, h]⟩

end Parentless

section Split
variable {before after : List NodeId} (hp : t.parent? n = some p)
  (hcs : t.children p = before ++ n :: after)
include hp hcs

theorem elementSiblings_split (b : Bool) : t.elementSiblings n b =
    (before ++ n :: after).filter fun c => t.isElement c && !(b && c == n) := by
  simp only [elementSiblings, hp, hcs]

theorem previousElementSibling?_split (hb : n ∉ before) :
    t.previousElementSibling? n = (before.filter t.isElement).getLast? := by
  simp only [previousElementSibling?, hp, Option.bind_eq_bind, Option.bind_some, hcs]
  rw [if_pos (by simp), Selector.takeWhile_ne_split hb, find?_reverse]

theorem nextElementSibling?_split (hb : n ∉ before) :
    t.nextElementSibling? n = (after.filter t.isElement).head? := by
  simp only [nextElementSibling?, hp, Option.bind_eq_bind, Option.bind_some, hcs,
    dropWhile_ne_split hb, List.head?_filter]

theorem elementSiblings_skipSelf_split (hb : n ∉ before) (ha : n ∉ after) :
    t.elementSiblings n true = (before ++ after).filter t.isElement := by
  have hkeep : ∀ l : List NodeId, n ∉ l →
      l.filter (fun c => t.isElement c && !(c == n)) = l.filter t.isElement := by
    intro l hl
    refine List.filter_congr fun c hc => ?_
    simp [ne_of_mem_of_not_mem hc hl]
  rw [elementSiblings_split hp hcs]
  simp only [Bool.true_and, List.filter_append, List.filter_cons, beq_self_eq_true, Bool.not_true,
    Bool.and_false, hkeep before hb, hkeep after ha]
  rfl

theorem elementSiblings_of_isElement (hb : n ∉ before) (hn : t.isElement n = true) :
    t.previousElementSiblings n = before.filter t.isElement ∧
      t.nextElementSiblings n = after.filter t.isElement := by
  have hsplit := elementSiblings_split hp hcs false
  rw [Selector.filter_isElement_split hn] at hsplit
  have hbf : n ∉ before.filter t.isElement := fun hm => hb (List.mem_filter.mp hm).1
  constructor
  · rw [previousElementSiblings, hsplit, Selector.takeWhile_ne_split hbf]
  · rw [nextElementSiblings, hsplit, dropWhile_ne_split hbf]

theorem elementSiblings_of_not_isElement (hn : t.isElement n = false) :
    t.previousElementSiblings n = (before ++ after).filter t.isElement ∧
      t.nextElementSiblings n = [] := by
  have hsplit : t.elementSiblings n false = (before ++ after).filter t.isElement := by
    rw [elementSiblings_split hp hcs]
    simp [List.filter_append, hn]
  have hout : n ∉ (before ++ after).filter t.isElement := fun hm => by
    rw [(List.mem_filter.mp hm).2] at hn
    cases hn
  constructor
  · rw [previousElementSiblings, hsplit, takeWhile_ne_of_not_mem hout]
  · rw [nextElementSiblings, hsplit, dropWhile_ne_of_not_mem hout]

end Split

theorem WellFormed.not_mem_sides (hwf : t.WellFormed) {before after : List NodeId}
    (hcs : t.children p = before ++ n :: after) : n ∉ before ∧ n ∉ after := by
  have hnd := hwf.children_nodup p
  rw [hcs, List.nodup_append] at hnd
  exact ⟨fun hm => hnd.2.2 n hm n List.mem_cons_self rfl, (List.nodup_cons.mp hnd.2.1).1⟩

/-- The sibling helpers cut the children at the node, but for the lists at a non-element. -/
theorem run_elementSiblings_cut (es : List Edit) (n : NodeId) :
    let t := Edit.run es Tree.empty
    (t.parent? n = none →
      (∀ b, t.elementSiblings n b = []) ∧ t.previousElementSiblings n = [] ∧
        t.nextElementSiblings n = [] ∧ t.previousElementSibling? n = none ∧
        t.nextElementSibling? n = none) ∧
    ∀ p before after, t.parent? n = some p → t.children p = before ++ n :: after →
      t.elementSiblings n false = (t.children p).filter t.isElement ∧
      t.elementSiblings n true = (before ++ after).filter t.isElement ∧
      t.previousElementSibling? n = (before.filter t.isElement).getLast? ∧
      t.nextElementSibling? n = (after.filter t.isElement).head? ∧
      (t.isElement n = true → t.previousElementSiblings n = before.filter t.isElement ∧
        t.nextElementSiblings n = after.filter t.isElement) ∧
      (t.isElement n = false → t.previousElementSiblings n = (before ++ after).filter t.isElement ∧
        t.nextElementSiblings n = []) := by
  intro t
  have hwf : t.WellFormed := Edit.run_wellFormed es Tree.wellFormed_empty
  refine ⟨siblings_of_parent?_eq_none, fun p before after hp hcs => ?_⟩
  obtain ⟨hb, ha⟩ := hwf.not_mem_sides hcs
  have hall : t.elementSiblings n false = (t.children p).filter t.isElement := by
    rw [elementSiblings_split hp hcs, hcs]
    simp
  exact ⟨hall, elementSiblings_skipSelf_split hp hcs hb ha, previousElementSibling?_split hp hcs hb,
    nextElementSibling?_split hp hcs hb, elementSiblings_of_isElement hp hcs hb,
    elementSiblings_of_not_isElement hp hcs⟩

/-- At a text between two elements, both elements count as siblings before it. -/
theorem previousElementSiblings_text_takes_all :
    let t := Edit.run [.parseFragment {} NodeId.root "<p><a></a>x<b></b></p>"] Tree.empty
    t.parent? ⟨3⟩ = some ⟨1⟩ ∧ t.children ⟨1⟩ = [⟨2⟩] ++ ⟨3⟩ :: [⟨4⟩] ∧
      t.isElement ⟨2⟩ = true ∧ t.isElement ⟨3⟩ = false ∧ t.isElement ⟨4⟩ = true ∧
      t.previousElementSibling? ⟨3⟩ = some ⟨2⟩ ∧ t.nextElementSibling? ⟨3⟩ = some ⟨4⟩ ∧
      t.previousElementSiblings ⟨3⟩ = [⟨2⟩, ⟨4⟩] ∧ t.nextElementSiblings ⟨3⟩ = [] := by
  decide +kernel

end Tree
end HtmlQuery
