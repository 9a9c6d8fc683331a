import Mathlib.Data.List.Nodup
import Mathlib.Data.List.Perm.Subperm
import HtmlQuery.Proofs.Tree.Arena

/-! The ancestors of a node as a relation, and when the bounded walk `ancestors` finds all of them. -/
namespace HtmlQuery
namespace Tree

/-- `a` is a proper ancestor of `n`: the parent of `n`, or an ancestor of that parent. -/
inductive Ancestor (t : Tree) : NodeId → NodeId → Prop
  | parent {a n : NodeId} : t.parent? n = some a → Ancestor t a n
  | up {a p n : NodeId} : t.parent? n = some p → Ancestor t a p → Ancestor t a n

/-- The chain of parents from `n` is finite: it ends at a node that has no parent. -/
inductive Grounded (t : Tree) : NodeId → Prop
  | top {n : NodeId} : t.parent? n = none → Grounded t n
  | up {n p : NodeId} : t.parent? n = some p → Grounded t p → Grounded t n

variable {t : Tree} {a b n p : NodeId}

namespace Ancestor

theorem trans (hab : Ancestor t a b) (hbn : Ancestor t b n) : Ancestor t a n := by
  induction hbn with
  | parent hp => exact .up hp hab
  | up hp _ ih => exact .up hp ih

theorem exists_parent (h : Ancestor t a n) : ∃ p, t.parent? n = some p := by
  cases h with
  | parent hp => exact ⟨_,hp⟩
  | up hp _ => exact ⟨_,hp⟩

theorem eq_or_of_parent (h : Ancestor t a n) (hp : t.parent? n = some p) :
    a = p ∨ Ancestor t a p := by
  cases h with
  | parent hq => exact .inl (Option.some.inj (hq.symm.trans hp))
  | up hq hqa =>
    rw [hp] at hq
    cases hq
    exact .inr hqa

theorem lt_size (hb : ∀ x q, t.parent? x = some q → q.index < t.size) (h : Ancestor t a n) :
    a.index < t.size := by
  induction h with
  | parent hp => exact hb _ _ hp
  | up _ _ ih => exact ih

theorem of_parent?_eq {t' : Tree} (hpar : ∀ m, t'.parent? m = t.parent? m) (h : Ancestor t a n) :
    Ancestor t' a n := by
  induction h with
  | parent hp => exact .parent (by rw [hpar]; exact hp)
  | up hp _ ih => exact .up (by rw [hpar]; exact hp) ih

end Ancestor

theorem Grounded.not_ancestor_self (h : Grounded t n) : ¬ Ancestor t n n := by
  induction h with
  | top hn =>
    intro ha
    obtain ⟨p,hp⟩ := ha.exists_parent
    rw [hn] at hp
    cases hp
  | @up n p hp _ ih =>
    intro ha
    rcases ha.eq_or_of_parent hp with rfl | hnp
    · exact ih (.parent hp)
    · exact ih (Ancestor.trans (.parent hp) hnp)

theorem Grounded.of_parent?_eq {t' : Tree} (hpar : ∀ m, t'.parent? m = t.parent? m)
    (h : Grounded t n) : Grounded t' n := by
  induction h with
  | top hn => exact .top (by rw [hpar]; exact hn)
  | up hp _ ih => exact .up (by rw [hpar]; exact hp) ih

/-! ## The bounded walk -/

theorem mem_ancestorsUpTo (k : Nat) (n : NodeId) :
    a ∈ t.ancestorsUpTo k n → Ancestor t a n := by
  induction k generalizing n with
  | zero => simp [ancestorsUpTo]
  | succ k ih =>
    simp only [ancestorsUpTo]
    split
    · simp
    · next p hp =>
      intro hm
      rcases List.mem_cons.mp hm with rfl | ha
      · exact .parent hp
      · exact .up hp (ih p ha)

theorem ancestor_mem_ancestorsUpTo (k : Nat) (n : NodeId) (h : Ancestor t a n)
    (hk : (t.ancestorsUpTo k n).length < k) : a ∈ t.ancestorsUpTo k n := by
  induction k generalizing n with
  | zero => cases hk
  | succ k ih =>
    obtain ⟨p,hp⟩ := h.exists_parent
    simp only [ancestorsUpTo,hp,List.length_cons,List.mem_cons] at hk ⊢
    rcases h.eq_or_of_parent hp with rfl | hap
    · exact .inl rfl
    · exact .inr (ih p hap (by omega))

theorem nodup_ancestorsUpTo (hacyc : ∀ x, ¬ Ancestor t x x) (k : Nat) (n : NodeId) :
    (t.ancestorsUpTo k n).Nodup := by
  induction k generalizing n with
  | zero => simp [ancestorsUpTo]
  | succ k ih =>
    simp only [ancestorsUpTo]
    split
    · simp
    · next p _ =>
      refine List.nodup_cons.mpr ⟨fun hp => hacyc p (mem_ancestorsUpTo k p hp),ih p⟩

theorem length_le_size_of_nodup {l : List NodeId} (hl : l.Nodup) (hb : ∀ x ∈ l, x.index < t.size) :
    l.length ≤ t.size := by
  have hnodup : (l.map NodeId.index).Nodup := hl.map fun x y hxy => NodeId.index_inj.mp hxy
  have hsub : l.map NodeId.index ⊆ List.range t.size := by
    intro i hi
    obtain ⟨x,hx,rfl⟩ := List.mem_map.mp hi
    exact List.mem_range.mpr (hb x hx)
  simpa using (List.subperm_of_subset hnodup hsub).length_le

theorem length_ancestorsUpTo_lt (hacyc : ∀ x, ¬ Ancestor t x x)
    (hb : ∀ x q, t.parent? x = some q → q.index < t.size) {n : NodeId} (hn : n.index < t.size)
    (k : Nat) : (t.ancestorsUpTo k n).length < t.size := by
  have hnodup : (n :: t.ancestorsUpTo k n).Nodup :=
    List.nodup_cons.mpr ⟨fun hm => hacyc n (mem_ancestorsUpTo _ _ hm), nodup_ancestorsUpTo hacyc _ _⟩
  have hlen := length_le_size_of_nodup hnodup fun x hx => by
    rcases List.mem_cons.mp hx with rfl | hx
    · exact hn
    · exact (mem_ancestorsUpTo _ _ hx).lt_size hb
  simp only [List.length_cons] at hlen
  omega

theorem mem_ancestors_iff (hacyc : ∀ x, ¬ Ancestor t x x)
    (hb : ∀ x q, t.parent? x = some q → q.index < t.size) :
    a ∈ t.ancestors n ↔ Ancestor t a n := by
  refine ⟨mem_ancestorsUpTo _ _,fun h => ancestor_mem_ancestorsUpTo _ _ h ?_⟩
  obtain ⟨p,hp⟩ := h.exists_parent
  exact length_ancestorsUpTo_lt hacyc hb (lt_size_of_parent? hp) _

end Tree
end HtmlQuery
