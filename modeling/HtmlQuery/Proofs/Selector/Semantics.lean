import HtmlQuery.Proofs.Tree.Reachable
import HtmlQuery.Selector.Match

/-! The relational reading of a selector chain, and soundness of the matcher with respect to it. -/
namespace HtmlQuery
namespace Selector
open HtmlQuery.Tree

/-- `n` is an element and passes the conditions of `l`. -/
def Passes (t : Tree) (l : Link) (n : NodeId) : Prop :=
  ∃ e, t.element? n = some e ∧ l.accepts e = true

/-- `m` stands before `n` among the children of the parent of `n`, with `mid` between them. -/
def Precedes (t : Tree) (m n : NodeId) (mid : List NodeId) : Prop :=
  ∃ p pre post, t.parent? n = some p ∧ t.children p = pre ++ m :: mid ++ n :: post

/-- How the element `m` of the link before relates to the element `n` of a link. -/
def Combinator.Relates (t : Tree) : Combinator → NodeId → NodeId → Prop
  | .descendant, m, n => Ancestor t m n
  | .child, m, n => t.parent? n = some m
  | .nextSibling, m, n => ∃ mid, Precedes t m n mid ∧ ∀ x ∈ mid, t.isElement x = false
  | .subsequentSibling, m, n => ∃ mid, Precedes t m n mid

/-- The links, head first, match at `n`. -/
def LinksMatch (t : Tree) : List Link → NodeId → Prop
  | [], _ => True
  | [l], n => Passes t l n
  | l :: l' :: ls, n => Passes t l n ∧ ∃ m, l.combinator.Relates t m n ∧ LinksMatch t (l' :: ls) m

/-- The chain matches at `n` in the relational reading. -/
def Chain.Matches (c : Chain) (t : Tree) (n : NodeId) : Prop := LinksMatch t c.links n

variable {t : Tree}

theorem Passes.isElement {l : Link} {n : NodeId} (h : Passes t l n) : t.isElement n = true :=
  isElement_iff.mpr (let ⟨e,he,_⟩ := h; ⟨e,he⟩)

theorem passes_iff {l : Link} {n : NodeId} : Passes t l n ↔ (t.element? n).any l.accepts = true := by
  simp [Passes,Option.any_eq_true]

instance (t : Tree) (l : Link) (n : NodeId) : Decidable (Passes t l n) :=
  decidable_of_iff _ passes_iff.symm

theorem LinksMatch.passes {l : Link} {ls : List Link} {n : NodeId} (h : LinksMatch t (l :: ls) n) :
    Passes t l n := by
  cases ls with
  | nil => exact h
  | cons _ _ => exact h.1

/-! ## The matcher's search steps -/

theorem firstAccepting_sound {l : Link} {cands : List NodeId} {m : NodeId}
    (h : firstAccepting t l cands = some m) : m ∈ cands ∧ Passes t l m := by
  induction cands with
  | nil => cases h
  | cons c cs ih =>
    simp only [firstAccepting] at h
    split at h
    · cases h
    · next e he =>
      split at h
      · next hacc =>
        cases h
        exact ⟨List.mem_cons_self,e,he,hacc⟩
      · obtain ⟨hm,hp⟩ := ih h
        exact ⟨List.mem_cons_of_mem _ hm,hp⟩

theorem exists_split_first {l : List NodeId} {n : NodeId} (h : n ∈ l) :
    ∃ pre post, l = pre ++ n :: post ∧ n ∉ pre := by
  induction l with
  | nil => cases h
  | cons x xs ih =>
    by_cases hx : x = n
    · exact ⟨[],xs,by rw [hx]; rfl,by simp⟩
    · obtain ⟨pre,post,rfl,hn⟩ := ih (by simpa [Ne.symm hx] using h)
      exact ⟨x :: pre,post,rfl,by simp [hn,Ne.symm hx]⟩

theorem takeWhile_ne_split {pre post : List NodeId} {n : NodeId} (hn : n ∉ pre) :
    (pre ++ n :: post).takeWhile (· != n) = pre := by
  rw [List.takeWhile_append_of_pos (fun a ha => by simpa using ne_of_mem_of_not_mem ha hn)]
  simp

theorem previousElementSibling?_sound {n s : NodeId} (h : t.previousElementSibling? n = some s) :
    ∃ mid, Precedes t s n mid ∧ ∀ x ∈ mid, t.isElement x = false := by
  simp only [previousElementSibling?,Option.bind_eq_bind,Option.bind_eq_some_iff] at h
  obtain ⟨p,hp,h⟩ := h
  split at h
  · next hmem =>
    obtain ⟨pre,post,hcs,hn⟩ := exists_split_first (List.contains_iff_mem.mp hmem)
    rw [hcs,takeWhile_ne_split hn] at h
    obtain ⟨-,as,bs,hsplit,has⟩ := List.find?_eq_some_iff_append.mp h
    have hpre : pre = bs.reverse ++ s :: as.reverse := by
      rw [← List.reverse_reverse pre,hsplit]
      simp
    refine ⟨as.reverse,⟨p,bs.reverse,post,hp,by rw [hcs,hpre]⟩,fun x hx => ?_⟩
    simpa using has x (List.mem_reverse.mp hx)
  · cases h

theorem filter_isElement_split {pre post : List NodeId} {n : NodeId} (hn : t.isElement n = true) :
    (pre ++ n :: post).filter (fun c => t.isElement c && !(false && c == n)) =
      pre.filter t.isElement ++ n :: post.filter t.isElement := by
  simp [List.filter_append,hn]

theorem mem_previousElementSiblings {n s : NodeId} (h : t.WellFormed) (hn : t.isElement n = true)
    (hs : s ∈ t.previousElementSiblings n) : ∃ mid, Precedes t s n mid := by
  simp only [previousElementSiblings,elementSiblings] at hs
  split at hs
  · cases hs
  · next p hp =>
    obtain ⟨pre,post,hcs,hnpre⟩ := exists_split_first ((h.mem_children_iff n p).mpr hp)
    rw [hcs,filter_isElement_split hn,
      takeWhile_ne_split (fun hm => hnpre (List.mem_filter.mp hm).1)] at hs
    obtain ⟨as,bs,rfl⟩ := List.append_of_mem (List.mem_filter.mp hs).1
    exact ⟨bs,p,as,post,hp,by simp [hcs]⟩

theorem matchLinks_sound (h : t.WellFormed) (links : List Link) (n : NodeId) (climb : Bool)
    (hm : matchLinks t links n climb = true) :
    ∃ m, (m = n ∨ climb = true ∧ Ancestor t m n) ∧ LinksMatch t links m := by
  induction links generalizing n climb with
  | nil => exact ⟨n,.inl rfl,trivial⟩
  | cons l before ih =>
    have hhead : ∀ m, firstAccepting t l (if climb then n :: t.ancestors n else [n]) = some m →
        (m = n ∨ climb = true ∧ Ancestor t m n) ∧ Passes t l m := by
      intro m hfirst
      obtain ⟨hmem,hpass⟩ := firstAccepting_sound hfirst
      refine ⟨?_,hpass⟩
      cases climb with
      | false => exact .inl (List.mem_singleton.mp hmem)
      | true =>
        rcases List.mem_cons.mp hmem with rfl | hanc
        · exact .inl rfl
        · exact .inr ⟨rfl,mem_ancestorsUpTo _ _ hanc⟩
    cases before with
    | nil =>
      simp only [matchLinks] at hm
      split at hm
      · cases hm
      · next m hfirst => exact ⟨m,hhead m hfirst⟩
    | cons l' ls =>
      simp only [matchLinks] at hm
      split at hm
      · cases hm
      · next m hfirst =>
        obtain ⟨hmn,hpass⟩ := hhead m hfirst
        refine ⟨m,hmn,hpass,?_⟩
        split at hm
        · next hcomb =>
          split at hm
          · next p hp =>
            obtain ⟨m',hm',hmatch⟩ := ih p true hm
            refine ⟨m',?_,hmatch⟩
            rw [hcomb]
            rcases hm' with rfl | ⟨-,hanc⟩
            · exact .parent hp
            · exact .up hp hanc
          · cases hm
        · next hcomb =>
          split at hm
          · next p hp =>
            obtain ⟨m',hm',hmatch⟩ := ih p false hm
            rcases hm' with rfl | ⟨hf,-⟩
            · exact ⟨m',by rw [hcomb]; exact hp,hmatch⟩
            · cases hf
          · cases hm
        · next hcomb =>
          split at hm
          · next s hs =>
            obtain ⟨m',hm',hmatch⟩ := ih s false hm
            rcases hm' with rfl | ⟨hf,-⟩
            · exact ⟨m',by rw [hcomb]; exact previousElementSibling?_sound hs,hmatch⟩
            · cases hf
          · cases hm
        · next hcomb =>
          obtain ⟨s,hs,hsm⟩ := List.any_eq_true.mp hm
          obtain ⟨m',hm',hmatch⟩ := ih s false hsm
          rcases hm' with rfl | ⟨hf,-⟩
          · exact ⟨m',by rw [hcomb]; exact mem_previousElementSiblings h hpass.isElement hs,hmatch⟩
          · cases hf

end Selector

namespace SelectorList
open Selector

/-- A selector list selects a node only when one of its chains matches there relationally. -/
theorem selects_sound (es : List Edit) (L : SelectorList) (n : NodeId)
    (h : L.selects (Edit.run es Tree.empty) n = true) :
    ∃ c ∈ L.chains, c.Matches (Edit.run es Tree.empty) n := by
  obtain ⟨c,hc,hsel⟩ := List.any_eq_true.mp h
  obtain ⟨m,hm,hmatch⟩ :=
    matchLinks_sound (Edit.run_wellFormed es Tree.wellFormed_empty) c.links n false hsel
  rcases hm with rfl | ⟨hf,-⟩
  · exact ⟨c,hc,hmatch⟩
  · cases hf

/-- `ul > li` at the item of a list. -/
theorem selects_sound_list_item :
    let es := [Edit.createElement "ul" [],.createElement "li" [],.appendChild NodeId.root ⟨1⟩,
      .appendChild ⟨1⟩ ⟨2⟩]
    let L : SelectorList := ⟨[⟨⟨"li",.child,[.byType "li"]⟩,[⟨"ul",.descendant,[.byType "ul"]⟩]⟩]⟩
    L.selects (Edit.run es Tree.empty) ⟨2⟩ = true ∧
      ∃ c ∈ L.chains, c.Matches (Edit.run es Tree.empty) ⟨2⟩ :=
  ⟨by decide,selects_sound _ _ _ (by decide)⟩

end SelectorList
end HtmlQuery
