import HtmlQuery.Proofs.Tree.Reachable

/-! Attribute maps keep their entries in strictly increasing order of name. -/
namespace HtmlQuery
namespace Attrs

/-- The entries in strictly increasing order of name. -/
def Sorted (a : Attrs) : Prop := a.entries.Pairwise (·.1 < ·.1)

theorem mem_insertEntry {name : String} {v : AttrValue} {l : List (String × AttrValue)}
    {p : String × AttrValue} (hp : p ∈ insertEntry name v l) : p.1 = name ∨ p ∈ l := by
  induction l with
  | nil => simp_all [insertEntry]
  | cons q rest ih =>
    obtain ⟨k,w⟩ := q
    simp only [insertEntry] at hp
    split at hp
    · rcases List.mem_cons.mp hp with rfl | hp
      · exact .inl rfl
      · exact .inr (List.mem_cons_of_mem _ hp)
    · split at hp
      · rcases List.mem_cons.mp hp with rfl | hp
        · exact .inl rfl
        · exact .inr hp
      · rcases List.mem_cons.mp hp with rfl | hp
        · exact .inr List.mem_cons_self
        · exact (ih hp).imp_right (List.mem_cons_of_mem _)

theorem pairwise_insertEntry (name : String) (v : AttrValue) {l : List (String × AttrValue)}
    (h : l.Pairwise (·.1 < ·.1)) : (insertEntry name v l).Pairwise (·.1 < ·.1) := by
  induction l with
  | nil => simp [insertEntry]
  | cons q rest ih =>
    obtain ⟨k,w⟩ := q
    rw [List.pairwise_cons] at h
    simp only [insertEntry]
    split
    · next hk =>
      subst hk
      exact List.pairwise_cons.mpr ⟨h.1,h.2⟩
    · split
      · next _ hlt =>
        refine List.pairwise_cons.mpr ⟨fun p hp => ?_,List.pairwise_cons.mpr h⟩
        rcases List.mem_cons.mp hp with rfl | hp
        · exact hlt
        · exact Std.lt_trans hlt (h.1 p hp)
      · next hne hlt =>
        have hk : k < name := Std.lt_of_le_of_ne (Std.not_lt.mp hlt) (Ne.symm hne)
        refine List.pairwise_cons.mpr ⟨fun p hp => ?_,ih h.2⟩
        rcases mem_insertEntry hp with hp | hp
        · rw [hp]; exact hk
        · exact h.1 p hp

theorem Sorted.insert {a : Attrs} (h : a.Sorted) (name : String) (v : AttrValue) :
    (a.insert name v).Sorted :=
  pairwise_insertEntry name v h

theorem eraseEntry_sublist (name : String) (l : List (String × AttrValue)) :
    (eraseEntry name l).Sublist l := by
  induction l with
  | nil => exact List.Sublist.slnil
  | cons q rest ih =>
    simp only [eraseEntry]
    split
    · exact List.sublist_cons_self _ _
    · exact ih.cons_cons _

theorem Sorted.erase {a : Attrs} (h : a.Sorted) (name : String) : (a.erase name).Sorted :=
  List.Pairwise.sublist (eraseEntry_sublist name a.entries) h

theorem sorted_ofList (l : List (String × AttrValue)) : (ofList l).Sorted := by
  have h : ∀ (a : Attrs), a.Sorted → (l.foldl (fun a p => a.insert p.1 p.2) a).Sorted := by
    induction l with
    | nil => exact fun a ha => ha
    | cons p l ih => exact fun a ha => ih _ (ha.insert p.1 p.2)
  exact h empty List.Pairwise.nil

theorem insertEntry_of_lt {name : String} {v : AttrValue} {l : List (String × AttrValue)}
    (h : ∀ p ∈ l, p.1 < name) : insertEntry name v l = l ++ [(name,v)] := by
  induction l with
  | nil => rfl
  | cons q rest ih =>
    obtain ⟨k,w⟩ := q
    have hk : k < name := h (k,w) List.mem_cons_self
    have hne : name ≠ k := fun he => Std.lt_irrefl (he ▸ hk)
    have hnlt : ¬ name < k := fun hlt => Std.lt_irrefl (Std.lt_trans hk hlt)
    simp only [insertEntry,if_neg hne,if_neg hnlt,List.cons_append]
    rw [ih fun p hp => h p (List.mem_cons_of_mem _ hp)]

theorem ofList_entries {a : Attrs} (h : a.Sorted) : ofList a.entries = a := by
  have hfold : ∀ (acc l : List (String × AttrValue)), (acc ++ l).Pairwise (·.1 < ·.1) →
      l.foldl (fun (a : Attrs) p => a.insert p.1 p.2) ⟨acc⟩ = ⟨acc ++ l⟩ := by
    intro acc l
    induction l generalizing acc with
    | nil => simp
    | cons p l ih =>
      intro hs
      have hlt : ∀ q ∈ acc, q.1 < p.1 :=
        fun q hq => (List.pairwise_append.mp hs).2.2 q hq p List.mem_cons_self
      have hstep : (⟨acc⟩ : Attrs).insert p.1 p.2 = ⟨acc ++ [p]⟩ := by
        simp only [insert,insertEntry_of_lt hlt]
      rw [List.foldl_cons,hstep,ih (acc ++ [p]) (by simpa using hs)]
      simp
  cases a with
  | mk entries => exact hfold [] entries h

end Attrs

namespace Tree

def SortedAttrs (t : Tree) : Prop := ∀ n e, t.element? n = some e → e.attrs.Sorted

namespace SortedAttrs

variable {t : Tree} (h : t.SortedAttrs)
include h

theorem alloc {x : NodeData} (hx : ∀ e, x = .element e → e.attrs.Sorted) :
    (t.alloc x).1.SortedAttrs := by
  intro n e he
  rw [element?_eq_some,data?_alloc] at he
  split at he
  · exact hx e (Option.some.inj he)
  · exact h n e (element?_eq_some.mpr he)

theorem link (p c : NodeId) : (t.link p c).SortedAttrs := by
  intro n e he
  rw [element?_link] at he
  exact h n e he

theorem updateElement {id : NodeId} {f : Element → Element} {t' : Tree}
    (hf : ∀ e, e.attrs.Sorted → (f e).attrs.Sorted) (hu : t.updateElement id f = .ok t') :
    t'.SortedAttrs := by
  intro n e he
  rw [updateElement_element? hu] at he
  split at he
  · obtain ⟨e',he',rfl⟩ := Option.map_eq_some_iff.mp he
    exact hf e' (h n e' he')
  · exact h n e he

theorem attach (d : Html.Draft) (hd : d.tree = t) (p : NodeId) (x : NodeData)
    (hx : ∀ e, x = .element e → e.attrs.Sorted) : (d.attach p x).1.tree.SortedAttrs := by
  subst hd
  rw [Html.Draft.attach_eq]
  split
  · exact (h.alloc hx).link _ _
  · exact h.alloc hx

theorem buildInto (cfg : Html.Config) (p : NodeId) (html : String) :
    (Html.buildInto cfg t p html).1.SortedAttrs :=
  Html.build_preserves (fun d => d.tree.SortedAttrs)
    (fun d _ x hd hx => hd.attach d rfl _ x fun e he => by
      obtain ⟨span,hspan⟩ := hx e he
      rw [hspan]
      exact Attrs.sorted_ofList _)
    (fun d _ _ _ hd => by rwa [Html.Draft.report_tree]) cfg p 0 0 html.toList { tree := t } h

theorem apply (e : Edit) : (e.apply t).SortedAttrs := by
  cases e with
  | createElement tag attrs => exact h.alloc fun e he => by cases he; exact Attrs.sorted_ofList _
  | createText text => exact h.alloc fun e he => by cases he
  | createComment content => exact h.alloc fun e he => by cases he
  | createDeclaration content => exact h.alloc fun e he => by cases he
  | appendChild parent child =>
    simp only [Edit.apply]
    split
    · next t' ht' =>
      unfold Tree.appendChild at ht'
      split at ht'
      · cases ht'
      · cases ht'
        exact h.link _ _
    · exact h
  | setAttribute id name value =>
    simp only [Edit.apply]
    split
    · next t' ht' => exact h.updateElement (fun e he => he.insert name value) ht'
    · exact h
  | removeAttribute id name =>
    simp only [Edit.apply]
    split
    · next v t' ht' =>
      unfold Tree.removeAttribute at ht'
      cases hu : t.updateElement id (·.removeAttr name) with
      | error e => rw [hu] at ht'; cases ht'
      | ok u =>
        rw [hu] at ht'
        cases ht'
        exact h.updateElement (fun e he => he.erase name) hu
    · exact h
  | parseFragment cfg parent html => exact h.buildInto cfg parent html

end SortedAttrs

theorem sortedAttrs_empty : Tree.empty.SortedAttrs := by
  intro ⟨i⟩ e he
  cases i with
  | zero =>
    simp only [Tree.empty,element?,data?,get?] at he
    cases he
    exact List.Pairwise.nil
  | succ i => simp [Tree.empty,element?,data?,get?] at he

end Tree

theorem Edit.run_sortedAttrs (es : List Edit) {t : Tree} (h : t.SortedAttrs) :
    (Edit.run es t).SortedAttrs := by
  induction es generalizing t with
  | nil => exact h
  | cons e es ih => exact ih (h.apply e)

end HtmlQuery
