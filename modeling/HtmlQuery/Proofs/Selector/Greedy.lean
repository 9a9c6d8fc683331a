import HtmlQuery.Proofs.Selector.Semantics

/-! Where the greedy matcher is complete: on chains whose descendant combinators stand left of all
others. -/
namespace HtmlQuery
namespace Selector
open HtmlQuery.Tree

/-- The combinators between the compounds of a chain, left to right as written. -/
def Chain.combinators (c : Chain) : List Combinator := c.links.reverse.tail.map (·.combinator)

/-- No descendant combinator stands right of a child, next-sibling or subsequent-sibling one. -/
def Chain.DescendantsFirst (c : Chain) : Prop :=
  ∃ a b, c.combinators = a ++ b ∧ (∀ k ∈ a, k = .descendant) ∧ ∀ k ∈ b, k ≠ .descendant

theorem Chain.descendantsFirst_iff (c : Chain) :
    c.DescendantsFirst ↔ ∀ k ∈ c.combinators.dropWhile (· == .descendant), k ≠ .descendant := by
  constructor
  · rintro ⟨a,b,hab,ha,hb⟩ k hk
    rw [hab,List.dropWhile_append_of_pos (by simpa using ha)] at hk
    exact hb k ((List.dropWhile_sublist _).subset hk)
  · intro h
    have hpre := List.all_takeWhile (p := (· == Combinator.descendant)) (l := c.combinators)
    exact ⟨_,_,List.takeWhile_append_dropWhile.symm,
      fun k hk => by simpa using List.all_eq_true.mp hpre k hk,h⟩

instance (c : Chain) : Decidable c.DescendantsFirst := decidable_of_iff _ c.descendantsFirst_iff.symm

/-- The combinators that relate each link to the next one, head first. -/
def relating (links : List Link) : List Combinator := links.dropLast.map (·.combinator)

theorem combinators_eq_reverse (c : Chain) : c.combinators = (relating c.links).reverse := by
  simp [Chain.combinators,relating,List.map_reverse]

/-- Head first, the combinators other than descendant come before the descendant ones. -/
def OthersFirst (ks : List Combinator) : Prop :=
  ∃ b a, ks = b ++ a ∧ (∀ k ∈ b, k ≠ .descendant) ∧ ∀ k ∈ a, k = .descendant

theorem othersFirst_of_descendantsFirst {c : Chain} (h : c.DescendantsFirst) :
    OthersFirst (relating c.links) := by
  obtain ⟨a,b,hab,ha,hb⟩ := h
  refine ⟨b.reverse,a.reverse,?_,fun k hk => hb k (List.mem_reverse.mp hk),
    fun k hk => ha k (List.mem_reverse.mp hk)⟩
  rw [← List.reverse_reverse (relating c.links),← combinators_eq_reverse,hab,List.reverse_append]

theorem OthersFirst.of_cons_descendant {ks : List Combinator} (h : OthersFirst (.descendant :: ks)) :
    ∀ k ∈ ks, k = .descendant := by
  obtain ⟨b,a,hba,hb,ha⟩ := h
  cases b with
  | nil =>
    rw [List.nil_append] at hba
    exact fun k hk => ha k (hba ▸ List.mem_cons_of_mem _ hk)
  | cons k b => exact absurd (List.cons.inj hba).1.symm (hb k (by simp))

theorem OthersFirst.of_cons {k : Combinator} {ks : List Combinator} (h : OthersFirst (k :: ks))
    (hk : k ≠ .descendant) : OthersFirst ks := by
  obtain ⟨b,a,hba,hb,ha⟩ := h
  cases b with
  | nil =>
    rw [List.nil_append] at hba
    exact absurd (ha k (hba ▸ List.mem_cons_self)) hk
  | cons k' b =>
    simp only [List.cons_append,List.cons.injEq] at hba
    exact ⟨b,a,hba.2,fun x hx => hb x (by simp [hx]),ha⟩

variable {t : Tree}

/-! ## Search steps that find what the relation names -/

theorem firstAccepting_singleton {l : Link} {n : NodeId} (h : Passes t l n) :
    firstAccepting t l [n] = some n := by
  obtain ⟨e,he,hacc⟩ := h
  simp [firstAccepting,he,hacc]

theorem firstAccepting_nearest (h : t.WellFormed) (l : Link) (k : Nat) (x m : NodeId)
    (hx : t.isElement x = true) (hm : m = x ∨ m ∈ t.ancestorsUpTo k x) (hpass : Passes t l m) :
    ∃ m', firstAccepting t l (x :: t.ancestorsUpTo k x) = some m' ∧ Passes t l m' ∧
      (m' = x ∨ Ancestor t m' x) ∧ (m = m' ∨ Ancestor t m m') := by
  induction k generalizing x with
  | zero =>
    simp only [ancestorsUpTo,List.not_mem_nil,or_false] at hm
    subst hm
    exact ⟨m,firstAccepting_singleton hpass,hpass,.inl rfl,.inl rfl⟩
  | succ k ih =>
    obtain ⟨e,he⟩ := isElement_iff.mp hx
    by_cases hacc : l.accepts e = true
    · refine ⟨x,by simp [firstAccepting,he,hacc],⟨e,he,hacc⟩,.inl rfl,?_⟩
      rcases hm with rfl | hm
      · exact .inl rfl
      · exact .inr (mem_ancestorsUpTo _ _ hm)
    · have hmx : m ≠ x := by
        rintro rfl
        obtain ⟨e',he',hacc'⟩ := hpass
        rw [he] at he'
        cases he'
        exact hacc hacc'
      simp only [ancestorsUpTo] at hm ⊢
      split at hm
      · simp [hmx] at hm
      · next q hq =>
        have hrest : firstAccepting t l (x :: q :: t.ancestorsUpTo k q) =
            firstAccepting t l (q :: t.ancestorsUpTo k q) := by
          simp [firstAccepting,he,hacc]
        rw [hrest]
        obtain ⟨m',hfirst,hpass',hm'q,hmm'⟩ := ih q (h.isElement_of_parent? hq)
          (by simpa [hmx] using hm)
        refine ⟨m',hfirst,hpass',.inr ?_,hmm'⟩
        rcases hm'q with rfl | hanc
        · exact .parent hq
        · exact .up hq hanc

theorem previousElementSibling?_complete (h : t.WellFormed) {m n : NodeId} {mid : List NodeId}
    (hp : Precedes t m n mid) (hmid : ∀ x ∈ mid, t.isElement x = false)
    (hm : t.isElement m = true) : t.previousElementSibling? n = some m := by
  obtain ⟨p,pre,post,hpar,hcs⟩ := hp
  have hnd := h.children_nodup p
  rw [hcs] at hnd
  have hn : n ∉ pre ++ m :: mid := fun hmem => (List.nodup_append.mp hnd).2.2 n hmem n (by simp) rfl
  have htw : (t.children p).takeWhile (· != n) = pre ++ m :: mid := by
    rw [hcs]
    exact takeWhile_ne_split hn
  have hnone : mid.reverse.find? t.isElement = none :=
    List.find?_eq_none.mpr fun x hx => by simp [hmid x (List.mem_reverse.mp hx)]
  have hfind : (pre ++ m :: mid).reverse.find? t.isElement = some m := by
    simp [List.find?_append,hnone,hm]
  have hcont : (t.children p).contains n = true := by simp [hcs]
  simp only [previousElementSibling?,hpar,Option.bind_eq_bind,Option.bind_some,hcont,if_true,htw]
  exact hfind

theorem mem_previousElementSiblings_of_precedes (h : t.WellFormed) {m n : NodeId}
    {mid : List NodeId} (hp : Precedes t m n mid) (hm : t.isElement m = true)
    (hn : t.isElement n = true) : m ∈ t.previousElementSiblings n := by
  obtain ⟨p,pre,post,hpar,hcs⟩ := hp
  have hnd := h.children_nodup p
  rw [hcs] at hnd
  have hnot : n ∉ pre ++ m :: mid :=
    fun hmem => (List.nodup_append.mp hnd).2.2 n hmem n (by simp) rfl
  simp only [previousElementSiblings,elementSiblings,hpar,hcs,filter_isElement_split hn]
  rw [takeWhile_ne_split (fun hmem => hnot (List.mem_filter.mp hmem).1)]
  simp [hm]

/-! ## Completeness -/

theorem matchLinks_climb_complete (h : t.WellFormed) (links : List Link)
    (hdesc : ∀ k ∈ relating links, k = .descendant) (n m : NodeId) (hn : t.isElement n = true)
    (hmn : m = n ∨ Ancestor t m n) (hmatch : LinksMatch t links m) :
    matchLinks t links n true = true := by
  induction links generalizing n m with
  | nil => rfl
  | cons l before ih =>
    have hm : m = n ∨ m ∈ t.ancestors n := hmn.imp_right h.mem_ancestors_iff.mpr
    obtain ⟨m',hfirst,-,-,hmm'⟩ := firstAccepting_nearest h l t.size n m hn hm hmatch.passes
    replace hfirst : firstAccepting t l (n :: t.ancestors n) = some m' := hfirst
    cases before with
    | nil => simp [matchLinks,hfirst]
    | cons l' ls =>
      simp only [relating,List.dropLast_cons_cons,List.map_cons,List.mem_cons] at hdesc
      obtain ⟨-,m'',hrel,hrest⟩ := hmatch
      rw [hdesc l.combinator (.inl rfl)] at hrel
      -- the ancestor that matches the rest is above the committed node
      have hanc : Ancestor t m'' m' := by
        rcases hmm' with rfl | hmm'
        · exact hrel
        · exact hrel.trans hmm'
      obtain ⟨p,hp⟩ := hanc.exists_parent
      simp only [matchLinks,if_true,hfirst,hdesc l.combinator (.inl rfl),hp]
      exact ih (fun k hk => hdesc k (.inr (by simpa [relating] using hk))) p m''
        (h.isElement_of_parent? hp) (hanc.eq_or_of_parent hp)
        hrest

theorem matchLinks_complete (h : t.WellFormed) (links : List Link)
    (hord : OthersFirst (relating links)) (n : NodeId) (hmatch : LinksMatch t links n) :
    matchLinks t links n false = true := by
  induction links generalizing n with
  | nil => rfl
  | cons l before ih =>
    have hfirst := firstAccepting_singleton hmatch.passes
    cases before with
    | nil => simp [matchLinks,hfirst]
    | cons l' ls =>
      simp only [relating,List.dropLast_cons_cons,List.map_cons] at hord
      obtain ⟨hpass,m,hrel,hrest⟩ := hmatch
      have hord' : l.combinator ≠ .descendant → OthersFirst (relating (l' :: ls)) := hord.of_cons
      cases hc : l.combinator with
      | descendant =>
        rw [hc] at hrel hord
        obtain ⟨p,hp⟩ := hrel.exists_parent
        rw [matchLinks]
        simp only [Bool.false_eq_true,if_false,hfirst,hc,hp]
        exact matchLinks_climb_complete h _ hord.of_cons_descendant p m (h.isElement_of_parent? hp)
          (hrel.eq_or_of_parent hp) hrest
      | child =>
        rw [hc,Combinator.Relates] at hrel
        rw [matchLinks]
        simp only [Bool.false_eq_true,if_false,hfirst,hc,hrel]
        exact ih (hord' (by simp [hc])) m hrest
      | nextSibling =>
        rw [hc] at hrel
        obtain ⟨mid,hprec,hmid⟩ := hrel
        rw [matchLinks]
        simp only [Bool.false_eq_true,if_false,hfirst,hc,
          previousElementSibling?_complete h hprec hmid hrest.passes.isElement]
        exact ih (hord' (by simp [hc])) m hrest
      | subsequentSibling =>
        rw [hc] at hrel
        obtain ⟨mid,hprec⟩ := hrel
        rw [matchLinks]
        simp only [Bool.false_eq_true,if_false,hfirst,hc,List.any_eq_true]
        exact ⟨m,mem_previousElementSiblings_of_precedes h hprec hrest.passes.isElement hpass.isElement,
          ih (hord' (by simp [hc])) m hrest⟩

theorem Chain.selects_iff_matches (es : List Edit) (c : Chain) (n : NodeId)
    (hc : c.DescendantsFirst) :
    c.selects (Edit.run es Tree.empty) n = true ↔ c.Matches (Edit.run es Tree.empty) n := by
  have h := Edit.run_wellFormed es Tree.wellFormed_empty
  constructor
  · intro hsel
    obtain ⟨m,hm,hmatch⟩ := matchLinks_sound h c.links n false hsel
    rcases hm with rfl | ⟨hf,-⟩
    · exact hmatch
    · cases hf
  · exact matchLinks_complete h c.links (othersFirst_of_descendantsFirst hc) n

theorem Chain.selects_misses_outer_div :
    let es := [Edit.createElement "section" [],.createElement "div" [],.createElement "div" [],
      .createElement "p" [],.appendChild NodeId.root ⟨1⟩,.appendChild ⟨1⟩ ⟨2⟩,.appendChild ⟨2⟩ ⟨3⟩,
      .appendChild ⟨3⟩ ⟨4⟩]
    let c : Chain := ⟨⟨"p",.descendant,[.byType "p"]⟩,
      [⟨"div",.child,[.byType "div"]⟩,⟨"section",.descendant,[.byType "section"]⟩]⟩
    ¬ c.DescendantsFirst ∧ c.Matches (Edit.run es Tree.empty) ⟨4⟩ ∧
      c.selects (Edit.run es Tree.empty) ⟨4⟩ = false := by
  intro es c
  have h43 : (Edit.run es Tree.empty).parent? ⟨4⟩ = some ⟨3⟩ := by decide
  have h32 : (Edit.run es Tree.empty).parent? ⟨3⟩ = some ⟨2⟩ := by decide
  have h21 : (Edit.run es Tree.empty).parent? ⟨2⟩ = some ⟨1⟩ := by decide
  have hmatch : c.Matches (Edit.run es Tree.empty) ⟨4⟩ := by
    simp only [Chain.Matches,Chain.links,c,LinksMatch]
    exact ⟨by decide,⟨2⟩,.up h43 (.parent h32),by decide,⟨1⟩,h21,by decide⟩
  exact ⟨by decide,hmatch,by decide⟩

/-- The greedy matcher is exact on chains whose descendant combinators stand left of all others. -/
theorem Chain.selects_exact_on_descendantsFirst :
    (∀ (es : List Edit) (c : Chain) (n : NodeId), c.DescendantsFirst →
      (c.selects (Edit.run es Tree.empty) n = true ↔ c.Matches (Edit.run es Tree.empty) n)) ∧
    ∃ (es : List Edit) (c : Chain) (n : NodeId), ¬ c.DescendantsFirst ∧
      c.Matches (Edit.run es Tree.empty) n ∧ c.selects (Edit.run es Tree.empty) n = false :=
  ⟨fun es c n hc => Chain.selects_iff_matches es c n hc,_,_,_,Chain.selects_misses_outer_div⟩

/-- `section div > p` at the paragraph of `<section><div><div><p>`. -/
theorem Chain.selects_exact_section_div_p :
    let es := [Edit.createElement "section" [],.createElement "div" [],.createElement "div" [],
      .createElement "p" [],.appendChild NodeId.root ⟨1⟩,.appendChild ⟨1⟩ ⟨2⟩,.appendChild ⟨2⟩ ⟨3⟩,
      .appendChild ⟨3⟩ ⟨4⟩]
    let c : Chain := ⟨⟨"p",.child,[.byType "p"]⟩,
      [⟨"div",.descendant,[.byType "div"]⟩,⟨"section",.descendant,[.byType "section"]⟩]⟩
    c.DescendantsFirst ∧ c.selects (Edit.run es Tree.empty) ⟨4⟩ = true ∧
      c.Matches (Edit.run es Tree.empty) ⟨4⟩ := by
  intro es c
  have hc : c.DescendantsFirst := by decide
  have hsel : c.selects (Edit.run es Tree.empty) ⟨4⟩ = true := by decide
  exact ⟨hc,hsel,(Chain.selects_exact_on_descendantsFirst.1 es c ⟨4⟩ hc).mp hsel⟩

end Selector
end HtmlQuery
