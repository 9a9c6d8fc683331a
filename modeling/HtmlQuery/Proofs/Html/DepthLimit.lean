import HtmlQuery.Proofs.Html.Fragment
import HtmlQuery.Proofs.Html.Issues

/-! The depth limit. Each element is paired with the tag it was read from (`Opened`, `Opens`,
`SourceMap`), which pins down the elements kept at the limit and the issues reported for them. -/
namespace HtmlQuery

namespace Tree

/-- The nodes made after those of `t` that are elements of `u`, in the order made. -/
def newElements (t u : Tree) : List NodeId :=
  ((List.range' t.size (u.size - t.size)).map NodeId.mk).filter u.isElement

/-- `u` is `t` with nodes added under `p`. -/
structure Keeps (t : Tree) (p : NodeId) (u : Tree) : Prop where
  size_le : t.size ≤ u.size
  get?_eq : ∀ m, m ≠ p → m.index < t.size → u.get? m = t.get? m
  data?_eq : u.data? p = t.data? p
  parent?_eq : ∀ m, m.index < t.size → u.parent? m = t.parent? m
  wf : u.WellFormed

theorem keeps_graftAll {t : Tree} (hwf : t.WellFormed) {p : NodeId} (hp : t.isElement p = true)
    (fs : List Doc) : Keeps t p (t.graftAll p fs) := by
  obtain ⟨e, he⟩ := isElement_iff.mp hp
  have hplt : p.index < t.size := lt_size_of_data? (element?_eq_some.mp he)
  obtain ⟨ids, h⟩ := graftAll_grafts fs t p hplt
  exact ⟨by rw [h.size_eq]; omega, h.get?_eq, h.data?_eq,
    fun m hm => parent?_graftAll fs t p m hplt hm, hwf.graftAll fs hp⟩

namespace Keeps

variable {t u : Tree} {p : NodeId} (h : Keeps t p u)
include h

theorem isElement_eq {m : NodeId} (hm : m.index < t.size) : u.isElement m = t.isElement m := by
  by_cases hmp : m = p
  · subst hmp
    simp [Tree.isElement, Tree.element?, h.data?_eq]
  · simp [Tree.isElement, Tree.element?, Tree.data?, h.get?_eq m hmp hm]

theorem element?_eq {m : NodeId} (hmp : m ≠ p) (hm : m.index < t.size) :
    u.element? m = t.element? m := by
  simp [Tree.element?, Tree.data?, h.get?_eq m hmp hm]

theorem children_eq {m : NodeId} (hmp : m ≠ p) (hm : m.index < t.size) :
    u.children m = t.children m := by
  simp [Tree.children, h.get?_eq m hmp hm]

theorem data?_eq_of_ne {m : NodeId} (hmp : m ≠ p) (hm : m.index < t.size) : u.data? m = t.data? m := by
  simp [Tree.data?, h.get?_eq m hmp hm]

end Keeps

theorem mem_newElements {t u : Tree} {n : NodeId} :
    n ∈ newElements t u ↔ t.size ≤ n.index ∧ n.index < u.size ∧ u.isElement n = true := by
  simp only [newElements, List.mem_filter, List.mem_map, List.mem_range']
  constructor
  · rintro ⟨⟨i, ⟨k, hk, rfl⟩, rfl⟩, he⟩
    exact ⟨by simp, by simp; omega, he⟩
  · rintro ⟨h₁, h₂, he⟩
    exact ⟨⟨n.index, ⟨n.index - t.size, by omega, by omega⟩, rfl⟩, he⟩

@[simp] theorem newElements_self (t : Tree) : newElements t t = [] := by
  simp [newElements]

theorem newElements_append {t t' u : Tree} {p : NodeId} (hle : t.size ≤ t'.size)
    (hk : Keeps t' p u) : newElements t u = newElements t t' ++ newElements t' u := by
  have hrange : List.range' t.size (u.size - t.size) =
      List.range' t.size (t'.size - t.size) ++ List.range' t'.size (u.size - t'.size) := by
    obtain ⟨a, ha⟩ : ∃ a, t'.size = t.size + a := ⟨_, (Nat.add_sub_cancel' hle).symm⟩
    obtain ⟨b, hb⟩ : ∃ b, u.size = t'.size + b := ⟨_, (Nat.add_sub_cancel' hk.size_le).symm⟩
    have e₁ : u.size - t.size = a + b := by omega
    have e₂ : t'.size - t.size = a := by omega
    have e₃ : u.size - t'.size = b := by omega
    rw [e₁, e₂, e₃, ha, List.range'_append_1]
  unfold newElements
  rw [hrange, List.map_append, List.filter_append]
  congr 1
  refine List.filter_congr fun n hn => ?_
  simp only [List.mem_map, List.mem_range'] at hn
  obtain ⟨i, ⟨k, hk', rfl⟩, rfl⟩ := hn
  exact hk.isElement_eq (by simp; omega)

theorem newElements_attachNew_leaf {t : Tree} (p : NodeId) {x : NodeData}
    (hx : ∀ e, x ≠ .element e) : newElements t (t.attachNew p x) = [] := by
  have hnot : (t.attachNew p x).isElement ⟨t.size⟩ = false := by
    cases x with
    | element e => exact absurd rfl (hx e)
    | _ => simp [isElement, element?, data?_attachNew_new]
  simp [newElements, List.range'_one, hnot]

theorem newElements_attachNew_element {t : Tree} (p : NodeId) (e : Element) :
    newElements t (t.attachNew p (.element e)) = [⟨t.size⟩] := by
  have his : (t.attachNew p (.element e)).isElement ⟨t.size⟩ = true := by
    simp [isElement, element?, data?_attachNew_new]
  simp [newElements, List.range'_one, his]

theorem Keeps.refl {t : Tree} (hwf : t.WellFormed) (p : NodeId) : Keeps t p t :=
  ⟨Nat.le_refl _, fun _ _ _ => rfl, rfl, fun _ _ => rfl, hwf⟩

theorem keeps_attachNew {t : Tree} (hwf : t.WellFormed) {p : NodeId} (hp : t.isElement p = true)
    (x : NodeData) : Keeps t p (t.attachNew p x) := by
  obtain ⟨e, he⟩ := isElement_iff.mp hp
  have hplt : p.index < t.size := lt_size_of_data? (element?_eq_some.mp he)
  exact ⟨by simp, fun m hm hlt => get?_attachNew t p x hm hlt, data?_attachNew_parent t p x hplt,
    fun m hm => parent?_attachNew t p x hm, hwf.attachNew hp x⟩

theorem parent?_attachNew_new (t : Tree) (p : NodeId) (x : NodeData) :
    (t.attachNew p x).parent? ⟨t.size⟩ = some p := by
  rw [attachNew, parent?_link _ _ _ _ (by simp), if_pos rfl]


theorem WellFormed.ancestors_root {t : Tree} (hwf : t.WellFormed) : t.ancestors NodeId.root = [] := by
  obtain ⟨n, hn⟩ : ∃ n, t.size = n + 1 := ⟨t.size - 1, by have := hwf.size_pos; omega⟩
  simp [ancestors, hn, ancestorsUpTo, hwf.root_parent]

theorem isElement_empty_root : Tree.empty.isElement NodeId.root = true := by decide

theorem range_filter_isElement {u : Tree} (hpos : 0 < u.size)
    (hroot : u.isElement NodeId.root = true) :
    ((List.range u.size).map NodeId.mk).filter u.isElement =
      NodeId.root :: newElements Tree.empty u := by
  obtain ⟨n, hn⟩ : ∃ n, u.size = n + 1 := ⟨u.size - 1, by omega⟩
  have hempty : Tree.empty.size = 1 := rfl
  have h0 : u.isElement ⟨0⟩ = true := hroot
  rw [hn, List.range_eq_range', List.range'_succ, List.map_cons, List.filter_cons_of_pos h0]
  simp [newElements, hempty, hn, NodeId.root]

theorem Keeps.isElement {t u : Tree} {p m : NodeId} (hk : Keeps t p u) (hm : t.isElement m = true) :
    u.isElement m = true := by
  rw [hk.isElement_eq (lt_size_of_isElement hm)]
  exact hm


end Tree

namespace Html
open Scan

/-- An element as the builder read it, with the input around its tag. -/
structure Opened where
  node : NodeId
  parent : NodeId
  depth : Nat
  pre : List Char
  tail : List Char
  out : List Char

/-- The node has no child but, for a nonempty text, one text node holding it. -/
def KeptAsText (u : Tree) (n : NodeId) (inner : List Char) : Prop :=
  (inner = [] ∧ u.children n = []) ∨
    (inner ≠ [] ∧ ∃ c, u.children n = [c] ∧ u.data? c = some (.text (String.ofList inner)))

namespace Opened

variable (o : Opened)

def name : List Char := tagName o.tail

/-- The tag, from its `<` up to and over its `>`. -/
def span : List Char := '<' :: (tagTail o.tail).1

/-- The input after the tag, up to the end of the content of the parent. -/
def seg : List Char := (tagTail o.tail).2

def content? : Option (List Char × List Char) :=
  breakBalanced ('<' :: o.name) ('<' :: '/' :: o.name) 0 o.seg

/-- Whether the element is at the depth limit with content to keep. -/
def limited (cfg : Config) : Bool :=
  decide (cfg.maxDepth ≤ o.depth) && !cfg.isVoid (String.ofList o.name) &&
    !cfg.isRawText (String.ofList o.name) && !(o.span.reverse.take 2 == ['>', '/']) &&
    o.content?.isSome

def depthIssue : Issue := ⟨.depthLimit, String.ofList o.span, byteSize o.pre⟩

structure Holds (cfg : Config) (u : Tree) : Prop where
  element : u.element? o.node = some (.withAttributes (String.ofList o.name) (parseAttributes o.span))
  parent : u.parent? o.node = some o.parent
  kept : o.limited cfg = true → ∀ inner closing, o.content? = some (inner, closing) →
    KeptAsText u o.node inner

end Opened

def Draft.depthIssues (d : Draft) : List Issue := d.issues.toList.filter (·.kind == .depthLimit)

/-! ## What a run keeps -/

theorem Reads.builds {cfg : Config} {p : NodeId} {dp off : Nat} {s : List Char} {d d' : Draft}
    (h : Reads cfg p dp off s d d') : Builds p d d' := by
  induction h with
  | nil => exact .done
  | text _ _ => exact .leadText .done
  | lead _ _ _ ih => exact .leadText ih
  | comment _ _ ih => exact .reportIf (.leaf (fun _ h => by cases h) ih)
  | strayEndTag _ _ _ ih => exact .report _ _ _ ih
  | declaration _ _ _ _ ih => exact .leaf (fun _ h => by cases h) ih
  | emptyTagName _ _ _ _ _ ih => exact .report _ _ _ ih
  | refused _ hatt _ ih => exact .refused (fromMarkup_element _ _) hatt ih
  | empty _ hatt _ _ ih => exact .element (fromMarkup_element _ _) hatt .done ih
  | unterminated _ hatt _ _ _ ih =>
    exact .element (fromMarkup_element _ _) hatt .done (.report _ _ _ ih)
  | rawText _ hatt _ _ _ _ _ ih =>
    exact .element (fromMarkup_element _ _) hatt (.attachText .done) ih
  | depthLimited _ hatt _ _ _ _ _ _ ih =>
    exact .element (fromMarkup_element _ _) hatt (.report _ _ _ (.attachText .done)) ih
  | nested _ hatt _ _ _ _ _ _ _ ihin ihrest =>
    exact .element (fromMarkup_element _ _) hatt ihin ihrest

theorem Reads.keeps {cfg : Config} {p : NodeId} {dp off : Nat} {s : List Char} {d d' : Draft}
    (h : Reads cfg p dp off s d d') (hwf : d.tree.WellFormed) (hp : d.tree.isElement p = true) :
    Tree.Keeps d.tree p d'.tree := by
  obtain ⟨fs, hfs⟩ := h.builds.graftAll hwf hp
  rw [hfs]
  exact Tree.keeps_graftAll hwf hp fs


/-! ## Depth issues -/

namespace Draft

@[simp] theorem depthIssues_report (d : Draft) (k : IssueKind) (m : List Char) (o : Nat) :
    (d.report k m o).depthIssues =
      d.depthIssues ++ if k = .depthLimit then [⟨k, String.ofList m, o⟩] else [] := by
  by_cases hk : k = .depthLimit <;> simp [depthIssues, hk]

@[simp] theorem depthIssues_attach (d : Draft) (p : NodeId) (x : NodeData) :
    (d.attach p x).1.depthIssues = d.depthIssues := by
  simp [depthIssues]

@[simp] theorem depthIssues_lead (d : Draft) (p : NodeId) (text : List Char) :
    (d.lead p text).depthIssues = d.depthIssues := by
  simp [depthIssues]

@[simp] theorem depthIssues_attachText (d : Draft) (p : NodeId) (text : List Char) :
    (d.attachText p text).depthIssues = d.depthIssues := by
  simp [depthIssues]

end Draft

theorem Draft.attachText_tree {d : Draft} (hwf : d.tree.WellFormed) {n : NodeId}
    (hn : d.tree.isElement n = true) (text : List Char) :
    (d.attachText n text).tree =
      if text = [] then d.tree else d.tree.attachNew n (.text (String.ofList text)) := by
  unfold Draft.attachText
  by_cases ht : text = []
  · simp [ht]
  · simp [ht, Draft.attach_eq_attachNew hwf hn]

theorem Draft.keeps_attachText {d : Draft} (hwf : d.tree.WellFormed) {n : NodeId}
    (hn : d.tree.isElement n = true) (text : List Char) :
    d.tree.Keeps n (d.attachText n text).tree := by
  rw [Draft.attachText_tree hwf hn]
  split
  · exact .refl hwf n
  · exact Tree.keeps_attachNew hwf hn _

theorem Draft.keptAsText_attachText {d : Draft} (hwf : d.tree.WellFormed) {n : NodeId}
    (hn : d.tree.isElement n = true) (hc : d.tree.children n = []) (text : List Char) :
    KeptAsText (d.attachText n text).tree n text := by
  rw [Draft.attachText_tree hwf hn]
  by_cases ht : text = []
  · exact .inl ⟨ht, by rw [if_pos ht, hc]⟩
  · refine .inr ⟨ht, ⟨d.tree.size⟩, ?_, ?_⟩
    · rw [if_neg ht, Tree.children_attachNew_parent _ _ _ (Tree.lt_size_of_isElement hn), hc]
      rfl
    · rw [if_neg ht, Tree.data?_attachNew_new]

theorem Draft.newElements_attachText {d : Draft} (hwf : d.tree.WellFormed) {n : NodeId}
    (hn : d.tree.isElement n = true) (text : List Char) :
    Tree.newElements d.tree (d.attachText n text).tree = [] := by
  rw [Draft.attachText_tree hwf hn]
  split
  · exact Tree.newElements_self _
  · exact Tree.newElements_attachNew_leaf _ fun _ h => by cases h

namespace Opened

variable {o : Opened} {cfg : Config}

theorem keptAsText_keep {t u : Tree} {p n : NodeId} {inner : List Char} (h : KeptAsText t n inner)
    (hk : t.Keeps p u) (hwf : t.WellFormed) (hp : t.isElement p = true) (hn : n ≠ p)
    (hlt : n.index < t.size) : KeptAsText u n inner := by
  rcases h with ⟨hi, hc⟩ | ⟨hi, c, hc, hd⟩
  · exact .inl ⟨hi, by rw [hk.children_eq hn hlt, hc]⟩
  · have hclt : c.index < t.size := hwf.lt_size_of_mem n c (by simp [hc])
    have hcp : c ≠ p := by
      rintro rfl
      obtain ⟨e, he⟩ := Tree.isElement_iff.mp hp
      rw [Tree.element?_eq_some.mp he] at hd
      cases hd
    exact .inr ⟨hi, c, by rw [hk.children_eq hn hlt, hc], by rw [hk.data?_eq_of_ne hcp hclt, hd]⟩

theorem Holds.keep {t u : Tree} {p : NodeId} (h : o.Holds cfg t) (hk : t.Keeps p u)
    (hwf : t.WellFormed) (hp : t.isElement p = true) (hn : o.node ≠ p) (hlt : o.node.index < t.size) :
    o.Holds cfg u where
  element := by rw [hk.element?_eq hn hlt, h.element]
  parent := by rw [hk.parent?_eq _ hlt, h.parent]
  kept hl inner closing hc := keptAsText_keep (h.kept hl inner closing hc) hk hwf hp hn hlt

end Opened

theorem Opened.of_opensElement {o : Opened} {tail name r after : List Char}
    (oe : OpensElement tail name r after) (ho : o.tail = tail) :
    o.name = name ∧ o.span = '<' :: r ∧
      o.content? = breakBalanced ('<' :: name) ('<' :: '/' :: name) 0 after := by
  have hname : o.name = name := by rw [Opened.name, ho, oe.tagName_eq]
  refine ⟨hname, by simp [Opened.span, ho, oe.tagTail_eq], ?_⟩
  rw [Opened.content?, hname, Opened.seg, ho, oe.tagTail_eq]

/-! ## The elements a run reads -/

/-- The elements read by a run, each with the tag it was read from. -/
structure Opens (cfg : Config) (html : List Char) (p : NodeId) (dp : Nat) (P s Q : List Char)
    (d d' : Draft) (os : List Opened) : Prop where
  nodes : os.map (·.node) = Tree.newElements d.tree d'.tree
  text : ∀ o ∈ os, html = o.pre ++ '<' :: o.tail ++ o.out
  within : ∀ o ∈ os, P.length ≤ o.pre.length ∧ o.pre.length < P.length + s.length
  ordered : os.Pairwise fun a b => a.pre.length < b.pre.length
  holds : ∀ o ∈ os, o.Holds cfg d'.tree
  scope : ∀ o ∈ os, (o.parent = p ∧ o.depth = dp + 1 ∧ o.out = Q) ∨
    ∃ o' ∈ os, o'.node = o.parent ∧ o.depth = o'.depth + 1 ∧
      ∃ inner closing, o'.content? = some (inner, closing) ∧ o.out = closing ++ o'.out
  depth_le : ∀ o ∈ os, o.depth ≤ max cfg.maxDepth 1
  issues : d'.depthIssues = d.depthIssues ++ (os.filter (·.limited cfg)).map Opened.depthIssue

namespace Opens

variable {cfg : Config} {html : List Char} {p : NodeId} {dp : Nat} {P Q : List Char}

theorem quiet {x : List Char} {d d₁ : Draft} (hnew : Tree.newElements d.tree d₁.tree = [])
    (hiss : d₁.depthIssues = d.depthIssues) : Opens cfg html p dp P x Q d d₁ [] where
  nodes := hnew.symm
  text := by simp
  within := by simp
  ordered := .nil
  holds := by simp
  scope := by simp
  depth_le := by simp
  issues := by simp [hiss]

theorem append {x s : List Char} {d d₁ d' : Draft} {os₁ os₂ : List Opened}
    (h₁ : Opens cfg html p dp P x Q d d₁ os₁) (h₂ : Opens cfg html p dp (P ++ x) s Q d₁ d' os₂)
    (hk : d₁.tree.Keeps p d'.tree) (hwf : d₁.tree.WellFormed) (hp : d₁.tree.isElement p = true)
    (hpd : p.index < d.tree.size) (hle : d.tree.size ≤ d₁.tree.size) :
    Opens cfg html p dp P (x ++ s) Q d d' (os₁ ++ os₂) where
  nodes := by rw [List.map_append, h₁.nodes, h₂.nodes, Tree.newElements_append hle hk]
  text o ho := (List.mem_append.mp ho).elim (h₁.text o) (h₂.text o)
  within o ho := by
    simp only [List.length_append]
    rcases List.mem_append.mp ho with ho | ho
    · have := h₁.within o ho
      omega
    · have := h₂.within o ho
      simp only [List.length_append] at this
      omega
  ordered := by
    refine List.pairwise_append.mpr ⟨h₁.ordered, h₂.ordered, fun a ha b hb => ?_⟩
    have := (h₁.within a ha).2
    have := (h₂.within b hb).1
    simp only [List.length_append] at *
    omega
  holds o ho := by
    rcases List.mem_append.mp ho with ho | ho
    · have hmem : o.node ∈ Tree.newElements d.tree d₁.tree := by
        rw [← h₁.nodes]
        exact List.mem_map_of_mem ho
      obtain ⟨hge, hlt, -⟩ := Tree.mem_newElements.mp hmem
      exact (h₁.holds o ho).keep hk hwf hp (fun he => by rw [he] at hge; omega) hlt
    · exact h₂.holds o ho
  scope o ho := by
    rcases List.mem_append.mp ho with ho | ho
    · rcases h₁.scope o ho with h | ⟨o', ho', h⟩
      · exact .inl h
      · exact .inr ⟨o', List.mem_append_left _ ho', h⟩
    · rcases h₂.scope o ho with h | ⟨o', ho', h⟩
      · exact .inl h
      · exact .inr ⟨o', List.mem_append_right _ ho', h⟩
  depth_le o ho := (List.mem_append.mp ho).elim (h₁.depth_le o) (h₂.depth_le o)
  issues := by rw [h₂.issues, h₁.issues, List.filter_append, List.map_append, List.append_assoc]

theorem element {y sin Qin : List Char} {d d₁ d₂ : Draft} {o : Opened} {os : List Opened}
    (hdp : dp < max cfg.maxDepth 1) (hnode : o.node = ⟨d.tree.size⟩) (hparent : o.parent = p)
    (hdepth : o.depth = dp + 1)
    (hpre : o.pre = P) (hout : o.out = Q) (htext : html = P ++ '<' :: o.tail ++ Q)
    (hd₁ : d₁.tree = d.tree.attachNew p (.element (.withAttributes (String.ofList o.name) (parseAttributes o.span))))
    (hiss₁ : d₁.depthIssues = d.depthIssues ++ if o.limited cfg then [o.depthIssue] else [])
    (hin : Opens cfg html o.node (dp + 1) (P ++ o.span) sin Qin d₁ d₂ os)
    (hsin : o.span.length + sin.length ≤ y.length + 1)
    (hscope : os = [] ∨ ∃ inner closing, o.content? = some (inner, closing) ∧ Qin = closing ++ Q)
    (hkin : d₁.tree.Keeps o.node d₂.tree)
    (hkept : o.limited cfg = true → ∀ inner closing, o.content? = some (inner, closing) →
      KeptAsText d₂.tree o.node inner) :
    Opens cfg html p dp P ('<' :: y) Q d d₂ (o :: os) where
  nodes := by
    have hle : d.tree.size ≤ d₁.tree.size := by rw [hd₁]; simp
    rw [List.map_cons, hin.nodes, Tree.newElements_append hle hkin, hd₁,
      Tree.newElements_attachNew_element, hnode]
    rfl
  text o' ho' := by
    rcases List.mem_cons.mp ho' with rfl | ho'
    · rw [hpre, hout]
      exact htext
    · exact hin.text o' ho'
  within o' ho' := by
    rcases List.mem_cons.mp ho' with rfl | ho'
    · simp [hpre]
    · have := hin.within o' ho'
      simp only [List.length_append, List.length_cons] at this ⊢
      omega
  ordered := by
    refine List.pairwise_cons.mpr ⟨fun o' ho' => ?_, hin.ordered⟩
    have := (hin.within o' ho').1
    have hspan : 0 < o.span.length := by simp [Opened.span]
    simp only [List.length_append] at this
    rw [hpre]
    omega
  holds o' ho' := by
    rcases List.mem_cons.mp ho' with rfl | ho'
    · have hlt : o'.node.index < d₁.tree.size := by rw [hd₁, hnode]; simp
      refine ⟨?_, ?_, hkept⟩
      · simp only [Tree.element?]
        rw [hkin.data?_eq, hd₁, hnode, Tree.data?_attachNew_new]
      · rw [hkin.parent?_eq _ hlt, hd₁, hnode, Tree.parent?_attachNew_new, hparent]
    · exact hin.holds o' ho'
  scope o' ho' := by
    rcases List.mem_cons.mp ho' with rfl | ho'
    · exact .inl ⟨hparent, hdepth, hout⟩
    · rcases hin.scope o' ho' with ⟨h₁, h₂, h₃⟩ | ⟨o'', ho'', h⟩
      · obtain ⟨inner, closing, hc, hQ⟩ := hscope.resolve_left (List.ne_nil_of_mem ho')
        exact .inr ⟨o, List.mem_cons_self, h₁.symm, by rw [h₂, hdepth], inner, closing, hc,
          by rw [h₃, hQ, hout]⟩
      · exact .inr ⟨o'', List.mem_cons_of_mem _ ho'', h⟩
  depth_le o' ho' := by
    rcases List.mem_cons.mp ho' with rfl | ho'
    · rw [hdepth]
      omega
    · exact hin.depth_le o' ho'
  issues := by
    rw [hin.issues, hiss₁, List.filter_cons]
    cases o.limited cfg <;> simp

theorem after_quiet {x s : List Char} {d d₁ d' : Draft} {os : List Opened}
    (hk : d.tree.Keeps p d₁.tree) (hnew : Tree.newElements d.tree d₁.tree = [])
    (hiss : d₁.depthIssues = d.depthIssues) (hp : d.tree.isElement p = true)
    (hrest : d₁.tree.Keeps p d'.tree) (h : Opens cfg html p dp (P ++ x) s Q d₁ d' os) :
    Opens cfg html p dp P (x ++ s) Q d d' os := by
  obtain ⟨e, he⟩ := Tree.isElement_iff.mp hp
  have hplt : p.index < d.tree.size := Tree.lt_size_of_data? (Tree.element?_eq_some.mp he)
  have h' := (quiet hnew hiss).append h hrest hk.wf (by rw [hk.isElement_eq hplt]; exact hp) hplt
    hk.size_le
  rwa [List.nil_append] at h'

theorem element_run {tail name r after y rest sin Qin : List Char} {d d₁ d₂ d' : Draft}
    {o : Opened} {os os' : List Opened} (oe : OpensElement tail name r after)
    (ho : o = ⟨⟨d.tree.size⟩, p, dp + 1, P, tail, Q⟩) (hdp : dp < max cfg.maxDepth 1)
    (hwf : d.tree.WellFormed) (hp : d.tree.isElement p = true)
    (htext : html = P ++ '<' :: tail ++ Q) (hy : tail = y ++ rest)
    (hd₁ : d₁.tree = d.tree.attachNew p (.element (.withAttributes (String.ofList name) (parseAttributes ('<' :: r)))))
    (hiss₁ : d₁.depthIssues = d.depthIssues ++ if o.limited cfg then [o.depthIssue] else [])
    (hin : Opens cfg html ⟨d.tree.size⟩ (dp + 1) (P ++ '<' :: r) sin Qin d₁ d₂ os)
    (hsin : r.length + sin.length ≤ y.length)
    (hscope : os = [] ∨ ∃ inner closing,
      breakBalanced ('<' :: name) ('<' :: '/' :: name) 0 after = some (inner, closing) ∧
        Qin = closing ++ Q)
    (hkin : d₁.tree.Keeps ⟨d.tree.size⟩ d₂.tree)
    (hkept : o.limited cfg = true → ∀ inner closing,
      breakBalanced ('<' :: name) ('<' :: '/' :: name) 0 after = some (inner, closing) →
        KeptAsText d₂.tree ⟨d.tree.size⟩ inner)
    (hrest : Opens cfg html p dp (P ++ '<' :: y) rest Q d₂ d' os')
    (hkrest : d₂.tree.Keeps p d'.tree) :
    Opens cfg html p dp P ('<' :: tail) Q d d' (o :: os ++ os') := by
  obtain ⟨hname, hspan, hcontent⟩ := Opened.of_opensElement oe (o := o) (by rw [ho])
  have hnode : o.node = ⟨d.tree.size⟩ := by rw [ho]
  have hk₁ : d.tree.Keeps p d₁.tree := by
    rw [hd₁]
    exact Tree.keeps_attachNew hwf hp _
  have hstep : Opens cfg html p dp P ('<' :: y) Q d d₂ (o :: os) :=
    element hdp hnode (by rw [ho]) (by rw [ho]) (by rw [ho]) (by rw [ho])
      (by rw [ho]; exact htext) (by rw [hd₁, hname, hspan]) hiss₁ (by rw [hspan, hnode]; exact hin)
      (by rw [hspan]; simp only [List.length_cons]; omega) (by rw [hcontent]; exact hscope)
      (by rw [hnode]; exact hkin) (by rw [hcontent, hnode]; exact hkept)
  have h := hstep.append hrest hkrest hkin.wf (hkin.isElement (hk₁.isElement hp))
    (Tree.lt_size_of_isElement hp) (hk₁.size_le.trans hkin.size_le)
  rwa [hy]

theorem quiet_run {x rest : List Char} {off : Nat} {d d₁ d' : Draft}
    (hk : d.tree.Keeps p d₁.tree) (hnew : Tree.newElements d.tree d₁.tree = [])
    (hiss : d₁.depthIssues = d.depthIssues) (hp : d.tree.isElement p = true)
    (hdp : dp < max cfg.maxDepth 1) (hrest : Reads cfg p dp off rest d₁ d')
    (ih : ∀ P Q, html = P ++ rest ++ Q → off = byteSize P → d₁.tree.WellFormed →
      d₁.tree.isElement p = true → dp < max cfg.maxDepth 1 →
        ∃ os, Opens cfg html p dp P rest Q d₁ d' os)
    (htext : html = P ++ x ++ rest ++ Q) (hoff : off = byteSize (P ++ x)) :
    ∃ os, Opens cfg html p dp P (x ++ rest) Q d d' os := by
  have hp₁ := hk.isElement hp
  obtain ⟨os, hos⟩ := ih (P ++ x) Q htext hoff hk.wf hp₁ hdp
  exact ⟨os, after_quiet hk hnew hiss hp (hrest.keeps hk.wf hp₁) hos⟩

end Opens

/-! ## Each step of the builder -/

namespace Draft

variable {d : Draft} {p : NodeId}

theorem keeps_lead (hwf : d.tree.WellFormed) (hp : d.tree.isElement p = true) (text : List Char) :
    d.tree.Keeps p (d.lead p text).tree ∧ Tree.newElements d.tree (d.lead p text).tree = [] := by
  unfold Draft.lead
  split
  · exact ⟨.refl hwf p, Tree.newElements_self _⟩
  · rw [Draft.attach_eq_attachNew hwf hp]
    exact ⟨Tree.keeps_attachNew hwf hp _, Tree.newElements_attachNew_leaf p fun _ h => by cases h⟩

theorem keeps_leaf (hwf : d.tree.WellFormed) (hp : d.tree.isElement p = true) {x : NodeData}
    (hx : ∀ e, x ≠ .element e) :
    d.tree.Keeps p (d.attach p x).1.tree ∧ Tree.newElements d.tree (d.attach p x).1.tree = [] := by
  rw [Draft.attach_eq_attachNew hwf hp]
  exact ⟨Tree.keeps_attachNew hwf hp x, Tree.newElements_attachNew_leaf p hx⟩

theorem attach_element (hwf : d.tree.WellFormed) (hp : d.tree.isElement p = true) {e : Element}
    {d₁ : Draft} {n : Option NodeId} (h : d.attach p (.element e) = (d₁, n)) :
    d₁ = ⟨d.tree.attachNew p (.element e), d.issues⟩ ∧ n = some ⟨d.tree.size⟩ := by
  rw [Draft.attach_eq_attachNew hwf hp] at h
  exact ⟨(Prod.mk.inj h).1.symm, (Prod.mk.inj h).2.symm⟩

theorem element_attached (hwf : d.tree.WellFormed) (hp : d.tree.isElement p = true) {e : Element}
    {d₁ : Draft} {node : NodeId} (h : d.attach p (.element e) = (d₁, some node)) :
    node = ⟨d.tree.size⟩ ∧ d₁.tree = d.tree.attachNew p (.element e) ∧
      d₁.depthIssues = d.depthIssues ∧ d.tree.Keeps p d₁.tree ∧ d₁.tree.isElement node = true := by
  obtain ⟨rfl, hn⟩ := attach_element hwf hp h
  obtain rfl := Option.some.inj hn
  exact ⟨rfl, rfl, rfl, Tree.keeps_attachNew hwf hp _,
    by simp [Tree.isElement, Tree.element?, Tree.data?_attachNew_new]⟩

end Draft

theorem Opened.limited_eq_true {o : Opened} {cfg : Config} :
    o.limited cfg = true ↔ cfg.maxDepth ≤ o.depth ∧
      (cfg.isVoid (String.ofList o.name) || o.span.reverse.take 2 == ['>', '/']) = false ∧
      cfg.isRawText (String.ofList o.name) = false ∧ o.content?.isSome = true := by
  simp only [Opened.limited, Bool.and_eq_true, Bool.not_eq_true', decide_eq_true_eq,
    Bool.or_eq_false_iff]
  tauto

/-! ## A whole run -/

theorem Reads.opens {cfg : Config} {html : List Char} {p : NodeId} {dp off : Nat} {s : List Char}
    {d d' : Draft} (h : Reads cfg p dp off s d d') :
    ∀ P Q, html = P ++ s ++ Q → off = byteSize P → d.tree.WellFormed → d.tree.isElement p = true →
      dp < max cfg.maxDepth 1 → ∃ os, Opens cfg html p dp P s Q d d' os := by
  induction h with
  | nil =>
    intro P Q _ _ _ _ _
    exact ⟨[], .quiet (Tree.newElements_self _) rfl⟩
  | @text p dp off s d _ _ =>
    intro P Q _ _ hwf hp _
    exact ⟨[], .quiet (Draft.keeps_lead hwf hp s).2 (by simp)⟩
  | @lead p dp off s text X d d' _ hs hrest ih =>
    intro P Q htext hoff hwf hp hdp
    obtain ⟨hk, hnew⟩ := Draft.keeps_lead hwf hp text
    rw [hs] at htext ⊢
    exact Opens.quiet_run hk hnew (by simp) hp hdp hrest ih (by rw [htext]; simp)
      (by rw [hoff, byteSize_append])
  | @comment p dp off body content after d d' hbreak hrest ih =>
    intro P Q htext hoff hwf hp hdp
    generalize hdc : (if "-->".toList.isPrefixOf after then d
      else d.report .unterminatedComment "<!--".toList off) = dc at hrest ih
    have hdc' : dc.tree = d.tree ∧ dc.depthIssues = d.depthIssues := by
      subst hdc
      split <;> simp
    obtain ⟨hk, hnew⟩ := Draft.keeps_leaf (d := dc) (hdc'.1 ▸ hwf) (hdc'.1 ▸ hp)
      (x := .comment (String.ofList content)) fun _ h => by cases h
    rw [hdc'.1] at hk hnew
    have hx : '<' :: '!' :: '-' :: '-' :: body =
        ['<', '!', '-', '-'] ++ content ++ after.take 3 ++ after.drop 3 := by
      rw [← breakAt_append "-->".toList body, hbreak]
      simp
    have h4 : byteSize ['<', '!', '-', '-'] = 4 := by decide
    rw [hx] at htext ⊢
    exact Opens.quiet_run hk hnew (by simp [hdc'.2]) hp hdp hrest ih (by rw [htext]; simp)
      (by rw [hoff]; simp only [byteSize_append, h4]; omega)
  | @strayEndTag p dp off tail r after d d' _ htag hrest ih =>
    intro P Q htext hoff hwf hp hdp
    have hk : d.tree.Keeps p (d.report .strayEndTag ('<' :: r) off).tree := by
      rw [Draft.report_tree]
      exact .refl hwf p
    have htail : tail = r ++ after := by rw [← tagTail_append tail, htag]
    rw [htail] at htext ⊢
    exact Opens.quiet_run (x := '<' :: r) hk (by simp) (by simp) hp hdp hrest ih
      (by rw [htext]; simp) (by rw [hoff, byteSize_append])
  | @declaration p dp off tail r after d d' _ _ htag hrest ih =>
    intro P Q htext hoff hwf hp hdp
    obtain ⟨hk, hnew⟩ := Draft.keeps_leaf hwf hp (p := p)
      (x := .declaration (String.ofList (if ('<' :: r).getLast? == some '>' then
        (('<' :: r).drop 2).dropLast else ('<' :: r).drop 2))) fun _ h => by cases h
    have htail : tail = r ++ after := by rw [← tagTail_append tail, htag]
    rw [htail] at htext ⊢
    exact Opens.quiet_run (x := '<' :: r) hk hnew (by simp) hp hdp hrest ih
      (by rw [htext]; simp) (by rw [hoff, byteSize_append])
  | @emptyTagName p dp off tail r after d d' _ _ _ htag hrest ih =>
    intro P Q htext hoff hwf hp hdp
    have hk : d.tree.Keeps p (d.report .emptyTagName ('<' :: r) off).tree := by
      rw [Draft.report_tree]
      exact .refl hwf p
    have htail : tail = r ++ after := by rw [← tagTail_append tail, htag]
    rw [htail] at htext ⊢
    exact Opens.quiet_run (x := '<' :: r) hk (by simp) (by simp) hp hdp hrest ih
      (by rw [htext]; simp) (by rw [hoff, byteSize_append])
  | refused _ hatt _ _ =>
    intro P Q _ _ hwf hp _
    cases (Draft.attach_element hwf hp hatt).2
  | @empty p node dp off tail name r after d d₁ d' oe hatt hvoid hrest ih =>
    intro P Q htext hoff hwf hp hdp
    obtain ⟨rfl, hd₁, hiss, hk₁, -⟩ := Draft.element_attached hwf hp hatt
    have htail : tail = r ++ after := by rw [← tagTail_append tail, oe.tagTail_eq]
    set o : Opened := ⟨⟨d.tree.size⟩, p, dp + 1, P, tail, Q⟩ with ho
    obtain ⟨hname, hspan, -⟩ := Opened.of_opensElement oe (o := o) rfl
    have hlim : o.limited cfg = false := by
      cases hl : o.limited cfg with
      | false => rfl
      | true =>
        have := (Opened.limited_eq_true.mp hl).2.1
        rw [hname, hspan, hvoid] at this
        cases this
    obtain ⟨os, hos⟩ := ih (P ++ '<' :: r) Q (by rw [htext, htail]; simp)
      (by rw [hoff, byteSize_append]) hk₁.wf (hk₁.isElement hp) hdp
    exact ⟨o :: [] ++ os, Opens.element_run oe ho hdp hwf hp htext htail hd₁ (by simp [hlim, hiss])
      (Opens.quiet (x := []) (Q := []) (by simp) rfl) (by simp) (.inl rfl) (.refl hk₁.wf _)
      (by simp [hlim]) hos (hrest.keeps hk₁.wf (hk₁.isElement hp))⟩
  | @unterminated p node dp off tail name r after d d₁ d' oe hatt _ hb hrest ih =>
    intro P Q htext hoff hwf hp hdp
    obtain ⟨rfl, hd₁, hiss, hk₁, -⟩ := Draft.element_attached hwf hp hatt
    have htail : tail = r ++ after := by rw [← tagTail_append tail, oe.tagTail_eq]
    set o : Opened := ⟨⟨d.tree.size⟩, p, dp + 1, P, tail, Q⟩ with ho
    obtain ⟨-, -, hcontent⟩ := Opened.of_opensElement oe (o := o) rfl
    have hlim : o.limited cfg = false := by
      cases hl : o.limited cfg with
      | false => rfl
      | true =>
        have := (Opened.limited_eq_true.mp hl).2.2.2
        rw [hcontent, hb] at this
        cases this
    have hk₂ : d₁.tree.Keeps ⟨d.tree.size⟩ (d₁.report .unterminatedElement ('<' :: r) off).tree := by
      rw [Draft.report_tree]
      exact .refl hk₁.wf _
    have hwf₂ := hk₂.wf
    have hp₂ := hk₂.isElement (hk₁.isElement hp)
    obtain ⟨os, hos⟩ := ih (P ++ '<' :: r) Q (by rw [htext, htail]; simp)
      (by rw [hoff, byteSize_append]) hwf₂ hp₂ hdp
    exact ⟨o :: [] ++ os, Opens.element_run oe ho hdp hwf hp htext htail hd₁ (by simp [hlim, hiss])
      (Opens.quiet (x := []) (Q := []) (by simp) (by simp)) (by simp) (.inl rfl) hk₂
      (by simp [hlim]) hos (hrest.keeps hwf₂ hp₂)⟩
  | @rawText p node dp off tail name r after inner closing cr after' d d₁ d' oe hatt _ hb hclose
      hraw hrest ih =>
    intro P Q htext hoff hwf hp hdp
    obtain ⟨rfl, hd₁, hiss, hk₁, hnode⟩ := Draft.element_attached hwf hp hatt
    have hy : tail = (r ++ inner ++ cr) ++ after' := by
      rw [← tagTail_append tail, oe.tagTail_eq, ← breakBalanced_append hb, ← tagTail_append closing,
        hclose]
      simp
    set o : Opened := ⟨⟨d.tree.size⟩, p, dp + 1, P, tail, Q⟩ with ho
    obtain ⟨hname, -, -⟩ := Opened.of_opensElement oe (o := o) rfl
    have hlim : o.limited cfg = false := by
      cases hl : o.limited cfg with
      | false => rfl
      | true =>
        have := (Opened.limited_eq_true.mp hl).2.2.1
        rw [hname, hraw] at this
        cases this
    have hkin := Draft.keeps_attachText hk₁.wf hnode inner
    have hp₂ := hkin.isElement (hk₁.isElement hp)
    obtain ⟨os, hos⟩ := ih (P ++ '<' :: (r ++ inner ++ cr)) Q (by rw [htext, hy]; simp)
      (by rw [hoff]; simp only [byteSize_append, byteSize_cons]; omega) hkin.wf hp₂ hdp
    exact ⟨o :: [] ++ os, Opens.element_run oe ho hdp hwf hp htext hy hd₁ (by simp [hlim, hiss])
      (Opens.quiet (x := []) (Q := []) (Draft.newElements_attachText hk₁.wf hnode inner) (by simp))
      (by simp) (.inl rfl) hkin (by simp [hlim]) hos (hrest.keeps hkin.wf hp₂)⟩
  | @depthLimited p node dp off tail name r after inner closing cr after' d d₁ d' oe hatt hvoid hb
      hclose hraw hlimit hrest ih =>
    intro P Q htext hoff hwf hp hdp
    obtain ⟨rfl, hd₁, hiss, hk₁, hnode⟩ := Draft.element_attached hwf hp hatt
    have hy : tail = (r ++ inner ++ cr) ++ after' := by
      rw [← tagTail_append tail, oe.tagTail_eq, ← breakBalanced_append hb, ← tagTail_append closing,
        hclose]
      simp
    set o : Opened := ⟨⟨d.tree.size⟩, p, dp + 1, P, tail, Q⟩ with ho
    obtain ⟨hname, hspan, hcontent⟩ := Opened.of_opensElement oe (o := o) rfl
    have hlim : o.limited cfg = true := by
      refine Opened.limited_eq_true.mpr ⟨hlimit, ?_, ?_, ?_⟩
      · rw [hname, hspan]
        exact hvoid
      · rw [hname]
        exact hraw
      · rw [hcontent, hb]
        rfl
    generalize hdr : d₁.report .depthLimit ('<' :: r) off = dr at hrest ih
    have hdr₁ : dr.tree = d₁.tree := by rw [← hdr, Draft.report_tree]
    have hwfr : dr.tree.WellFormed := hdr₁ ▸ hk₁.wf
    have hnoder : dr.tree.isElement ⟨d.tree.size⟩ = true := hdr₁ ▸ hnode
    have hkin := Draft.keeps_attachText hwfr hnoder inner
    have hp₂ := hkin.isElement (hdr₁ ▸ hk₁.isElement hp)
    obtain ⟨os, hos⟩ := ih (P ++ '<' :: (r ++ inner ++ cr)) Q (by rw [htext, hy]; simp)
      (by rw [hoff]; simp only [byteSize_append, byteSize_cons]; omega) hkin.wf hp₂ hdp
    have hchildren : dr.tree.children ⟨d.tree.size⟩ = [] := by
      rw [hdr₁, hd₁, Tree.children_attachNew_new _ _ _ (Tree.lt_size_of_isElement hp)]
    refine ⟨o :: [] ++ os, Opens.element_run oe ho hdp hwf hp htext hy (hdr₁.trans hd₁) ?_
      (Opens.quiet (x := []) (Q := []) (Draft.newElements_attachText hwfr hnoder inner) (by simp))
      (by simp) (.inl rfl) hkin ?_ hos (hrest.keeps hkin.wf hp₂)⟩
    · rw [← hdr, Draft.depthIssues_report, hiss, if_pos hlim, if_pos rfl]
      have hpre : o.pre = P := rfl
      simp [Opened.depthIssue, hspan, hpre, hoff]
    · intro _ inner' closing' hb'
      rw [hb] at hb'
      obtain rfl := (Prod.mk.inj (Option.some.inj hb')).1
      exact Draft.keptAsText_attachText hwfr hnoder hchildren inner
  | @nested p node dp off tail name r after inner closing cr after' d d₁ d₂ d' oe hatt _ hb hclose
      _ hlt hinner hrest ihin ihrest =>
    intro P Q htext hoff hwf hp hdp
    obtain ⟨rfl, hd₁, hiss, hk₁, hnode⟩ := Draft.element_attached hwf hp hatt
    have htail : tail = r ++ inner ++ closing := by
      rw [← tagTail_append tail, oe.tagTail_eq, ← breakBalanced_append hb, List.append_assoc]
    have hy : tail = (r ++ inner ++ cr) ++ after' := by
      rw [htail, ← tagTail_append closing, hclose]
      simp
    set o : Opened := ⟨⟨d.tree.size⟩, p, dp + 1, P, tail, Q⟩ with ho
    have hlim : o.limited cfg = false := by
      cases hl : o.limited cfg with
      | false => rfl
      | true =>
        have := (Opened.limited_eq_true.mp hl).1
        exact absurd this (by show ¬ cfg.maxDepth ≤ dp + 1; omega)
    obtain ⟨osin, hosin⟩ := ihin (P ++ '<' :: r) (closing ++ Q) (by rw [htext, htail]; simp)
      (by rw [hoff, byteSize_append]) hk₁.wf hnode (by omega)
    have hkin := hinner.keeps hk₁.wf hnode
    have hp₂ := hkin.isElement (hk₁.isElement hp)
    obtain ⟨os, hos⟩ := ihrest (P ++ '<' :: (r ++ inner ++ cr)) Q (by rw [htext, hy]; simp)
      (by rw [hoff]; simp only [byteSize_append, byteSize_cons]; omega) hkin.wf hp₂ hdp
    exact ⟨o :: osin ++ os, Opens.element_run oe ho hdp hwf hp htext hy hd₁ (by simp [hlim, hiss])
      hosin (by simp) (.inr ⟨inner, closing, hb, rfl⟩) hkin (by simp [hlim]) hos
      (hrest.keeps hkin.wf hp₂)⟩

/-! ## The whole document -/

/-- The elements of a document, each with the tag it was read from. -/
structure SourceMap (html : String) (t : Tree) (os : List Opened) : Prop where
  nodes : os.map (·.node) = (t.elements NodeId.root).tail
  ordered : os.Pairwise fun a b => a.pre.length < b.pre.length
  text : ∀ o ∈ os, html.toList = o.pre ++ '<' :: o.tail ++ o.out
  element : ∀ o ∈ os, t.element? o.node = some (.withAttributes (String.ofList o.name) (parseAttributes o.span))
  parent : ∀ o ∈ os, t.parent? o.node = some o.parent
  depth : ∀ o ∈ os, (t.ancestors o.node).length = o.depth
  scope : ∀ o ∈ os, (o.parent = NodeId.root ∧ o.out = []) ∨ ∃ o' ∈ os, o'.node = o.parent ∧
    ∃ inner closing, o'.content? = some (inner, closing) ∧ o.out = closing ++ o'.out

theorem Opens.length_ancestors {cfg : Config} {html s : List Char} {d d' : Draft}
    {os : List Opened} (h : Opens cfg html NodeId.root 0 [] s [] d d' os)
    (hwf : d'.tree.WellFormed) : ∀ o ∈ os, (d'.tree.ancestors o.node).length = o.depth := by
  -- on the depth: the record of the parent is one level up
  suffices ∀ k, ∀ o ∈ os, o.depth = k → (d'.tree.ancestors o.node).length = k from
    fun o ho => this o.depth o ho rfl
  intro k
  induction k with
  | zero =>
    intro o ho hk
    rcases h.scope o ho with ⟨-, hd, -⟩ | ⟨o', -, -, hd, -⟩ <;> omega
  | succ k ih =>
    intro o ho hk
    have hc (q : NodeId) (hq : q = o.parent) : o.node ∈ d'.tree.children q := by
      rw [hwf.mem_children_iff, hq]
      exact (h.holds o ho).parent
    rcases h.scope o ho with ⟨hp, hd, -⟩ | ⟨o', ho', hn, hd, -⟩
    · rw [hwf.length_ancestors_child (hc NodeId.root hp.symm), hwf.ancestors_root,
        List.length_nil]
      omega
    · rw [hwf.length_ancestors_child (hc o'.node hn), ih o' ho' (by omega)]

theorem parseDocument_elements (cfg : Config) (html : String) :
    (parseDocument cfg html).1.elements NodeId.root =
      NodeId.root :: Tree.newElements Tree.empty (parseDocument cfg html).1 := by
  have hk : Tree.empty.Keeps NodeId.root (parseDocument cfg html).1 :=
    (build_reads cfg NodeId.root 0 0 html.toList { tree := Tree.empty }).keeps
      Tree.wellFormed_empty Tree.isElement_empty_root
  rw [(parseDocument_preorder cfg html).2.1]
  exact Tree.range_filter_isElement hk.wf.size_pos (hk.isElement Tree.isElement_empty_root)

theorem parseDocument_isElement {cfg : Config} {html : String} {n : NodeId}
    (hn : (parseDocument cfg html).1.isElement n = true) :
    n = NodeId.root ∨ n ∈ ((parseDocument cfg html).1.elements NodeId.root).tail := by
  rw [parseDocument_elements, List.tail_cons, Tree.mem_newElements]
  by_cases h0 : n.index = 0
  · exact .inl (NodeId.index_inj.mp h0)
  · have hempty : Tree.empty.size = 1 := rfl
    exact .inr ⟨by omega, Tree.lt_size_of_isElement hn, hn⟩

theorem Opens.sourceMap {cfg : Config} {html : String} {d d' : Draft} {os : List Opened}
    (h : Opens cfg html.toList NodeId.root 0 [] html.toList [] d d' os)
    (hwf : d'.tree.WellFormed) (hel : d'.tree.elements NodeId.root = NodeId.root :: os.map (·.node)) :
    SourceMap html d'.tree os where
  nodes := by rw [hel, List.tail_cons]
  ordered := h.ordered
  text := h.text
  element o ho := (h.holds o ho).element
  parent o ho := (h.holds o ho).parent
  depth := h.length_ancestors hwf
  scope o ho := by
    rcases h.scope o ho with ⟨hp, -, hout⟩ | ⟨o', ho', hn, -, hrest⟩
    · exact .inl ⟨hp, hout⟩
    · exact .inr ⟨o', ho', hn, hrest⟩

theorem SourceMap.length_ancestors_le {html : String} {t : Tree} {os : List Opened} {k : Nat}
    (h : SourceMap html t os) (hwf : t.WellFormed) (hk : ∀ o ∈ os, o.depth ≤ k) {n : NodeId}
    (hn : n = NodeId.root ∨ n ∈ (t.elements NodeId.root).tail) : (t.ancestors n).length ≤ k := by
  rcases hn with rfl | hn
  · rw [hwf.ancestors_root, List.length_nil]
    exact Nat.zero_le k
  · rw [← h.nodes] at hn
    obtain ⟨o, ho, rfl⟩ := List.mem_map.mp hn
    rw [h.depth o ho]
    exact hk o ho

/-- No element lies more than `max maxDepth 1` levels deep, and a depth issue is reported for
exactly the elements at the limit, whose content is kept as one text. -/
theorem parseDocument_depthLimit (cfg : Config) (html : String) :
    (∀ n, (parseDocument cfg html).1.isElement n = true →
      ((parseDocument cfg html).1.ancestors n).length ≤ max cfg.maxDepth 1) ∧
    ∃ os, SourceMap html (parseDocument cfg html).1 os ∧
      (parseDocument cfg html).2.filter (·.kind == .depthLimit) =
        (os.filter (·.limited cfg)).map Opened.depthIssue ∧
      ∀ o ∈ os, o.limited cfg = true → ∀ inner closing, o.content? = some (inner, closing) →
        KeptAsText (parseDocument cfg html).1 o.node inner := by
  have hel := parseDocument_elements cfg html
  have hall := fun n => @parseDocument_isElement cfg html n
  generalize hd : build cfg NodeId.root 0 0 html.toList { tree := Tree.empty } = d
  have hR : Reads cfg NodeId.root 0 0 html.toList { tree := Tree.empty } d :=
    hd ▸ build_reads cfg NodeId.root 0 0 html.toList { tree := Tree.empty }
  have hdoc : parseDocument cfg html = (d.tree, d.issues.toList) := by
    rw [← hd]
    rfl
  rw [hdoc] at hel hall ⊢
  obtain ⟨os, hos⟩ := hR.opens [] [] (by simp : html.toList = [] ++ html.toList ++ []) rfl
    Tree.wellFormed_empty Tree.isElement_empty_root (by omega)
  have hwf := (hR.keeps Tree.wellFormed_empty Tree.isElement_empty_root).wf
  have hmap : SourceMap html d.tree os := hos.sourceMap hwf (by rw [hel, hos.nodes])
  exact ⟨fun n hn => hmap.length_ancestors_le hwf hos.depth_le (hall n hn), os, hmap, hos.issues,
    fun o ho => (hos.holds o ho).kept⟩

example : (parseDocument { maxDepth := 1 } "<b><i>x</i></b>").2 = [⟨.depthLimit, "<b>", 0⟩] ∧
    (parseDocument { maxDepth := 1 } "<b><i>x</i></b>").1.data? ⟨2⟩ =
      some (.text "<i>x</i>") := by
  decide +kernel

end Html
end HtmlQuery
