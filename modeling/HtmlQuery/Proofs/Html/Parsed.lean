import HtmlQuery.Proofs.Html.DepthLimit
import HtmlQuery.Proofs.Html.AttributeNames

/-! The plain trees the builder gives. Each node it makes has what reading its markup guarantees,
whatever the input: this is proved over every run of the builder, one rule at a time. -/
namespace HtmlQuery
open Scan Markup Html

/-- What reading a tag guarantees of an element's names: the tag is read as a tag name, the
attributes are sorted, and when the tag holds no quote, every attribute whose name holds none is
written so that it reads back. -/
structure NamesParsed (tag : String) (attrs : Attrs) : Prop where
  tag_ne_nil : tag.toList ≠ []
  tag_plain : ∀ c ∈ tag.toList, c ≠ '>' ∧ c ≠ '/' ∧ isMarkupBlank c = false
  tag_not_bang : tag.toList.head? ≠ some '!'
  readable : (∀ c ∈ tag.toList, isQuote c = false) →
    ∀ p ∈ attrs.entries, (∀ c ∈ p.1.toList, isQuote c = false) → AttrReadable p
  sorted : attrs.Sorted

/-- A tag name the builder read reads back when it holds no quote. -/
theorem NamesParsed.tagReadable {tag : String} {attrs : Attrs} (h : NamesParsed tag attrs)
    (hq : ∀ c ∈ tag.toList, isQuote c = false) : TagReadable tag.toList where
  ne_nil := h.tag_ne_nil
  plain c hc := ⟨(h.tag_plain c hc).1,(h.tag_plain c hc).2.1,(h.tag_plain c hc).2.2,hq c hc⟩
  not_bang := h.tag_not_bang

namespace Doc

/-- The forest of one text kept as it is: nothing for the empty text. -/
def keptText (text : List Char) : List Doc := if text = [] then [] else [.text (String.ofList text)]

mutual
/-- The builder can give the plain tree `d` at `depth` levels below the root. -/
def Parsed (depth : Nat) : Doc → Prop
  | .element tag attrs cs => NamesParsed tag attrs ∧ (Tags.isVoid tag = true → cs = []) ∧
      (Tags.mem Tags.rawText tag = false → depth + 1 < 512 → ParsedAll (depth + 1) cs)
  | .text s => '<' ∉ s.toList ∧ s.toList.all isMarkupBlank = false
  | .comment s => ¬ "-->".toList <:+: s.toList
  | .declaration s =>
    Unquoted (· == '>') none ('!' :: s.toList) ∧ "--".toList.isPrefixOf s.toList = false

/-- The builder can give the forest `ds` at `depth` levels below the root: a declaration that
leaves a quoted run open is the last of its forest. -/
def ParsedAll (depth : Nat) : List Doc → Prop
  | [] => True
  | d :: ds => Parsed depth d ∧
      (ds ≠ [] → ∀ s, d = .declaration s → runAfter none ('!' :: s.toList) = none) ∧ ParsedAll depth ds
end

section Parsed

variable {dp : Nat}

@[simp] theorem parsed_element {tag : String} {attrs : Attrs} {cs : List Doc} :
    (Doc.element tag attrs cs).Parsed dp ↔ NamesParsed tag attrs ∧ (Tags.isVoid tag = true → cs = []) ∧
      (Tags.mem Tags.rawText tag = false → dp + 1 < 512 → ParsedAll (dp + 1) cs) := Iff.rfl

@[simp] theorem parsed_text {s : String} :
    (Doc.text s).Parsed dp ↔ '<' ∉ s.toList ∧ s.toList.all isMarkupBlank = false := Iff.rfl

@[simp] theorem parsed_comment {s : String} : (Doc.comment s).Parsed dp ↔ ¬ "-->".toList <:+: s.toList :=
  Iff.rfl

@[simp] theorem parsed_declaration {s : String} :
    (Doc.declaration s).Parsed dp ↔
      Unquoted (· == '>') none ('!' :: s.toList) ∧ "--".toList.isPrefixOf s.toList = false := Iff.rfl

@[simp] theorem parsedAll_nil : ParsedAll dp [] ↔ True := Iff.rfl

@[simp] theorem parsedAll_cons {d : Doc} {ds : List Doc} :
    ParsedAll dp (d :: ds) ↔ d.Parsed dp ∧
      (ds ≠ [] → ∀ s, d = .declaration s → runAfter none ('!' :: s.toList) = none) ∧ ParsedAll dp ds :=
  Iff.rfl

end Parsed

end Doc

namespace Html

/-! ## One step of the builder -/

section Steps

variable {d : Draft} {p : NodeId} (hwf : d.tree.WellFormed) (hp : d.tree.isElement p = true)
include hwf hp

theorem Draft.attach_tree (x : NodeData) : (d.attach p x).1.tree = d.tree.attachNew p x := by
  rw [Draft.attach_eq_attachNew hwf hp]

theorem Draft.lead_tree (text : List Char) :
    (d.lead p text).tree =
      if text.all isMarkupBlank then d.tree else d.tree.graft p (.text (String.ofList text)) := by
  unfold Draft.lead
  split
  · rfl
  · rw [Draft.attach_eq_attachNew hwf hp]
    rfl

theorem Draft.attachText_graftAll (text : List Char) :
    (d.attachText p text).tree = d.tree.graftAll p (Doc.keptText text) := by
  rw [Draft.attachText_tree hwf hp]
  unfold Doc.keptText
  split <;> rfl

/-- The builder's next node read: grafted under `p`, it extends any forest read after it. -/
theorem graft_parsedAll {dp : Nat} {x : Doc} (hx : x.Parsed dp)
    (hdecl : ∀ s, x = .declaration s → runAfter none ('!' :: s.toList) = none) {d₁ d' : Draft}
    (h₁ : d₁.tree = d.tree.graft p x)
    (ih : d₁.tree.WellFormed → d₁.tree.isElement p = true →
      ∃ F, d'.tree = d₁.tree.graftAll p F ∧ Doc.ParsedAll dp F) :
    ∃ F, d'.tree = d.tree.graftAll p F ∧ Doc.ParsedAll dp F := by
  obtain ⟨F,hF,hparsed⟩ := ih (h₁ ▸ hwf.graft x hp) (h₁ ▸ Tree.isElement_graft hp x)
  exact ⟨x :: F,by rw [hF,h₁]; rfl,Doc.parsedAll_cons.mpr ⟨hx,fun _ => hdecl,hparsed⟩⟩

/-- An element the builder attaches under `p`, with `cs` grafted under it, is the element grafted
with its children `cs`. -/
theorem graft_of_attach {tag : String} {attrs : Attrs} {d₁ : Draft} {node : NodeId}
    (hatt : d.attach p (.element (.withAttributes tag attrs)) = (d₁,some node)) :
    d₁.tree.WellFormed ∧ d₁.tree.isElement node = true ∧
      ∀ cs, d₁.tree.graftAll node cs = d.tree.graft p (.element tag attrs cs) := by
  rw [Draft.attach_eq_attachNew hwf hp] at hatt
  obtain ⟨rfl,hnode⟩ := Prod.mk.inj hatt
  obtain rfl := Option.some.inj hnode
  exact ⟨hwf.attachNew hp _,by simp [Tree.isElement,Tree.element?,Tree.data?_attachNew_new],
    fun _ => rfl⟩

/-- Content the builder keeps as text under an element it attaches: the element grafted with that
text as its children. -/
theorem graft_keptText {tag : String} {attrs : Attrs} {d₁ : Draft} {node : NodeId}
    (hatt : d.attach p (.element (.withAttributes tag attrs)) = (d₁,some node)) {d₂ : Draft}
    (h₂ : d₂.tree = d₁.tree) (inner : List Char) :
    (d₂.attachText node inner).tree = d.tree.graft p (.element tag attrs (Doc.keptText inner)) := by
  obtain ⟨hwf₁,hnode,hgraft⟩ := graft_of_attach hwf hp hatt
  have hwf₂ : d₂.tree.WellFormed := h₂ ▸ hwf₁
  have hnode₂ : d₂.tree.isElement node = true := h₂ ▸ hnode
  rw [Draft.attachText_graftAll hwf₂ hnode₂,h₂,hgraft]

end Steps

theorem Reads.eq_of_nil {cfg : Config} {p : NodeId} {dp off : Nat} {d d' : Draft}
    (h : Reads cfg p dp off [] d d') : d' = d := by
  cases h with
  | nil => rfl
  | text hne => exact absurd rfl hne
  | lead _ hs => simp at hs

theorem not_infix_breakAt {lit : List Char} (hlit : lit ≠ []) (s : List Char) :
    ¬ lit <:+: (breakAt lit s).1 := by
  induction s with
  | nil => simpa [breakAt] using hlit
  | cons c cs ih =>
    simp only [breakAt]
    split
    · simpa using hlit
    · next hpre =>
      rw [List.infix_cons_iff]
      rintro (h | h)
      · have hfst : (breakAt lit cs).1 <+: cs := ⟨(breakAt lit cs).2,breakAt_append lit cs⟩
        exact hpre (List.isPrefixOf_iff_prefix.mpr (h.trans (List.cons_prefix_cons.mpr ⟨rfl,hfst⟩)))
      · exact ih h

/-- What reading an opening tag guarantees of the element's names. -/
theorem OpensElement.namesParsed {tail name r after : List Char} (h : OpensElement tail name r after) :
    NamesParsed (String.ofList name) (parseAttributes ('<' :: r)) := by
  have hname : tagName tail = name := h.tagName_eq
  have hplain : ∀ c ∈ name, c ≠ '>' ∧ c ≠ '/' ∧ isMarkupBlank c = false := fun c hc => by
    rw [← hname] at hc
    simpa [and_assoc] using List.mem_takeWhile_imp
      (p := fun c => !(c == '>' || c == '/' || isMarkupBlank c)) (l := tail) hc
  refine ⟨by simpa using h.name_ne_nil,by simpa using hplain,?_,fun hq q hq' hqq => ?_,
    Attrs.sorted_ofList _⟩
  · -- the tag name starts the tail
    obtain ⟨x,xs,hx⟩ := List.exists_cons_of_ne_nil h.name_ne_nil
    have hpre : name <+: tail := hname ▸ List.takeWhile_prefix _
    obtain ⟨u,hu⟩ := hpre
    rw [String.toList_ofList,hx]
    have hhead := h.not_bang
    rw [← hu,hx] at hhead
    simpa using hhead
  · have htt : r = (tagTail tail).1 := by rw [h.tagTail_eq]
    rw [htt] at hq'
    exact attrReadable_of_mem_parseAttributes (by rw [hname]; simpa using hq) hq' hqq

/-- What reading a declaration guarantees of its content: no `>` outside quoted runs and no
leading `--`; and unless the declaration ran to the end of its text, no quoted run left open. -/
theorem declaration_parsed {dp : Nat} {tail r after c : List Char}
    (hnc : ∀ body, tail ≠ '!' :: '-' :: '-' :: body) (hbang : tail.head? = some '!')
    (ht : tagTail tail = (r,after))
    (hc : c = if ('<' :: r).getLast? == some '>' then (('<' :: r).drop 2).dropLast else ('<' :: r).drop 2) :
    (Doc.declaration (String.ofList c)).Parsed dp ∧ (after ≠ [] → runAfter none ('!' :: c) = none) := by
  obtain ⟨t',rfl⟩ : ∃ t', tail = '!' :: t' := by
    cases tail with
    | nil => cases hbang
    | cons x t' => simp only [List.head?_cons,Option.some.injEq] at hbang; exact ⟨t',by rw [hbang]⟩
  have hsplit : r ++ after = '!' :: t' := by
    have := tagTail_append ('!' :: t')
    rwa [ht] at this
  obtain ⟨P,E,hPE,hP,hE⟩ := tagTail_fst ('!' :: t')
  rw [ht] at hPE hE
  dsimp only at hPE hE
  subst hPE
  -- the text read starts with the `!`
  obtain ⟨P',rfl⟩ : ∃ P', P = '!' :: P' := by
    cases P with
    | nil => rcases hE with ⟨rfl,rfl⟩ | ⟨rfl,-⟩ <;> simp at hsplit
    | cons x P' =>
      simp only [List.cons_append,List.cons.injEq] at hsplit
      exact ⟨P',by rw [hsplit.1]⟩
  have hpre : P' <+: t' := ⟨E ++ after,by simpa using hsplit⟩
  have hcP : c <+: P' := by
    rcases hE with ⟨rfl,-⟩ | ⟨rfl,-⟩
    · rw [hc]
      split
      · simpa using List.dropLast_prefix P'
      · simp
    · rw [hc]
      simp [List.getLast?_cons]
  refine ⟨⟨?_,?_⟩,fun hafter => ?_⟩
  · simp only [String.toList_ofList]
    exact hP.of_isPrefix (List.cons_prefix_cons.mpr ⟨rfl,hcP⟩)
  · simp only [String.toList_ofList]
    cases hdash : "--".toList.isPrefixOf c
    · rfl
    · obtain ⟨u,rfl⟩ := List.isPrefixOf_iff_prefix.mp hdash
      obtain ⟨v,hv⟩ := hcP.trans hpre
      exact absurd (by rw [← hv]; rfl) (hnc (u ++ v))
  · rcases hE with ⟨-,rfl⟩ | ⟨rfl,hrun⟩
    · exact absurd rfl hafter
    · rw [hc]
      simpa [List.getLast?_cons] using hrun

/-- An element read from an opening tag, with children that fit its tag. -/
theorem OpensElement.parsed {dp : Nat} {tail name r after : List Char} (h : OpensElement tail name r after)
    {cs : List Doc} (hvoid : Tags.isVoid (String.ofList name) = true → cs = [])
    (hcs : Tags.mem Tags.rawText (String.ofList name) = false → dp + 1 < 512 → Doc.ParsedAll (dp + 1) cs) :
    (Doc.element (String.ofList name) (parseAttributes ('<' :: r)) cs).Parsed dp :=
  Doc.parsed_element.mpr ⟨h.namesParsed,hvoid,hcs⟩

theorem isVoid_of_not_empty {name r : List Char}
    (hself : (({} : Config).isVoid (String.ofList name) || ('<' :: r).reverse.take 2 == ['>','/']) = false) :
    Tags.isVoid (String.ofList name) = false := by
  simp only [Bool.or_eq_false_iff] at hself
  exact hself.1

/-- Every run of the builder under an element grafts a forest that the builder can give. -/
theorem Reads.parsed {p : NodeId} {dp off : Nat} {s : List Char} {d d' : Draft}
    (h : Reads {} p dp off s d d') :
    d.tree.WellFormed → d.tree.isElement p = true →
      ∃ F, d'.tree = d.tree.graftAll p F ∧ Doc.ParsedAll dp F := by
  induction h with
  | nil => exact fun _ _ => ⟨[],rfl,trivial⟩
  | @text p dp off s d _ hlt =>
    intro hwf hp
    rw [Draft.lead_tree hwf hp]
    split
    · exact ⟨[],rfl,trivial⟩
    · next hb =>
      exact ⟨[.text (String.ofList s)],rfl,by simpa [hb] using hlt⟩
  | @lead p dp off s text X d d' hlt _ _ ih =>
    intro hwf hp
    have hlead := Draft.lead_tree hwf hp text
    split at hlead
    · rw [hlead] at ih
      exact ih hwf hp
    · next hb =>
      exact graft_parsedAll hwf hp (by simpa [hb] using hlt) (fun _ h => by cases h) hlead ih
  | @comment p dp off body content after d d' hbrk _ ih =>
    intro hwf hp
    have hnot : ¬ "-->".toList <:+: content := by
      have := not_infix_breakAt (show "-->".toList ≠ [] by decide) body
      rwa [hbrk] at this
    have h₁ : ((if "-->".toList.isPrefixOf after then d
        else d.report .unterminatedComment "<!--".toList off).attach p
          (.comment (String.ofList content))).1.tree = d.tree.graft p (.comment (String.ofList content)) := by
      split <;> exact Draft.attach_tree (by simpa using hwf) (by simpa using hp) _
    exact graft_parsedAll hwf hp (by simpa using hnot) (fun _ h => by cases h) h₁ ih
  | strayEndTag _ _ _ ih =>
    intro hwf hp
    simp only [Draft.report_tree] at ih
    exact ih hwf hp
  | @declaration p dp off tail r after d d' hnc hbang ht hrest ih =>
    intro hwf hp
    obtain ⟨hparsed,hclosed⟩ := @declaration_parsed dp _ _ _ _ hnc hbang ht rfl
    have h₁ := Draft.attach_tree hwf hp (.declaration (String.ofList
      (if ('<' :: r).getLast? == some '>' then (('<' :: r).drop 2).dropLast else ('<' :: r).drop 2)))
    by_cases hafter : after = []
    · -- a declaration that runs to the end is the last node read
      subst hafter
      rw [Reads.eq_of_nil hrest,h₁]
      exact ⟨[.declaration _],rfl,by simpa using hparsed⟩
    · refine graft_parsedAll hwf hp hparsed (fun s hs => ?_) h₁ ih
      cases hs
      simpa using hclosed hafter
  | emptyTagName _ _ _ _ _ ih =>
    intro hwf hp
    simp only [Draft.report_tree] at ih
    exact ih hwf hp
  | refused _ hatt _ _ =>
    intro hwf hp
    rw [Draft.attach_eq_attachNew hwf hp] at hatt
    simp at hatt
  | @empty p node dp off tail name r after d d₁ d' hopen hatt _ _ ih =>
    intro hwf hp
    obtain ⟨-,-,hgraft⟩ := graft_of_attach hwf hp hatt
    exact graft_parsedAll hwf hp (hopen.parsed (fun _ => rfl) (fun _ _ => trivial))
      (fun _ h => by cases h) (hgraft []) ih
  | @unterminated p node dp off tail name r after d d₁ d' hopen hatt _ _ _ ih =>
    intro hwf hp
    obtain ⟨-,-,hgraft⟩ := graft_of_attach hwf hp hatt
    simp only [Draft.report_tree] at ih
    exact graft_parsedAll hwf hp (hopen.parsed (fun _ => rfl) (fun _ _ => trivial))
      (fun _ h => by cases h) (hgraft []) ih
  | @rawText p node dp off tail name r after inner closing cr after' d d₁ d' hopen hatt hself _ _ hraw _ ih =>
    intro hwf hp
    exact graft_parsedAll hwf hp (@OpensElement.parsed dp _ _ _ _ hopen (Doc.keptText inner)
      (fun h => absurd h (by simp [isVoid_of_not_empty hself]))
      (fun h => absurd hraw (by simpa [Config.isRawText] using h))) (fun _ h => by cases h)
      (graft_keptText hwf hp hatt rfl inner) ih
  | @depthLimited p node dp off tail name r after inner closing cr after' d d₁ d' hopen hatt hself _ _ _
      hdepth _ ih =>
    intro hwf hp
    exact graft_parsedAll hwf hp (@OpensElement.parsed dp _ _ _ _ hopen (Doc.keptText inner)
      (fun h => absurd h (by simp [isVoid_of_not_empty hself]))
      (fun _ h => absurd hdepth (by simp; omega))) (fun _ h => by cases h)
      (graft_keptText hwf hp hatt (Draft.report_tree _ _ _ _) inner) ih
  | @nested p node dp off tail name r after inner closing cr after' d d₁ d₂ d' hopen hatt hself _ _ _ _
      _ _ ihin ih =>
    intro hwf hp
    obtain ⟨hwf₁,hnode,hgraft⟩ := graft_of_attach hwf hp hatt
    obtain ⟨cs,hcs,hparsed⟩ := ihin hwf₁ hnode
    refine graft_parsedAll hwf hp (hopen.parsed (fun h => absurd h (by simp [isVoid_of_not_empty hself]))
      (fun _ _ => hparsed)) (fun _ h => by cases h) ?_ ih
    rw [hcs,hgraft]

/-- Every document parses to its root with a forest the builder can give grafted under it. -/
theorem parseDocument_parsed (html : String) :
    ∃ F, (parseDocument {} html).1 = Tree.empty.graftAll NodeId.root F ∧ Doc.ParsedAll 0 F :=
  (build_reads {} NodeId.root 0 0 html.toList { tree := Tree.empty }).parsed Tree.wellFormed_empty
    (by decide)

end Html
end HtmlQuery
