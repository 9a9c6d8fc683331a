import HtmlQuery.Proofs.Html.Reads
import HtmlQuery.Proofs.Text.CursorRuns

/-! Where the issues of a build point: in the order of their offsets, each at the markup it quotes. -/
namespace HtmlQuery
namespace Html
open Scan

namespace Draft

variable (d : Draft) (p : NodeId)

@[simp] theorem report_issues (k : IssueKind) (m : List Char) (o : Nat) :
    (d.report k m o).issues = d.issues.push ⟨k, String.ofList m, o⟩ := by
  cases d
  rfl

@[simp] theorem lead_issues (text : List Char) : (d.lead p text).issues = d.issues := by
  unfold lead
  split <;> simp

@[simp] theorem attachText_issues (text : List Char) : (d.attachText p text).issues = d.issues := by
  unfold attachText
  split <;> simp

theorem issues_of_attach {x : NodeData} {d₁ : Draft} {n : Option NodeId}
    (h : d.attach p x = (d₁, n)) : d₁.issues = d.issues := by
  rw [← attach_issues d p x, h]

end Draft

/-- What an issue quotes: `<!--`, or a tag from its `<`. -/
def Issue.QuotesSpan (i : Issue) : Prop :=
  if i.kind = .unterminatedComment then i.markup = "<!--"
  else ∃ r, i.markup.toList = '<' :: (tagTail r).1

/-- Issues in order of offset, each quoting a slice of `s`. -/
structure IssuesIn (base : Nat) (s : List Char) (is : List Issue) : Prop where
  sorted : is.Pairwise fun i j => i.offset < j.offset
  located : ∀ i ∈ is, i.markup.toList ≠ [] ∧
    ∃ pre post, s = pre ++ i.markup.toList ++ post ∧ i.offset = base + byteSize pre

namespace IssuesIn

variable {base : Nat} {s u v : List Char} {is js : List Issue}

theorem nil (base : Nat) (s : List Char) : IssuesIn base s [] := ⟨.nil, by simp⟩

theorem offset_mem (h : IssuesIn base s is) {i : Issue} (hi : i ∈ is) :
    base ≤ i.offset ∧ i.offset < base + byteSize s := by
  obtain ⟨hne, pre, post, rfl, ho⟩ := h.located i hi
  have := byteSize_pos_of_ne_nil hne
  simp only [byteSize_append]
  omega

theorem append (h₁ : IssuesIn base u is) (h₂ : IssuesIn (base + byteSize u) v js) :
    IssuesIn base (u ++ v) (is ++ js) where
  sorted := by
    refine List.pairwise_append.mpr ⟨h₁.sorted, h₂.sorted, fun i hi j hj => ?_⟩
    have := (h₁.offset_mem hi).2
    have := (h₂.offset_mem hj).1
    omega
  located := by
    intro i hi
    rcases List.mem_append.mp hi with hi | hi
    · obtain ⟨hne, pre, post, rfl, ho⟩ := h₁.located i hi
      exact ⟨hne, pre, post ++ v, by simp, ho⟩
    · obtain ⟨hne, pre, post, rfl, ho⟩ := h₂.located i hi
      exact ⟨hne, u ++ pre, post, by simp, by simp [ho, Nat.add_assoc]⟩

theorem shift (h : IssuesIn (base + byteSize u) v js) : IssuesIn base (u ++ v) js := by
  simpa using (nil base u).append h

theorem skip {b : Nat} (hb : b = base + byteSize u) (h : IssuesIn b v js) :
    IssuesIn base (u ++ v) js := by
  subst hb
  exact h.shift

theorem single {k : IssueKind} {m : List Char} (hm : m ≠ []) :
    IssuesIn base m [⟨k, String.ofList m, base⟩] where
  sorted := List.pairwise_singleton _ _
  located := by
    intro i hi
    rw [List.mem_singleton] at hi
    subst hi
    simp only [String.toList_ofList]
    exact ⟨hm, [], [], by simp, by simp⟩

end IssuesIn

theorem eq_of_tagTail {tail r after : List Char} (htag : tagTail tail = (r, after)) :
    '<' :: tail = ('<' :: r) ++ after := by
  rw [List.cons_append, ← tagTail_append tail, htag]

theorem IssuesIn.tag {base : Nat} {k : IssueKind} {tail r after : List Char} {js : List Issue}
    (htag : tagTail tail = (r, after))
    (h : IssuesIn (base + byteSize ('<' :: r)) after js) :
    IssuesIn base ('<' :: tail) (⟨k, String.ofList ('<' :: r), base⟩ :: js) := by
  rw [eq_of_tagTail htag]
  exact (IssuesIn.single (List.cons_ne_nil _ _)).append h

theorem quotesSpan_tag {k : IssueKind} (hk : k ≠ .unterminatedComment) {tail r after : List Char}
    (htag : tagTail tail = (r, after)) (o : Nat) :
    Issue.QuotesSpan ⟨k, String.ofList ('<' :: r), o⟩ := by
  simp only [Issue.QuotesSpan, if_neg hk, String.toList_ofList]
  exact ⟨tail, by rw [htag]⟩

theorem eq_of_closing {tail r after inner closing cr after' o c : List Char} {k : Nat}
    (htag : tagTail tail = (r, after)) (hb : breakBalanced o c k after = some (inner, closing))
    (hc : tagTail closing = (cr, after')) :
    '<' :: tail = ('<' :: r) ++ (inner ++ (cr ++ after')) := by
  rw [eq_of_tagTail htag, ← breakBalanced_append hb, ← tagTail_append closing, hc]

theorem IssuesIn.afterTag {base : Nat} {tail r after : List Char} {js : List Issue}
    (htag : tagTail tail = (r, after)) (h : IssuesIn (base + byteSize ('<' :: r)) after js) :
    IssuesIn base ('<' :: tail) js := by
  rw [eq_of_tagTail htag]
  exact h.shift

theorem Reads.issuesIn {cfg : Config} {p : NodeId} {dp off : Nat} {s : List Char} {d d' : Draft}
    (h : Reads cfg p dp off s d d') :
    ∃ new, d'.issues.toList = d.issues.toList ++ new ∧ IssuesIn off s new ∧
      ∀ i ∈ new, i.QuotesSpan := by
  induction h with
  | nil => exact ⟨[], by simp, .nil _ _, by simp⟩
  | text => exact ⟨[], by simp, .nil _ _, by simp⟩
  | lead _ hs _ ih =>
    obtain ⟨new, hd, hin, hq⟩ := ih
    exact ⟨new, by simpa using hd, hs ▸ hin.shift, hq⟩
  | @comment p dp off body content after d d' hbody _ ih =>
    obtain ⟨new, hd, hin, hq⟩ := ih
    have hs : '<' :: '!' :: '-' :: '-' :: body =
        "<!--".toList ++ ((content ++ after.take 3) ++ after.drop 3) := by
      rw [← breakAt_append "-->".toList body, hbody]
      simp
    have hsize : byteSize "<!--".toList = 4 := rfl
    have hoff : off + 4 + byteSize content + byteSize (after.take 3) =
        off + byteSize "<!--".toList + byteSize (content ++ after.take 3) := by
      simp only [byteSize_append, hsize]
      omega
    rw [hoff] at hin
    rw [hs]
    by_cases hend : "-->".toList.isPrefixOf after = true
    · simp only [hend, if_true, Draft.attach_issues] at hd
      exact ⟨new, hd, hin.shift.shift, hq⟩
    · simp only [hend, Bool.false_eq_true, if_false, Draft.attach_issues, Draft.report_issues,
        Array.toList_push, List.append_assoc, List.singleton_append] at hd
      refine ⟨_ :: new, hd, ?_, ?_⟩
      · have h₁ : IssuesIn off "<!--".toList [⟨.unterminatedComment, "<!--", off⟩] :=
          IssuesIn.single (by decide)
        exact h₁.append hin.shift
      · intro i hi
        rcases List.mem_cons.mp hi with rfl | hi
        · simp [Issue.QuotesSpan]
        · exact hq i hi
  | strayEndTag _ htag _ ih =>
    obtain ⟨new, hd, hin, hq⟩ := ih
    refine ⟨_ :: new, by simpa using hd, hin.tag htag, ?_⟩
    intro i hi
    rcases List.mem_cons.mp hi with rfl | hi
    · exact quotesSpan_tag (by decide) htag _
    · exact hq i hi
  | declaration _ _ htag _ ih =>
    obtain ⟨new, hd, hin, hq⟩ := ih
    exact ⟨new, by simpa using hd, hin.afterTag htag, hq⟩
  | emptyTagName _ _ _ htag _ ih =>
    obtain ⟨new, hd, hin, hq⟩ := ih
    refine ⟨_ :: new, by simpa using hd, hin.tag htag, ?_⟩
    intro i hi
    rcases List.mem_cons.mp hi with rfl | hi
    · exact quotesSpan_tag (by decide) htag _
    · exact hq i hi
  | refused ho hatt _ ih =>
    obtain ⟨new, hd, hin, hq⟩ := ih
    exact ⟨new, by rw [hd, Draft.issues_of_attach _ _ hatt], hin.afterTag ho.tagTail_eq, hq⟩
  | empty ho hatt _ _ ih =>
    obtain ⟨new, hd, hin, hq⟩ := ih
    exact ⟨new, by rw [hd, Draft.issues_of_attach _ _ hatt], hin.afterTag ho.tagTail_eq, hq⟩
  | @unterminated p node dp off tail name r after d d₁ d' ho hatt _ _ _ ih =>
    obtain ⟨new, hd, hin, hq⟩ := ih
    refine ⟨⟨.unterminatedElement, String.ofList ('<' :: r), off⟩ :: new, by simp [hd, Draft.issues_of_attach _ _ hatt],
      hin.tag ho.tagTail_eq, ?_⟩
    intro i hi
    rcases List.mem_cons.mp hi with rfl | hi
    · exact quotesSpan_tag (by decide) ho.tagTail_eq _
    · exact hq i hi
  | rawText ho hatt _ hb hc _ _ ih =>
    obtain ⟨new, hd, hin, hq⟩ := ih
    refine ⟨new, by simp [hd, Draft.issues_of_attach _ _ hatt], ?_, hq⟩
    rw [eq_of_closing ho.tagTail_eq hb hc]
    exact (hin.skip (by simp [Nat.add_assoc])).shift.shift
  | @depthLimited p node dp off tail name r after inner closing cr after' d d₁ d' ho hatt _ hb hc _ _ _
      ih =>
    obtain ⟨new, hd, hin, hq⟩ := ih
    refine ⟨⟨.depthLimit, String.ofList ('<' :: r), off⟩ :: new, by simp [hd, Draft.issues_of_attach _ _ hatt], ?_, ?_⟩
    · rw [eq_of_closing ho.tagTail_eq hb hc]
      exact (IssuesIn.single (List.cons_ne_nil _ _)).append
        (hin.skip (by simp [Nat.add_assoc])).shift
    · intro i hi
      rcases List.mem_cons.mp hi with rfl | hi
      · exact quotesSpan_tag (by decide) ho.tagTail_eq _
      · exact hq i hi
  | nested ho hatt _ hb hc _ _ _ _ ihin ih =>
    obtain ⟨newIn, hdIn, hinIn, hqIn⟩ := ihin
    obtain ⟨new, hd, hin, hq⟩ := ih
    refine ⟨newIn ++ new, by simp [hd, hdIn, Draft.issues_of_attach _ _ hatt], ?_, ?_⟩
    · rw [eq_of_closing ho.tagTail_eq hb hc]
      exact (hinIn.append (hin.skip (by simp [Nat.add_assoc]))).shift
    · intro i hi
      rcases List.mem_append.mp hi with hi | hi
      · exact hqIn i hi
      · exact hq i hi

/-- The issues of building stand in order of offset, and each quotes the markup at its offset. -/
theorem buildInto_issues_located (cfg : Config) (t : Tree) (p : NodeId) (html : String) :
    let issues := (buildInto cfg t p html).2
    issues.Pairwise (fun i j => i.offset < j.offset) ∧
    ∀ i ∈ issues, String.Pos.Raw.IsValid html ⟨i.offset⟩ ∧
      String.Pos.Raw.extract html ⟨i.offset⟩ ⟨i.offset + i.markup.utf8ByteSize⟩ = i.markup ∧
      i.QuotesSpan ∧ i.message = i.kind.text ++ " `" ++ abbreviate i.markup ++ "`" := by
  intro issues
  obtain ⟨new, hd, hin, hq⟩ := (build_reads cfg p 0 0 html.toList { tree := t }).issuesIn
  have hissues : issues = new := by
    simp only [List.nil_append] at hd
    exact hd
  rw [hissues]
  refine ⟨hin.sorted, fun i hi => ?_⟩
  obtain ⟨-, pre, post, hs, ho⟩ := hin.located i hi
  rw [Nat.zero_add] at ho
  refine ⟨ho ▸ isValid_byteSize (hs.trans (List.append_assoc ..)), ?_, hq i hi, rfl⟩
  rw [ho, ← byteSize_toList, extract_eq_ofList hs, String.ofList_toList]

example : (parseDocument {} "<div><span></b></span></div>").2 =
    [⟨.strayEndTag, "</b>", 11⟩] := by
  decide +kernel

end Html
end HtmlQuery
