import HtmlQuery.Proofs.Markup.OpenTag

/-! The search for the closing tag of an element named `name` on canonical markup. -/
namespace HtmlQuery
namespace Markup
open Scan Html

def closeTagChars (tag : String) : List Char := '<' :: '/' :: (tag.toList ++ ['>'])

/-- The search from any depth passes over `w` whatever follows it. -/
def Balanced (o c w : List Char) : Prop :=
  ∀ k r, breakBalanced o c k (w ++ r) = (breakBalanced o c k r).map fun p => (w ++ p.1,p.2)

theorem Balanced.append {o c w w' : List Char} (h : Balanced o c w) (h' : Balanced o c w') :
    Balanced o c (w ++ w') := by
  intro k r
  rw [List.append_assoc,h,h',Option.map_map]
  simp [Function.comp_def]

theorem startsWithTag_cons_cons (a b : Char) (A s : List Char) :
    startsWithTag (a :: A) (b :: s) = (a == b && startsWithTag A s) := by
  simp only [startsWithTag,List.isPrefixOf,List.length_cons,List.drop_succ_cons]
  cases a == b <;> simp

theorem startsWithTag_name {A B r : List Char} {x : Char} (hA : ∀ c ∈ A, isTagChar c = true)
    (hB : ∀ c ∈ B, isTagChar c = true) (hx : x = ' ' ∨ x = '>') :
    startsWithTag A (B ++ x :: r) = decide (A = B) := by
  have hxt : isTagChar x = false := by rcases hx with rfl | rfl <;> decide
  induction B generalizing A with
  | nil =>
    cases A with
    | nil => rcases hx with rfl | rfl <;> simp [startsWithTag,isMarkupBlank]
    | cons a A =>
      have ha : a ≠ x := fun he => by
        have h := hA a List.mem_cons_self
        rw [he,hxt] at h
        cases h
      simp [startsWithTag_cons_cons,ha]
  | cons b B ih =>
    cases A with
    | nil =>
      have hb := of_isTagChar (hB b List.mem_cons_self)
      simp [startsWithTag,hb.2.2.2.1,hb.2.2.2.2.2.1,hb.1]
    | cons a A =>
      rw [List.cons_append,startsWithTag_cons_cons,ih (fun c hc => hA c (List.mem_cons_of_mem _ hc))
        (fun c hc => hB c (List.mem_cons_of_mem _ hc))]
      by_cases hab : a = b <;> simp [hab]

theorem balanced_of_lt_not_mem (name : String) (w : List Char) (hw : '<' ∉ w) :
    Balanced ('<' :: name.toList) ('<' :: '/' :: name.toList) w := by
  intro k r
  induction w generalizing k with
  | nil => simp
  | cons x w ih =>
    have hx : x ≠ '<' := fun he => hw (he ▸ List.mem_cons_self)
    have hs : ∀ L, startsWithTag ('<' :: L) (x :: (w ++ r)) = false := fun L => by
      simp [startsWithTag_cons_cons,Ne.symm hx]
    simp only [List.cons_append,breakBalanced,hs,Bool.false_eq_true,if_false]
    rw [ih (fun hm => hw (List.mem_cons_of_mem _ hm))]
    simp [Function.comp_def]

theorem lt_not_mem_attrs {entries : List (String × AttrValue)}
    (hc : ∀ p ∈ entries, isAttrName p.1 = true ∧ isAttrValue p.2 = true) :
    '<' ∉ entries.flatMap attrChars := by
  simp only [List.mem_flatMap,not_exists,not_and]
  intro p hp hmem
  have hpc := hc p hp
  simp only [attrChars,wordChars,List.mem_cons,List.mem_append] at hmem
  rcases hmem with h | h | h
  · cases h
  · exact (of_isNameStop_eq_false (not_isNameStop_of_mem hpc.1 h)).2.2.2.2.2.2.1 rfl
  · obtain ⟨name',v⟩ := p
    cases v with
    | flag => simp [valueChars] at h
    | text s =>
      obtain ⟨q,hq,-,hquote⟩ := quote_toList s
      have hbody : quoteBody s = s := by simpa [rereadValue] using rereadValue_of_isAttrValue hpc.2
      rw [hbody] at hquote
      have hs : '<' ∉ s.toList := by
        have := hpc.2
        simp only [isAttrValue,Bool.and_eq_true,Bool.not_eq_true'] at this
        simpa using this.1
      simp only [valueChars,hquote,List.mem_cons,List.mem_append,List.not_mem_nil,or_false] at h
      rcases h with h | h | h | h
      · cases h
      · rw [← h] at hq; cases hq
      · exact hs h
      · rw [← h] at hq; cases hq

theorem toList_markup_element (tag : String) (attrs : Attrs) (cs : List Doc) :
    (Doc.markup (.element tag attrs cs)).toList =
      if Tags.isVoid tag && cs.isEmpty then (openTag (.withAttributes tag attrs)).toList
      else (openTag (.withAttributes tag attrs)).toList ++ ((Doc.markupAll cs).toList ++ closeTagChars tag) := by
  rw [Doc.markup]
  split <;> simp [closeTagChars,String.toList_append]

theorem toList_markup_comment (s : String) :
    (Doc.markup (.comment s)).toList = '<' :: '!' :: ('-' :: '-' :: (s.toList ++ "-->".toList)) := by
  simp [Doc.markup,String.toList_append]

theorem toList_markup_declaration (s : String) :
    (Doc.markup (.declaration s)).toList = '<' :: '!' :: (s.toList ++ ['>']) := by
  simp [Doc.markup,String.toList_append]

theorem toList_markupAll_cons (d : Doc) (ds : List Doc) :
    (Doc.markupAll (d :: ds)).toList = (Doc.markup d).toList ++ (Doc.markupAll ds).toList := by
  simp [Doc.markupAll,String.toList_append]

section Name

variable {name : String} (hname : isTagName name = true)
include hname

theorem balanced_bang {w : List Char} (hw : '<' ∉ w) :
    Balanced ('<' :: name.toList) ('<' :: '/' :: name.toList) ('<' :: '!' :: w) := by
  obtain ⟨n,ns,hns,-,hchars⟩ := tagChars_of_isTagName hname
  have hn : n ≠ '!' := (of_isTagChar (hchars n (by simp [hns]))).2.2.2.2.2.2
  intro k r
  have hrest := balanced_of_lt_not_mem name ('!' :: w) (by simpa using hw)
  have hs1 : startsWithTag ('<' :: '/' :: name.toList) ('<' :: ('!' :: w ++ r)) = false := by
    simp [startsWithTag_cons_cons]
  have hs2 : startsWithTag ('<' :: name.toList) ('<' :: ('!' :: w ++ r)) = false := by
    simp [hns,startsWithTag_cons_cons,hn]
  rw [List.cons_append,breakBalanced.eq_2,hs1,hs2]
  simp only [Bool.false_eq_true,if_false]
  rw [hrest]
  simp [Function.comp_def]

theorem breakBalanced_openTag {e : Element} (htag : isTagName e.tag = true)
    (hattrs : e.attrs.canonical = true) (k : Nat) (r : List Char) :
    breakBalanced ('<' :: name.toList) ('<' :: '/' :: name.toList) k ((openTag e).toList ++ r) =
      (breakBalanced ('<' :: name.toList) ('<' :: '/' :: name.toList)
        (if e.tag = name then k + 1 else k) r).map fun p => ((openTag e).toList ++ p.1,p.2) := by
  obtain ⟨x,rest,hrest,hx⟩ := attrs_head e r
  obtain ⟨t,ts,hts,-,-⟩ := tagChars_of_isTagName htag
  have ht : t ≠ '/' := (of_isTagChar (tagChars htag t (by simp [hts]))).2.2.2.1
  have hafter : '<' ∉ e.tag.toList ++ e.attrs.entries.flatMap attrChars ++ ['>'] := by
    simp only [List.mem_append,List.mem_singleton,not_or]
    exact ⟨⟨fun h => (of_isTagChar (tagChars htag _ h)).2.2.2.2.1 rfl,
      lt_not_mem_attrs (canonical_entries hattrs)⟩,by decide⟩
  have hshape : e.tag.toList ++ e.attrs.entries.flatMap attrChars ++ ['>'] ++ r =
      e.tag.toList ++ x :: rest := by
    rw [← hrest]; simp
  have hclose :
      startsWithTag ('<' :: '/' :: name.toList) ('<' :: (e.tag.toList ++ x :: rest)) = false := by
    rw [hts]; simp [startsWithTag_cons_cons,Ne.symm ht]
  have hopen : startsWithTag ('<' :: name.toList) ('<' :: (e.tag.toList ++ x :: rest)) =
      decide (e.tag = name) := by
    rw [startsWithTag_cons_cons,startsWithTag_name (tagChars hname) (tagChars htag) hx]
    simp [String.toList_inj,eq_comm]
  rw [openTag_toList,List.cons_append,hshape,breakBalanced.eq_2,hclose,hopen,← hshape]
  simp only [Bool.false_eq_true,if_false,decide_eq_true_eq]
  rw [balanced_of_lt_not_mem name _ hafter]
  simp [Function.comp_def]

theorem breakBalanced_closeTagChars {tag : String} (htag : isTagName tag = true) (k : Nat)
    (r : List Char) :
    breakBalanced ('<' :: name.toList) ('<' :: '/' :: name.toList) k (closeTagChars tag ++ r) =
      if tag = name then
        if k = 0 then some ([],closeTagChars tag ++ r)
        else (breakBalanced ('<' :: name.toList) ('<' :: '/' :: name.toList) (k - 1) r).map
          fun p => (closeTagChars tag ++ p.1,p.2)
      else (breakBalanced ('<' :: name.toList) ('<' :: '/' :: name.toList) k r).map
        fun p => (closeTagChars tag ++ p.1,p.2) := by
  obtain ⟨n,ns,hns,-,hchars⟩ := tagChars_of_isTagName hname
  have hn : n ≠ '/' := (of_isTagChar (hchars n (by simp [hns]))).2.2.2.1
  have hafter : '<' ∉ '/' :: (tag.toList ++ ['>']) := by
    simp only [List.mem_cons,List.mem_append,not_or]
    exact ⟨by decide,fun h => (of_isTagChar (tagChars htag _ h)).2.2.2.2.1 rfl,by decide⟩
  have hclose : startsWithTag ('<' :: '/' :: name.toList) ('<' :: ('/' :: (tag.toList ++ ['>']) ++ r)) =
      decide (tag = name) := by
    rw [List.cons_append,startsWithTag_cons_cons,startsWithTag_cons_cons,List.append_assoc,
      List.singleton_append,startsWithTag_name (tagChars hname) (tagChars htag) (.inr rfl)]
    simp [String.toList_inj,eq_comm]
  have hopen : startsWithTag ('<' :: name.toList) ('<' :: ('/' :: (tag.toList ++ ['>']) ++ r)) =
      false := by
    rw [hns]; simp [startsWithTag_cons_cons,hn]
  have hrest := balanced_of_lt_not_mem name _ hafter
  rw [closeTagChars,List.cons_append,breakBalanced.eq_2,hclose,hopen]
  simp only [decide_eq_true_eq,Bool.false_eq_true,if_false]
  by_cases h : tag = name
  · simp only [if_pos h]
    split
    · rfl
    · rw [hrest]; simp [Function.comp_def]
  · simp only [if_neg h]
    rw [hrest]; simp [Function.comp_def]

end Name

mutual
theorem balanced_markup {name : String} (hname : isTagName name = true)
    (hv : Tags.isVoid name = false) :
    ∀ (d : Doc) (dp : Nat), d.canonical dp = true →
      Balanced ('<' :: name.toList) ('<' :: '/' :: name.toList) d.markup.toList
  | .element tag attrs cs, dp, h => by
    simp only [Doc.canonical,Bool.and_eq_true] at h
    obtain ⟨⟨⟨⟨⟨htag,-⟩,-⟩,-⟩,hattrs⟩,hcs⟩ := h
    have hall := balanced_markupAll hname hv cs (dp + 1) hcs
    intro k r
    rw [toList_markup_element]
    split
    · next hvc =>
      have hne : tag ≠ name := by
        rintro rfl
        simp [hv] at hvc
      rw [@breakBalanced_openTag name hname (.withAttributes tag attrs) htag hattrs,
        Element.withAttributes_tag,if_neg hne]
    · simp only [List.append_assoc]
      rw [@breakBalanced_openTag name hname (.withAttributes tag attrs) htag hattrs,hall,Option.map_map,
        breakBalanced_closeTagChars hname htag]
      by_cases heq : tag = name <;> simp [heq,Function.comp_def]
  | .text s, dp, h => by
    simp only [Doc.canonical,Bool.and_eq_true,Bool.not_eq_true'] at h
    rw [Doc.markup]
    exact balanced_of_lt_not_mem name _ (by simpa using h.1)
  | .comment s, dp, h => by
    simp only [Doc.canonical,Bool.and_eq_true,Bool.not_eq_true'] at h
    rw [toList_markup_comment]
    exact balanced_bang hname (by simpa using h.1)
  | .declaration s, dp, h => by
    simp only [Doc.canonical,Bool.and_eq_true,Bool.not_eq_true'] at h
    have hs : '<' ∉ s.toList := fun hm => by
      have := List.any_eq_false.mp h.1 _ hm
      simp at this
    rw [toList_markup_declaration]
    exact balanced_bang hname (by simpa using hs)

theorem balanced_markupAll {name : String} (hname : isTagName name = true)
    (hv : Tags.isVoid name = false) :
    ∀ (ds : List Doc) (dp : Nat), Doc.canonicalAll dp ds = true →
      Balanced ('<' :: name.toList) ('<' :: '/' :: name.toList) (Doc.markupAll ds).toList
  | [], _, _ => fun k r => by simp [Doc.markupAll]
  | d :: ds, dp, h => by
    simp only [Doc.canonicalAll,Bool.and_eq_true] at h
    rw [toList_markupAll_cons]
    exact (balanced_markup hname hv d dp h.1.1).append (balanced_markupAll hname hv ds dp h.2)
end

theorem breakBalanced_markupAll {name : String} (hname : isTagName name = true)
    (hv : Tags.isVoid name = false) {cs : List Doc} {dp : Nat}
    (h : Doc.canonicalAll dp cs = true) (r : List Char) :
    breakBalanced ('<' :: name.toList) ('<' :: '/' :: name.toList) 0
        ((Doc.markupAll cs).toList ++ (closeTagChars name ++ r)) =
      some ((Doc.markupAll cs).toList,closeTagChars name ++ r) := by
  rw [balanced_markupAll hname hv cs dp h,breakBalanced_closeTagChars hname hname,if_pos rfl,
    if_pos rfl]
  simp

end Markup
end HtmlQuery
