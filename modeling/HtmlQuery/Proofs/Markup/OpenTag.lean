import Mathlib.Data.List.TakeDrop
import Mathlib.Data.List.TakeWhile
import HtmlQuery.Proofs.Markup.Canonical
import HtmlQuery.Proofs.Tree.SortedAttrs
import HtmlQuery.Html.Builder

/-! Reading back an opening tag: which tag and attribute names survive the attribute reader, and
how each value reads back as the text its quotes enclose. -/
namespace HtmlQuery

/-- The last attribute is a flag whose name ends in `/`: written last, it reads as `/>`. -/
def Attrs.slashFlagLast (a : Attrs) : Bool :=
  match a.entries.getLast? with
  | some (name, .flag) => name.toList.getLast? == some '/'
  | _ => false

namespace Markup
open Scan Html

/-- How an attribute's value follows its name. -/
def valueChars : AttrValue → List Char
  | .text s => '=' :: (quote s).toList
  | .flag => []

/-- An attribute as one word: its name and its value. -/
def wordChars (p : String × AttrValue) : List Char := p.1.toList ++ valueChars p.2

def attrChars (p : String × AttrValue) : List Char := ' ' :: wordChars p

theorem openTag_toList (e : Element) :
    (openTag e).toList = '<' :: (e.tag.toList ++ e.attrs.entries.flatMap attrChars ++ ['>']) := by
  obtain ⟨⟨tag,⟨entries⟩,_,_⟩,hfresh⟩ := e
  simp only [openTag,String.toList_append,String.toList_join,List.flatMap_map]
  clear hfresh
  rw [show '<' :: (tag.toList ++ entries.flatMap attrChars ++ ['>']) =
    "<".toList ++ tag.toList ++ entries.flatMap attrChars ++ ">".toList from by simp]
  congr 2
  induction entries with
  | nil => rfl
  | cons p ps ih =>
    obtain ⟨name,v⟩ := p
    rw [List.flatMap_cons,List.flatMap_cons,ih]
    cases v <;> simp [attrChars,wordChars,valueChars]

/-! ## Quoted values -/

/-- The text that `quote` writes between the quotes: the value, with `&quot;` for each `"` when
it holds both kinds of quote. -/
def quoteBody (v : String) : String :=
  if v.toList.contains '\x22' && v.toList.contains '\x27' then
    String.ofList (v.toList.flatMap fun c => if c = '\x22' then "&quot;".toList else [c])
  else v

theorem quote_toList (v : String) : ∃ q, isQuote q = true ∧ q ∉ (quoteBody v).toList ∧
    (quote v).toList = q :: ((quoteBody v).toList ++ [q]) := by
  by_cases h1 : '\x22' ∈ v.toList
  · by_cases h2 : '\x27' ∈ v.toList
    · have hc : (v.toList.contains '\x22' && v.toList.contains '\x27') = true := by simp [h1,h2]
      refine ⟨'\x22',rfl,?_,?_⟩
      · rw [quoteBody,if_pos hc,String.toList_ofList]
        simp only [List.mem_flatMap,not_exists,not_and]
        intro c _
        split
        · simp
        · next hc => exact fun he => hc (List.mem_singleton.mp he).symm
      · simp [quote,quoteBody,h1,h2,String.toList_append]
    · refine ⟨'\x27',rfl,by simp [quoteBody,h2],?_⟩
      simp [quote,quoteBody,h1,h2,String.toList_append]
  · refine ⟨'\x22',rfl,by simp [quoteBody,h1],?_⟩
    simp [quote,quoteBody,h1,String.toList_append]

/-- Quoting is stable: the text between the quotes is quoted the same way again. -/
theorem quote_quoteBody (v : String) : quote (quoteBody v) = quote v := by
  by_cases h : v.toList.contains '\x22' && v.toList.contains '\x27'
  · obtain ⟨q,-,hq,hquote⟩ := quote_toList v
    have hstart : (quote v).toList.head? = some '\x22' := by
      simp only [Bool.and_eq_true,List.contains_iff_mem] at h
      simp [quote,h.1,h.2,String.toList_append]
    rw [hquote] at hstart
    obtain rfl : q = '\x22' := by simpa using hstart
    apply String.toList_inj.mp
    rw [hquote,quote,if_pos (by simpa using hq)]
    simp [String.toList_append]
  · rw [quoteBody,if_neg h]

/-- A value as it reads back from its written form. -/
def rereadValue : AttrValue → AttrValue
  | .text v => .text (quoteBody v)
  | .flag => .flag

/-- Attributes as they read back from their written form. -/
def rereadAttrs (a : Attrs) : Attrs := ⟨a.entries.map fun p => (p.1,rereadValue p.2)⟩

@[simp] theorem valueChars_rereadValue (v : AttrValue) : valueChars (rereadValue v) = valueChars v := by
  cases v <;> simp [rereadValue,valueChars,quote_quoteBody]

theorem openTag_rereadAttrs (tag : String) (attrs : Attrs) :
    openTag (.withAttributes tag (rereadAttrs attrs)) = openTag (.withAttributes tag attrs) := by
  apply String.toList_inj.mp
  simp [openTag_toList,rereadAttrs,List.flatMap_map,attrChars,wordChars]
  rfl

theorem sorted_rereadAttrs {a : Attrs} (h : a.Sorted) : (rereadAttrs a).Sorted := by
  simpa [Attrs.Sorted,Markup.rereadAttrs,List.pairwise_map] using h

/-! ## Names that read back -/

/-- A tag name that reads back: not empty, not starting with `!`, and without `>`, `/`, markup
blank or quote. -/
structure TagReadable (tag : List Char) : Prop where
  ne_nil : tag ≠ []
  plain : ∀ c ∈ tag, c ≠ '>' ∧ c ≠ '/' ∧ isMarkupBlank c = false ∧ isQuote c = false
  not_bang : tag.head? ≠ some '!'

/-- An attribute whose name reads back: not empty, starting with no white space, without `=`,
`>`, markup blank or quote, and ending with no white space when the value is a flag. -/
structure AttrReadable (p : String × AttrValue) : Prop where
  ne_nil : p.1.toList ≠ []
  plain : ∀ c ∈ p.1.toList, c ≠ '=' ∧ c ≠ '>' ∧ isMarkupBlank c = false ∧ isQuote c = false
  head : ∀ c ∈ p.1.toList.head?, Blank.isWhiteSpace c = false
  flag_last : p.2 = .flag → ∀ c ∈ p.1.toList.getLast?, Blank.isWhiteSpace c = false

theorem ne_space_of_isMarkupBlank {c : Char} (h : isMarkupBlank c = false) : c ≠ ' ' := by
  rintro rfl
  cases h

theorem isWhiteSpace_of_isQuote {c : Char} (h : isQuote c = true) : Blank.isWhiteSpace c = false := by
  simp only [isQuote,Bool.or_eq_true,beq_iff_eq] at h
  rcases h with rfl | rfl <;> rfl

theorem Attrs.slashFlagLast_eq_false {a : Attrs} (h : a.slashFlagLast = false) (name : String)
    (hl : a.entries.getLast? = some (name,.flag)) : name.toList.getLast? ≠ some '/' := by
  simpa [Attrs.slashFlagLast,hl] using h

/-! ## Canonical names read back -/

theorem of_isNameStop_eq_false {c : Char} (h : isNameStop c = false) :
    Blank.isWhiteSpace c = false ∧ isMarkupBlank c = false ∧ isQuote c = false ∧ c ≠ ' ' ∧
      c ≠ '=' ∧ c ≠ '/' ∧ c ≠ '<' ∧ c ≠ '>' := by
  simp only [isNameStop,Bool.or_eq_false_iff,beq_eq_false_iff_ne] at h
  obtain ⟨⟨⟨⟨⟨hw,he⟩,hs⟩,hl⟩,hg⟩,hq⟩ := h
  have hb : isMarkupBlank c = false := by
    cases hc : isMarkupBlank c
    · rfl
    · rw [Blank.isWhiteSpace_of_isMarkupBlank hc] at hw; cases hw
  refine ⟨hw,hb,hq,?_,he,hs,hl,hg⟩
  rintro rfl
  cases hw

theorem of_isTagChar {c : Char} (h : isTagChar c = true) :
    isMarkupBlank c = false ∧ isQuote c = false ∧ c ≠ ' ' ∧ c ≠ '/' ∧ c ≠ '<' ∧ c ≠ '>' ∧
      c ≠ '!' := by
  have hb : isMarkupBlank c = false := by
    have := fun x hx => ne_of_isTagChar h x hx
    simp only [isMarkupBlank,Bool.or_eq_false_iff,beq_eq_false_iff_ne]
    exact ⟨⟨⟨⟨this ' ' (by simp),this '\t' (by simp)⟩,this '\n' (by simp)⟩,this '\r' (by simp)⟩,
      this '\x0c' (by simp)⟩
  exact ⟨hb,isQuote_of_isTagChar h,ne_of_isTagChar h ' ' (by simp),ne_of_isTagChar h '/' (by simp),
    ne_of_isTagChar h '<' (by simp),ne_of_isTagChar h '>' (by simp),ne_of_isTagChar h '!' (by simp)⟩

theorem tagChars_of_isTagName {tag : String} (h : isTagName tag = true) :
    ∃ c cs, tag.toList = c :: cs ∧ c.isAlpha = true ∧ ∀ x ∈ tag.toList, isTagChar x = true := by
  unfold isTagName at h
  split at h
  · cases h
  · next c cs hcs =>
    simp only [Bool.and_eq_true,List.all_eq_true] at h
    refine ⟨c,cs,hcs,h.1,fun x hx => ?_⟩
    rw [hcs] at hx
    rcases List.mem_cons.mp hx with rfl | hx
    · simp [isTagChar,Char.isAlphanum,h.1]
    · exact h.2 x hx

theorem tagChars {tag : String} (h : isTagName tag = true) : ∀ c ∈ tag.toList, isTagChar c = true :=
  let ⟨_,_,_,_,h⟩ := tagChars_of_isTagName h; h

theorem canonical_entries {a : Attrs} (h : a.canonical = true) :
    ∀ p ∈ a.entries, isAttrName p.1 = true ∧ isAttrValue p.2 = true := by
  simpa [Attrs.canonical] using h

theorem name_ne_nil {name : String} (h : isAttrName name = true) : name.toList ≠ [] := by
  simp only [isAttrName,Bool.and_eq_true,Bool.not_eq_true'] at h
  intro he
  have hs : name = "" := String.toList_inj.mp (by simpa using he)
  rw [hs] at h
  simp at h

theorem not_isNameStop_of_mem {name : String} (h : isAttrName name = true) {c : Char}
    (hc : c ∈ name.toList) : isNameStop c = false := by
  simp only [isAttrName,Bool.and_eq_true,List.all_eq_true,Bool.not_eq_true'] at h
  exact h.2 c hc

theorem tagReadable_of_isTagName {tag : String} (h : isTagName tag = true) : TagReadable tag.toList := by
  obtain ⟨c,cs,hcs,-,hchars⟩ := tagChars_of_isTagName h
  refine ⟨by simp [hcs],fun x hx => ?_,?_⟩
  · obtain ⟨hb,hq,-,hs,-,hg,-⟩ := of_isTagChar (hchars x hx)
    exact ⟨hg,hs,hb,hq⟩
  · rw [hcs]
    simpa using (of_isTagChar (hchars c (by simp [hcs]))).2.2.2.2.2.2

theorem attrReadable_of_canonical {p : String × AttrValue}
    (h : isAttrName p.1 = true ∧ isAttrValue p.2 = true) : AttrReadable p := by
  have hstop := fun c (hc : c ∈ p.1.toList) => of_isNameStop_eq_false (not_isNameStop_of_mem h.1 hc)
  refine ⟨name_ne_nil h.1,fun c hc => ?_,fun c hc => (hstop c (List.mem_of_mem_head? hc)).1,
    fun _ c hc => (hstop c (List.mem_of_getLast? hc)).1⟩
  obtain ⟨-,hb,hq,-,he,-,-,hg⟩ := hstop c hc
  exact ⟨he,hg,hb,hq⟩

theorem rereadValue_of_isAttrValue {v : AttrValue} (h : isAttrValue v = true) : rereadValue v = v := by
  cases v with
  | flag => rfl
  | text s =>
    simp only [isAttrValue,Bool.and_eq_true,Bool.not_eq_true'] at h
    rw [rereadValue,quoteBody,if_neg (by rw [h.2]; decide)]

theorem rereadAttrs_of_canonical {a : Attrs} (h : a.canonical = true) : rereadAttrs a = a := by
  obtain ⟨entries⟩ := a
  simp only [rereadAttrs,Attrs.mk.injEq]
  calc entries.map (fun p => (p.1,rereadValue p.2)) = entries.map id :=
        List.map_congr_left fun p hp => by
          rw [rereadValue_of_isAttrValue (canonical_entries h p hp).2]
          rfl
    _ = entries := List.map_id _

theorem slashFlagLast_of_canonical {a : Attrs} (h : a.canonical = true) : a.slashFlagLast = false := by
  unfold Attrs.slashFlagLast
  split
  · next name hl =>
    have hname := (canonical_entries h _ (List.mem_of_getLast? hl)).1
    cases hlast : name.toList.getLast? with
    | none => rfl
    | some c =>
      have hc := (of_isNameStop_eq_false (not_isNameStop_of_mem hname (List.mem_of_getLast? hlast))).2.2.2.2.2.1
      simpa using hc
  · rfl

/-! ## Scanning for a character outside quoted runs -/

/-- Scanning for `l` outside quoted runs passes over `w`, whatever follows it. -/
def Skips (l : Char) (w : List Char) : Prop :=
  ∀ r, breakOutsideQuotes [l] none (w ++ r) = (breakOutsideQuotes [l] none r).map (w ++ ·) id

theorem Skips.append {l : Char} {w w' : List Char} (h : Skips l w) (h' : Skips l w') :
    Skips l (w ++ w') := by
  intro r
  rw [List.append_assoc,h,h']
  simp [Prod.map]

theorem skips_plain {l c : Char} (hc : c ≠ l) (hq : isQuote c = false) : Skips l [c] := by
  intro r
  simp [breakOutsideQuotes,List.isPrefixOf,hq,Ne.symm hc,Prod.map]

theorem skips_of_forall {l : Char} {w : List Char} (h : ∀ c ∈ w, c ≠ l ∧ isQuote c = false) :
    Skips l w := by
  induction w with
  | nil => intro r; simp [Prod.map]
  | cons c w ih =>
    have hc := h c List.mem_cons_self
    exact (skips_plain hc.1 hc.2).append (ih fun x hx => h x (List.mem_cons_of_mem _ hx))

theorem breakOutsideQuotes_inRun (lit : List Char) {q : Char} {body : List Char} (hb : q ∉ body)
    (r : List Char) :
    breakOutsideQuotes lit (some q) (body ++ q :: r) =
      (breakOutsideQuotes lit none r).map (body ++ q :: ·) id := by
  induction body with
  | nil => simp [breakOutsideQuotes,Prod.map]
  | cons c body ih =>
    have hc : c ≠ q := fun he => hb (he ▸ List.mem_cons_self)
    simp only [List.cons_append,breakOutsideQuotes,if_neg hc]
    rw [ih fun hm => hb (List.mem_cons_of_mem _ hm)]
    simp [Prod.map]

theorem skips_run {l q : Char} {body : List Char} (hq : isQuote q = true) (hl : q ≠ l)
    (hb : q ∉ body) : Skips l (q :: (body ++ [q])) := by
  intro r
  have hrun := breakOutsideQuotes_inRun [l] hb r
  simp [breakOutsideQuotes,List.isPrefixOf,hq,Ne.symm hl,hrun,Prod.map]

theorem tagTail_of_skips {w : List Char} (hw : Skips '>' w) (r : List Char) :
    tagTail (w ++ '>' :: r) = (w ++ ['>'],r) := by
  have hscan : breakOutsideQuotes ['>'] none (w ++ '>' :: r) = (w,'>' :: r) := by
    rw [hw]
    simp [breakOutsideQuotes,List.isPrefixOf,Prod.map]
  simp [tagTail,hscan,takeLiteral]

/-! ## Collapsing blanks outside quoted runs -/

/-- Collapsing blanks keeps the nonempty word `w` and ends it with no blank pending. -/
def Keeps (w : List Char) : Prop :=
  ∀ a r, collapseBlanks none a (w ++ r) = w ++ collapseBlanks none false r

theorem Keeps.append {w w' : List Char} (h : Keeps w) (h' : Keeps w') : Keeps (w ++ w') := by
  intro a r
  rw [List.append_assoc,h,h',List.append_assoc]

theorem keeps_plain {c : Char} (hb : isMarkupBlank c = false) (hq : isQuote c = false) :
    Keeps [c] := by
  intro a r
  simp [collapseBlanks,hb,hq]

theorem keeps_of_forall {c : Char} {w : List Char}
    (h : ∀ x ∈ c :: w, isMarkupBlank x = false ∧ isQuote x = false) : Keeps (c :: w) := by
  induction w generalizing c with
  | nil => exact keeps_plain (h c List.mem_cons_self).1 (h c List.mem_cons_self).2
  | cons x w ih =>
    have hc := h c List.mem_cons_self
    exact (keeps_plain hc.1 hc.2).append (ih fun y hy => h y (List.mem_cons_of_mem _ hy))

theorem collapseBlanks_inRun {q : Char} {body : List Char} (hb : q ∉ body) (a : Bool)
    (r : List Char) : collapseBlanks (some q) a (body ++ q :: r) = body ++ q :: collapseBlanks none false r := by
  induction body generalizing a with
  | nil => simp [collapseBlanks]
  | cons c body ih =>
    have hc : c ≠ q := fun he => hb (he ▸ List.mem_cons_self)
    simp only [List.cons_append,collapseBlanks,if_neg hc]
    rw [ih fun hm => hb (List.mem_cons_of_mem _ hm)]

theorem keeps_run {q : Char} {body : List Char} (hq : isQuote q = true) (hb : q ∉ body) :
    Keeps (q :: (body ++ [q])) := by
  intro a r
  have hqb : isMarkupBlank q = false := by
    simp only [isQuote,Bool.or_eq_true,beq_iff_eq] at hq
    rcases hq with rfl | rfl <;> rfl
  simp only [List.cons_append,List.append_assoc,collapseBlanks,hqb,hq,if_true,Bool.false_eq_true,
    if_false]
  rw [collapseBlanks_inRun hb]
  simp

/-! ## One attribute -/

theorem trim_of_ends {w : List Char} (hh : ∀ c, w.head? = some c → Blank.isWhiteSpace c = false)
    (hl : ∀ c, w.getLast? = some c → Blank.isWhiteSpace c = false) : Blank.trim w = w := by
  cases w with
  | nil => rfl
  | cons c w =>
    have hrev : ((c :: w).reverse.dropWhile Blank.isWhiteSpace) = (c :: w).reverse := by
      cases hr : (c :: w).reverse with
      | nil => simp at hr
      | cons x xs =>
        have hx : (c :: w).getLast? = some x := by rw [← List.head?_reverse,hr]; rfl
        simp [hl x hx]
    unfold Blank.trim
    rw [List.dropWhile_cons_of_neg (by simp [hh c rfl]),hrev,List.reverse_reverse]

section Attribute

variable {p : String × AttrValue} (hp : AttrReadable p)
include hp

theorem skips_wordChars {l : Char} (hl : l = ' ' ∨ l = '>') : Skips l (wordChars p) := by
  have hlq : isQuote l = false := by rcases hl with rfl | rfl <;> rfl
  have hname : Skips l p.1.toList := skips_of_forall fun c hc => by
    obtain ⟨-,hg,hb,hq⟩ := hp.plain c hc
    exact ⟨by rcases hl with rfl | rfl; exacts [ne_space_of_isMarkupBlank hb,hg],hq⟩
  obtain ⟨name,v⟩ := p
  cases v with
  | flag => simpa [wordChars,valueChars] using hname
  | text s =>
    obtain ⟨q,hq,hqs,hquote⟩ := quote_toList s
    have hql : q ≠ l := fun he => by rw [he,hlq] at hq; cases hq
    have heq : Skips l ['='] := skips_plain (by rcases hl with rfl | rfl <;> decide) rfl
    simp only [wordChars,valueChars,hquote]
    exact hname.append (heq.append (skips_run hq hql hqs))

theorem keeps_wordChars : Keeps (wordChars p) := by
  have hname : Keeps p.1.toList := by
    obtain ⟨c,cs,hcs⟩ := List.exists_cons_of_ne_nil hp.ne_nil
    rw [hcs]
    refine keeps_of_forall fun x hx => ?_
    obtain ⟨-,-,hb,hq⟩ := hp.plain x (hcs ▸ hx)
    exact ⟨hb,hq⟩
  obtain ⟨name,v⟩ := p
  cases v with
  | flag => simpa [wordChars,valueChars] using hname
  | text s =>
    obtain ⟨q,hq,hqs,hquote⟩ := quote_toList s
    simp only [wordChars,valueChars,hquote]
    exact hname.append ((keeps_plain rfl rfl).append (keeps_run hq hqs))

theorem wordChars_eq_cons :
    ∃ c cs, wordChars p = c :: cs ∧ c ≠ '=' ∧ Blank.isWhiteSpace c = false := by
  obtain ⟨c,cs,hcs⟩ := List.exists_cons_of_ne_nil hp.ne_nil
  exact ⟨c,cs ++ valueChars p.2,by simp [wordChars,hcs],(hp.plain c (by simp [hcs])).1,
    hp.head c (by simp [hcs])⟩

/-- The last character of an attribute's word: the closing quote of a text value, or the last
character of a flag's name. -/
theorem wordChars_getLast? {x : Char} (hx : (wordChars p).getLast? = some x) :
    x ≠ '=' ∧ Blank.isWhiteSpace x = false ∧ (x = '/' → p.2 = .flag ∧ p.1.toList.getLast? = some x) := by
  obtain ⟨name,v⟩ := p
  cases v with
  | flag =>
    simp only [wordChars,valueChars,List.append_nil] at hx
    exact ⟨(hp.plain x (List.mem_of_getLast? hx)).1,hp.flag_last rfl x hx,fun _ => ⟨rfl,hx⟩⟩
  | text s =>
    obtain ⟨q,hq,-,hquote⟩ := quote_toList s
    simp only [wordChars,valueChars,hquote,List.getLast?_append,List.getLast?_cons] at hx
    simp at hx
    subst hx
    refine ⟨fun he => ?_,isWhiteSpace_of_isQuote hq,fun he => ?_⟩ <;> (rw [he] at hq; cases hq)

theorem trim_wordChars : Blank.trim (wordChars p) = wordChars p := by
  obtain ⟨c,cs,hcs,-,hc⟩ := wordChars_eq_cons hp
  refine trim_of_ends (fun x hx => ?_) (fun x hx => (wordChars_getLast? hp hx).2.1)
  rw [hcs] at hx
  cases hx
  exact hc

theorem wordChars_no_eq : (wordChars p).head? ≠ some '=' ∧ (wordChars p).getLast? ≠ some '=' := by
  obtain ⟨c,cs,hcs,hc,-⟩ := wordChars_eq_cons hp
  refine ⟨fun hx => ?_,fun hx => (wordChars_getLast? hp hx).1 rfl⟩
  rw [hcs] at hx
  cases hx
  exact hc rfl

/-- The attribute reader reads an attribute's word back as the attribute, its value as the text
between the quotes. -/
theorem wordAttribute_wordChars : wordAttribute (wordChars p) = (p.1,rereadValue p.2) := by
  have hname : ∀ c ∈ p.1.toList, (c != '=') = true := fun c hc => by
    simpa using (hp.plain c hc).1
  obtain ⟨name,v⟩ := p
  cases v with
  | flag =>
    have hspan : (wordChars (name,.flag)).span (· != '=') = (name.toList,[]) := by
      simp only [wordChars,valueChars,List.append_nil,List.span_eq_takeWhile_dropWhile]
      rw [List.takeWhile_eq_self_iff.mpr hname,List.dropWhile_eq_nil_iff.mpr hname]
    rw [wordAttribute,hspan]
    simp [rereadValue]
  | text s =>
    obtain ⟨q,hq,hqs,hquote⟩ := quote_toList s
    have hspan : (wordChars (name,.text s)).span (· != '=') =
        (name.toList,'=' :: (quote s).toList) := by
      simp only [wordChars,valueChars,List.span_eq_takeWhile_dropWhile]
      rw [List.takeWhile_append_of_pos hname,List.dropWhile_append_of_pos hname]
      simp
    have hun : unquote (quote s).toList = (quoteBody s).toList := by
      obtain ⟨x,xs,hx⟩ := List.exists_cons_of_ne_nil (show (quoteBody s).toList ++ [q] ≠ [] by simp)
      rw [hquote]
      unfold unquote
      rw [hx]
      dsimp only
      rw [← hx]
      simp [hq]
    rw [wordAttribute,hspan]
    simp [hun,rereadValue]

end Attribute

/-! ## Reading the words back -/

theorem foldl_eq_reverse_append {f : List (List Char) → List Char → List (List Char)}
    {ws : List (List Char)} (P : List Char → Prop)
    (hf : ∀ acc w, w ∈ ws → (∀ last ∈ acc.head?, P last) → f acc w = w :: acc)
    (hP : ∀ w ∈ ws, P w) (acc : List (List Char)) (hacc : ∀ last ∈ acc.head?, P last) :
    ws.foldl f acc = ws.reverse ++ acc := by
  induction ws generalizing acc with
  | nil => rfl
  | cons w ws ih =>
    rw [List.foldl_cons,hf acc w List.mem_cons_self hacc,
      ih (fun a x hx => hf a x (List.mem_cons_of_mem _ hx)) (fun x hx => hP x (List.mem_cons_of_mem _ hx))
        (w :: acc) (fun last hl => by cases hl; exact hP w List.mem_cons_self)]
    simp

theorem joinSpacedEquals_of_no_eq {ws : List (List Char)}
    (h : ∀ w ∈ ws, w.head? ≠ some '=' ∧ w.getLast? ≠ some '=') : joinSpacedEquals ws = ws := by
  unfold joinSpacedEquals
  rw [foldl_eq_reverse_append (fun w => w.getLast? ≠ some '=') ?_ (fun w hw => (h w hw).2) []
    (by simp)]
  · simp
  · intro acc w hw hacc
    cases acc with
    | nil => rfl
    | cons last before => simp [hacc last rfl,(h w hw).1]

/-! ## The attribute list -/

section Attributes

variable {entries : List (String × AttrValue)} (hc : ∀ p ∈ entries, AttrReadable p)
include hc

theorem skips_attrs : Skips '>' (entries.flatMap attrChars) := by
  induction entries with
  | nil => exact skips_of_forall (by simp)
  | cons p ps ih =>
    have hp := hc p List.mem_cons_self
    rw [List.flatMap_cons,attrChars,← List.singleton_append,List.append_assoc]
    exact (skips_plain (by decide) rfl).append
      ((skips_wordChars hp (.inr rfl)).append (ih fun x hx => hc x (List.mem_cons_of_mem _ hx)))

theorem collapseBlanks_attrs (r : List Char) :
    collapseBlanks none false (entries.flatMap attrChars ++ r) =
      entries.flatMap attrChars ++ collapseBlanks none false r := by
  induction entries with
  | nil => rfl
  | cons p ps ih =>
    have hp := hc p List.mem_cons_self
    have hshape : (p :: ps).flatMap attrChars ++ r = ' ' :: (wordChars p ++ (ps.flatMap attrChars ++ r)) := by
      simp [attrChars]
    have hblank : collapseBlanks none false (' ' :: (wordChars p ++ (ps.flatMap attrChars ++ r))) =
        ' ' :: collapseBlanks none true (wordChars p ++ (ps.flatMap attrChars ++ r)) := by
      simp [collapseBlanks,isMarkupBlank]
    rw [hshape,hblank,keeps_wordChars hp,ih fun x hx => hc x (List.mem_cons_of_mem _ hx)]
    simp [attrChars]

theorem spaceSeparated_words (p : String × AttrValue) (hp : AttrReadable p) :
    spaceSeparated (wordChars p ++ entries.flatMap attrChars) = (p :: entries).map wordChars := by
  induction entries generalizing p with
  | nil =>
    obtain ⟨c,cs,hcs,-⟩ := wordChars_eq_cons hp
    have hscan : breakOutsideQuotes [' '] none (c :: cs) = (c :: cs,[]) := by
      have h := skips_wordChars hp (.inl rfl) []
      rw [List.append_nil,hcs] at h
      rw [h]
      simp [breakOutsideQuotes,Prod.map]
    rw [List.flatMap_nil,List.append_nil,hcs,spaceSeparated.eq_2,hscan]
    simp [spaceSeparated.eq_1,← hcs,trim_wordChars hp]
  | cons p' ps ih =>
    obtain ⟨c,cs,hcs,-⟩ := wordChars_eq_cons hp
    have hshape : wordChars p ++ (p' :: ps).flatMap attrChars =
        c :: (cs ++ ' ' :: (wordChars p' ++ ps.flatMap attrChars)) := by
      simp [attrChars,hcs]
    have hscan : breakOutsideQuotes [' '] none (c :: (cs ++ ' ' :: (wordChars p' ++ ps.flatMap attrChars))) =
        (c :: cs,' ' :: (wordChars p' ++ ps.flatMap attrChars)) := by
      have h := skips_wordChars hp (.inl rfl) (' ' :: (wordChars p' ++ ps.flatMap attrChars))
      rw [hcs,List.cons_append] at h
      rw [h]
      simp [breakOutsideQuotes,List.isPrefixOf,Prod.map]
    rw [hshape,spaceSeparated.eq_2,hscan]
    simp only [List.tail_cons]
    rw [← hcs,trim_wordChars hp,ih (fun x hx => hc x (List.mem_cons_of_mem _ hx)) p'
      (hc p' List.mem_cons_self)]
    rfl

theorem words_attrs :
    (spaceSeparated (entries.flatMap attrChars)).filter (!·.isEmpty) = entries.map wordChars := by
  cases entries with
  | nil => simp [spaceSeparated.eq_1]
  | cons p ps =>
    have hp := hc p List.mem_cons_self
    have hfound : breakOutsideQuotes [' '] none (' ' :: (wordChars p ++ ps.flatMap attrChars)) =
        ([],' ' :: (wordChars p ++ ps.flatMap attrChars)) := by
      simp [breakOutsideQuotes,List.isPrefixOf]
    have hshape : (p :: ps).flatMap attrChars = ' ' :: (wordChars p ++ ps.flatMap attrChars) := by
      simp [attrChars]
    rw [hshape,spaceSeparated.eq_2,hfound]
    simp only [List.tail_cons]
    rw [spaceSeparated_words (fun x hx => hc x (List.mem_cons_of_mem _ hx)) p hp]
    have hne : ∀ q ∈ p :: ps, (!(wordChars q).isEmpty) = true := fun q hq => by
      obtain ⟨c,cs,hcs,-⟩ := wordChars_eq_cons (hc q hq)
      simp [hcs]
    rw [List.filter_cons_of_neg (by simp [Blank.trim]),List.filter_eq_self.mpr]
    intro w hw
    obtain ⟨q,hq,rfl⟩ := List.mem_map.mp hw
    exact hne q hq

/-- The written attributes end in `/` only when the last one is a flag whose name does. -/
theorem attrs_getLast?_ne_slash
    (hslash : ∀ name, entries.getLast? = some (name,.flag) → name.toList.getLast? ≠ some '/')
    {x : Char} (hx : (entries.flatMap attrChars).getLast? = some x) : x ≠ '/' := by
  induction entries with
  | nil => cases hx
  | cons p ps ih =>
    rw [List.flatMap_cons,List.getLast?_append] at hx
    cases hl : (ps.flatMap attrChars).getLast? with
    | some y =>
      rw [hl] at hx
      cases hx
      refine ih (fun q hq => hc q (List.mem_cons_of_mem _ hq)) (fun name hn => ?_) hl
      exact hslash name (by rw [List.getLast?_cons,hn]; rfl)
    | none =>
      rw [hl] at hx
      have hps : ps = [] := by
        cases ps with
        | nil => rfl
        | cons p' ps' => simp [List.flatMap_cons,attrChars] at hl
      subst hps
      have hp := hc p List.mem_cons_self
      obtain ⟨c,cs,hcs,-⟩ := wordChars_eq_cons hp
      have hw : (wordChars p).getLast? = some x := by
        simpa [attrChars,hcs,List.getLast?_cons] using hx
      intro hx'
      obtain ⟨hflag,hname⟩ := (wordChars_getLast? hp hw).2.2 hx'
      obtain ⟨name,v⟩ := p
      dsimp only at hflag hname
      subst hflag hx'
      exact hslash name rfl hname

end Attributes

/-! ## The opening tag -/

theorem attrs_head (e : Element) (r : List Char) :
    ∃ c rest, e.attrs.entries.flatMap attrChars ++ '>' :: r = c :: rest ∧ (c = ' ' ∨ c = '>') := by
  cases he : e.attrs.entries with
  | nil => exact ⟨'>',r,rfl,.inr rfl⟩
  | cons p ps => exact ⟨' ',wordChars p ++ (ps.flatMap attrChars ++ '>' :: r),by simp [attrChars],
      .inl rfl⟩

/-- The text after the `<` of a written opening tag starts with the tag name's first character,
which is neither `/` nor `!`. -/
theorem openTag_tail_head {e : Element} (htag : TagReadable e.tag.toList) (r : List Char) :
    ∃ t rest, (openTag e).toList.tail ++ r = t :: rest ∧ t ≠ '/' ∧ t ≠ '!' := by
  obtain ⟨t,ts,hts⟩ := List.exists_cons_of_ne_nil htag.ne_nil
  have hbang := htag.not_bang
  rw [hts] at hbang
  refine ⟨t,ts ++ (e.attrs.entries.flatMap attrChars ++ '>' :: r),?_,(htag.plain t (by simp [hts])).2.1,
    by simpa using hbang⟩
  rw [openTag_toList]
  simp [hts]

theorem tagName_openTag {e : Element} (htag : TagReadable e.tag.toList) (r : List Char) :
    tagName ((openTag e).toList.tail ++ r) = e.tag.toList := by
  obtain ⟨c,rest,hrest,hc⟩ := attrs_head e r
  rw [openTag_toList]
  simp only [List.tail_cons,List.append_assoc,List.singleton_append,tagName]
  rw [List.takeWhile_append_of_pos fun x hx => by
    obtain ⟨hg,hs,hb,-⟩ := htag.plain x hx
    simp [hg,hs,hb],hrest]
  rcases hc with rfl | rfl <;> simp [isMarkupBlank]

section Tag

variable {e : Element} (htag : TagReadable e.tag.toList) (hattrs : ∀ p ∈ e.attrs.entries, AttrReadable p)
include htag hattrs

theorem tagTail_openTag (r : List Char) :
    tagTail ((openTag e).toList.tail ++ r) = ((openTag e).toList.tail,r) := by
  have htagSkip : Skips '>' e.tag.toList := skips_of_forall fun c hc =>
    ⟨(htag.plain c hc).1,(htag.plain c hc).2.2.2⟩
  have htail := tagTail_of_skips (htagSkip.append (skips_attrs hattrs)) r
  rw [openTag_toList]
  simp only [List.tail_cons,List.append_assoc,List.singleton_append] at htail ⊢
  exact htail

theorem collapseBlanks_openTag :
    collapseBlanks none false (openTag e).toList = (openTag e).toList := by
  obtain ⟨c,cs,hcs⟩ := List.exists_cons_of_ne_nil htag.ne_nil
  have hkeep : Keeps e.tag.toList := by
    rw [hcs]
    refine keeps_of_forall fun x hx => ?_
    exact ⟨(htag.plain x (hcs ▸ hx)).2.2.1,(htag.plain x (hcs ▸ hx)).2.2.2⟩
  have hlt : collapseBlanks none false ('<' :: (e.tag.toList ++ (e.attrs.entries.flatMap attrChars ++ ['>']))) =
      '<' :: collapseBlanks none false (e.tag.toList ++ (e.attrs.entries.flatMap attrChars ++ ['>'])) := by
    simp [collapseBlanks,isMarkupBlank,isQuote]
  have hgt : collapseBlanks none false ['>'] = ['>'] := by decide
  rw [openTag_toList,List.append_assoc,hlt,hkeep false,collapseBlanks_attrs hattrs,hgt]

variable (hslash : e.attrs.slashFlagLast = false)
include hslash

/-- The tag and attributes written before `>` never end in `/`. -/
theorem openTag_getLast?_ne_slash {x : Char}
    (hx : (e.tag.toList ++ e.attrs.entries.flatMap attrChars).getLast? = some x) : x ≠ '/' := by
  rw [List.getLast?_append] at hx
  cases hl : (e.attrs.entries.flatMap attrChars).getLast? with
  | some y =>
    rw [hl] at hx
    cases hx
    exact attrs_getLast?_ne_slash hattrs (Attrs.slashFlagLast_eq_false hslash) hl
  | none =>
    rw [hl] at hx
    exact (htag.plain x (List.mem_of_getLast? (by simpa using hx))).2.1

theorem openTag_not_selfClosing :
    ((openTag e).toList.reverse.take 2 == ['>','/']) = false := by
  rw [openTag_toList]
  have hrev : ('<' :: (e.tag.toList ++ e.attrs.entries.flatMap attrChars ++ ['>'])).reverse =
      '>' :: ((e.tag.toList ++ e.attrs.entries.flatMap attrChars).reverse ++ ['<']) := by
    simp
  cases hr : (e.tag.toList ++ e.attrs.entries.flatMap attrChars).reverse with
  | nil => simp [htag.ne_nil] at hr
  | cons x xs =>
    have hx : (e.tag.toList ++ e.attrs.entries.flatMap attrChars).getLast? = some x := by
      rw [← List.head?_reverse,hr]; rfl
    rw [hrev,hr]
    simp [openTag_getLast?_ne_slash htag hattrs hslash hx]

theorem tagBody_openTag : tagBody (openTag e).toList = e.attrs.entries.flatMap attrChars := by
  obtain ⟨c,rest,hrest,hc⟩ := attrs_head e []
  have hdrop : (e.tag.toList ++ e.attrs.entries.flatMap attrChars ++ ['>']).dropWhile
      (fun c => !(c == ' ' || c == '>' || c == '/')) = e.attrs.entries.flatMap attrChars ++ ['>'] := by
    rw [List.append_assoc,List.dropWhile_append_of_pos fun x hx => by
      obtain ⟨hg,hs,hb,-⟩ := htag.plain x hx
      simp [ne_space_of_isMarkupBlank hb,hg,hs],hrest]
    rcases hc with rfl | rfl <;> simp
  have hattrsSlash : ∀ x, (e.attrs.entries.flatMap attrChars).getLast? = some x → x ≠ '/' :=
    fun _ hl => attrs_getLast?_ne_slash hattrs (Attrs.slashFlagLast_eq_false hslash) hl
  rw [openTag_toList]
  unfold tagBody
  simp only [hdrop,List.reverse_append,List.reverse_cons,List.reverse_nil,List.nil_append,
    List.singleton_append]
  split
  · next r heq =>
    simp only [List.cons.injEq,true_and] at heq
    have hl : (e.attrs.entries.flatMap attrChars).getLast? = some '/' := by
      rw [← List.head?_reverse,heq]; rfl
    exact absurd rfl (hattrsSlash _ hl)
  · next r heq =>
    simp only [List.cons.injEq,true_and] at heq
    rw [← heq,List.reverse_reverse]
  · next h1 h2 =>
    exact absurd rfl (h2 _)

/-- The attribute reader reads a written opening tag back as its attributes, each text value as
the text between its quotes. -/
theorem parseAttributes_openTag (hs : e.attrs.Sorted) :
    parseAttributes (openTag e).toList = rereadAttrs e.attrs := by
  have hwords := words_attrs hattrs
  have hjoin : joinSpacedEquals (e.attrs.entries.map wordChars) = e.attrs.entries.map wordChars :=
    joinSpacedEquals_of_no_eq fun w hw => by
      obtain ⟨p,hp,rfl⟩ := List.mem_map.mp hw
      exact wordChars_no_eq (hattrs p hp)
  have hmap : ∀ l : List (String × AttrValue), (∀ p ∈ l, AttrReadable p) →
      (l.map wordChars).map wordAttribute = l.map fun p => (p.1,rereadValue p.2) := by
    intro l hl
    induction l with
    | nil => rfl
    | cons p ps ih =>
      simp only [List.map_cons,wordAttribute_wordChars (hl p List.mem_cons_self),
        ih fun q hq => hl q (List.mem_cons_of_mem _ hq)]
  have hread : ((e.attrs.entries.map wordChars).map wordAttribute).filter (!·.1.isEmpty) =
      (rereadAttrs e.attrs).entries := by
    rw [hmap _ hattrs]
    refine List.filter_eq_self.mpr fun p hp => ?_
    obtain ⟨q,hq,rfl⟩ := List.mem_map.mp hp
    have hne : q.1 ≠ "" := fun he => (hattrs q hq).ne_nil (by rw [he]; rfl)
    simpa [String.isEmpty_iff] using hne
  unfold parseAttributes
  rw [collapseBlanks_openTag htag hattrs,tagBody_openTag htag hattrs hslash,hwords,hjoin]
  dsimp only
  rw [hread]
  exact Attrs.ofList_entries (sorted_rereadAttrs hs)

end Tag

end Markup
end HtmlQuery
