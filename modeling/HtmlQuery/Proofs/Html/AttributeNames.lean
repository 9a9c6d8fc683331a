import Mathlib.Data.List.DropRight
import HtmlQuery.Proofs.Markup.OpenTag
import HtmlQuery.Proofs.Text.QuoteRuns

/-! The names the attribute reader gives. Read outside quoted runs, a name holds no `>` and no
markup blank; one without quotes is then written so that it reads back. -/
namespace HtmlQuery

namespace Attrs

theorem eq_or_mem_of_mem_insertEntry {name : String} {v : AttrValue} {l : List (String × AttrValue)}
    {p : String × AttrValue} (hp : p ∈ insertEntry name v l) : p = (name,v) ∨ p ∈ l := by
  induction l with
  | nil => simpa [insertEntry] using hp
  | cons q rest ih =>
    obtain ⟨k,w⟩ := q
    simp only [insertEntry] at hp
    split at hp
    · exact (List.mem_cons.mp hp).imp id (List.mem_cons_of_mem _)
    · split at hp
      · exact (List.mem_cons.mp hp).imp_right id
      · rcases List.mem_cons.mp hp with rfl | hp
        · exact .inr List.mem_cons_self
        · exact (ih hp).imp_right (List.mem_cons_of_mem _)

/-- The map of a list holds only pairs of the list. -/
theorem mem_of_mem_ofList {l : List (String × AttrValue)} {p : String × AttrValue}
    (hp : p ∈ (ofList l).entries) : p ∈ l := by
  have h : ∀ (l' : List (String × AttrValue)) (a : Attrs), (∀ q ∈ a.entries, q ∈ l) → (∀ q ∈ l', q ∈ l) →
      ∀ q ∈ (l'.foldl (fun a p => a.insert p.1 p.2) a).entries, q ∈ l := by
    intro l'
    induction l' with
    | nil => exact fun a ha _ => ha
    | cons x xs ih =>
      intro a ha hl
      refine ih _ (fun q hq => ?_) (fun q hq => hl q (List.mem_cons_of_mem _ hq))
      rcases eq_or_mem_of_mem_insertEntry hq with rfl | hq
      · exact hl x List.mem_cons_self
      · exact ha q hq
  exact h l empty (by simp [empty]) (fun q hq => hq) p hp

end Attrs

namespace Html
open Scan Markup

/-- The characters the attribute reader keeps out of names read outside quoted runs. -/
def isNameBreak (c : Char) : Bool := c == '>' || isMarkupBlank c

theorem isQuote_of_isMarkupBlank {c : Char} (h : isMarkupBlank c = true) : isQuote c = false := by
  simp only [isMarkupBlank,Bool.or_eq_true,beq_iff_eq] at h
  rcases h with ((((rfl | rfl) | rfl) | rfl) | rfl) <;> rfl

/-! ## Collapsing blanks -/

/-- Outside quoted runs, collapsing blanks leaves the space as the only markup blank. -/
theorem unquoted_collapseBlanks {p : Char → Bool} (hsp : p ' ' = false) {q : Option Char} {a : Bool}
    {s : List Char} (h : Unquoted p q s) :
    Unquoted (fun c => p c || (isMarkupBlank c && c != ' ')) q (collapseBlanks q a s) := by
  induction s generalizing q a with
  | nil => cases q <;> trivial
  | cons c s ih =>
    cases q with
    | some q => exact ih h
    | none =>
      obtain ⟨hc,hs⟩ := h
      by_cases hb : isMarkupBlank c = true
      · rw [isQuote_of_isMarkupBlank hb] at hs
        simp only [collapseBlanks,hb,if_true]
        have hrest := ih (a := true) hs
        cases a
        · exact ⟨by simp [hsp],by simpa [isQuote] using hrest⟩
        · exact hrest
      · simp only [Bool.not_eq_true] at hb
        simp only [collapseBlanks,hb,Bool.false_eq_true,if_false]
        exact ⟨by simp [hc,hb],ih hs⟩

/-- A last character read outside quoted runs, neither blank nor quote, is kept as it is. -/
theorem collapseBlanks_append_plain {c : Char} (hb : isMarkupBlank c = false) {q : Option Char} {a : Bool} {s : List Char} (hs : runAfter q s = none) :
    collapseBlanks q a (s ++ [c]) = collapseBlanks q a s ++ [c] := by
  induction s generalizing q a with
  | nil =>
    obtain rfl : q = none := hs
    simp [collapseBlanks,hb]
  | cons d s ih =>
    cases q with
    | some q => simp only [List.cons_append,collapseBlanks,runAfter] at hs ⊢; rw [ih hs]
    | none =>
      by_cases hd : isMarkupBlank d = true
      · simp only [runAfter,isQuote_of_isMarkupBlank hd,Bool.false_eq_true,if_false] at hs
        simp only [List.cons_append,collapseBlanks,hd,if_true,ih hs,List.append_assoc]
      · simp only [Bool.not_eq_true] at hd
        simp only [runAfter] at hs
        simp only [List.cons_append,collapseBlanks,hd,Bool.false_eq_true,if_false,ih hs]

/-- Collapsing keeps a first `>` or `/` and writes a first blank as a space. -/
theorem collapseBlanks_head {d : Char} {s : List Char} (hd : (d == '>' || d == '/' || isMarkupBlank d) = true) :
    ∃ x r, collapseBlanks none false (d :: s) = x :: r ∧ (x == ' ' || x == '>' || x == '/') = true := by
  by_cases hb : isMarkupBlank d = true
  · exact ⟨' ',collapseBlanks none true s,by simp [collapseBlanks,hb],by decide⟩
  · simp only [Bool.not_eq_true] at hb
    simp only [hb,Bool.or_false,Bool.or_eq_true,beq_iff_eq] at hd
    refine ⟨d,collapseBlanks (if isQuote d then some d else none) false s,by simp [collapseBlanks,hb],?_⟩
    rcases hd with rfl | rfl <;> rfl

/-! ## The body of a tag -/

/-- What `tagBody` keeps of the text after the tag name: a prefix of it, short of a last `>`. -/
theorem tagBody_prefix {X B : List Char}
    (hB : X.dropWhile (fun c => !(c == ' ' || c == '>' || c == '/')) = B) :
    tagBody ('<' :: X) <+: B ∧ ∀ C, B = C ++ ['>'] → tagBody ('<' :: X) <+: C := by
  unfold tagBody
  simp only [hB]
  split
  · next r heq =>
    have hB' : B = r.reverse ++ ['/','>'] := by
      rw [← List.reverse_reverse B,heq]
      simp
    refine ⟨⟨['/','>'],hB'.symm⟩,fun C hC => ⟨['/'],?_⟩⟩
    rw [hB'] at hC
    have hC' : C ++ ['>'] = (r.reverse ++ ['/']) ++ ['>'] := by simpa using hC.symm
    exact (List.append_cancel_right hC').symm
  · next r _ heq =>
    have hB' : B = r.reverse ++ ['>'] := by
      rw [← List.reverse_reverse B,heq]
      simp
    refine ⟨⟨['>'],hB'.symm⟩,fun C hC => ?_⟩
    rw [hB'] at hC
    rw [List.append_cancel_right hC]
  · next h1 h2 =>
    refine ⟨List.prefix_refl B,fun C hC => ?_⟩
    exact absurd (by rw [hC]; simp) (h2 C.reverse)

theorem tagTail_append_of_unquoted {w : List Char} (hw : Unquoted (· == '>') none w)
    (hrun : runAfter none w = none) (r : List Char) :
    tagTail (w ++ r) = (w ++ (tagTail r).1,(tagTail r).2) := by
  unfold tagTail
  rw [breakOutsideQuotes_of_unquoted hw,hrun]
  unfold takeLiteral
  split <;> simp_all [Prod.map]

/-- A tag read after `<` ends in `>` where the scan found one outside quoted runs, and otherwise
runs to the end. -/
theorem tagTail_fst (r : List Char) :
    ∃ P E, (tagTail r).1 = P ++ E ∧ Unquoted (· == '>') none P ∧
      (E = [] ∧ (tagTail r).2 = [] ∨ E = ['>'] ∧ runAfter none P = none) := by
  refine ⟨(breakOutsideQuotes ['>'] none r).1,?_,?_,unquoted_breakOutsideQuotes none r,?_⟩
  · exact if (breakOutsideQuotes ['>'] none r).2 = [] then [] else ['>']
  · unfold tagTail takeLiteral
    rcases breakOutsideQuotes_stop (l := '>') none r with h | ⟨⟨r',h⟩,-⟩ <;> simp [h,List.isPrefixOf]
  · unfold tagTail takeLiteral
    rcases breakOutsideQuotes_stop (l := '>') none r with h | ⟨⟨r',h⟩,hrun⟩
    · exact .inl (by simp [h])
    · exact .inr ⟨by simp [h],hrun⟩

/-- A text that starts what a `dropWhile` leaves starts with an element that stops it. -/
theorem stops_of_prefix_dropWhile {p : Char → Bool} {l s : List Char} {d : Char}
    (h : d :: s <+: l.dropWhile p) : p d = false := by
  obtain ⟨u,hu⟩ := h
  have hne : l.dropWhile p ≠ [] := by rw [← hu]; simp
  have hhead : (l.dropWhile p).head hne = d := by simp [← hu]
  have hnot := List.head_dropWhile_not p hne
  rwa [hhead] at hnot

/-- After a tag name without quotes, the attribute text of a tag holds no `>` and no markup
blank but the space outside quoted runs. -/
theorem unquoted_tagBody {tail : List Char} (hname : ∀ c ∈ tagName tail, isQuote c = false) :
    Unquoted (fun c => (c == '>') || (isMarkupBlank c && c != ' ')) none
      (tagBody (collapseBlanks none false ('<' :: (tagTail tail).1))) := by
  set name := tagName tail
  set rest := tail.dropWhile fun c => !(c == '>' || c == '/' || isMarkupBlank c)
  have htail : tail = name ++ rest := List.takeWhile_append_dropWhile.symm
  have hplain : ∀ c ∈ name, c ≠ '>' ∧ c ≠ '/' ∧ isMarkupBlank c = false := fun c hc => by
    simpa [and_assoc] using List.mem_takeWhile_imp
      (p := fun c => !(c == '>' || c == '/' || isMarkupBlank c)) (l := tail) hc
  have hname' : Unquoted (· == '>') none name := unquoted_of_forall fun c hc =>
    ⟨beq_eq_false_iff_ne.mpr (hplain c hc).1,hname c hc⟩
  obtain ⟨P,E,hPE,hP,hE⟩ := tagTail_fst rest
  have hkeep : Keeps ('<' :: name) := keeps_of_forall fun x hx => by
    rcases List.mem_cons.mp hx with rfl | hx
    · exact ⟨rfl,rfl⟩
    · exact ⟨(hplain x hx).2.2,hname x hx⟩
  have hstart : collapseBlanks none false P ++ E = collapseBlanks none false (P ++ E) := by
    rcases hE with ⟨rfl,-⟩ | ⟨rfl,hrun⟩
    · simp
    · rw [collapseBlanks_append_plain rfl hrun]
  have hcollapse : collapseBlanks none false ('<' :: (tagTail tail).1) =
      '<' :: (name ++ (collapseBlanks none false P ++ E)) := by
    rw [htail,tagTail_append_of_unquoted hname' (runAfter_of_forall hname),hPE,← List.cons_append,
      hkeep false,hstart]
    rfl
  -- the text after the name starts with a space, `>` or `/`, so it is all that `tagBody` looks at
  have hdrop : (name ++ (collapseBlanks none false P ++ E)).dropWhile
      (fun c => !(c == ' ' || c == '>' || c == '/')) = collapseBlanks none false P ++ E := by
    rw [List.dropWhile_append_of_pos fun c hc => by
      obtain ⟨hg,hs,hb⟩ := hplain c hc
      simp [ne_space_of_isMarkupBlank hb,hg,hs]]
    rw [hstart]
    cases hPE' : P ++ E with
    | nil => rfl
    | cons d s =>
      have hpre : d :: s <+: rest := hPE' ▸ ⟨(tagTail rest).2,by rw [← hPE,tagTail_append]⟩
      have hstop : (!(d == '>' || d == '/' || isMarkupBlank d)) = false := stops_of_prefix_dropWhile hpre
      have hd : (d == '>' || d == '/' || isMarkupBlank d) = true := by
        simpa only [Bool.not_eq_eq_eq_not,Bool.not_false] using hstop
      obtain ⟨x,r,hxr,hx⟩ := collapseBlanks_head (s := s) hd
      rw [hxr,List.dropWhile_cons_of_neg (by rw [hx]; decide)]
  have hC := unquoted_collapseBlanks (p := (· == '>')) (a := false) rfl hP
  obtain ⟨hpre,hpre'⟩ := tagBody_prefix hdrop
  rw [hcollapse]
  rcases hE with ⟨rfl,-⟩ | ⟨rfl,-⟩
  · exact hC.of_isPrefix (by simpa using hpre)
  · exact hC.of_isPrefix (hpre' _ rfl)

/-! ## Words -/

theorem unquoted_trim {p : Char → Bool} {w : List Char} (h : Unquoted p none w) :
    Unquoted p none (Blank.trim w) := by
  have hsplit := (List.takeWhile_append_dropWhile (p := Blank.isWhiteSpace) (l := w)).symm
  have hrun : runAfter none (w.takeWhile Blank.isWhiteSpace) = none := runAfter_of_forall fun c hc => by
    cases hq : isQuote c
    · rfl
    · have hw := List.mem_takeWhile_imp hc
      rw [isWhiteSpace_of_isQuote hq] at hw
      cases hw
  rw [hsplit,unquoted_append,hrun] at h
  exact h.2.of_isPrefix (List.rdropWhile_prefix _ _)

theorem trim_getLast {w : List Char} : ∀ c ∈ (Blank.trim w).getLast?, Blank.isWhiteSpace c = false := by
  intro c hc
  have hne : Blank.trim w ≠ [] := by rintro h; rw [h] at hc; cases hc
  have hlast : ¬ Blank.isWhiteSpace ((Blank.trim w).getLast hne) = true :=
    List.rdropWhile_last_not Blank.isWhiteSpace _ hne
  rw [List.getLast?_eq_some_getLast hne] at hc
  cases hc
  simpa using hlast

theorem trim_head {w : List Char} : ∀ c ∈ (Blank.trim w).head?, Blank.isWhiteSpace c = false := by
  intro c hc
  have hne : w.dropWhile Blank.isWhiteSpace ≠ [] := by
    intro h
    rw [Blank.trim,h] at hc
    cases hc
  have hpre : Blank.trim w <+: w.dropWhile Blank.isWhiteSpace := List.rdropWhile_prefix _ _
  obtain ⟨x,xs,hx⟩ := List.exists_cons_of_ne_nil hne
  have hnot := List.head_dropWhile_not Blank.isWhiteSpace hne
  simp only [hx,List.head_cons] at hnot
  obtain ⟨u,hu⟩ := hpre
  rw [hx] at hu
  cases ht : Blank.trim w with
  | nil => rw [ht] at hc; cases hc
  | cons y ys =>
    rw [ht] at hc hu
    simp only [List.cons_append,List.cons.injEq] at hu
    cases hc
    rw [hu.1]
    exact hnot

/-- Each word of a text is trimmed from a piece with no space outside quoted runs. -/
theorem spaceSeparated_unquoted {p : Char → Bool} (s : List Char) :
    Unquoted p none s →
      ∀ w ∈ spaceSeparated s, ∃ seg, w = Blank.trim seg ∧ Unquoted (fun c => p c || c == ' ') none seg := by
  fun_induction spaceSeparated s with
  | case1 => simp
  | case2 c cs r ih =>
    intro hs w hw
    have hsplit : r.1 ++ r.2 = c :: cs := breakOutsideQuotes_append [' '] none (c :: cs)
    rw [← hsplit,unquoted_append] at hs
    rcases List.mem_cons.mp hw with rfl | hw
    · exact ⟨r.1,rfl,hs.1.or (unquoted_breakOutsideQuotes none (c :: cs))⟩
    · refine ih ?_ w hw
      rcases breakOutsideQuotes_stop (l := ' ') none (c :: cs) with h | ⟨⟨r',h⟩,hrun⟩
      · rw [h]; trivial
      · have h2 := hs.2
        rw [h,hrun] at h2
        rw [h]
        simpa [Unquoted,isQuote] using h2.2

/-- A property that every step of a left fold keeps holds of its result. -/
theorem foldl_invariant {α β : Type} {P : β → Prop} {f : β → α → β} {l : List α} {b : β} (hb : P b)
    (hf : ∀ b a, a ∈ l → P b → P (f b a)) : P (l.foldl f b) := by
  induction l generalizing b with
  | nil => exact hb
  | cons x xs ih => exact ih (hf b x List.mem_cons_self hb) fun b a ha => hf b a (List.mem_cons_of_mem _ ha)

/-- A word the attribute reader joins starts with a word of the list; what follows it is empty
or starts with `=`, unless the word itself holds an `=`. -/
theorem mem_joinSpacedEquals {ws : List (List Char)} {W : List Char} (hW : W ∈ joinSpacedEquals ws) :
    ∃ w ∈ ws, ∃ rest, W = w ++ rest ∧ (rest = [] ∨ '=' ∈ w ∨ rest.head? = some '=') := by
  unfold joinSpacedEquals at hW
  rw [List.mem_reverse] at hW
  -- the invariant of the fold: every word built so far has that shape
  refine foldl_invariant (P := fun acc => ∀ V ∈ acc,
    ∃ w ∈ ws, ∃ rest, V = w ++ rest ∧ (rest = [] ∨ '=' ∈ w ∨ rest.head? = some '=')) (by simp) ?_ W hW
  intro acc x hx hacc
  cases acc with
  | nil =>
    intro V hV
    rw [List.mem_singleton.mp hV]
    exact ⟨x,hx,[],by simp,.inl rfl⟩
  | cons last before =>
    dsimp only
    split
    · next hjoin =>
      intro V hV
      rcases List.mem_cons.mp hV with rfl | hV
      · obtain ⟨w,hw,rest,rfl,hrest⟩ := hacc last List.mem_cons_self
        refine ⟨w,hw,rest ++ x,by simp,?_⟩
        simp only [Bool.or_eq_true,beq_iff_eq] at hjoin
        rcases hrest with rfl | hrest | hrest
        · rcases hjoin with hjoin | hjoin
          · exact .inr (.inl (List.mem_of_getLast? (by simpa using hjoin)))
          · exact .inr (.inr (by simpa using hjoin))
        · exact .inr (.inl hrest)
        · exact .inr (.inr (by rw [List.head?_append,hrest]; rfl))
      · exact hacc V (List.mem_cons_of_mem _ hV)
    · intro V hV
      rcases List.mem_cons.mp hV with rfl | hV
      · exact ⟨V,hx,[],by simp,.inl rfl⟩
      · exact hacc V hV

theorem takeWhile_append_eq {w rest : List Char} (h : rest = [] ∨ '=' ∈ w ∨ rest.head? = some '=') :
    (w ++ rest).takeWhile (· != '=') = w.takeWhile (· != '=') := by
  induction w with
  | nil =>
    rcases h with rfl | h | h
    · rfl
    · cases h
    · obtain ⟨r,rfl⟩ : ∃ r, rest = '=' :: r := by
        cases rest with
        | nil => cases h
        | cons x r => simp at h; exact ⟨r,by rw [h]⟩
      simp
  | cons c w ih =>
    by_cases hc : c = '='
    · subst hc; simp
    · have h' : rest = [] ∨ '=' ∈ w ∨ rest.head? = some '=' := by
        rcases h with h | h | h
        · exact .inl h
        · exact .inr (.inl ((List.mem_cons.mp h).resolve_left (Ne.symm hc)))
        · exact .inr (.inr h)
      simp [hc,ih h']

theorem wordAttribute_name (W : List Char) : (wordAttribute W).1.toList = W.takeWhile (· != '=') := by
  unfold wordAttribute
  split <;> next heq => simp [List.span_eq_takeWhile_dropWhile] at heq; simp [heq.1]

theorem wordAttribute_flag {W : List Char} (h : (wordAttribute W).2 = .flag) :
    W.takeWhile (· != '=') = W := by
  unfold wordAttribute at h
  split at h
  · cases h
  · next name heq =>
    simp only [List.span_eq_takeWhile_dropWhile,Prod.mk.injEq] at heq
    have hsplit := List.takeWhile_append_dropWhile (p := (· != '=')) (l := W)
    rwa [heq.2,List.append_nil] at hsplit

/-! ## The attributes of a tag -/

/-- Every attribute the reader gives after a tag name without quotes is named by the part before
the first `=` of a trimmed word with no `>` and no markup blank outside quoted runs, and by all of
that word when its value is a flag. -/
theorem parseAttributes_word {tail : List Char} (hname : ∀ c ∈ tagName tail, isQuote c = false)
    {p : String × AttrValue} (hp : p ∈ (parseAttributes ('<' :: (tagTail tail).1)).entries) :
    ∃ w, Unquoted isNameBreak none w ∧ (∀ c ∈ w.head?, Blank.isWhiteSpace c = false) ∧
      (∀ c ∈ w.getLast?, Blank.isWhiteSpace c = false) ∧ p.1.toList = w.takeWhile (· != '=') ∧
      p.1.toList ≠ [] ∧ (p.2 = .flag → p.1.toList = w) := by
  unfold parseAttributes at hp
  obtain ⟨hmem,hne⟩ := List.mem_filter.mp (Attrs.mem_of_mem_ofList hp)
  obtain ⟨W,hW,rfl⟩ := List.mem_map.mp hmem
  obtain ⟨w,hw,rest,rfl,hrest⟩ := mem_joinSpacedEquals hW
  obtain ⟨hw',-⟩ := List.mem_filter.mp hw
  obtain ⟨seg,rfl,hseg⟩ := spaceSeparated_unquoted _ (unquoted_tagBody hname) _ hw'
  have hname : (wordAttribute (Blank.trim seg ++ rest)).1.toList =
      (Blank.trim seg).takeWhile (· != '=') := by
    rw [wordAttribute_name,takeWhile_append_eq hrest]
  refine ⟨Blank.trim seg,unquoted_trim (hseg.imp fun c hc => ?_),trim_head,trim_getLast,hname,?_,
    fun hflag => ?_⟩
  · simp only [isNameBreak,Bool.or_eq_true,beq_iff_eq] at hc
    by_cases hsp : c = ' '
    · simp [hsp]
    · rcases hc with hc | hc
      · simp [hc]
      · simp [hc,hsp]
  · intro he
    simp [← String.toList_inj,he] at hne
  · have hall := List.takeWhile_eq_self_iff.mp (wordAttribute_flag hflag)
    rw [hname,List.takeWhile_eq_self_iff]
    exact fun c hc => hall c (List.mem_append_left _ hc)

/-- An attribute the reader gives after a tag name without quotes, whose own name holds no quote,
is written so that it reads back. -/
theorem attrReadable_of_mem_parseAttributes {tail : List Char}
    (hname : ∀ c ∈ tagName tail, isQuote c = false) {p : String × AttrValue}
    (hp : p ∈ (parseAttributes ('<' :: (tagTail tail).1)).entries)
    (hq : ∀ c ∈ p.1.toList, isQuote c = false) : AttrReadable p := by
  obtain ⟨w,hw,hhead,hlast,hpw,hne,hflag⟩ := parseAttributes_word hname hp
  have hpre : p.1.toList <+: w := hpw ▸ List.takeWhile_prefix _
  have hbreak := (hw.of_isPrefix hpre).forall_of_quoteFree hq
  refine ⟨hne,fun c hc => ?_,fun c hc => ?_,fun hf => ?_⟩
  · have hc' : c ∈ w.takeWhile (· != '=') := by rwa [← hpw]
    have heq : (c != '=') = true := List.mem_takeWhile_imp (p := (· != '=')) hc'
    have hb := hbreak c hc
    simp only [isNameBreak,Bool.or_eq_false_iff,beq_eq_false_iff_ne] at hb
    exact ⟨by simpa using heq,hb.1,hb.2,hq c hc⟩
  · -- the name starts the word
    obtain ⟨x,xs,hx⟩ := List.exists_cons_of_ne_nil hne
    obtain ⟨u,hu⟩ := hpre
    rw [hx] at hc hu
    cases hc
    exact hhead _ (by rw [← hu]; rfl)
  · rw [hflag hf]
    exact hlast

end Html
end HtmlQuery
