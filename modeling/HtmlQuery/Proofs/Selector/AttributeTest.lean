import Mathlib.Data.List.TakeDrop
import Mathlib.Data.List.TakeWhile
import HtmlQuery.Proofs.Selector.Compound

/-! Reading an attribute selector `[name op value flag]`, step by step. -/
namespace HtmlQuery
namespace Selector
open Scan

/-- Markup blanks only. -/
def Blanks (w : List Char) : Prop := ∀ c ∈ w, isMarkupBlank c = true

/-- A text that neither starts nor ends with a markup blank. -/
def Trimmed (s : List Char) : Prop :=
  (∀ c, s.head? = some c → isMarkupBlank c = false) ∧
    ∀ c, s.getLast? = some c → isMarkupBlank c = false

/-- An attribute name as a selector writes it. -/
structure AttrName (n : List Char) : Prop where
  ne_nil : n ≠ []
  plain : ∀ c ∈ n, c ≠ '=' ∧ c ≠ ']' ∧ isQuote c = false ∧ isMarkupBlank c = false
  not_mark : ∀ c, n.getLast? = some c → opOfMark c = none

/-! ## Trimming blanks -/

theorem dropWhile_blanks {w s : List Char} (hw : Blanks w)
    (hs : ∀ c, s.head? = some c → isMarkupBlank c = false) :
    (w ++ s).dropWhile isMarkupBlank = s := by
  rw [List.dropWhile_append_of_pos hw]
  cases s with
  | nil => rfl
  | cons c cs => exact List.dropWhile_cons_of_neg (by simp [hs c rfl])

theorem trimMarkupBlanks_eq {w₁ s w₂ : List Char} (hw₁ : Blanks w₁) (hs : Trimmed s)
    (hw₂ : Blanks w₂) : trimMarkupBlanks (w₁ ++ s ++ w₂) = s := by
  unfold trimMarkupBlanks
  cases s with
  | nil =>
    have hall : ∀ c ∈ w₁ ++ [] ++ w₂, isMarkupBlank c = true := by
      intro c hc
      simp only [List.append_nil, List.mem_append] at hc
      exact hc.elim (hw₁ c) (hw₂ c)
    rw [List.dropWhile_eq_nil_iff.mpr hall]
    rfl
  | cons c cs =>
    have hrev : Blanks w₂.reverse := fun x hx => hw₂ x (List.mem_reverse.mp hx)
    rw [List.append_assoc, dropWhile_blanks hw₁ (by simpa using hs.1), List.reverse_append,
      dropWhile_blanks hrev fun x hx => hs.2 x (by rwa [List.head?_reverse] at hx),
      List.reverse_reverse]

theorem AttrName.trimmed {n : List Char} (hn : AttrName n) : Trimmed n := by
  refine ⟨fun c hc => (hn.plain c ?_).2.2.2, fun c hc => (hn.plain c ?_).2.2.2⟩
  · exact List.mem_of_head? hc
  · exact List.mem_of_getLast? hc

/-! ## The operator -/

theorem span_at_eq {x y : List Char} (hx : ∀ c ∈ x, c ≠ '=') :
    (x ++ '=' :: y).span (· != '=') = (x, '=' :: y) := by
  have hx' : ∀ c ∈ x, (c != '=') = true := by simpa using hx
  rw [List.span_eq_takeWhile_dropWhile, List.takeWhile_append_of_pos hx',
    List.dropWhile_append_of_pos hx']
  simp

theorem span_of_no_eq {x : List Char} (hx : ∀ c ∈ x, c ≠ '=') :
    x.span (· != '=') = (x, []) := by
  have hx' : ∀ c ∈ x, (c != '=') = true := by simpa using hx
  rw [List.span_eq_takeWhile_dropWhile, List.takeWhile_eq_self_iff.mpr hx',
    List.dropWhile_eq_nil_iff.mpr hx']

theorem opOfMark_of_blank {c : Char} (h : isMarkupBlank c = true) : opOfMark c = none := by
  simp only [isMarkupBlank, Bool.or_eq_true, beq_iff_eq] at h
  rcases h with (((rfl | rfl) | rfl) | rfl) | rfl <;> rfl

theorem read_mark (pre : List Char) {m : Char} {op : AttrOp} (h : opOfMark m = some op) :
    (pre ++ [m]).getLast?.bind opOfMark = some op ∧ (pre ++ [m]).dropLast = pre := by
  simp [h]

theorem no_mark (n : List Char) (hn : AttrName n) {w : List Char} (hw : Blanks w) :
    (n ++ w).getLast?.bind opOfMark = none := by
  rw [List.getLast?_append]
  cases hl : w.getLast? with
  | some c => exact opOfMark_of_blank (hw c (List.mem_of_getLast? hl))
  | none =>
    cases hn' : n.getLast? with
    | some c => exact hn.not_mark c hn'
    | none => rfl

theorem symbol_read {n w : List Char} (hn : AttrName n) (hw : Blanks w) {op : AttrOp}
    (hop : op ≠ .present) :
    ∃ mark, op.symbol.toList = mark ++ ['='] ∧
      (∀ c ∈ mark, c ≠ '=' ∧ c ≠ ']' ∧ isQuote c = false ∧ isMarkupBlank c = false) ∧
      ((n ++ w ++ mark).getLast?.bind opOfMark = some op ∧ (n ++ w ++ mark).dropLast = n ++ w ∨
        (n ++ w ++ mark).getLast?.bind opOfMark = none ∧ op = .equals ∧ mark = []) := by
  cases op with
  | present => exact absurd rfl hop
  | equals => exact ⟨[], rfl, by simp, .inr ⟨by simpa using no_mark n hn hw, rfl, rfl⟩⟩
  | includesWord =>
    exact ⟨['~'], rfl, by simp [isQuote, isMarkupBlank], .inl (read_mark _ rfl)⟩
  | dashMatch =>
    exact ⟨['|'], rfl, by simp [isQuote, isMarkupBlank], .inl (read_mark _ rfl)⟩
  | startsWith =>
    exact ⟨['^'], rfl, by simp [isQuote, isMarkupBlank], .inl (read_mark _ rfl)⟩
  | endsWith =>
    exact ⟨['$'], rfl, by simp [isQuote, isMarkupBlank], .inl (read_mark _ rfl)⟩
  | contains =>
    exact ⟨['*'], rfl, by simp [isQuote, isMarkupBlank], .inl (read_mark _ rfl)⟩

/-! ## The test -/

theorem Trimmed.append_append {s m t : List Char} (hs : Trimmed s) (hs₀ : s ≠ []) (ht : Trimmed t)
    (ht₀ : t ≠ []) : Trimmed (s ++ m ++ t) := by
  constructor
  · intro c hc
    obtain ⟨a, as, rfl⟩ := List.exists_cons_of_ne_nil hs₀
    exact hs.1 c (by simpa using hc)
  · intro c hc
    rw [List.getLast?_append] at hc
    cases hx : t.getLast? with
    | none => exact absurd (List.getLast?_eq_none_iff.mp hx) ht₀
    | some x =>
      rw [hx, Option.some_or, Option.some.injEq] at hc
      exact ht.2 c (hc ▸ hx)

theorem attrTest?_present {n w₁ w₂ : List Char} (hn : AttrName n) (hw₁ : Blanks w₁)
    (hw₂ : Blanks w₂) :
    attrTest? (w₁ ++ n ++ w₂) = some ⟨String.ofList n, .present, "", false⟩ := by
  have hempty : n.isEmpty = false := List.isEmpty_eq_false_iff.mpr hn.ne_nil
  unfold attrTest?
  simp only [trimMarkupBlanks_eq hw₁ hn.trimmed hw₂,
    span_of_no_eq fun c hc => (hn.plain c hc).1, hempty]
  rfl

theorem attrTest?_op {n w₁ w₂ w₃ w₄ core : List Char} (hn : AttrName n) (hw₁ : Blanks w₁)
    (hw₂ : Blanks w₂) (hw₃ : Blanks w₃) (hw₄ : Blanks w₄) {op : AttrOp} (hop : op ≠ .present)
    (hne : core ≠ []) (hcore : Trimmed core) :
    attrTest? (w₁ ++ n ++ w₂ ++ op.symbol.toList ++ w₃ ++ core ++ w₄) =
      some ⟨String.ofList n, op,
        if (splitFlag core).2 then Lowercase.lowercase (String.ofList (unquote (splitFlag core).1))
        else String.ofList (unquote (splitFlag core).1), (splitFlag core).2⟩ := by
  obtain ⟨mark, hsym, hmark, hread⟩ := symbol_read hn hw₂ hop
  have htrim : trimMarkupBlanks (w₁ ++ n ++ w₂ ++ op.symbol.toList ++ w₃ ++ core ++ w₄) =
      (n ++ w₂ ++ mark) ++ '=' :: (w₃ ++ core) := by
    have h := trimMarkupBlanks_eq hw₁
      (Trimmed.append_append (m := w₂ ++ mark ++ '=' :: w₃) hn.trimmed hn.ne_nil hcore hne) hw₄
    simpa [hsym] using h
  have hbefore : ∀ c ∈ n ++ w₂ ++ mark, c ≠ '=' := by
    intro c hc
    simp only [List.mem_append] at hc
    rcases hc with (hc | hc) | hc
    · exact (hn.plain c hc).1
    · rintro rfl
      cases hw₂ _ hc
    · exact (hmark c hc).1
  have hname : trimMarkupBlanks (n ++ w₂) = n := by
    simpa using @trimMarkupBlanks_eq [] n w₂ (by simp [Blanks]) hn.trimmed hw₂
  have hafter : trimMarkupBlanks (w₃ ++ core) = core := by
    simpa using @trimMarkupBlanks_eq w₃ core [] hw₃ hcore (by simp [Blanks])
  have hempty : n.isEmpty = false := List.isEmpty_eq_false_iff.mpr hn.ne_nil
  unfold attrTest?
  simp only [htrim, span_at_eq hbefore]
  rcases hread with ⟨hl, hd⟩ | ⟨hl, rfl, rfl⟩
  · simp only [hl, hd, hname, hempty, hafter]
    rfl
  · simp only [List.append_nil] at hl ⊢
    simp only [hl, hname, hempty, hafter]
    rfl

/-! ## The value and its flag -/

theorem splitFlag_of_last {s : List Char} {c : Char} (hs : s.getLast? = some c)
    (hc : c ∉ ['i', 'I', 's', 'S']) : splitFlag s = (s, false) := by
  obtain ⟨p, rfl⟩ := List.getLast?_eq_some_iff.mp hs
  have hrev : (p ++ [c]).reverse = c :: p.reverse := by simp
  simp only [List.mem_cons, List.not_mem_nil, or_false, not_or] at hc
  unfold splitFlag
  rw [hrev]
  simp [hc.1, hc.2.1, hc.2.2.1, hc.2.2.2]

theorem splitFlag_of_plain {v : List Char}
    (hv : ∀ c ∈ v, isMarkupBlank c = false ∧ isQuote c = false) : splitFlag v = (v, false) := by
  unfold splitFlag
  cases hr : v.reverse with
  | nil => rfl
  | cons f before =>
    cases before with
    | nil => simp
    | cons c cs =>
      have hc : c ∈ v := List.mem_reverse.mp (hr ▸ List.mem_cons_of_mem f List.mem_cons_self)
      simp [(hv c hc).1, (hv c hc).2]

theorem splitFlag_flag {s w : List Char} {d f : Char} (hs : s.getLast? = some d)
    (hd : isMarkupBlank d = false) (hw : Blanks w) (hsep : w ≠ [] ∨ isQuote d = true)
    (hf : f ∈ ['i', 'I', 's', 'S']) : splitFlag (s ++ w ++ [f]) = (s, f == 'i' || f == 'I') := by
  have hrev : (s ++ w ++ [f]).reverse = f :: (w.reverse ++ s.reverse) := by simp
  obtain ⟨c, cs, hcs, hc⟩ : ∃ c cs, w.reverse ++ s.reverse = c :: cs ∧
      (isMarkupBlank c || isQuote c) = true := by
    cases hw' : w.reverse with
    | cons c cs =>
      have hc : c ∈ w := List.mem_reverse.mp (hw' ▸ List.mem_cons_self)
      exact ⟨c, cs ++ s.reverse, rfl, by simp [hw c hc]⟩
    | nil =>
      have hq : isQuote d = true := hsep.resolve_left (by simpa using hw')
      obtain ⟨p, rfl⟩ := List.getLast?_eq_some_iff.mp hs
      exact ⟨d, p.reverse, by simp, by simp [hq]⟩
  have hdrop : (w.reverse ++ s.reverse).dropWhile isMarkupBlank = s.reverse :=
    dropWhile_blanks (fun c hc => hw c (List.mem_reverse.mp hc))
      fun c hc => by rw [List.head?_reverse, hs] at hc; exact Option.some.inj hc ▸ hd
  unfold splitFlag
  rw [hrev, hcs]
  rw [hcs] at hdrop
  simp only [List.mem_cons, List.not_mem_nil, or_false] at hf
  rcases hf with rfl | rfl | rfl | rfl <;> simp [hc, hdrop]

theorem unquote_quoted {q : Char} (hq : isQuote q = true) (v : List Char) :
    unquote (q :: (v ++ [q])) = v := by
  obtain ⟨x, xs, hx⟩ := List.exists_cons_of_ne_nil (show v ++ [q] ≠ [] by simp)
  unfold unquote
  rw [hx]
  dsimp only
  rw [← hx]
  simp [hq]

theorem unquote_of_head {v : List Char} (hv : ∀ c, v.head? = some c → isQuote c = false) :
    unquote v = v := by
  unfold unquote
  split
  · next q r _ =>
    simp [hv q rfl]
  · rfl

/-! ## Compiling an attribute selector -/

theorem QuotesClosed.append {stop : Char → Prop} {a b : List Char} (ha : QuotesClosed stop a)
    (hb : QuotesClosed stop b) : QuotesClosed stop (a ++ b) := by
  induction ha with
  | nil => exact hb
  | plain hc hq _ ih => exact .plain hc hq ih
  | quoted hq hbody _ ih =>
    rw [List.append_assoc, List.cons_append]
    exact .quoted hq hbody ih

theorem plain_of_blank {c : Char} (h : isMarkupBlank c = true) : c ≠ ']' ∧ isQuote c = false := by
  simp only [isMarkupBlank, Bool.or_eq_true, beq_iff_eq] at h
  rcases h with (((rfl | rfl) | rfl) | rfl) | rfl <;> decide

theorem compile_attribute {e : List Char} (he : QuotesClosed (· = ']') e) :
    (compile (String.ofList ('[' :: (e ++ [']'])))).1 = (attrTest? e).toList.map .byAttribute := by
  have h := @compile_conditions [] (by simp) [.byAttribute e] (by simpa [Simple.WellFormed] using he)
  simpa [Simple.text, Simple.conditions, typeConditions] using h

theorem quotesClosed_head {n w₁ w₂ w₃ : List Char} (hn : AttrName n) (hw₁ : Blanks w₁)
    (hw₂ : Blanks w₂) (hw₃ : Blanks w₃) {op : AttrOp} (hop : op ≠ .present) :
    QuotesClosed (· = ']') (w₁ ++ n ++ w₂ ++ op.symbol.toList ++ w₃) := by
  obtain ⟨mark, hsym, hmark, -⟩ := symbol_read hn hw₂ hop
  refine QuotesClosed.of_plain fun c hc => ?_
  simp only [hsym, List.mem_append, List.mem_singleton] at hc
  rcases hc with (((hc | hc) | hc) | hc | rfl) | hc
  · exact plain_of_blank (hw₁ c hc)
  · exact ⟨(hn.plain c hc).2.1, (hn.plain c hc).2.2.1⟩
  · exact plain_of_blank (hw₂ c hc)
  · exact ⟨(hmark c hc).2.1, (hmark c hc).2.2.1⟩
  · decide
  · exact plain_of_blank (hw₃ c hc)

theorem compile_attribute_op {n w₁ w₂ w₃ w₄ core : List Char} (hn : AttrName n)
    (hw₁ : Blanks w₁) (hw₂ : Blanks w₂) (hw₃ : Blanks w₃) (hw₄ : Blanks w₄) {op : AttrOp}
    (hop : op ≠ .present) (hne : core ≠ []) (hcore : Trimmed core)
    (hq : QuotesClosed (· = ']') (core ++ w₄)) :
    (compile (String.ofList ('[' :: (w₁ ++ n ++ w₂ ++ op.symbol.toList ++ w₃ ++ core ++ w₄ ++
      [']'])))).1 =
      [.byAttribute ⟨String.ofList n, op,
        if (splitFlag core).2 then Lowercase.lowercase (String.ofList (unquote (splitFlag core).1))
        else String.ofList (unquote (splitFlag core).1), (splitFlag core).2⟩] := by
  have he : QuotesClosed (· = ']') (w₁ ++ n ++ w₂ ++ op.symbol.toList ++ w₃ ++ core ++ w₄) := by
    rw [List.append_assoc]
    exact (quotesClosed_head hn hw₁ hw₂ hw₃ hop).append hq
  rw [compile_attribute he, attrTest?_op hn hw₁ hw₂ hw₃ hw₄ hop hne hcore]
  rfl

theorem plain_of_flag {c : Char} (h : c ∈ ['i', 'I', 's', 'S']) :
    c ≠ ']' ∧ isQuote c = false ∧ isMarkupBlank c = false := by
  simp only [List.mem_cons, List.not_mem_nil, or_false] at h
  rcases h with rfl | rfl | rfl | rfl <;> decide

/-- An attribute selector compiles to the one test of its name, operator and value. -/
theorem compile_attribute_selector {n : List Char} (hn : AttrName n) {w₁ w₂ w₃ w₄ : List Char}
    (hw₁ : Blanks w₁) (hw₂ : Blanks w₂) (hw₃ : Blanks w₃) (hw₄ : Blanks w₄) :
    (∀ (op : AttrOp) (f : Option Char), op ≠ .present → (∀ c ∈ f, c ∈ ['i', 'I', 's', 'S']) →
      let ci := f == some 'i' || f == some 'I'
      let test := fun v : List Char => (⟨String.ofList n, op,
        if ci then Lowercase.lowercase (String.ofList v) else String.ofList v, ci⟩ : AttrTest)
      (∀ (q : Char) (v : List Char), isQuote q = true → q ∉ v →
        (compile (String.ofList ('[' :: w₁ ++ n ++ w₂ ++ op.symbol.toList ++ w₃ ++ [q] ++ v ++
          [q] ++ w₄ ++ f.toList ++ [']']))).1 = [.byAttribute (test v)]) ∧
      (∀ v : List Char, v ≠ [] → (∀ c ∈ v, c ≠ ']' ∧ isQuote c = false ∧ isMarkupBlank c = false) →
        (f.isSome → w₄ ≠ []) →
        (compile (String.ofList ('[' :: w₁ ++ n ++ w₂ ++ op.symbol.toList ++ w₃ ++ v ++ w₄ ++
          f.toList ++ [']']))).1 = [.byAttribute (test v)])) ∧
    (compile (String.ofList ('[' :: w₁ ++ n ++ w₂ ++ [']']))).1 =
      [.byAttribute ⟨String.ofList n, .present, "", false⟩] := by
  have hw₄' : ∀ c ∈ w₄, ¬ c = ']' ∧ isQuote c = false := fun c hc => plain_of_blank (hw₄ c hc)
  refine ⟨fun op f hop hf => ⟨fun q v hq hv => ?_, fun v hv₀ hv hsep => ?_⟩, ?_⟩
  · have hq' : q ∉ ['i', 'I', 's', 'S'] ∧ isMarkupBlank q = false := by
      simp only [isQuote, Bool.or_eq_true, beq_iff_eq] at hq
      rcases hq with rfl | rfl <;> decide
    have hlast : (q :: (v ++ [q])).getLast? = some q := by
      rw [← List.cons_append, List.getLast?_concat]
    have hrun : Trimmed (q :: (v ++ [q])) :=
      ⟨by simp [hq'.2], fun c hc => by rw [hlast] at hc; exact Option.some.inj hc ▸ hq'.2⟩
    cases f with
    | none =>
      have h := @compile_attribute_op n w₁ w₂ w₃ w₄ (q :: (v ++ [q])) hn hw₁ hw₂ hw₃ hw₄ op hop
        (by simp) hrun (by simpa using QuotesClosed.quoted hq hv (QuotesClosed.of_plain hw₄'))
      rw [splitFlag_of_last hlast hq'.1, unquote_quoted hq] at h
      simpa using h
    | some c =>
      have hc := plain_of_flag (hf c rfl)
      have htail : ∀ x ∈ w₄ ++ [c], ¬ x = ']' ∧ isQuote x = false := by
        intro x hx
        simp only [List.mem_append, List.mem_singleton] at hx
        rcases hx with hx | rfl
        · exact hw₄' x hx
        · exact ⟨hc.1, hc.2.1⟩
      have h := @compile_attribute_op n w₁ w₂ w₃ [] (q :: (v ++ [q]) ++ w₄ ++ [c]) hn hw₁ hw₂ hw₃
        (by simp [Blanks]) op hop (by simp)
        (hrun.append_append (by simp) ⟨by simp [hc.2.2], by simp [hc.2.2]⟩ (by simp))
        (by simpa using QuotesClosed.quoted hq hv (QuotesClosed.of_plain htail))
      rw [splitFlag_flag hlast hq'.2 hw₄ (.inr hq) (hf c rfl), unquote_quoted hq] at h
      simpa using h
  · have hplain : ∀ c ∈ v, ¬ c = ']' ∧ isQuote c = false := fun c hc => ⟨(hv c hc).1, (hv c hc).2.1⟩
    have hvt : Trimmed v :=
      ⟨fun c hc => (hv c (List.mem_of_head? hc)).2.2, fun c hc => (hv c (List.mem_of_getLast? hc)).2.2⟩
    have hunq : unquote v = v := unquote_of_head fun c hc => (hv c (List.mem_of_head? hc)).2.1
    cases f with
    | none =>
      have h := @compile_attribute_op n w₁ w₂ w₃ w₄ v hn hw₁ hw₂ hw₃ hw₄ op hop hv₀ hvt
        ((QuotesClosed.of_plain hplain).append (QuotesClosed.of_plain hw₄'))
      rw [splitFlag_of_plain fun c hc => ⟨(hv c hc).2.2, (hv c hc).2.1⟩, hunq] at h
      simpa using h
    | some c =>
      have hc := plain_of_flag (hf c rfl)
      obtain ⟨d, hd⟩ := Option.ne_none_iff_exists'.mp (mt List.getLast?_eq_none_iff.mp hv₀)
      have htail : ∀ x ∈ v ++ w₄ ++ [c], ¬ x = ']' ∧ isQuote x = false := by
        intro x hx
        simp only [List.mem_append, List.mem_singleton] at hx
        rcases hx with (hx | hx) | rfl
        · exact hplain x hx
        · exact hw₄' x hx
        · exact ⟨hc.1, hc.2.1⟩
      have h := @compile_attribute_op n w₁ w₂ w₃ [] (v ++ w₄ ++ [c]) hn hw₁ hw₂ hw₃
        (by simp [Blanks]) op hop (by simp)
        (hvt.append_append hv₀ ⟨by simp [hc.2.2], by simp [hc.2.2]⟩ (by simp))
        (by simpa using QuotesClosed.of_plain htail)
      rw [splitFlag_flag hd (hv d (List.mem_of_getLast? hd)).2.2 hw₄ (.inl (hsep rfl)) (hf c rfl),
        hunq] at h
      simpa using h
  · have he : QuotesClosed (· = ']') (w₁ ++ n ++ w₂) := by
      refine QuotesClosed.of_plain fun c hc => ?_
      simp only [List.mem_append] at hc
      rcases hc with (hc | hc) | hc
      · exact plain_of_blank (hw₁ c hc)
      · exact ⟨(hn.plain c hc).2.1, (hn.plain c hc).2.2.1⟩
      · exact plain_of_blank (hw₂ c hc)
    have h := compile_attribute he
    rw [attrTest?_present hn hw₁ hw₂] at h
    simpa using h

theorem compile_attribute_selector_lang :
    (compile "[ lang |= \"EN\" i]").1 = [.byAttribute ⟨"lang", .dashMatch, "en", true⟩] ∧
      (compile "[lang|=hi]").1 = [.byAttribute ⟨"lang", .dashMatch, "hi", false⟩] ∧
      (compile "[lang]").1 = [.byAttribute ⟨"lang", .present, "", false⟩] := by
  have hn : AttrName "lang".toList := ⟨by simp, by simp [isQuote, isMarkupBlank], by simp [opOfMark]⟩
  have hs : Blanks [' '] := by simp [Blanks, isMarkupBlank]
  have h₀ : Blanks [] := by simp [Blanks]
  have hq := ((compile_attribute_selector hn hs hs hs hs).1 .dashMatch (some 'i') (by decide)
    (by simp)).1 '"' "EN".toList rfl (by simp)
  have hu := ((compile_attribute_selector hn h₀ h₀ h₀ h₀).1 .dashMatch none (by decide)
    (by simp)).2 "hi".toList (by simp) (by simp [isQuote, isMarkupBlank]) (by simp)
  have hp := (compile_attribute_selector hn h₀ h₀ h₀ h₀).2
  refine ⟨Eq.trans ?_ (hq.trans ?_), Eq.trans ?_ (hu.trans ?_), Eq.trans ?_ (hp.trans ?_)⟩
  · exact congrArg (fun s => (compile s).1) (by decide)
  · decide
  · exact congrArg (fun s => (compile s).1) (by decide)
  · decide
  · exact congrArg (fun s => (compile s).1) (by decide)
  · decide

end Selector
end HtmlQuery
