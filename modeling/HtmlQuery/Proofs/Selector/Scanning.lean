import HtmlQuery.Selector.Chain

/-! The scanners of selector text and the states they share: the open quoted run and the bracket
depth. -/
namespace HtmlQuery
namespace Selector
open Scan

/-- Where a scan of selector text stands: the quoted run open there and the bracket depth. -/
structure Lex where
  quote : Option Char
  depth : Nat
deriving DecidableEq

namespace Lex

def top : Lex := ⟨none, 0⟩

def next : Lex → Char → Lex
  | ⟨some q, d⟩, c => ⟨if c = q then none else some q, d⟩
  | ⟨none, d⟩, c => ⟨quoteAfter c, depthAfter c d⟩

def run (st : Lex) (w : List Char) : Lex := w.foldl next st

@[simp] theorem run_nil (st : Lex) : st.run [] = st := rfl

@[simp] theorem run_cons (st : Lex) (c : Char) (w : List Char) : st.run (c :: w) = (st.next c).run w :=
  rfl

@[simp] theorem run_append (st : Lex) (a b : List Char) : st.run (a ++ b) = (st.run a).run b :=
  List.foldl_append

theorem eq_top_iff {q : Option Char} {d : Nat} : (⟨q, d⟩ : Lex) = top ↔ q = none ∧ d = 0 := by
  simp [top]

end Lex

/-- No character of `w` that `stop` picks stands outside quoted runs and brackets. -/
def Avoids (stop : Char → Bool) : Lex → List Char → Prop
  | _, [] => True
  | st, c :: cs => ¬ (st = Lex.top ∧ stop c = true) ∧ Avoids stop (st.next c) cs

section Avoids
variable {stop : Char → Bool}

@[simp] theorem avoids_nil (st : Lex) : Avoids stop st [] := trivial

@[simp] theorem avoids_cons (st : Lex) (c : Char) (cs : List Char) :
    Avoids stop st (c :: cs) ↔ ¬ (st = Lex.top ∧ stop c = true) ∧ Avoids stop (st.next c) cs :=
  Iff.rfl

theorem avoids_append {st : Lex} {a b : List Char} :
    Avoids stop st (a ++ b) ↔ Avoids stop st a ∧ Avoids stop (st.run a) b := by
  induction a generalizing st with
  | nil => simp
  | cons c a ih => simp [ih, and_assoc]

end Avoids

/-! ## Characters that end a compound -/

theorem endsCompound_iff {c : Char} :
    endsCompound c = true ↔ c ∈ [' ', '\t', '\n', '\r', '\x0c', '>', '+', '~'] := by
  unfold endsCompound isMarkupBlank Combinator.ofSymbol?
  split <;> simp_all [or_assoc]

theorem Lex.next_top_of_endsCompound {c : Char} (h : endsCompound c = true) : top.next c = top := by
  rw [endsCompound_iff] at h
  simp only [List.mem_cons, List.not_mem_nil, or_false] at h
  rcases h with rfl | rfl | rfl | rfl | rfl | rfl | rfl | rfl <;> decide

theorem Lex.next_top_comma : top.next ',' = top := by decide

/-! ## Reading a compound -/

theorem compoundSpan_nil (q : Option Char) (d : Nat) : compoundSpan q d [] = ([], []) := rfl

theorem compoundSpan_append_of_avoids {q q' : Option Char} {d d' : Nat} {a : List Char}
    (h : Avoids endsCompound ⟨q, d⟩ a) (hrun : Lex.run ⟨q, d⟩ a = ⟨q', d'⟩) (r : List Char) :
    compoundSpan q d (a ++ r) = (a ++ (compoundSpan q' d' r).1, (compoundSpan q' d' r).2) := by
  induction a generalizing q d with
  | nil =>
    simp only [Lex.run_nil, Lex.mk.injEq] at hrun
    obtain ⟨rfl, rfl⟩ := hrun
    rfl
  | cons c a ih =>
    obtain ⟨hc, ha⟩ := h
    cases q with
    | some x => simp [compoundSpan, ih ha hrun]
    | none =>
      have hstop : (decide (d = 0) && endsCompound c) = false := by
        simpa [Lex.eq_top_iff] using hc
      have hrest := ih (q := quoteAfter c) (d := depthAfter c d) ha hrun
      simp only [List.cons_append, compoundSpan, hstop, Bool.false_eq_true, if_false]
      rw [show (if isQuote c = true then some c else none) = quoteAfter c from rfl, hrest]

theorem compoundSpan_stops (q : Option Char) (d : Nat) (s : List Char) :
    Avoids endsCompound ⟨q, d⟩ (compoundSpan q d s).1 ∧
      ((compoundSpan q d s).2 = [] ∨ Lex.run ⟨q, d⟩ (compoundSpan q d s).1 = Lex.top ∧
        ∃ x r, (compoundSpan q d s).2 = x :: r ∧ endsCompound x = true) := by
  induction s generalizing q d with
  | nil => simp [compoundSpan]
  | cons c cs ih =>
    cases q with
    | some x =>
      obtain ⟨h1, h2⟩ := ih (if c = x then none else some x) d
      exact ⟨⟨by simp [Lex.top], h1⟩, h2⟩
    | none =>
      by_cases hstop : (decide (d = 0) && endsCompound c) = true
      · simp only [Bool.and_eq_true, decide_eq_true_eq] at hstop
        obtain ⟨rfl, hc⟩ := hstop
        simp [compoundSpan, hc, Lex.top]
      · obtain ⟨h1, h2⟩ := ih (quoteAfter c) (depthAfter c d)
        simp only [Bool.not_eq_true] at hstop
        simp only [compoundSpan, hstop, Bool.false_eq_true, if_false]
        exact ⟨⟨by simpa [Lex.eq_top_iff] using hstop, h1⟩, h2⟩

/-! ## Splitting at commas -/

theorem splitTopLevel_ne_nil (q : Option Char) (d : Nat) (s : List Char) : splitTopLevel q d s ≠ [] := by
  cases s with
  | nil => simp [splitTopLevel]
  | cons c cs =>
    cases q with
    | some x =>
      simp only [splitTopLevel]
      cases splitTopLevel (if c = x then none else some x) d cs <;> simp [consFirst]
    | none =>
      simp only [splitTopLevel]
      split
      · simp
      · cases splitTopLevel (if isQuote c = true then some c else none) (depthAfter c d) cs <;>
          simp [consFirst]

theorem consFirst_eq_modifyHead (c : Char) {ps : List (List Char)} (h : ps ≠ []) :
    consFirst c ps = ps.modifyHead (c :: ·) := by
  cases ps with
  | nil => exact absurd rfl h
  | cons p ps => rfl

@[simp] theorem splitTopLevel_comma (s : List Char) :
    splitTopLevel none 0 (',' :: s) = [] :: splitTopLevel none 0 s := by
  simp [splitTopLevel]

theorem splitTopLevel_append_of_avoids {q q' : Option Char} {d d' : Nat} {a : List Char}
    (h : Avoids (· == ',') ⟨q, d⟩ a) (hrun : Lex.run ⟨q, d⟩ a = ⟨q', d'⟩) (r : List Char) :
    splitTopLevel q d (a ++ r) = (splitTopLevel q' d' r).modifyHead (a ++ ·) := by
  induction a generalizing q d with
  | nil =>
    simp only [Lex.run_nil, Lex.mk.injEq] at hrun
    obtain ⟨rfl, rfl⟩ := hrun
    rw [List.nil_append]
    cases splitTopLevel q d r <;> rfl
  | cons c a ih =>
    obtain ⟨hc, ha⟩ := h
    have hne := splitTopLevel_ne_nil q' d' r
    cases q with
    | some x =>
      simp only [List.cons_append, splitTopLevel]
      rw [ih ha hrun, consFirst_eq_modifyHead _ (by simpa using hne), List.modifyHead_modifyHead]
      rfl
    | none =>
      have hstop : (c = ',' && decide (d = 0)) = false := by
        simpa [Lex.eq_top_iff, and_comm] using hc
      simp only [List.cons_append, splitTopLevel, hstop, Bool.false_eq_true, if_false]
      rw [show (if isQuote c = true then some c else none) = quoteAfter c from rfl,
        ih ha hrun, consFirst_eq_modifyHead _ (by simpa using hne), List.modifyHead_modifyHead]
      rfl

theorem splitTopLevel_cases (q : Option Char) (d : Nat) (s : List Char) :
    ∃ p, Avoids (· == ',') ⟨q, d⟩ p ∧
      (s = p ∧ splitTopLevel q d s = [p] ∨
        ∃ s', s = p ++ ',' :: s' ∧ Lex.run ⟨q, d⟩ p = Lex.top ∧
          splitTopLevel q d s = p :: splitTopLevel none 0 s') := by
  induction s generalizing q d with
  | nil => exact ⟨[], trivial, .inl ⟨rfl, rfl⟩⟩
  | cons c cs ih =>
    cases q with
    | some x =>
      obtain ⟨p, hp, hcase⟩ := ih (if c = x then none else some x) d
      refine ⟨c :: p, ⟨by simp [Lex.top], hp⟩, ?_⟩
      rcases hcase with ⟨rfl, hs⟩ | ⟨s', rfl, hrun, hs⟩
      · exact .inl ⟨rfl, by simp [splitTopLevel, hs, consFirst]⟩
      · exact .inr ⟨s', rfl, hrun, by simp [splitTopLevel, hs, consFirst]⟩
    | none =>
      by_cases hstop : (c = ',' && decide (d = 0)) = true
      · simp only [Bool.and_eq_true, decide_eq_true_eq] at hstop
        obtain ⟨rfl, rfl⟩ := hstop
        exact ⟨[], trivial, .inr ⟨cs, rfl, rfl, by simp⟩⟩
      · obtain ⟨p, hp, hcase⟩ := ih (quoteAfter c) (depthAfter c d)
        simp only [Bool.not_eq_true] at hstop
        refine ⟨c :: p, ⟨by simpa [Lex.eq_top_iff, and_comm] using hstop, hp⟩, ?_⟩
        have hsplit : splitTopLevel none d (c :: cs) =
            consFirst c (splitTopLevel (quoteAfter c) (depthAfter c d) cs) := by
          simp [splitTopLevel, hstop, quoteAfter]
        rcases hcase with ⟨rfl, hs⟩ | ⟨s', rfl, hrun, hs⟩
        · exact .inl ⟨rfl, by rw [hsplit, hs]; rfl⟩
        · exact .inr ⟨s', rfl, hrun, by rw [hsplit, hs]; rfl⟩

theorem endsCompound_of_avoids {p : List Char} (h : Avoids (· == ',') Lex.top p)
    (hp : ∀ c ∈ p, endsCompound c = true ∨ c = ',') : ∀ c ∈ p, endsCompound c = true := by
  induction p with
  | nil => simp
  | cons c cs ih =>
    obtain ⟨hc, hcs⟩ := h
    have hends : endsCompound c = true := by
      rcases hp c List.mem_cons_self with hends | rfl
      · exact hends
      · exact absurd ⟨rfl, rfl⟩ hc
    rw [Lex.next_top_of_endsCompound hends] at hcs
    intro x hx
    rcases List.mem_cons.mp hx with rfl | hx
    · exact hends
    · exact ih hcs (fun y hy => hp y (List.mem_cons_of_mem _ hy)) x hx

/-! ## The compounds of a piece -/

section Segments
variable (p : Combinator)

@[simp] theorem segments_nil : segments p [] = [] := by
  rw [segments]

theorem segments_blank {c : Char} (h : isMarkupBlank c = true) (cs : List Char) :
    segments p (c :: cs) = segments p cs := by
  rw [segments, if_pos h]

theorem segments_symbol {c : Char} {k : Combinator} (hb : isMarkupBlank c = false)
    (h : Combinator.ofSymbol? c = some k) (cs : List Char) : segments p (c :: cs) = segments k cs := by
  rw [segments, if_neg (by simp [hb]), h]

theorem segments_compound {c : Char} (h : endsCompound c = false) (cs : List Char) :
    segments p (c :: cs) = (p, c :: (compoundSpan (quoteAfter c) (depthAfter c 0) cs).1) ::
      segments .descendant (compoundSpan (quoteAfter c) (depthAfter c 0) cs).2 := by
  simp only [endsCompound, Bool.or_eq_false_iff, Option.isSome_eq_false_iff, Option.isNone_iff_eq_none] at h
  rw [segments, if_neg (by simp [h.1]), h.2]

theorem segments_eq_nil_iff (s : List Char) : segments p s = [] ↔ ∀ c ∈ s, endsCompound c = true := by
  induction s generalizing p with
  | nil => simp
  | cons c cs ih =>
    by_cases hb : isMarkupBlank c = true
    · rw [segments_blank p hb, ih]
      simp [endsCompound, hb]
    · cases hk : Combinator.ofSymbol? c with
      | some k =>
        rw [segments_symbol p (by simpa using hb) hk, ih]
        simp [endsCompound, hk]
      | none =>
        have hc : endsCompound c = false := by simp [endsCompound, hk, hb]
        simp [segments_compound p hc, hc]

end Segments

/-! ## Writing a chain out -/

/-- The compounds after the first, each after its combinator, as a chain writes them. -/
def renderTail (segs : List (Combinator × List Char)) : List Char :=
  segs.flatMap fun kw => kw.1.text.toList ++ kw.2

def render : List (Combinator × List Char) → List Char
  | [] => []
  | (_, w) :: rest => w ++ renderTail rest

@[simp] theorem renderTail_nil : renderTail [] = [] := rfl

theorem renderTail_cons (k : Combinator) (w : List Char) (rest : List (Combinator × List Char)) :
    renderTail ((k, w) :: rest) = k.text.toList ++ (w ++ renderTail rest) := by
  simp [renderTail]

theorem segments_text (k : Combinator) (Y : List Char) :
    segments .descendant (k.text.toList ++ Y) = segments k Y := by
  cases k <;> simp [Combinator.text, segments_blank, segments_symbol, isMarkupBlank,
    Combinator.ofSymbol?]

theorem compoundSpan_renderTail (segs : List (Combinator × List Char)) :
    compoundSpan none 0 (renderTail segs) = ([], renderTail segs) := by
  cases segs with
  | nil => rfl
  | cons kw rest =>
    obtain ⟨k, w⟩ := kw
    cases k <;> simp [renderTail_cons, Combinator.text, compoundSpan, endsCompound, isMarkupBlank]

theorem compoundSpan_of_renderTail {q : Option Char} {d : Nat} {s a b : List Char}
    (h : compoundSpan q d s = (a, b)) (k : Combinator) :
    compoundSpan q d (a ++ renderTail (segments k b)) = (a, renderTail (segments k b)) := by
  obtain ⟨havoid, hend⟩ := compoundSpan_stops q d s
  rw [h] at havoid hend
  rcases hend with rfl | ⟨hrun, -⟩
  · have hs : a = s := by simpa [h] using compoundSpan_append q d s
    subst hs
    rw [segments_nil, renderTail_nil, List.append_nil, h]
  · rw [compoundSpan_append_of_avoids havoid hrun, compoundSpan_renderTail, List.append_nil]

theorem segments_renderTail (p : Combinator) (X : List Char) :
    segments .descendant (renderTail (segments p X)) = segments p X := by
  fun_induction segments p X with
  | case1 => simp
  | case2 _ _ _ _ ih => exact ih
  | case3 _ _ _ _ _ _ ih => exact ih
  | case4 p c cs hb hk r ih =>
    have hc : endsCompound c = false := by simp [endsCompound, hb, hk]
    rw [renderTail_cons, segments_text, List.cons_append, segments_compound p hc,
      compoundSpan_of_renderTail (show compoundSpan _ _ cs = (r.1, r.2) from rfl), ih]

theorem segments_render (p q : Combinator) (X : List Char) :
    segments q (render (segments p X)) = (segments p X).modifyHead fun kw => (q, kw.2) := by
  fun_induction segments p X with
  | case1 => simp [render]
  | case2 _ _ _ _ ih => exact ih
  | case3 _ _ _ _ _ _ ih => exact ih
  | case4 p c cs hb hk r ih =>
    have hc : endsCompound c = false := by simp [endsCompound, hb, hk]
    rw [render, List.cons_append, segments_compound q hc,
      compoundSpan_of_renderTail (show compoundSpan _ _ cs = (r.1, r.2) from rfl),
      segments_renderTail]
    rfl

/-! ## Chains of compounds -/

theorem map_zipIdx_of_pos (segs : List (Combinator × List Char)) {n : Nat} (hn : 0 < n) :
    (segs.zipIdx n).map (fun x => Link.ofCompound (String.ofList x.1.2)
      (if x.2 = 0 then .descendant else x.1.1)) =
      segs.map fun kw => Link.ofCompound (String.ofList kw.2) kw.1 := by
  induction segs generalizing n with
  | nil => rfl
  | cons kw rest ih =>
    simp only [List.zipIdx_cons, List.map_cons, Nat.pos_iff_ne_zero.mp hn, if_false,
      ih (Nat.succ_pos n)]

theorem links_ofSegments (k : Combinator) (w : List Char) (rest : List (Combinator × List Char)) :
    (((k, w) :: rest).zipIdx.map fun x => Link.ofCompound (String.ofList x.1.2)
      (if x.2 = 0 then .descendant else x.1.1)) =
      Link.ofCompound (String.ofList w) .descendant ::
        rest.map fun kw => Link.ofCompound (String.ofList kw.2) kw.1 := by
  simp only [List.zipIdx_cons, List.map_cons, if_pos, map_zipIdx_of_pos rest (Nat.succ_pos 0)]

theorem ofSegments_modifyHead (q : Combinator) (segs : List (Combinator × List Char)) :
    Chain.ofSegments (segs.modifyHead fun kw => (q, kw.2)) = Chain.ofSegments segs := by
  cases segs with
  | nil => rfl
  | cons kw rest =>
    obtain ⟨k, w⟩ := kw
    simp only [Chain.ofSegments, List.modifyHead_cons, links_ofSegments]

theorem ofSegments_eq_none_iff (segs : List (Combinator × List Char)) :
    Chain.ofSegments segs = none ↔ segs = [] := by
  unfold Chain.ofSegments
  dsimp only
  split
  · next h => simpa using h
  · next h =>
    simp only [reduceCtorEq, false_iff]
    rintro rfl
    simp at h

theorem display_ofSegments {segs : List (Combinator × List Char)} {c : Chain}
    (h : Chain.ofSegments segs = some c) : c.display.toList = render segs := by
  cases segs with
  | nil => simp [Chain.ofSegments] at h
  | cons kw rest =>
    obtain ⟨k, w⟩ := kw
    unfold Chain.ofSegments at h
    rw [links_ofSegments] at h
    dsimp only at h
    split at h
    · cases h
    · next head before hlinks =>
      cases h
      have hrev : (Chain.links ⟨head, before⟩).reverse = Link.ofCompound (String.ofList w) .descendant ::
          rest.map fun kw => Link.ofCompound (String.ofList kw.2) kw.1 := by
        rw [Chain.links, ← hlinks, List.reverse_reverse]
      simp [Chain.display, hrev, render, renderTail, Link.ofCompound, List.flatMap_map]

/-! ## The chains of a list -/

/-- The chains of a text: the chain of each top-level piece that has a compound. -/
def pieceChains (s : List Char) : List Chain :=
  (splitTopLevel none 0 s).filterMap fun p => Chain.ofSegments (segments .descendant p)

theorem pieces_induction {motive : List Char → Prop}
    (last : ∀ p, Avoids (· == ',') Lex.top p → motive p)
    (cons : ∀ p s, Avoids (· == ',') Lex.top p → Lex.run Lex.top p = Lex.top → motive s →
      motive (p ++ ',' :: s))
    (s : List Char) : motive s := by
  induction h : s.length using Nat.strongRecOn generalizing s with
  | ind n ih =>
    obtain ⟨p, hp, ⟨rfl, -⟩ | ⟨s', rfl, hrun, -⟩⟩ := splitTopLevel_cases none 0 s
    · exact last _ hp
    · have hlt : s'.length < n := by
        rw [← h, List.length_append, List.length_cons]
        omega
      exact cons p s' hp hrun (ih _ hlt s' rfl)

theorem splitTopLevel_of_avoids {p : List Char} (hp : Avoids (· == ',') Lex.top p) :
    splitTopLevel none 0 p = [p] := by
  cases hst : Lex.run Lex.top p with
  | mk q d => simpa [splitTopLevel] using splitTopLevel_append_of_avoids hp hst []

theorem pieceChains_of_avoids {p : List Char} (hp : Avoids (· == ',') Lex.top p) :
    pieceChains p = (Chain.ofSegments (segments .descendant p)).toList := by
  rw [pieceChains, splitTopLevel_of_avoids hp, List.filterMap_cons, List.filterMap_nil]
  cases Chain.ofSegments (segments .descendant p) <;> rfl

theorem pieceChains_append_comma {p : List Char} (hp : Avoids (· == ',') Lex.top p)
    (hrun : Lex.run Lex.top p = Lex.top) (s : List Char) :
    pieceChains (p ++ ',' :: s) = (Chain.ofSegments (segments .descendant p)).toList ++ pieceChains s := by
  have hsplit : splitTopLevel none 0 (p ++ ',' :: s) = p :: splitTopLevel none 0 s := by
    rw [splitTopLevel_append_of_avoids hp hrun, splitTopLevel_comma]
    simp
  rw [pieceChains, hsplit, List.filterMap_cons]
  cases Chain.ofSegments (segments .descendant p) <;> rfl

theorem ofSegments_eq_none_iff_of_avoids {p : List Char} (hp : Avoids (· == ',') Lex.top p) :
    Chain.ofSegments (segments .descendant p) = none ↔ ∀ c ∈ p, endsCompound c = true ∨ c = ',' := by
  rw [ofSegments_eq_none_iff, segments_eq_nil_iff]
  exact ⟨fun hc c hm => .inl (hc c hm), endsCompound_of_avoids hp⟩

theorem pieceChains_eq_nil_iff (s : List Char) :
    pieceChains s = [] ↔ ∀ c ∈ s, endsCompound c = true ∨ c = ',' := by
  induction s using pieces_induction with
  | last p hp => rw [pieceChains_of_avoids hp, Option.toList_eq_nil_iff, ofSegments_eq_none_iff_of_avoids hp]
  | cons p s hp hrun ih =>
    rw [pieceChains_append_comma hp hrun, List.append_eq_nil_iff, Option.toList_eq_nil_iff,
      ofSegments_eq_none_iff_of_avoids hp, ih]
    simp only [List.forall_mem_append, List.forall_mem_cons, or_true, true_and]

end Selector
end HtmlQuery
