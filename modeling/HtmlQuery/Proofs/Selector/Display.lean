import HtmlQuery.Proofs.Selector.Brackets

/-! A selector list written out reads back as the same list. -/
namespace HtmlQuery
namespace Selector
open Scan

/-! ## Stripping blanks and combinators -/

/-- The text without the blanks and combinators outside quoted runs and brackets. -/
def strip : Lex → List Char → List Char
  | _, [] => []
  | st, c :: cs => if st = Lex.top ∧ endsCompound c = true then strip st cs else c :: strip (st.next c) cs

theorem strip_cons_stop {c : Char} (h : endsCompound c = true) (cs : List Char) :
    strip Lex.top (c :: cs) = strip Lex.top cs := by
  simp [strip, h]

theorem strip_cons_keep {st : Lex} {c : Char} (h : ¬ (st = Lex.top ∧ endsCompound c = true))
    (cs : List Char) : strip st (c :: cs) = c :: strip (st.next c) cs := by
  rw [strip, if_neg h]

theorem strip_append (st : Lex) (a b : List Char) :
    strip st (a ++ b) = strip st a ++ strip (st.run a) b := by
  induction a generalizing st with
  | nil => rfl
  | cons c a ih =>
    by_cases h : st = Lex.top ∧ endsCompound c = true
    · obtain ⟨rfl, hc⟩ := h
      rw [List.cons_append, strip_cons_stop hc, strip_cons_stop hc, ih, Lex.run_cons,
        Lex.next_top_of_endsCompound hc]
    · rw [List.cons_append, strip_cons_keep h, strip_cons_keep h, ih, Lex.run_cons, List.cons_append]

theorem strip_text (k : Combinator) (Y : List Char) :
    strip Lex.top (k.text.toList ++ Y) = strip Lex.top Y := by
  cases k <;> simp [Combinator.text, strip_cons_stop, endsCompound, isMarkupBlank, Combinator.ofSymbol?]

theorem strip_compound (c : Char) (cs Y : List Char)
    (hY : strip Lex.top Y = strip Lex.top (compoundSpan (quoteAfter c) (depthAfter c 0) cs).2)
    (hnil : (compoundSpan (quoteAfter c) (depthAfter c 0) cs).2 = [] → Y = []) :
    strip Lex.top (c :: ((compoundSpan (quoteAfter c) (depthAfter c 0) cs).1 ++ Y)) =
      strip Lex.top (c :: cs) := by
  obtain ⟨-, hend⟩ := compoundSpan_stops (quoteAfter c) (depthAfter c 0) cs
  conv => rhs; rw [← compoundSpan_append (quoteAfter c) (depthAfter c 0) cs]
  rw [← List.cons_append, ← List.cons_append, strip_append, strip_append]
  rcases hend with hrest | ⟨hrun, -⟩
  · rw [hnil hrest, hrest]
  · have hrun' : Lex.run Lex.top (c :: (compoundSpan (quoteAfter c) (depthAfter c 0) cs).1) =
        Lex.top := hrun
    rw [hrun', hY]

theorem strip_renderTail (p : Combinator) (X : List Char) :
    strip Lex.top (renderTail (segments p X)) = strip Lex.top X := by
  fun_induction segments p X with
  | case1 => rfl
  | case2 _ c cs hb ih => rw [ih, strip_cons_stop (by simp [endsCompound, hb])]
  | case3 _ c cs _ k hk ih => rw [ih, strip_cons_stop (by simp [endsCompound, hk])]
  | case4 p c cs _ _ r ih =>
    rw [renderTail_cons, strip_text]
    exact strip_compound c cs _ ih fun h => by rw [h, segments_nil, renderTail_nil]

theorem strip_render (p : Combinator) (X : List Char) :
    strip Lex.top (render (segments p X)) = strip Lex.top X := by
  fun_induction segments p X with
  | case1 => rfl
  | case2 _ c cs hb ih => rw [ih, strip_cons_stop (by simp [endsCompound, hb])]
  | case3 _ c cs _ k hk ih => rw [ih, strip_cons_stop (by simp [endsCompound, hk])]
  | case4 p c cs _ _ r _ =>
    exact strip_compound c cs _ (strip_renderTail _ _) fun h => by rw [h, segments_nil, renderTail_nil]

/-! ## What stripping keeps -/

theorem strip_of_endsCompound {w : List Char} (h : ∀ c ∈ w, endsCompound c = true) :
    strip Lex.top w = [] := by
  induction w with
  | nil => rfl
  | cons c w ih =>
    rw [strip_cons_stop (h c List.mem_cons_self)]
    exact ih fun x hx => h x (List.mem_cons_of_mem _ hx)

theorem isBracket_of_endsCompound {c : Char} (h : endsCompound c = true) : isBracket c = false := by
  rw [endsCompound_iff] at h
  simp only [List.mem_cons, List.not_mem_nil, or_false] at h
  rcases h with rfl | rfl | rfl | rfl | rfl | rfl | rfl | rfl <;> decide

theorem run_strip (st : Lex) (w : List Char) : st.run (strip st w) = st.run w := by
  induction w generalizing st with
  | nil => rfl
  | cons c w ih =>
    by_cases h : st = Lex.top ∧ endsCompound c = true
    · obtain ⟨rfl, hc⟩ := h
      rw [strip_cons_stop hc, ih, Lex.run_cons, Lex.next_top_of_endsCompound hc]
    · rw [strip_cons_keep h, Lex.run_cons, Lex.run_cons, ih]

theorem avoids_strip (st : Lex) (w : List Char) :
    Avoids (· == ',') st (strip st w) ↔ Avoids (· == ',') st w := by
  induction w generalizing st with
  | nil => exact Iff.rfl
  | cons c w ih =>
    by_cases h : st = Lex.top ∧ endsCompound c = true
    · obtain ⟨rfl, hc⟩ := h
      have hcomma : c ≠ ',' := by
        rintro rfl
        exact absurd hc (by decide)
      rw [strip_cons_stop hc, ih, avoids_cons, Lex.next_top_of_endsCompound hc]
      simp [hcomma]
    · rw [strip_cons_keep h, avoids_cons, avoids_cons, ih]

/-- The brackets of a text outside quoted runs, reading from the state `st`. -/
def bracketChars : Lex → List Char → List Char
  | _, [] => []
  | st, c :: cs =>
    if st.quote = none ∧ isBracket c = true then c :: bracketChars (st.next c) cs
    else bracketChars (st.next c) cs

theorem map_fst_bracketsFrom (q : Option Char) (off d : Nat) (w : List Char) :
    (bracketsFrom q off w).map Prod.fst = bracketChars ⟨q, d⟩ w := by
  induction w generalizing q off d with
  | nil => cases q <;> rfl
  | cons c cs ih =>
    cases q with
    | some x =>
      simpa [bracketsFrom, bracketChars, Lex.next] using ih (if c = x then none else some x) _ d
    | none =>
      simp only [bracketsFrom, bracketChars, Lex.next]
      split <;> simp_all [ih (quoteAfter c) (off + c.utf8Size) (depthAfter c d)]

theorem bracketChars_append (st : Lex) (a b : List Char) :
    bracketChars st (a ++ b) = bracketChars st a ++ bracketChars (st.run a) b := by
  induction a generalizing st with
  | nil => rfl
  | cons c a ih =>
    simp only [List.cons_append, bracketChars, ih, Lex.run_cons]
    split <;> rfl

theorem bracketChars_cons_stop {c : Char} (h : endsCompound c = true) (w : List Char) :
    bracketChars Lex.top (c :: w) = bracketChars Lex.top w := by
  simp [bracketChars, isBracket_of_endsCompound h, Lex.next_top_of_endsCompound h]

theorem bracketChars_strip (st : Lex) (w : List Char) :
    bracketChars st (strip st w) = bracketChars st w := by
  induction w generalizing st with
  | nil => rfl
  | cons c w ih =>
    by_cases h : st = Lex.top ∧ endsCompound c = true
    · obtain ⟨rfl, hc⟩ := h
      rw [strip_cons_stop hc, ih, bracketChars_cons_stop hc]
    · rw [strip_cons_keep h]
      simp only [bracketChars, ih]

theorem unbalanced?_eq_none_iff (w : List Char) :
    unbalanced? [] none 0 w = none ↔ Nested (bracketChars Lex.top w) := by
  rw [unbalanced?_eq, firstUnmatched_eq_none_iff fun _ hx => isBracket_of_mem_bracketsFrom hx,
    map_fst_bracketsFrom none 0 0]
  exact Iff.rfl

/-! ## A piece written out -/

section Piece
variable {p : List Char}

theorem avoids_render (hp : Avoids (· == ',') Lex.top p) :
    Avoids (· == ',') Lex.top (render (segments .descendant p)) := by
  rw [← avoids_strip, strip_render, avoids_strip]
  exact hp

theorem run_render (p : List Char) :
    Lex.top.run (render (segments .descendant p)) = Lex.top.run p := by
  rw [← run_strip, strip_render, run_strip]

theorem bracketChars_render (p : List Char) :
    bracketChars Lex.top (render (segments .descendant p)) = bracketChars Lex.top p := by
  rw [← bracketChars_strip, strip_render, bracketChars_strip]

theorem bracketChars_of_ofSegments_eq_none (h : Chain.ofSegments (segments .descendant p) = none) :
    bracketChars Lex.top p = [] := by
  rw [← bracketChars_strip,
    strip_of_endsCompound ((segments_eq_nil_iff _ _).mp ((ofSegments_eq_none_iff _).mp h))]
  rfl

theorem pieceChains_render (hp : Avoids (· == ',') Lex.top p) :
    pieceChains (render (segments .descendant p)) = (Chain.ofSegments (segments .descendant p)).toList := by
  rw [pieceChains_of_avoids (avoids_render hp), segments_render, ofSegments_modifyHead]

end Piece

/-! ## A list written out -/

/-- Chains written out as a list writes them: joined by a comma and a blank. -/
def displayChars (cs : List Chain) : List Char :=
  [',', ' '].intercalate (cs.map fun c => c.display.toList)

theorem display_toList (L : SelectorList) : L.display.toList = displayChars L.chains := by
  simp [SelectorList.display, displayChars, Function.comp_def]

theorem displayChars_cons_cons (c c' : Chain) (cs : List Chain) :
    displayChars (c :: c' :: cs) = c.display.toList ++ ',' :: ' ' :: displayChars (c' :: cs) := by
  simp [displayChars]

theorem pieceChains_blank (s : List Char) : pieceChains (' ' :: s) = pieceChains s := by
  have hsplit := splitTopLevel_append_of_avoids
    (show Avoids (· == ',') Lex.top [' '] by simp [Lex.top]) (show Lex.top.run [' '] = Lex.top by decide) s
  rw [List.singleton_append] at hsplit
  rw [pieceChains, pieceChains, hsplit]
  cases splitTopLevel none 0 s with
  | nil => rfl
  | cons p ps =>
    rw [List.modifyHead_cons, List.filterMap_cons, List.filterMap_cons, List.singleton_append,
      segments_blank .descendant (by decide)]

theorem bracketChars_append_comma {a : List Char} (ha : Lex.top.run a = Lex.top) (b : List Char) :
    bracketChars Lex.top (a ++ ',' :: b) = bracketChars Lex.top a ++ bracketChars Lex.top b := by
  rw [bracketChars_append, ha]
  simp [bracketChars, Lex.next_top_comma, show isBracket ',' = false by decide]

theorem piece_displayChars {p : List Char} (hp : Avoids (· == ',') Lex.top p) :
    pieceChains (displayChars (Chain.ofSegments (segments .descendant p)).toList) =
        (Chain.ofSegments (segments .descendant p)).toList ∧
      bracketChars Lex.top (displayChars (Chain.ofSegments (segments .descendant p)).toList) =
        bracketChars Lex.top p := by
  cases hc : Chain.ofSegments (segments .descendant p) with
  | none => exact ⟨(pieceChains_eq_nil_iff []).mpr (by simp), (bracketChars_of_ofSegments_eq_none hc).symm⟩
  | some c =>
    have hdisp : displayChars [c] = render (segments .descendant p) := by
      simp [displayChars, display_ofSegments hc]
    rw [Option.toList_some, hdisp, pieceChains_render hp, hc, bracketChars_render]
    exact ⟨rfl, rfl⟩

theorem pieceChains_displayChars (s : List Char) :
    pieceChains (displayChars (pieceChains s)) = pieceChains s ∧
      bracketChars Lex.top (displayChars (pieceChains s)) = bracketChars Lex.top s := by
  induction s using pieces_induction with
  | last p hp =>
    rw [pieceChains_of_avoids hp]
    exact piece_displayChars hp
  | cons p s hp hrun ih =>
    rw [pieceChains_append_comma hp hrun, bracketChars_append_comma hrun]
    cases hc : Chain.ofSegments (segments .descendant p) with
    | none =>
      rw [Option.toList_none, List.nil_append, bracketChars_of_ofSegments_eq_none hc, List.nil_append]
      exact ih
    | some c =>
      have hrun' : Lex.top.run (render (segments .descendant p)) = Lex.top := by
        rw [run_render, hrun]
      have hdisp : c.display.toList = render (segments .descendant p) := display_ofSegments hc
      rw [Option.toList_some, List.singleton_append]
      cases hcs : pieceChains s with
      | nil =>
        rw [hcs] at ih
        have hrest : bracketChars Lex.top s = [] := ih.2.symm
        have hpiece := piece_displayChars hp
        rw [hc] at hpiece
        rw [hrest, List.append_nil]
        exact hpiece
      | cons c' cs =>
        rw [hcs] at ih
        rw [displayChars_cons_cons, hdisp, pieceChains_append_comma (avoids_render hp) hrun',
          segments_render, ofSegments_modifyHead, hc, pieceChains_blank, ih.1, bracketChars_append_comma hrun',
          bracketChars_render, bracketChars_cons_stop (by decide), ih.2]
        exact ⟨rfl, rfl⟩

theorem parse_eq_ok_iff {s : String} {L : SelectorList} :
    SelectorList.parse s = .ok L ↔
      unbalanced? [] none 0 s.toList = none ∧ pieceChains s.toList = L.chains ∧ L.chains ≠ [] := by
  cases hu : unbalanced? [] none 0 s.toList with
  | some x =>
    obtain ⟨d, o⟩ := x
    simp [(parse_eq_unbalanced_iff s d o).mpr hu]
  | none =>
    rw [parse_of_balanced hu]
    obtain ⟨chains⟩ := L
    by_cases hn : pieceChains s.toList = []
    · simp only [hn, if_true, reduceCtorEq, true_and, false_iff, not_and]
      exact fun h hne => hne h.symm
    · simp only [hn, if_false, Except.ok.injEq, SelectorList.mk.injEq, true_and]
      exact ⟨fun h => ⟨h, h ▸ hn⟩, And.left⟩

/-- A selector list written out reads back as the same list. -/
theorem parse_display {s : String} {L : SelectorList} (h : SelectorList.parse s = .ok L) :
    SelectorList.parse L.display = .ok L := by
  obtain ⟨hbal, hchains, hne⟩ := parse_eq_ok_iff.mp h
  obtain ⟨hread, hbrackets⟩ := pieceChains_displayChars s.toList
  rw [hchains, ← display_toList] at hread hbrackets
  have hbal' : unbalanced? [] none 0 L.display.toList = none := by
    rw [unbalanced?_eq_none_iff, hbrackets, ← unbalanced?_eq_none_iff]
    exact hbal
  exact parse_eq_ok_iff.mpr ⟨hbal', hread, hne⟩

/-- The list `ul > li[title="a, b"], p` reads back from what it writes. -/
theorem parse_display_quoted_comma :
    let L : SelectorList := ⟨[⟨Link.ofCompound "li[title=\"a, b\"]" .child, [Link.ofCompound "ul" .descendant]⟩,
      ⟨Link.ofCompound "p" .descendant, []⟩]⟩
    SelectorList.parse "ul  >li[title=\"a, b\"] ,, p" = .ok L ∧ SelectorList.parse L.display = .ok L := by
  intro L
  have hparse : SelectorList.parse "ul  >li[title=\"a, b\"] ,, p" = .ok L := by
    have h : (SelectorList.parse "ul  >li[title=\"a, b\"] ,, p").toOption = some L := by decide +kernel
    revert h
    cases SelectorList.parse "ul  >li[title=\"a, b\"] ,, p" <;> simp [Except.toOption]
  exact ⟨hparse, parse_display hparse⟩

end Selector
end HtmlQuery
