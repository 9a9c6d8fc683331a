import HtmlQuery.Proofs.Selector.Scanning

/-! Which selector texts the reader refuses, and why: brackets that do not nest outside quoted runs,
or no chain at all. -/
namespace HtmlQuery
namespace Selector
open Scan

def isBracket (c : Char) : Bool := isOpening c || (openingOf? c).isSome

/-- The brackets of a text outside quoted runs, with their byte offsets. -/
def bracketsFrom : Option Char → Nat → List Char → List (Char × Nat)
  | _, _, [] => []
  | some q, off, c :: cs => bracketsFrom (if c = q then none else some q) (off + c.utf8Size) cs
  | none, off, c :: cs =>
    if isBracket c then (c, off) :: bracketsFrom (quoteAfter c) (off + c.utf8Size) cs
    else bracketsFrom (quoteAfter c) (off + c.utf8Size) cs

def brackets (s : List Char) : List (Char × Nat) := bracketsFrom none 0 s

/-- Brackets that nest. -/
inductive Nested : List Char → Prop
  | nil : Nested []
  | wrap {o c : Char} {u w : List Char} : openingOf? c = some o → Nested u → Nested w →
      Nested (o :: u ++ c :: w)

/-- The brackets `pre` break no nesting and leave `stk` open, innermost first. -/
inductive OpenAt : List (Char × Nat) → List (Char × Nat) → Prop
  | nested {u : List (Char × Nat)} : Nested (u.map Prod.fst) → OpenAt u []
  | push {pre stk u : List (Char × Nat)} {o : Char × Nat} : OpenAt pre stk → isOpening o.1 = true →
      Nested (u.map Prod.fst) → OpenAt (pre ++ o :: u) (o :: stk)

/-- A closing bracket that closes nothing, or not the innermost of the openers `stk`. -/
def Mismatches (x : Char × Nat) (stk : List (Char × Nat)) : Prop :=
  (openingOf? x.1).isSome = true ∧ stk.head?.map Prod.fst ≠ openingOf? x.1

/-- The bracket `x` is the one that breaks the nesting of `bs`. -/
def BreaksNesting (bs : List (Char × Nat)) (x : Char × Nat) : Prop :=
  (∃ pre post stk, bs = pre ++ x :: post ∧ OpenAt pre stk ∧ Mismatches x stk) ∨
    ∃ stk, OpenAt bs (x :: stk)

/-- The stack machine of the bracket check over brackets alone. -/
def firstUnmatched : List (Char × Nat) → List (Char × Nat) → Option (Char × Nat)
  | stk, [] => stk.head?
  | stk, (c, off) :: bs =>
    if isOpening c then firstUnmatched ((c, off) :: stk) bs
    else match openingOf? c, stk with
      | some o, (top, _) :: below => if top = o then firstUnmatched below bs else some (c, off)
      | some _, [] => some (c, off)
      | none, _ => firstUnmatched stk bs

/-! ## Characters -/

theorem isOpening_of_openingOf? {c o : Char} (h : openingOf? c = some o) :
    isOpening o = true ∧ isOpening c = false := by
  unfold openingOf? at h
  split at h <;> simp at h <;> subst h <;> decide

theorem isBracket_of_quote {c : Char} (h : isQuote c = true) :
    isOpening c = false ∧ openingOf? c = none := by
  simp only [isQuote, Bool.or_eq_true, beq_iff_eq] at h
  rcases h with rfl | rfl <;> decide

theorem endsCompound_or_comma_iff {c : Char} : endsCompound c = true ∨ c = ',' ↔
    isMarkupBlank c = true ∨ c ∈ [',', '>', '+', '~'] := by
  rw [endsCompound_iff]
  simp only [isMarkupBlank, Bool.or_eq_true, beq_iff_eq, List.mem_cons, List.not_mem_nil, or_false]
  grind

/-! ## The check reads the brackets -/

theorem unbalanced?_eq (stk : List (Char × Nat)) (q : Option Char) (off : Nat) (s : List Char) :
    unbalanced? stk q off s = firstUnmatched stk (bracketsFrom q off s) := by
  induction s generalizing stk q off with
  | nil => cases q <;> rfl
  | cons c cs ih =>
    cases q with
    | some x => simp only [unbalanced?, bracketsFrom, ih]
    | none =>
      by_cases hq : isQuote c = true
      · obtain ⟨ho, hc⟩ := isBracket_of_quote hq
        simp [unbalanced?, bracketsFrom, isBracket, hq, ho, hc, quoteAfter, ih]
      · have hqa : quoteAfter c = none := by simp [quoteAfter, hq]
        by_cases ho : isOpening c = true
        · simp [unbalanced?, bracketsFrom, isBracket, hq, ho, hqa, firstUnmatched, ih]
        · cases hc : openingOf? c with
          | none => simp [unbalanced?, bracketsFrom, isBracket, hq, ho, hc, hqa, ih]
          | some o =>
            cases stk with
            | nil => simp [unbalanced?, bracketsFrom, isBracket, hq, ho, hc, hqa, firstUnmatched]
            | cons top below =>
              simp [unbalanced?, bracketsFrom, isBracket, hq, ho, hc, hqa, firstUnmatched, ih]

theorem isBracket_of_mem_bracketsFrom {q : Option Char} {off : Nat} {s : List Char}
    {x : Char × Nat} (h : x ∈ bracketsFrom q off s) : isBracket x.1 = true := by
  induction s generalizing q off with
  | nil => cases q <;> simp [bracketsFrom] at h
  | cons c cs ih =>
    cases q with
    | some y => exact ih h
    | none =>
      simp only [bracketsFrom] at h
      split at h
      · next hb =>
        rcases List.mem_cons.mp h with rfl | h
        · exact hb
        · exact ih h
      · exact ih h

theorem mem_bracketsFrom {q : Option Char} {off : Nat} {s : List Char} {d : Char} {o : Nat}
    (h : (d, o) ∈ bracketsFrom q off s) : ∃ pre post, s = pre ++ d :: post ∧ off + byteSize pre = o := by
  induction s generalizing q off with
  | nil => cases q <;> simp [bracketsFrom] at h
  | cons c cs ih =>
    have hnext : ∀ q', (d, o) ∈ bracketsFrom q' (off + c.utf8Size) cs →
        ∃ pre post, c :: cs = pre ++ d :: post ∧ off + byteSize pre = o := fun q' h' => by
      obtain ⟨pre, post, rfl, hoff⟩ := ih h'
      exact ⟨c :: pre, post, rfl, by rw [byteSize_cons, ← hoff]; omega⟩
    cases q with
    | some y => exact hnext _ h
    | none =>
      simp only [bracketsFrom] at h
      split at h
      · rcases List.mem_cons.mp h with he | h
        · obtain ⟨rfl, rfl⟩ := Prod.mk.inj he
          exact ⟨[], cs, rfl, by simp⟩
        · exact hnext _ h
      · exact hnext _ h

/-! ## Nesting -/

theorem Nested.append {a b : List Char} (ha : Nested a) (hb : Nested b) : Nested (a ++ b) := by
  induction ha with
  | nil => exact hb
  | wrap hoc hu _ _ ihw => simpa using Nested.wrap hoc hu ihw

@[simp] theorem firstUnmatched_nil (stk : List (Char × Nat)) : firstUnmatched stk [] = stk.head? := by
  simp [firstUnmatched]

theorem firstUnmatched_open {stk bs : List (Char × Nat)} {x : Char × Nat} (h : isOpening x.1 = true) :
    firstUnmatched stk (x :: bs) = firstUnmatched (x :: stk) bs := by
  simp [firstUnmatched, h]

theorem firstUnmatched_close {stk bs : List (Char × Nat)} {top y : Char × Nat}
    (h : openingOf? y.1 = some top.1) : firstUnmatched (top :: stk) (y :: bs) = firstUnmatched stk bs := by
  simp [firstUnmatched, h, (isOpening_of_openingOf? h).2]

theorem firstUnmatched_nested {l : List Char} (hl : Nested l) :
    ∀ {u : List (Char × Nat)}, u.map Prod.fst = l → ∀ stk r,
      firstUnmatched stk (u ++ r) = firstUnmatched stk r := by
  induction hl with
  | nil =>
    intro u hu stk r
    rw [List.map_eq_nil_iff.mp hu, List.nil_append]
  | @wrap o c u' w' hoc _ _ ihu ihw =>
    intro u hu stk r
    obtain ⟨x, u₁, rfl, hx, hu₁⟩ := List.map_eq_cons_iff.mp hu
    obtain ⟨v, w, rfl, hv, hw⟩ := List.map_eq_append_iff.mp hu₁
    obtain ⟨y, w₁, rfl, hy, hw₁⟩ := List.map_eq_cons_iff.mp hw
    have ho : isOpening x.1 = true := hx ▸ (isOpening_of_openingOf? hoc).1
    have hyx : openingOf? y.1 = some x.1 := by rw [hx, hy]; exact hoc
    rw [List.cons_append, firstUnmatched_open ho, List.append_assoc, ihu hv, List.cons_append,
      firstUnmatched_close hyx, ihw hw₁]

theorem OpenAt.firstUnmatched {pre stk : List (Char × Nat)} (h : OpenAt pre stk) (r : List (Char × Nat)) :
    firstUnmatched [] (pre ++ r) = firstUnmatched stk r := by
  induction h generalizing r with
  | nested hu => exact firstUnmatched_nested hu rfl [] r
  | push _ ho hu ih =>
    rw [List.append_assoc, ih, List.cons_append, firstUnmatched_open ho, firstUnmatched_nested hu rfl]

theorem OpenAt.append_nested {pre stk w : List (Char × Nat)} (h : OpenAt pre stk)
    (hw : Nested (w.map Prod.fst)) : OpenAt (pre ++ w) stk := by
  cases h with
  | nested hu => exact .nested (by rw [List.map_append]; exact hu.append hw)
  | push hpre ho hu =>
    rw [List.append_assoc, List.cons_append]
    exact .push hpre ho (by rw [List.map_append]; exact hu.append hw)

theorem firstUnmatched_mismatches {x : Char × Nat} {stk : List (Char × Nat)} (h : Mismatches x stk)
    (post : List (Char × Nat)) : firstUnmatched stk (x :: post) = some x := by
  obtain ⟨c, off⟩ := x
  obtain ⟨hsome, hne⟩ := h
  obtain ⟨o, ho⟩ := Option.isSome_iff_exists.mp hsome
  have hc := (isOpening_of_openingOf? ho).2
  cases stk with
  | nil => simp [firstUnmatched, hc, ho]
  | cons top below =>
    have htop : top.1 ≠ o := fun he => hne (by simp [he, ho])
    simp [firstUnmatched, hc, ho, htop]

theorem openAt_or_mismatches (bs : List (Char × Nat)) (hb : ∀ x ∈ bs, isBracket x.1 = true) :
    ∀ {pre stk}, OpenAt pre stk → (∃ stk', OpenAt (pre ++ bs) stk') ∨
      ∃ pre' x post stk', pre ++ bs = pre' ++ x :: post ∧ OpenAt pre' stk' ∧ Mismatches x stk' := by
  induction bs with
  | nil => exact fun h => .inl ⟨_, by simpa using h⟩
  | cons x bs ih =>
    intro pre stk hstk
    have ih' := @ih fun y hy => hb y (List.mem_cons_of_mem _ hy)
    have hshift : pre ++ x :: bs = (pre ++ [x]) ++ bs := by simp
    by_cases ho : isOpening x.1 = true
    · rw [hshift]
      exact ih' (by simpa using OpenAt.push hstk ho (show Nested (([] : List (Char × Nat)).map Prod.fst) from .nil))
    · have hx := hb x List.mem_cons_self
      simp only [isBracket, Bool.or_eq_true, Bool.not_eq_true] at ho hx
      simp only [ho, Bool.false_eq_true, false_or] at hx
      obtain ⟨o, hoc⟩ := Option.isSome_iff_exists.mp hx
      by_cases hm : stk.head?.map Prod.fst = some o
      · -- `x` closes the innermost opener: the stretch from that opener on nests
        obtain ⟨t, stk', rfl⟩ : ∃ t stk', stk = t :: stk' := by
          cases stk with
          | nil => simp at hm
          | cons t stk' => exact ⟨t, stk', rfl⟩
        simp only [List.head?_cons, Option.map_some, Option.some.injEq] at hm
        cases hstk with
        | @push pre₀ _ u _ hpre _ hu =>
          have hw : Nested ((t :: u ++ [x]).map Prod.fst) := by
            simpa [hm] using Nested.wrap hoc hu .nil
          rw [hshift]
          exact ih' (by simpa using hpre.append_nested hw)
      · exact .inr ⟨pre, x, bs, stk, rfl, hstk, by simp [hoc], by rwa [hoc]⟩

theorem openAt_or_mismatches_of_nil (bs : List (Char × Nat)) (hb : ∀ x ∈ bs, isBracket x.1 = true) :
    (∃ stk, OpenAt bs stk) ∨ ∃ pre x post stk, bs = pre ++ x :: post ∧ OpenAt pre stk ∧ Mismatches x stk := by
  simpa using openAt_or_mismatches bs hb (show OpenAt [] [] from .nested .nil)

theorem BreaksNesting.mem {bs : List (Char × Nat)} {x : Char × Nat} (h : BreaksNesting bs x) :
    x ∈ bs := by
  rcases h with ⟨pre, post, stk, rfl, -, -⟩ | ⟨stk, hstk⟩
  · simp
  · cases hstk with
    | push => simp

theorem firstUnmatched_eq_some_iff {bs : List (Char × Nat)} (hb : ∀ x ∈ bs, isBracket x.1 = true)
    (x : Char × Nat) : firstUnmatched [] bs = some x ↔ BreaksNesting bs x := by
  constructor
  · intro h
    rcases openAt_or_mismatches_of_nil bs hb with ⟨stk, hstk⟩ | ⟨pre, y, post, stk, rfl, hpre, hy⟩
    · have hend := hstk.firstUnmatched []
      rw [List.append_nil, h, firstUnmatched_nil] at hend
      cases stk with
      | nil => cases hend
      | cons t stk =>
        cases hend
        exact .inr ⟨stk, hstk⟩
    · rw [hpre.firstUnmatched, firstUnmatched_mismatches hy] at h
      cases h
      exact .inl ⟨pre, post, stk, rfl, hpre, hy⟩
  · rintro (⟨pre, post, stk, rfl, hpre, hx⟩ | ⟨stk, hstk⟩)
    · rw [hpre.firstUnmatched, firstUnmatched_mismatches hx]
    · simpa using hstk.firstUnmatched []

theorem firstUnmatched_eq_none_iff {bs : List (Char × Nat)} (hb : ∀ x ∈ bs, isBracket x.1 = true) :
    firstUnmatched [] bs = none ↔ Nested (bs.map Prod.fst) := by
  constructor
  · intro h
    rcases openAt_or_mismatches_of_nil bs hb with ⟨stk, hstk⟩ | ⟨pre, y, post, stk, rfl, hpre, hy⟩
    · have hend := hstk.firstUnmatched []
      rw [List.append_nil, h, firstUnmatched_nil] at hend
      cases stk with
      | nil =>
        cases hstk with
        | nested hu => exact hu
      | cons t stk => cases hend
    · rw [hpre.firstUnmatched, firstUnmatched_mismatches hy] at h
      cases h
  · intro h
    simpa using (OpenAt.nested h).firstUnmatched []

/-! ## What the reader refuses -/

theorem parse_eq_unbalanced_iff (s : String) (d : Char) (o : Nat) :
    SelectorList.parse s = .error (.unbalanced d o) ↔ unbalanced? [] none 0 s.toList = some (d, o) := by
  unfold SelectorList.parse
  split
  · next d' o' h => simp [h]
  · next h =>
    simp only [h, reduceCtorEq, iff_false]
    split <;> simp

theorem parse_of_balanced {s : String} (h : unbalanced? [] none 0 s.toList = none) :
    SelectorList.parse s =
      if pieceChains s.toList = [] then .error .empty else .ok ⟨pieceChains s.toList⟩ := by
  unfold SelectorList.parse
  rw [h]
  dsimp only
  split <;> simp_all [pieceChains]

/-- A selector text is refused exactly when its brackets do not nest, for the bracket that breaks
the nesting, or when it is all blanks, combinators and commas. -/
theorem parse_refuses_exactly (s : String) :
    (∀ d o, SelectorList.parse s = .error (.unbalanced d o) ↔ BreaksNesting (brackets s.toList) (d, o)) ∧
    ((∃ d o, SelectorList.parse s = .error (.unbalanced d o)) ↔
      ¬ Nested ((brackets s.toList).map Prod.fst)) ∧
    (∀ d o, SelectorList.parse s = .error (.unbalanced d o) →
      ∃ pre post, s.toList = pre ++ d :: post ∧ byteSize pre = o) ∧
    (Nested ((brackets s.toList).map Prod.fst) →
      (SelectorList.parse s = .error .empty ↔
        ∀ c ∈ s.toList, isMarkupBlank c = true ∨ c ∈ [',', '>', '+', '~'])) ∧
    (Nested ((brackets s.toList).map Prod.fst) →
      (∃ c ∈ s.toList, ¬ (isMarkupBlank c = true ∨ c ∈ [',', '>', '+', '~'])) →
      ∃ l, SelectorList.parse s = .ok l ∧ l.chains ≠ []) := by
  have hb : ∀ x ∈ brackets s.toList, isBracket x.1 = true := fun _ hx =>
    isBracket_of_mem_bracketsFrom hx
  have hbreak : ∀ d o, SelectorList.parse s = .error (.unbalanced d o) ↔
      BreaksNesting (brackets s.toList) (d, o) := fun d o => by
    rw [parse_eq_unbalanced_iff, unbalanced?_eq, ← firstUnmatched_eq_some_iff hb]
    rfl
  have hpass : Nested ((brackets s.toList).map Prod.fst) → unbalanced? [] none 0 s.toList = none :=
    fun h => by rw [unbalanced?_eq]; exact (firstUnmatched_eq_none_iff hb).mpr h
  refine ⟨hbreak, ?_, fun d o h => ?_, fun h => ?_, fun h hc => ?_⟩
  · constructor
    · rintro ⟨d, o, h⟩ hn
      rw [parse_eq_unbalanced_iff, hpass hn] at h
      cases h
    · intro hn
      have hsome : firstUnmatched [] (brackets s.toList) ≠ none :=
        fun h => hn ((firstUnmatched_eq_none_iff hb).mp h)
      obtain ⟨⟨d, o⟩, hdo⟩ := Option.ne_none_iff_exists'.mp hsome
      exact ⟨d, o, by rw [parse_eq_unbalanced_iff, unbalanced?_eq]; exact hdo⟩
  · obtain ⟨pre, post, he, hoff⟩ := mem_bracketsFrom ((hbreak d o).mp h).mem
    exact ⟨pre, post, he, by simpa using hoff⟩
  · rw [parse_of_balanced (hpass h),
      ← forall_congr' fun c => imp_congr_right fun _ => endsCompound_or_comma_iff,
      ← pieceChains_eq_nil_iff]
    by_cases hn : pieceChains s.toList = [] <;> simp [hn]
  · have hne : pieceChains s.toList ≠ [] := fun hnil => by
      obtain ⟨c, hcm, hcn⟩ := hc
      exact hcn (endsCompound_or_comma_iff.mp ((pieceChains_eq_nil_iff _).mp hnil c hcm))
    rw [parse_of_balanced (hpass h), if_neg hne]
    exact ⟨_, rfl, hne⟩

end Selector
end HtmlQuery
