import Mathlib.Data.List.Infix
import HtmlQuery.Text.Scan

/-! Characters read outside quoted runs: the run open after a text, and the texts none of whose
characters outside a quoted run is of a given kind. -/
namespace HtmlQuery
namespace Scan

/-- The quote of the run open after reading `s` from the run of `q`. -/
def runAfter : Option Char → List Char → Option Char
  | q, [] => q
  | none, c :: s => runAfter (if isQuote c then some c else none) s
  | some q, c :: s => runAfter (if c = q then none else some q) s

theorem runAfter_of_not_mem {q : Char} {s : List Char} (hs : q ∉ s) : runAfter (some q) s = some q := by
  induction s with
  | nil => rfl
  | cons c cs ih =>
    have hc : c ≠ q := fun h => hs (h ▸ List.mem_cons_self)
    simp only [runAfter, if_neg hc]
    exact ih fun h => hs (List.mem_cons_of_mem _ h)

theorem runAfter_quoted {q : Char} {body : List Char} (hb : q ∉ body) (s : List Char) :
    runAfter (some q) (body ++ q :: s) = runAfter none s := by
  induction body with
  | nil => simp [runAfter]
  | cons c cs ih =>
    have hc : c ≠ q := fun h => hb (h ▸ List.mem_cons_self)
    simp only [List.cons_append, runAfter, if_neg hc]
    exact ih fun h => hb (List.mem_cons_of_mem _ h)

theorem runAfter_of_forall {s : List Char} (h : ∀ c ∈ s, isQuote c = false) : runAfter none s = none := by
  induction s with
  | nil => rfl
  | cons c s ih =>
    simp only [runAfter, h c List.mem_cons_self, Bool.false_eq_true, if_false]
    exact ih fun x hx => h x (List.mem_cons_of_mem _ hx)

/-! ## Characters outside quoted runs -/

/-- No character of `s` read outside quoted runs, from the run of `q`, satisfies `p`. -/
def Unquoted (p : Char → Bool) : Option Char → List Char → Prop
  | _, [] => True
  | none, c :: s => p c = false ∧ Unquoted p (if isQuote c then some c else none) s
  | some q, c :: s => Unquoted p (if c = q then none else some q) s

section Unquoted

variable {p : Char → Bool}

theorem unquoted_append {q : Option Char} {s t : List Char} :
    Unquoted p q (s ++ t) ↔ Unquoted p q s ∧ Unquoted p (runAfter q s) t := by
  induction s generalizing q with
  | nil => simp [Unquoted, runAfter]
  | cons c s ih => cases q <;> simp [Unquoted, runAfter, ih, and_assoc]

theorem Unquoted.of_isPrefix {q : Option Char} {s t : List Char} (hst : s <+: t) (h : Unquoted p q t) :
    Unquoted p q s := by
  obtain ⟨u, rfl⟩ := hst
  exact (unquoted_append.mp h).1

theorem Unquoted.imp {p' : Char → Bool} (hp : ∀ c, p' c = true → p c = true) {q : Option Char}
    {s : List Char} (h : Unquoted p q s) : Unquoted p' q s := by
  induction s generalizing q with
  | nil => cases q <;> trivial
  | cons c s ih =>
    cases q with
    | none =>
      refine ⟨?_, ih h.2⟩
      cases hc : p' c
      · rfl
      · have h1 : p c = false := h.1
        rw [hp c hc] at h1
        cases h1
    | some q => exact ih h

theorem Unquoted.or {p' : Char → Bool} {q : Option Char} {s : List Char} (h : Unquoted p q s)
    (h' : Unquoted p' q s) : Unquoted (fun c => p c || p' c) q s := by
  induction s generalizing q with
  | nil => cases q <;> trivial
  | cons c s ih =>
    cases q with
    | none => exact ⟨by simp [h.1, h'.1], ih h.2 h'.2⟩
    | some q => exact ih h h'

/-- In a text without quotes, every character is read outside quoted runs. -/
theorem Unquoted.forall_of_quoteFree {s : List Char} (h : Unquoted p none s)
    (hs : ∀ c ∈ s, isQuote c = false) : ∀ c ∈ s, p c = false := by
  induction s with
  | nil => simp
  | cons c s ih =>
    have hc := hs c List.mem_cons_self
    simp only [Unquoted, hc, Bool.false_eq_true, if_false] at h
    intro x hx
    rcases List.mem_cons.mp hx with rfl | hx
    · exact h.1
    · exact ih h.2 (fun y hy => hs y (List.mem_cons_of_mem _ hy)) x hx

theorem unquoted_of_forall {s : List Char} (h : ∀ c ∈ s, p c = false ∧ isQuote c = false) :
    Unquoted p none s := by
  induction s with
  | nil => trivial
  | cons c s ih =>
    have hc := h c List.mem_cons_self
    simp only [Unquoted, hc.2, Bool.false_eq_true, if_false]
    exact ⟨hc.1, ih fun x hx => h x (List.mem_cons_of_mem _ hx)⟩

end Unquoted

/-! ## Scanning for one character outside quoted runs -/

section Scanning

variable {l : Char}

/-- What the scan passes over holds no `l` outside quoted runs. -/
theorem unquoted_breakOutsideQuotes (q : Option Char) (s : List Char) :
    Unquoted (· == l) q (breakOutsideQuotes [l] q s).1 := by
  induction s generalizing q with
  | nil => cases q <;> trivial
  | cons c s ih =>
    cases q with
    | none =>
      simp only [breakOutsideQuotes]
      split
      · trivial
      · next h =>
        simp only [List.isPrefixOf, Bool.and_true, beq_iff_eq] at h
        exact ⟨beq_eq_false_iff_ne.mpr (Ne.symm h), ih _⟩
    | some q => exact ih _

/-- The scan stops either at the end or before an `l` outside quoted runs. -/
theorem breakOutsideQuotes_stop (q : Option Char) (s : List Char) :
    (breakOutsideQuotes [l] q s).2 = [] ∨
      (∃ r, (breakOutsideQuotes [l] q s).2 = l :: r) ∧ runAfter q (breakOutsideQuotes [l] q s).1 = none := by
  induction s generalizing q with
  | nil => cases q <;> exact .inl rfl
  | cons c s ih =>
    cases q with
    | none =>
      simp only [breakOutsideQuotes]
      split
      · next h =>
        simp only [List.isPrefixOf, Bool.and_true, beq_iff_eq] at h
        exact .inr ⟨⟨s, by rw [h]⟩, rfl⟩
      · exact ih _
    | some q => exact ih _

/-- The scan passes over a text with no `l` outside quoted runs. -/
theorem breakOutsideQuotes_of_unquoted {q : Option Char} {s : List Char} (h : Unquoted (· == l) q s)
    (t : List Char) :
    breakOutsideQuotes [l] q (s ++ t) = (breakOutsideQuotes [l] (runAfter q s) t).map (s ++ ·) id := by
  induction s generalizing q with
  | nil => simp [runAfter, Prod.map]
  | cons c s ih =>
    cases q with
    | none =>
      have hc : c ≠ l := by simpa using h.1
      have hpre : [l].isPrefixOf (c :: (s ++ t)) = false := by simp [List.isPrefixOf, Ne.symm hc]
      simp only [List.cons_append, breakOutsideQuotes, hpre, Bool.false_eq_true, if_false, runAfter]
      rw [ih h.2]
      simp [Prod.map]
    | some q =>
      simp only [List.cons_append, breakOutsideQuotes, runAfter]
      rw [ih h]
      simp [Prod.map]

end Scanning

end Scan
end HtmlQuery
