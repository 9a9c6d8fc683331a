import HtmlQuery.Proofs.Selector.Compound
import HtmlQuery.Text.Cursor
import HtmlQuery.Proofs.Text.QuoteRuns

/-! Reading up to a literal outside quoted runs. -/
namespace HtmlQuery
namespace Scan
open Selector

def OccursOutside (lit a b : List Char) : Prop := QuotesClosed (fun _ => False) a ∧ lit <+: b

/-- `a ++ b` splits before the first place where `lit` occurs outside quoted runs. -/
structure FirstOutside (lit a b : List Char) : Prop where
  none_before : ∀ a₁ a₂, a = a₁ ++ a₂ → a₂ ≠ [] → ¬ OccursOutside lit a₁ (a₂ ++ b)
  found_or_all : OccursOutside lit a b ∨ (b = [] ∧ ¬ OccursOutside lit a [])

/-! ## The run open after a text -/

theorem exists_first_split {q : Char} {s : List Char} (hq : q ∈ s) :
    ∃ body rest, s = body ++ q :: rest ∧ q ∉ body := by
  induction s with
  | nil => cases hq
  | cons c cs ih =>
    by_cases hc : c = q
    · exact ⟨[], cs, by rw [hc]; rfl, List.not_mem_nil⟩
    · obtain ⟨body, rest, rfl, hb⟩ := ih ((List.mem_cons.mp hq).resolve_left (Ne.symm hc))
      exact ⟨c :: body, rest, rfl, by simp [Ne.symm hc, hb]⟩

theorem quotesClosed_iff_runAfter (s : List Char) :
    QuotesClosed (fun _ => False) s ↔ runAfter none s = none := by
  constructor
  · intro h
    induction h with
    | nil => rfl
    | plain _ hq _ ih => simpa [runAfter, hq] using ih
    | quoted hq hb _ ih => simpa [runAfter, hq, runAfter_quoted hb] using ih
  · intro h
    induction hs : s.length using Nat.strongRecOn generalizing s with
    | _ n ih =>
      cases s with
      | nil => exact .nil
      | cons c cs =>
        by_cases hq : isQuote c = true
        · -- the run of `c` closes at the next `c`: a run left open would stay open to the end
          simp only [runAfter, hq, if_true] at h
          by_cases hmem : c ∈ cs
          · obtain ⟨body, rest, rfl, hb⟩ := exists_first_split hmem
            rw [runAfter_quoted hb] at h
            refine .quoted hq hb (ih rest.length ?_ rest h rfl)
            simp only [← hs, List.length_cons, List.length_append]
            omega
          · rw [runAfter_of_not_mem hmem] at h
            cases h
        · simp only [runAfter, hq, Bool.false_eq_true, if_false] at h
          exact .plain (fun h => h) (Bool.eq_false_iff.mpr hq) (ih cs.length (by simp [← hs]) cs h rfl)

/-! ## The scan -/

theorem breakOutsideQuotes_runs (lit : List Char) (q : Option Char) (s : List Char) :
    let r := breakOutsideQuotes lit q s
    (∀ a₁ a₂, r.1 = a₁ ++ a₂ → a₂ ≠ [] → ¬ (runAfter q a₁ = none ∧ lit <+: a₂ ++ r.2)) ∧
      ((runAfter q r.1 = none ∧ lit <+: r.2) ∨ (r.2 = [] ∧ ¬ (runAfter q r.1 = none ∧ lit <+: []))) := by
  induction s generalizing q with
  | nil =>
    refine ⟨fun a₁ a₂ h ha₂ => ?_, ?_⟩
    · cases q <;> simp_all [breakOutsideQuotes]
    · cases q <;> cases lit <;> simp [breakOutsideQuotes, runAfter]
  | cons c cs ih =>
    cases q with
    | none =>
      by_cases hp : lit.isPrefixOf (c :: cs) = true
      · simp only [breakOutsideQuotes, hp, if_true]
        refine ⟨fun a₁ a₂ h ha₂ => absurd (List.append_eq_nil_iff.mp h.symm).2 ha₂, .inl ⟨rfl, ?_⟩⟩
        exact List.isPrefixOf_iff_prefix.mp hp
      · simp only [breakOutsideQuotes, hp, Bool.false_eq_true, if_false]
        obtain ⟨ihb, ihf⟩ := ih (if isQuote c then some c else none)
        refine ⟨fun a₁ a₂ h ha₂ => ?_, by simpa [runAfter] using ihf⟩
        cases a₁ with
        | nil =>
          rintro ⟨-, hl⟩
          rw [List.nil_append] at h
          rw [← h, List.cons_append, breakOutsideQuotes_append] at hl
          exact hp (List.isPrefixOf_iff_prefix.mpr hl)
        | cons x a₁ =>
          simp only [List.cons_append, List.cons.injEq] at h
          obtain ⟨rfl, h⟩ := h
          simpa [runAfter] using ihb a₁ a₂ h ha₂
    | some q =>
      simp only [breakOutsideQuotes]
      obtain ⟨ihb, ihf⟩ := ih (if c = q then none else some q)
      refine ⟨fun a₁ a₂ h ha₂ => ?_, by simpa [runAfter] using ihf⟩
      cases a₁ with
      | nil => simp [runAfter]
      | cons x a₁ =>
        simp only [List.cons_append, List.cons.injEq] at h
        obtain ⟨rfl, h⟩ := h
        simpa [runAfter] using ihb a₁ a₂ h ha₂

theorem breakOutsideQuotes_first (lit s : List Char) :
    FirstOutside lit (breakOutsideQuotes lit none s).1 (breakOutsideQuotes lit none s).2 := by
  obtain ⟨hb, hf⟩ := breakOutsideQuotes_runs lit none s
  refine ⟨fun a₁ a₂ h ha₂ => ?_, ?_⟩
  · rw [OccursOutside, quotesClosed_iff_runAfter]
    exact hb a₁ a₂ h ha₂
  · simpa only [OccursOutside, quotesClosed_iff_runAfter] using hf

theorem breakOutsideQuotes_eq_breakAt {lit s : List Char}
    (h : ∀ a q b, s = a ++ q :: b → isQuote q = true → ∃ a₁ a₂, a = a₁ ++ a₂ ∧ lit <+: a₂ ++ q :: b) :
    breakOutsideQuotes lit none s = breakAt lit s := by
  induction s with
  | nil => rfl
  | cons c cs ih =>
    by_cases hp : lit.isPrefixOf (c :: cs) = true
    · simp [breakOutsideQuotes, breakAt, hp]
    · have hq : isQuote c = false := by
        refine Bool.eq_false_iff.mpr fun hq => hp ?_
        obtain ⟨a₁, a₂, ha, hl⟩ := h [] c cs rfl hq
        obtain ⟨rfl, rfl⟩ := List.append_eq_nil_iff.mp ha.symm
        exact List.isPrefixOf_iff_prefix.mpr hl
      have hcs : ∀ a q b, cs = a ++ q :: b → isQuote q = true →
          ∃ a₁ a₂, a = a₁ ++ a₂ ∧ lit <+: a₂ ++ q :: b := by
        intro a q b hs hq'
        obtain ⟨a₁, a₂, ha, hl⟩ := h (c :: a) q b (by rw [hs]; rfl) hq'
        cases a₁ with
        | nil =>
          rw [List.nil_append] at ha
          rw [← ha, List.cons_append, ← hs] at hl
          exact absurd (List.isPrefixOf_iff_prefix.mpr hl) hp
        | cons x a₁ =>
          simp only [List.cons_append, List.cons.injEq] at ha
          exact ⟨a₁, a₂, ha.2, hl⟩
      simp only [breakOutsideQuotes, breakAt, hp, hq, Bool.false_eq_true, if_false, ih hcs]

end Scan

namespace Cursor
open Scan Selector

/-- Reading up to a literal outside quoted runs reads up to its first such occurrence. -/
theorem readUntil_first_outside (c : Cursor) (lit : String) (inclusive : Bool) :
    (∃ a b, c.rest = a ++ b ∧ FirstOutside lit.toList a b ∧
      c.readUntil lit inclusive = c.advance
        (if inclusive = true ∧ lit.toList <+: b then (a ++ lit.toList, b.drop lit.toList.length)
          else (a, b))) ∧
    ((∀ a q b, c.rest = a ++ q :: b → isQuote q = true →
        ∃ a₁ a₂, a = a₁ ++ a₂ ∧ lit.toList <+: a₂ ++ q :: b) →
      c.readUntil lit inclusive = c.readUntilLiteral lit inclusive) := by
  refine ⟨⟨_, _, (breakOutsideQuotes_append _ _ _).symm, breakOutsideQuotes_first _ _, ?_⟩, ?_⟩
  · simp only [readUntil, takeLiteral]
    cases inclusive <;> by_cases hl : lit.toList = [] <;> simp [hl, List.isPrefixOf_iff_prefix]
  · intro h
    simp only [readUntil, readUntilLiteral, breakOutsideQuotes_eq_breakAt h]

example : ((ofString "title='x>y'>z").readUntil ">" true).1 = "title='x>y'>" := by decide

end Cursor
end HtmlQuery
