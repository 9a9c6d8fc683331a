import Mathlib.Data.Nat.Count
import HtmlQuery.Proofs.Text.CursorRuns

/-! The balanced read of an element's content. -/
namespace HtmlQuery
namespace Scan

/-- `s` starts with `tag`, followed by the end of the text, `>`, `/` or a markup blank. -/
def TagAt (tag s : List Char) : Prop :=
  ∃ r, s = tag ++ r ∧ ∀ x ∈ r.head?, x = '>' ∨ x = '/' ∨ isMarkupBlank x = true

theorem startsWithTag_iff {tag s : List Char} : startsWithTag tag s = true ↔ TagAt tag s := by
  constructor
  · intro h
    simp only [startsWithTag, Bool.and_eq_true] at h
    obtain ⟨r, rfl⟩ := List.isPrefixOf_iff_prefix.mp h.1
    refine ⟨r, rfl, fun x hx => ?_⟩
    have hend := h.2
    rw [List.drop_left] at hend
    cases r with
    | nil => cases hx
    | cons y ys =>
      obtain rfl : y = x := by simpa using hx
      simpa [or_assoc] using hend
  · rintro ⟨r, rfl, hr⟩
    simp only [startsWithTag, List.drop_left, Bool.and_eq_true]
    refine ⟨List.isPrefixOf_iff_prefix.mpr (List.prefix_append _ _), ?_⟩
    cases r with
    | nil => rfl
    | cons y ys => simpa [or_assoc] using hr y rfl

instance (tag s : List Char) : Decidable (TagAt tag s) := decidable_of_iff _ startsWithTag_iff

theorem not_tagAt_nil {a : Char} {tag : List Char} : ¬ TagAt (a :: tag) [] := by
  rintro ⟨r, hr, -⟩
  cases hr

section Balance
variable (t : List Char)

/-- Place `i` of `s` starts the closing tag `</t`. -/
def ClosesAt (s : List Char) (i : Nat) : Prop := TagAt ('<' :: '/' :: t) (s.drop i)

/-- Place `i` of `s` starts the opening tag `<t`, and no closing tag. -/
def OpensAt (s : List Char) (i : Nat) : Prop := ¬ ClosesAt t s i ∧ TagAt ('<' :: t) (s.drop i)

instance (s : List Char) : DecidablePred (ClosesAt t s) := fun _ => inferInstanceAs (Decidable (TagAt _ _))

instance (s : List Char) : DecidablePred (OpensAt t s) := fun _ => inferInstanceAs (Decidable (_ ∧ _))

/-- A closing tag at `j`, before which there are `k` more closing tags than opening ones. -/
def ClosesFrom (s : List Char) (k j : Nat) : Prop :=
  ClosesAt t s j ∧ Nat.count (ClosesAt t s) j = k + Nat.count (OpensAt t s) j

/-- The depth after the first character of `s`, from `k` before it. -/
def depthPast (s : List Char) (k : Nat) : Nat :=
  if ClosesAt t s 0 then k - 1 else if OpensAt t s 0 then k + 1 else k

/-- What the balanced scan from depth `k` gives on `s`. -/
def BalancedSplit (s : List Char) (k : Nat) : Option (List Char × List Char) → Prop
  | some r => ∃ j, r = (s.take j, s.drop j) ∧ ClosesFrom t s k j ∧ (∀ i < j, ¬ ClosesFrom t s k i) ∧
      ∀ i ≤ j, Nat.count (ClosesAt t s) i ≤ k + Nat.count (OpensAt t s) i
  | none => ∀ j, ¬ ClosesFrom t s k j

variable {t}

theorem depthPast_of_closesAt {s : List Char} {k : Nat} (h : ClosesAt t s 0) :
    depthPast t s k = k - 1 := by
  simp [depthPast, h]

theorem depthPast_of_not_closesAt {s : List Char} {k : Nat} (h : ¬ ClosesAt t s 0) :
    depthPast t s k = if startsWithTag ('<' :: t) s then k + 1 else k := by
  have ho : OpensAt t s 0 ↔ startsWithTag ('<' :: t) s = true := by
    simp [OpensAt, h, startsWithTag_iff]
  by_cases hs : startsWithTag ('<' :: t) s = true <;> simp [depthPast, h, ho, hs]

theorem count_closesAt_succ (c : Char) (cs : List Char) (i : Nat) :
    Nat.count (ClosesAt t (c :: cs)) (i + 1) =
      Nat.count (ClosesAt t cs) i + if ClosesAt t (c :: cs) 0 then 1 else 0 :=
  Nat.count_succ' _ i

theorem count_opensAt_succ (c : Char) (cs : List Char) (i : Nat) :
    Nat.count (OpensAt t (c :: cs)) (i + 1) =
      Nat.count (OpensAt t cs) i + if OpensAt t (c :: cs) 0 then 1 else 0 :=
  Nat.count_succ' _ i

theorem depthPast_add {c : Char} {cs : List Char} {k : Nat} (hk : ClosesAt t (c :: cs) 0 → k ≠ 0) :
    depthPast t (c :: cs) k + (if ClosesAt t (c :: cs) 0 then 1 else 0) =
      k + if OpensAt t (c :: cs) 0 then 1 else 0 := by
  simp only [depthPast]
  by_cases h0 : ClosesAt t (c :: cs) 0
  · have := hk h0
    simp only [h0, if_true, OpensAt, not_true, false_and, if_false]
    omega
  · by_cases ho : OpensAt t (c :: cs) 0 <;> simp only [h0, ho, if_true, if_false]

theorem closesFrom_succ {c : Char} {cs : List Char} {k : Nat} (hk : ClosesAt t (c :: cs) 0 → k ≠ 0)
    (j : Nat) : ClosesFrom t (c :: cs) k (j + 1) ↔ ClosesFrom t cs (depthPast t (c :: cs) k) j := by
  simp only [ClosesFrom, count_closesAt_succ, count_opensAt_succ]
  refine and_congr Iff.rfl ?_
  have := depthPast_add hk
  omega

theorem count_le_succ {c : Char} {cs : List Char} {k : Nat} (hk : ClosesAt t (c :: cs) 0 → k ≠ 0)
    (i : Nat) : Nat.count (ClosesAt t (c :: cs)) (i + 1) ≤ k + Nat.count (OpensAt t (c :: cs)) (i + 1) ↔
      Nat.count (ClosesAt t cs) i ≤ depthPast t (c :: cs) k + Nat.count (OpensAt t cs) i := by
  simp only [count_closesAt_succ, count_opensAt_succ]
  have := depthPast_add hk
  omega

theorem BalancedSplit.cons {c : Char} {cs : List Char} {k : Nat} {r : Option (List Char × List Char)}
    (hk : ClosesAt t (c :: cs) 0 → k ≠ 0) (h : BalancedSplit t cs (depthPast t (c :: cs) k) r) :
    BalancedSplit t (c :: cs) k (r.map fun p => (c :: p.1, p.2)) := by
  -- the place `0` is no closing tag at depth `0`, so neither a split nor a bound fails there
  have h0 : ¬ ClosesFrom t (c :: cs) k 0 := fun ⟨hc, hcount⟩ => hk hc (by simpa using hcount.symm)
  cases r with
  | none =>
    intro j
    cases j with
    | zero => exact h0
    | succ j => exact fun hj => h j ((closesFrom_succ hk j).mp hj)
  | some p =>
    obtain ⟨j, rfl, hj, hleast, hbound⟩ := h
    refine ⟨j + 1, rfl, (closesFrom_succ hk j).mpr hj, fun i hi => ?_, fun i hi => ?_⟩
    · cases i with
      | zero => exact h0
      | succ i => exact fun hi' => hleast i (by omega) ((closesFrom_succ hk i).mp hi')
    · cases i with
      | zero => simp
      | succ i => exact (count_le_succ hk i).mpr (hbound i (by omega))

theorem breakBalanced_split (k : Nat) (s : List Char) :
    BalancedSplit t s k (breakBalanced ('<' :: t) ('<' :: '/' :: t) k s) := by
  induction s generalizing k with
  | nil => exact fun j ⟨hc, _⟩ => not_tagAt_nil (by simpa [ClosesAt] using hc)
  | cons c cs ih =>
    have hcl : startsWithTag ('<' :: '/' :: t) (c :: cs) = true ↔ ClosesAt t (c :: cs) 0 :=
      startsWithTag_iff
    by_cases h0 : ClosesAt t (c :: cs) 0
    · cases k with
      | zero =>
        simp only [breakBalanced, hcl.mpr h0, if_true]
        refine ⟨0, rfl, ⟨h0, by simp⟩, fun i hi => absurd hi (Nat.not_lt_zero i), fun i hi => ?_⟩
        simp [Nat.le_zero.mp hi]
      | succ k =>
        simp only [breakBalanced, hcl.mpr h0, if_true, Nat.add_one_ne_zero, if_false,
          Nat.add_sub_cancel]
        refine BalancedSplit.cons (fun _ => Nat.add_one_ne_zero k) ?_
        rw [depthPast_of_closesAt h0, Nat.add_sub_cancel]
        exact ih k
    · have hnc : startsWithTag ('<' :: '/' :: t) (c :: cs) = false :=
        Bool.eq_false_iff.mpr fun h => h0 (hcl.mp h)
      simp only [breakBalanced, hnc, Bool.false_eq_true, if_false]
      refine BalancedSplit.cons (fun h => absurd h h0) ?_
      rw [depthPast_of_not_closesAt h0]
      exact ih _

end Balance
end Scan

namespace Cursor
open Scan

/-- The balanced read stops at the first closing tag with as many opening tags before it. -/
theorem readBalanced_first_balanced (c : Cursor) (tag : String) :
    (∃ j, ClosesFrom tag.toList c.rest 0 j ∧ (∀ i < j, ¬ ClosesFrom tag.toList c.rest 0 i) ∧
      Nat.count (OpensAt tag.toList c.rest) j = Nat.count (ClosesAt tag.toList c.rest) j ∧
      (∀ i ≤ j, Nat.count (ClosesAt tag.toList c.rest) i ≤ Nat.count (OpensAt tag.toList c.rest) i) ∧
      c.readBalanced tag = (String.ofList (c.rest.take j),
        ((c.advance (c.rest.take j, c.rest.drop j)).2.readUntil ">" true).2)) ∨
    ((∀ j, ¬ ClosesFrom tag.toList c.rest 0 j) ∧ c.readBalanced tag = ("", c)) := by
  have hsplit := breakBalanced_split (t := tag.toList) 0 c.rest
  cases h : breakBalanced ('<' :: tag.toList) ('<' :: '/' :: tag.toList) 0 c.rest with
  | none =>
    rw [h] at hsplit
    exact .inr ⟨hsplit, by simp [readBalanced, h]⟩
  | some r =>
    rw [h] at hsplit
    obtain ⟨j, rfl, hj, hleast, hbound⟩ := hsplit
    refine .inl ⟨j, hj, hleast, ?_, fun i hi => by simpa using hbound i hi, readBalanced_of_some h⟩
    simpa using hj.2.symm

example : ((ofString "<b><a></a></b></a>x").readBalanced "a").1 = "<b><a></a></b>" := by decide

end Cursor
end HtmlQuery
