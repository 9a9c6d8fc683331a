import HtmlQuery.Selector.Condition

/-! The class and id shortcuts beside the attribute selectors they abbreviate. -/
namespace HtmlQuery
open Scan

namespace Blank

variable {α : Type} {p q : α → Bool}

theorem flatMap_splitOnP_of_imp (hqp : ∀ c, q c = true → p c = true) (l : List α) :
    (l.splitOnP q).flatMap (·.splitOnP p) = l.splitOnP p := by
  induction l with
  | nil => simp
  | cons c cs ih =>
    rw [List.splitOnP_cons_eq_if_modifyHead c cs, List.splitOnP_cons_eq_if_modifyHead c cs]
    by_cases hq : q c = true
    · rw [if_pos hq, if_pos (hqp c hq), List.flatMap_cons, ih]
      simp
    · -- `c` joins the first piece of the split of the rest, and of its finer split
      obtain ⟨w, ws, hw⟩ := List.exists_cons_of_ne_nil (List.splitOnP_ne_nil q cs)
      rw [hw, List.flatMap_cons] at ih
      obtain ⟨u, us, hu⟩ := List.exists_cons_of_ne_nil (List.splitOnP_ne_nil p w)
      rw [if_neg hq, hw, List.modifyHead_cons, List.flatMap_cons,
        List.splitOnP_cons_eq_if_modifyHead c w, ← ih, hu]
      by_cases hp : p c = true <;> simp [hp]

theorem splitOnP_congr {l : List α} (h : ∀ c ∈ l, p c = q c) : l.splitOnP p = l.splitOnP q := by
  induction l with
  | nil => simp
  | cons c cs ih =>
    rw [List.splitOnP_cons_eq_if_modifyHead, List.splitOnP_cons_eq_if_modifyHead,
      h c List.mem_cons_self, ih fun d hd => h d (List.mem_cons_of_mem _ hd)]

theorem mem_words_of_mem_splitOnP {v w : List Char} (hne : w ≠ [])
    (hws : ∀ c ∈ w, isWhiteSpace c = false) (hw : w ∈ v.splitOnP isMarkupBlank) : w ∈ words v := by
  refine List.mem_filter.mpr ⟨?_, by simpa using hne⟩
  rw [← flatMap_splitOnP_of_imp (fun _ => isWhiteSpace_of_isMarkupBlank) v]
  exact List.mem_flatMap.mpr ⟨w, hw, by rw [List.splitOnP_eq_singleton hws]; exact List.mem_singleton_self w⟩

theorem splitOnP_isWhiteSpace_eq {v : List Char}
    (hv : ∀ c ∈ v, isWhiteSpace c = true → isMarkupBlank c = true) :
    v.splitOnP isWhiteSpace = v.splitOnP isMarkupBlank := by
  refine splitOnP_congr fun c hc => ?_
  cases hw : isWhiteSpace c
  · cases hb : isMarkupBlank c
    · rfl
    · rw [isWhiteSpace_of_isMarkupBlank hb] at hw
      cases hw
  · exact (hv c hc hw).symm

end Blank

namespace Selector
open Blank

variable {e : Element} {x : String}

theorem byClass_holds_iff :
    (Condition.byClass x).holds e = true ↔
      ∃ v, e.attrs.get? "class" = some (.text v) ∧ x.toList ∈ words v.toList := by
  simp only [Condition.holds, Element.hasClass, List.contains_iff_mem]
  rw [e.fresh.2, Attrs.classWords]
  split
  · next v hv =>
    refine ⟨fun hx => ⟨v, hv, ?_⟩, fun ⟨v', hv', hx⟩ => ?_⟩
    · obtain ⟨w, hw, rfl⟩ := List.mem_map.mp hx
      simpa using hw
    · rw [hv] at hv'
      cases hv'
      exact List.mem_map.mpr ⟨_, hx, String.ofList_toList⟩
  · next hnot =>
    simp only [List.not_mem_nil, false_iff, not_exists, not_and]
    exact fun v hv => absurd hv (hnot v)

theorem includesWord_holds_iff :
    (Condition.byAttribute ⟨"class", .includesWord, x, false⟩).holds e = true ↔
      ∃ v, e.attrs.get? "class" = some v ∧ x.toList ≠ [] ∧
        x.toList ∈ v.asText.toList.splitOnP isMarkupBlank := by
  simp only [Condition.holds, AttrTest.holds]
  split
  · simp_all
  · next v hv =>
    simp only [List.any_eq_true, Bool.and_eq_true, Bool.not_eq_true', List.isEmpty_eq_false_iff,
      beq_iff_eq]
    constructor
    · rintro ⟨w, hw, hne, rfl⟩
      exact ⟨v, hv, hne, hw⟩
    · rintro ⟨v', hv', hne, hx⟩
      rw [hv] at hv'
      cases hv'
      exact ⟨_, hx, hne, rfl⟩

theorem byId_holds_eq (hx : x ≠ "") :
    (Condition.byId x).holds e = (Condition.byAttribute ⟨"id", .equals, x, false⟩).holds e := by
  simp only [Condition.holds, AttrTest.holds, Element.id?]
  rw [e.fresh.1, Attrs.idText]
  cases hv : e.attrs.get? "id" with
  | none => rfl
  | some v =>
    cases v with
    | text v =>
      rw [Bool.eq_iff_iff]
      simp [AttrValue.asText, String.toList_inj]
    | flag => simp [AttrValue.asText, hx]

theorem byClass_of_includesWord (hws : ∀ c ∈ x.toList, isWhiteSpace c = false)
    (h : (Condition.byAttribute ⟨"class", .includesWord, x, false⟩).holds e = true) :
    (Condition.byClass x).holds e = true := by
  obtain ⟨v, hv, hne, hx⟩ := includesWord_holds_iff.mp h
  cases v with
  | flag =>
    simp only [AttrValue.asText, String.toList_empty, List.splitOnP_nil, List.mem_singleton] at hx
    exact absurd hx hne
  | text v => exact byClass_holds_iff.mpr ⟨v, hv, mem_words_of_mem_splitOnP hne hws hx⟩

theorem includesWord_of_byClass
    (hv : ∀ v, e.attrs.get? "class" = some (.text v) →
      ∀ c ∈ v.toList, isWhiteSpace c = true → isMarkupBlank c = true)
    (h : (Condition.byClass x).holds e = true) :
    (Condition.byAttribute ⟨"class", .includesWord, x, false⟩).holds e = true := by
  obtain ⟨v, hcls, hx⟩ := byClass_holds_iff.mp h
  obtain ⟨hsplit, hne⟩ := List.mem_filter.mp hx
  refine includesWord_holds_iff.mpr ⟨.text v, hcls, by simpa using hne, ?_⟩
  rw [AttrValue.asText, ← splitOnP_isWhiteSpace_eq (hv v hcls)]
  exact hsplit

/-- `#x` and `[id=x]` agree, `[class~=x]` implies `.x`, and `.x` implies `[class~=x]` when the
class value has no white space but markup blanks. -/
theorem shortcuts_agree (e : Element) (x : String) (hx : x ≠ "")
    (hws : ∀ c ∈ x.toList, isWhiteSpace c = false) :
    (Condition.byId x).holds e = (Condition.byAttribute ⟨"id", .equals, x, false⟩).holds e ∧
    ((Condition.byAttribute ⟨"class", .includesWord, x, false⟩).holds e = true →
      (Condition.byClass x).holds e = true) ∧
    ((∀ v, e.attrs.get? "class" = some (.text v) →
        ∀ c ∈ v.toList, isWhiteSpace c = true → isMarkupBlank c = true) →
      (Condition.byClass x).holds e =
        (Condition.byAttribute ⟨"class", .includesWord, x, false⟩).holds e) :=
  ⟨byId_holds_eq hx, byClass_of_includesWord hws,
    fun hv => Bool.eq_iff_iff.mpr ⟨includesWord_of_byClass hv, byClass_of_includesWord hws⟩⟩

theorem shortcuts_agree_save_button :
    ("green" ≠ "" ∧ ∀ c ∈ "green".toList, isWhiteSpace c = false) ∧
      let e : Element := { tag := "button", attrs := Attrs.ofList [("class", .text "button green"), ("id", .text "save")] }
      ((Condition.byId "green").holds e =
          (Condition.byAttribute ⟨"id", .equals, "green", false⟩).holds e ∧
        ((Condition.byAttribute ⟨"class", .includesWord, "green", false⟩).holds e = true →
          (Condition.byClass "green").holds e = true) ∧
        ((∀ v, e.attrs.get? "class" = some (.text v) →
            ∀ c ∈ v.toList, isWhiteSpace c = true → isMarkupBlank c = true) →
          (Condition.byClass "green").holds e =
            (Condition.byAttribute ⟨"class", .includesWord, "green", false⟩).holds e)) := by
  have hws : ∀ c ∈ "green".toList, isWhiteSpace c = false := by simp [isWhiteSpace]
  exact ⟨⟨by decide, hws⟩, shortcuts_agree _ "green" (by decide) hws⟩

/-- A vertical tab separates words for `.c` but not for `[class~=c]`. -/
theorem byClass_splits_at_vertical_tab :
    (Condition.byClass "c").holds { tag := "div", attrs := Attrs.ofList [("class", .text "a b\x0bc")] } = true ∧
      (Condition.byAttribute ⟨"class", .includesWord, "c", false⟩).holds
        { tag := "div", attrs := Attrs.ofList [("class", .text "a b\x0bc")] } = false := by
  decide

end Selector
end HtmlQuery
