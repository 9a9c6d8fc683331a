import Mathlib.Data.List.TakeWhile
import HtmlQuery.Proofs.Tree.Reachable

/-! The cached id and class list of an element agree with its attributes after any run of changes. -/
namespace HtmlQuery
namespace Blank

/-- `s` is the words `ws` with white space around and between them. -/
inductive Spaced : List Char → List (List Char) → Prop
  | blank {b : List Char} : (∀ c ∈ b, isWhiteSpace c = true) → Spaced b []
  | word {b w s : List Char} {ws : List (List Char)} : (∀ c ∈ b, isWhiteSpace c = true) →
      w ≠ [] → (∀ c ∈ w, isWhiteSpace c = false) → (∀ c ∈ s.head?, isWhiteSpace c = true) →
      Spaced s ws → Spaced (b ++ w ++ s) (w :: ws)

/-! ## Splitting at white space -/

@[simp] theorem words_nil : words [] = [] := rfl

theorem words_cons_white {c : Char} (hc : isWhiteSpace c = true) (s : List Char) :
    words (c :: s) = words s := by
  simp [words, List.splitOnP_cons_eq_if_modifyHead, hc]

theorem words_white_append {b : List Char} (hb : ∀ c ∈ b, isWhiteSpace c = true)
    (s : List Char) : words (b ++ s) = words s := by
  induction b with
  | nil => rfl
  | cons c b ih =>
    rw [List.cons_append, words_cons_white (hb c List.mem_cons_self),
      ih fun x hx => hb x (List.mem_cons_of_mem _ hx)]

theorem words_word_append {w s : List Char} (hw : w ≠ []) (hnw : ∀ c ∈ w, isWhiteSpace c = false)
    (hs : ∀ c ∈ s.head?, isWhiteSpace c = true) : words (w ++ s) = w :: words s := by
  cases s with
  | nil => simp [words, List.splitOnP_eq_singleton hnw, hw]
  | cons c r =>
    have hc : isWhiteSpace c = true := hs c rfl
    rw [words_cons_white hc]
    simp [words, List.splitOnP_append_cons_of_forall_mem hnw c hc, hw]

theorem head?_dropWhile {p : Char → Bool} {l : List Char} {c : Char}
    (hc : c ∈ (l.dropWhile p).head?) : p c = false := by
  have h := List.head?_dropWhile_not p l
  rw [Option.mem_def.mp hc] at h
  exact h

theorem Spaced.words_eq {s : List Char} {ws : List (List Char)} (h : Spaced s ws) :
    words s = ws := by
  induction h with
  | blank hb =>
    have hwhite := words_white_append hb []
    rw [List.append_nil] at hwhite
    rw [hwhite, words_nil]
  | word hb hw hnw hs _ ih =>
    rw [List.append_assoc, words_white_append hb, words_word_append hw hnw hs, ih]

theorem spaced_words (s : List Char) : Spaced s (words s) := by
  induction h : s.length using Nat.strongRecOn generalizing s with
  | ind n ih =>
    obtain ⟨b, r, rfl, hb, hr⟩ : ∃ b r, s = b ++ r ∧ (∀ c ∈ b, isWhiteSpace c = true) ∧
        ∀ c ∈ r.head?, isWhiteSpace c = false :=
      ⟨s.takeWhile isWhiteSpace, s.dropWhile isWhiteSpace, List.takeWhile_append_dropWhile.symm,
        fun c hc => List.mem_takeWhile_imp hc, fun c hc => head?_dropWhile hc⟩
    cases r with
    | nil =>
      rw [words_white_append hb, words_nil, List.append_nil]
      exact Spaced.blank hb
    | cons c r =>
      have hc : isWhiteSpace c = false := hr c rfl
      obtain ⟨w, s', hwr, hnw, hs⟩ : ∃ w s', c :: r = w ++ s' ∧ (∀ x ∈ w, isWhiteSpace x = false) ∧
          ∀ x ∈ s'.head?, isWhiteSpace x = true :=
        ⟨(c :: r).takeWhile (fun x => !isWhiteSpace x),
          (c :: r).dropWhile (fun x => !isWhiteSpace x), List.takeWhile_append_dropWhile.symm,
          fun x hx => by simpa using List.mem_takeWhile_imp hx,
          fun x hx => by simpa using head?_dropWhile hx⟩
      have hw : w ≠ [] := by
        rintro rfl
        rw [List.nil_append] at hwr
        have hcs := hs c (by rw [← hwr]; rfl)
        rw [hc] at hcs
        cases hcs
      have hlt : s'.length < n := by
        have hlen := congrArg List.length hwr
        simp only [List.length_append, List.length_cons] at hlen h
        have : 0 < w.length := List.length_pos_iff.mpr hw
        omega
      rw [hwr, words_white_append hb, words_word_append hw hnw hs, ← List.append_assoc]
      exact Spaced.word hb hw hnw hs (ih s'.length hlt s' rfl)

theorem words_eq_iff_spaced {s : List Char} {ws : List (List Char)} : words s = ws ↔ Spaced s ws :=
  ⟨fun h => h ▸ spaced_words s, Spaced.words_eq⟩

end Blank

namespace ElementData

/-- A change of an element through its methods, or a write of its public tag name. -/
inductive Change where
  | setAttribute (name : String) (value : AttrValue)
  | removeAttribute (name : String)
  | setTag (tag : String)

def applyChange (d : ElementData) : Change → ElementData
  | .setAttribute name v => d.setAttribute name v
  | .removeAttribute name => (d.removeAttribute name).2
  | .setTag tag => { d with tag }

/-- The cached id and class list, read against the attributes. -/
structure CacheAgrees (d : ElementData) : Prop where
  id_iff : ∀ v, d.id = some v ↔ d.attrs.get? "id" = some (.text v)
  classList_spaced : ∀ v, d.attrs.get? "class" = some (.text v) →
    ∀ ws, Blank.Spaced v.toList ws ↔ d.classList.map String.toList = ws
  classList_nil : (∀ v, d.attrs.get? "class" ≠ some (.text v)) → d.classList = []

theorem Fresh.cacheAgrees {d : ElementData} (h : d.Fresh) : d.CacheAgrees where
  id_iff v := by
    rw [h.1, Attrs.idText]
    split <;> simp_all
  classList_spaced v hv ws := by
    rw [h.2, Attrs.classWords, hv, List.map_map, Blank.words_eq_iff_spaced.symm]
    simp [Function.comp_def]
  classList_nil hnone := by
    rw [h.2, Attrs.classWords]
    split
    · next v hv => exact absurd hv (hnone v)
    · rfl

theorem fresh_applyChange {d : ElementData} (hd : d.Fresh) : ∀ c, (d.applyChange c).Fresh
  | .setAttribute _ _ => fresh_refresh _
  | .removeAttribute _ => fresh_refresh _
  | .setTag _ => hd

theorem fresh_foldl_applyChange {d : ElementData} (hd : d.Fresh) (cs : List Change) :
    (cs.foldl applyChange d).Fresh := by
  induction cs generalizing d with
  | nil => exact hd
  | cons c cs ih => exact ih (fresh_applyChange hd c)

end ElementData

namespace Tree

variable {t t' : Tree} {n : NodeId} {e : Element} {name : String}

theorem setAttribute_element? {v : AttrValue} (he : t.element? n = some e)
    (h : t.setAttribute n name v = .ok t') :
    (t'.element? n).map (·.toElementData) = some (e.setAttribute name v) := by
  rw [updateElement_element? h, if_pos rfl, he]
  rfl

theorem removeAttribute_element? {old : Option AttrValue} (he : t.element? n = some e)
    (h : t.removeAttribute n name = .ok (old, t')) :
    old = (e.removeAttribute name).1 ∧
      (t'.element? n).map (·.toElementData) = some (e.removeAttribute name).2 := by
  simp only [removeAttribute, Except.map] at h
  split at h
  · cases h
  · next u hu =>
    obtain ⟨rfl, rfl⟩ := Prod.mk.inj (Except.ok.inj h)
    rw [updateElement_element? hu, if_pos rfl, he]
    exact ⟨rfl, rfl⟩

end Tree

namespace Edit

/-- The cached id and class list never drift from the attributes. -/
theorem run_cache_agrees :
    (∀ (tag : String) (attrs : Attrs) (cs : List ElementData.Change),
      (cs.foldl ElementData.applyChange (ElementData.withAttributes tag attrs)).CacheAgrees) ∧
    (∀ (es : List Edit) (n : NodeId) (e : Element), (run es Tree.empty).element? n = some e →
      e.CacheAgrees) ∧
    (∀ (t t' : Tree) (n : NodeId) (e : Element) (name : String) (v : AttrValue),
      t.element? n = some e → t.setAttribute n name v = .ok t' →
        (t'.element? n).map (·.toElementData) = some (e.setAttribute name v)) ∧
    ∀ (t t' : Tree) (n : NodeId) (e : Element) (name : String) (old : Option AttrValue),
      t.element? n = some e → t.removeAttribute n name = .ok (old, t') →
        old = (e.removeAttribute name).1 ∧
          (t'.element? n).map (·.toElementData) = some (e.removeAttribute name).2 := by
  refine ⟨fun tag attrs cs => ?_, fun _ _ e _ => e.fresh.cacheAgrees,
    fun _ _ _ _ _ _ he h => Tree.setAttribute_element? he h,
    fun _ _ _ _ _ _ he h => Tree.removeAttribute_element? he h⟩
  exact (ElementData.fresh_foldl_applyChange (ElementData.fresh_refresh _) cs).cacheAgrees

end Edit
end HtmlQuery
