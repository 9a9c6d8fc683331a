import Mathlib.Data.String.Basic
import HtmlQuery.Text.Cursor

/-! Runs of cursor calls: the text stays, and every read returns the slice it moves over. -/
namespace HtmlQuery
open Scan

/-! ## Byte positions in a text -/

namespace Scan

theorem byteSize_eq_utf8ByteSize (l : List Char) : byteSize l = (String.ofList l).utf8ByteSize := by
  induction l with
  | nil => simp
  | cons c cs ih => simp [ih]

@[simp] theorem byteSize_toList (s : String) : byteSize s.toList = s.utf8ByteSize := by
  rw [byteSize_eq_utf8ByteSize, String.ofList_toList]

theorem byteSize_pos_of_ne_nil {l : List Char} (h : l ≠ []) : 0 < byteSize l := by
  obtain ⟨c, cs, rfl⟩ := List.exists_cons_of_ne_nil h
  have := c.utf8Size_pos
  simp only [byteSize_cons]
  omega

theorem byteSize_le_of_prefix {l l' : List Char} (h : l <+: l') : byteSize l ≤ byteSize l' := by
  obtain ⟨u, rfl⟩ := h
  simp

theorem isValid_byteSize {s : String} {pre post : List Char} (h : s.toList = pre ++ post) :
    String.Pos.Raw.IsValid s ⟨byteSize pre⟩ := by
  refine String.Pos.Raw.isValid_iff_exists_take_toList.mpr ⟨pre.length, ?_⟩
  rw [h, List.take_left, byteSize_eq_utf8ByteSize]

theorem mk_ne_mk_add_byteSize (k : Nat) {l : List Char} (h : l ≠ []) :
    (⟨k⟩ : String.Pos.Raw) ≠ ⟨k + byteSize l⟩ := by
  have := byteSize_pos_of_ne_nil h
  simp only [ne_eq, String.Pos.Raw.mk.injEq]
  omega

theorem extract_go₂ (rest : List Char) :
    ∀ (mid : List Char) (k : Nat),
      String.Pos.Raw.extract.go₂ (mid ++ rest) ⟨k⟩ ⟨k + byteSize mid⟩ = mid := by
  intro mid
  induction mid with
  | nil =>
    intro k
    cases rest <;> simp [String.Pos.Raw.extract.go₂]
  | cons d ds ih =>
    intro k
    simp only [List.cons_append, String.Pos.Raw.extract.go₂,
      if_neg (mk_ne_mk_add_byteSize k (List.cons_ne_nil d ds))]
    rw [byteSize_cons, ← Nat.add_assoc]
    exact congrArg (d :: ·) (ih (k + d.utf8Size))

theorem extract_go₁ (rest : List Char) (e : String.Pos.Raw) :
    ∀ (pre : List Char) (k : Nat),
      String.Pos.Raw.extract.go₁ (pre ++ rest) ⟨k⟩ ⟨k + byteSize pre⟩ e =
        String.Pos.Raw.extract.go₂ rest ⟨k + byteSize pre⟩ e := by
  intro pre
  induction pre with
  | nil =>
    intro k
    cases rest with
    | nil => rfl
    | cons d ds => simp [String.Pos.Raw.extract.go₁]
  | cons d ds ih =>
    intro k
    simp only [List.cons_append, String.Pos.Raw.extract.go₁,
      if_neg (mk_ne_mk_add_byteSize k (List.cons_ne_nil d ds))]
    rw [byteSize_cons, ← Nat.add_assoc]
    exact ih (k + d.utf8Size)

theorem extract_eq_ofList {s : String} {pre mid post : List Char}
    (h : s.toList = pre ++ mid ++ post) :
    String.Pos.Raw.extract s ⟨byteSize pre⟩ ⟨byteSize pre + byteSize mid⟩ = String.ofList mid := by
  cases mid with
  | nil => simp [String.Pos.Raw.extract]
  | cons d ds =>
    have hlt : ¬ (byteSize pre + byteSize (d :: ds) ≤ byteSize pre) := by
      have := byteSize_pos_of_ne_nil (List.cons_ne_nil d ds)
      omega
    simp only [String.Pos.Raw.extract, ge_iff_le, if_neg hlt]
    congr 1
    have hgo := extract_go₁ ((d :: ds) ++ post) ⟨byteSize pre + byteSize (d :: ds)⟩ pre 0
    simp only [Nat.zero_add] at hgo
    rw [h, List.append_assoc]
    exact hgo.trans (extract_go₂ post (d :: ds) (byteSize pre))

theorem breakBalanced_isPrefixOf {openTag closeTag : List Char} :
    ∀ {depth : Nat} {s inner rest : List Char},
      breakBalanced openTag closeTag depth s = some (inner, rest) →
        closeTag.isPrefixOf rest = true := by
  intro depth s
  induction s generalizing depth with
  | nil => simp [breakBalanced]
  | cons c cs ih =>
    intro inner rest h
    simp only [breakBalanced] at h
    split at h
    · next hclose =>
      split at h
      · simp only [Option.some.injEq, Prod.mk.injEq] at h
        obtain ⟨-, rfl⟩ := h
        simp only [startsWithTag, Bool.and_eq_true] at hclose
        exact hclose.1
      · obtain ⟨r, hr, hr2⟩ := Option.map_eq_some_iff.mp h
        cases hr2
        exact ih hr
    · obtain ⟨r, hr, hr2⟩ := Option.map_eq_some_iff.mp h
      cases hr2
      exact ih hr

end Scan

/-! ## Calls on a cursor -/

namespace Cursor

/-- One call on a cursor, with its arguments. -/
inductive Call where
  | seek (n : Nat)
  | readChar
  | peek
  | peekMatches (lit : String)
  | readUntil (lit : String) (inclusive : Bool)
  | readUntilLiteral (lit : String) (inclusive : Bool)
  | readUntilAnyOf (set : List Char)
  | skipWhile (set : List Char)
  | readBalanced (tag : String)

/-- The cursor after the call; looking ahead leaves it as it is. -/
def Call.apply : Call → Cursor → Cursor
  | .seek n, c => c.seek n
  | .readChar, c => c.readChar.2
  | .peek, c => c
  | .peekMatches _, c => c
  | .readUntil lit inclusive, c => (c.readUntil lit inclusive).2
  | .readUntilLiteral lit inclusive, c => (c.readUntilLiteral lit inclusive).2
  | .readUntilAnyOf set, c => (c.readUntilAnyOf set).2
  | .skipWhile set, c => c.skipWhile set
  | .readBalanced tag, c => (c.readBalanced tag).2

def run (c : Cursor) : List Call → Cursor
  | [] => c
  | k :: ks => (k.apply c).run ks

variable {c : Cursor} {s : String}

@[simp] theorem advance_fst (r : List Char × List Char) : (c.advance r).1 = String.ofList r.1 := rfl

@[simp] theorem consumed_advance (r : List Char × List Char) :
    (c.advance r).2.consumed = c.consumed ++ r.1 := rfl

@[simp] theorem position_advance (r : List Char × List Char) :
    (c.advance r).2.position = c.position + byteSize r.1 := by
  simp [position]

theorem source_advance {r : List Char × List Char} (hr : r.1 ++ r.2 = c.rest) :
    (c.advance r).2.source = c.source := by
  simp [advance, source, ← hr]

theorem advance_fst_eq_extract (hs : c.source = s.toList) {r : List Char × List Char}
    (hr : r.1 ++ r.2 = c.rest) :
    (c.advance r).1 = String.Pos.Raw.extract s ⟨c.position⟩ ⟨(c.advance r).2.position⟩ := by
  rw [advance_fst, position_advance]
  refine (extract_eq_ofList (show s.toList = c.consumed ++ r.1 ++ r.2 from ?_)).symm
  rw [← hs, source, ← hr, List.append_assoc]

/-! Every read moves over a split of the rest. -/

theorem readUntil_eq (lit : String) (inclusive : Bool) :
    ∃ r : List Char × List Char, r.1 ++ r.2 = c.rest ∧ c.readUntil lit inclusive = c.advance r := by
  refine ⟨_, ?_, rfl⟩
  split
  · rw [takeLiteral_append, breakOutsideQuotes_append]
  · exact breakOutsideQuotes_append _ _ _

theorem readUntilLiteral_eq (lit : String) (inclusive : Bool) :
    ∃ r : List Char × List Char, r.1 ++ r.2 = c.rest ∧
      c.readUntilLiteral lit inclusive = c.advance r := by
  refine ⟨_, ?_, rfl⟩
  split
  · rw [takeLiteral_append, breakAt_append]
  · exact breakAt_append _ _

theorem readUntilAnyOf_eq (set : List Char) :
    ∃ r : List Char × List Char, r.1 ++ r.2 = c.rest ∧ c.readUntilAnyOf set = c.advance r :=
  ⟨_, breakAtAny_append _ _, rfl⟩

theorem skipWhile_eq (set : List Char) :
    ∃ r : List Char × List Char, r.1 ++ r.2 = c.rest ∧ c.skipWhile set = (c.advance r).2 :=
  ⟨_, spanOf_append _ _, rfl⟩

theorem readChar_eq :
    ∃ r : List Char × List Char, r.1 ++ r.2 = c.rest ∧ c.readChar.2 = (c.advance r).2 := by
  obtain ⟨consumed, rest⟩ := c
  cases rest with
  | nil => exact ⟨([], []), rfl, by simp [readChar, advance]⟩
  | cons x xs => exact ⟨([x], xs), rfl, rfl⟩

theorem readBalanced_of_some {tag : String} {r : List Char × List Char}
    (h : breakBalanced ('<' :: tag.toList) ('<' :: '/' :: tag.toList) 0 c.rest = some r) :
    c.readBalanced tag = ((c.advance r).1, ((c.advance r).2.readUntil ">" true).2) := by
  simp [readBalanced, h]

/-! ## What a call keeps -/

/-- `c'` reads the same text as `c` and has read at least as much. -/
structure Forward (c c' : Cursor) : Prop where
  source_eq : c'.source = c.source
  consumed_prefix : c.consumed <+: c'.consumed

theorem Forward.refl (c : Cursor) : Forward c c := ⟨rfl, List.prefix_refl _⟩

theorem Forward.trans {c₁ c₂ c₃ : Cursor} (h₁ : Forward c₁ c₂) (h₂ : Forward c₂ c₃) :
    Forward c₁ c₃ :=
  ⟨h₂.source_eq.trans h₁.source_eq, h₁.consumed_prefix.trans h₂.consumed_prefix⟩

theorem Forward.position_le {c' : Cursor} (h : Forward c c') : c.position ≤ c'.position :=
  byteSize_le_of_prefix h.consumed_prefix

theorem forward_advance {r : List Char × List Char} (hr : r.1 ++ r.2 = c.rest) :
    Forward c (c.advance r).2 :=
  ⟨source_advance hr, List.prefix_append _ _⟩

theorem forward_of_split {c' : Cursor}
    (h : ∃ r : List Char × List Char, r.1 ++ r.2 = c.rest ∧ c' = (c.advance r).2) :
    Forward c c' := by
  obtain ⟨r, hr, rfl⟩ := h
  exact forward_advance hr

theorem forward_of_read {x : String × Cursor}
    (h : ∃ r : List Char × List Char, r.1 ++ r.2 = c.rest ∧ x = c.advance r) : Forward c x.2 := by
  obtain ⟨r, hr, rfl⟩ := h
  exact forward_advance hr

theorem forward_readBalanced (tag : String) : Forward c (c.readBalanced tag).2 := by
  cases h : breakBalanced ('<' :: tag.toList) ('<' :: '/' :: tag.toList) 0 c.rest with
  | none => simp [readBalanced, h, Forward.refl]
  | some r =>
    rw [readBalanced_of_some h]
    have hclose : Forward (c.advance r).2 ((c.advance r).2.readUntil ">" true).2 :=
      forward_of_read (readUntil_eq ">" true)
    exact (forward_advance (breakBalanced_append h)).trans hclose

theorem Call.forward_apply (k : Call) (hk : ∀ n, k ≠ .seek n) : Forward c (k.apply c) := by
  cases k with
  | seek n => exact absurd rfl (hk n)
  | readChar => exact forward_of_split readChar_eq
  | peek => exact Forward.refl c
  | peekMatches lit => exact Forward.refl c
  | readUntil lit inclusive => exact forward_of_read (readUntil_eq lit inclusive)
  | readUntilLiteral lit inclusive => exact forward_of_read (readUntilLiteral_eq lit inclusive)
  | readUntilAnyOf set => exact forward_of_read (readUntilAnyOf_eq set)
  | skipWhile set => exact forward_of_split (skipWhile_eq set)
  | readBalanced tag => exact forward_readBalanced tag

theorem source_seek (n : Nat) : (c.seek n).source = c.source :=
  splitAtByte_append n c.source

theorem Call.source_apply (k : Call) : (k.apply c).source = c.source := by
  by_cases hk : ∀ n, k ≠ .seek n
  · exact (k.forward_apply hk).source_eq
  · obtain ⟨n, rfl⟩ : ∃ n, k = .seek n := by simpa using hk
    exact source_seek n

theorem source_run (ks : List Call) : (c.run ks).source = c.source := by
  induction ks generalizing c with
  | nil => rfl
  | cons k ks ih => rw [run, ih, k.source_apply]

/-! ## Positions of a cursor over a text -/

theorem position_le_utf8ByteSize (hs : c.source = s.toList) : c.position ≤ s.utf8ByteSize := by
  rw [← byteSize_toList, ← hs, source, position]
  exact byteSize_le_of_prefix (List.prefix_append _ _)

theorem isValid_position (hs : c.source = s.toList) : String.Pos.Raw.IsValid s ⟨c.position⟩ :=
  isValid_byteSize hs.symm

theorem fst_eq_extract_of_split (hs : c.source = s.toList) {x : String × Cursor}
    (h : ∃ r : List Char × List Char, r.1 ++ r.2 = c.rest ∧ x = c.advance r) :
    x.1 = String.Pos.Raw.extract s ⟨c.position⟩ ⟨x.2.position⟩ := by
  obtain ⟨r, hr, rfl⟩ := h
  exact advance_fst_eq_extract hs hr

theorem extract_rest (hs : c.source = s.toList) :
    String.Pos.Raw.extract s ⟨c.position⟩ ⟨s.utf8ByteSize⟩ = String.ofList c.rest := by
  have hsize : s.utf8ByteSize = c.position + byteSize c.rest := by
    rw [← byteSize_toList, ← hs, source, byteSize_append, position]
  rw [hsize]
  exact extract_eq_ofList (show s.toList = c.consumed ++ c.rest ++ [] by rw [← hs, source, List.append_nil])

theorem position_lt_readUntil {w : List Char} (h : c.rest = '<' :: w) :
    c.position < (c.readUntil ">" true).2.position := by
  have hfirst : (breakOutsideQuotes ">".toList none c.rest).1 ≠ [] := by
    rw [h]
    simp [breakOutsideQuotes]
  have hread : (takeLiteral ">".toList (breakOutsideQuotes ">".toList none c.rest)).1 ≠ [] := by
    unfold takeLiteral
    split
    · simp
    · exact hfirst
  have := byteSize_pos_of_ne_nil hread
  simp only [readUntil, if_true, position_advance]
  omega

theorem readBalanced_spec (hs : c.source = s.toList) (tag : String) :
    ((c.readBalanced tag).1 = "" ∧ (c.readBalanced tag).2 = c) ∨
      ∃ q, c.position ≤ q ∧ q < (c.readBalanced tag).2.position ∧
        (c.readBalanced tag).1 = String.Pos.Raw.extract s ⟨c.position⟩ ⟨q⟩ ∧
        ("</" ++ tag).toList <+: (String.Pos.Raw.extract s ⟨q⟩ ⟨s.utf8ByteSize⟩).toList := by
  cases h : breakBalanced ('<' :: tag.toList) ('<' :: '/' :: tag.toList) 0 c.rest with
  | none => exact .inl (by simp [readBalanced, h])
  | some r =>
    right
    have hr : r.1 ++ r.2 = c.rest := breakBalanced_append h
    obtain ⟨u, hu⟩ := List.isPrefixOf_iff_prefix.mp (breakBalanced_isPrefixOf h)
    have hd : (c.advance r).2.source = s.toList := (source_advance hr).trans hs
    have hrest : (c.advance r).2.rest = '<' :: ('/' :: tag.toList ++ u) := hu.symm
    refine ⟨(c.advance r).2.position, by simp, ?_, ?_, ?_⟩
    · rw [readBalanced_of_some h]
      exact position_lt_readUntil hrest
    · rw [readBalanced_of_some h]
      exact advance_fst_eq_extract hs hr
    · rw [extract_rest hd, hrest]
      simp

/-- Over any run of calls the text stays, the position stays a character boundary, and reads
return the slices they move over. -/
theorem run_ofString_slices (s : String) (calls : List Call) :
    let c := (ofString s).run calls
    c.source = s.toList ∧ c.position ≤ s.utf8ByteSize ∧ String.Pos.Raw.IsValid s ⟨c.position⟩ ∧
    (∀ k : Call, (∀ n, k ≠ .seek n) → c.position ≤ (k.apply c).position) ∧
    (∀ lit inclusive, (c.readUntil lit inclusive).1 =
      String.Pos.Raw.extract s ⟨c.position⟩ ⟨(c.readUntil lit inclusive).2.position⟩) ∧
    (∀ lit inclusive, (c.readUntilLiteral lit inclusive).1 =
      String.Pos.Raw.extract s ⟨c.position⟩ ⟨(c.readUntilLiteral lit inclusive).2.position⟩) ∧
    (∀ set, (c.readUntilAnyOf set).1 =
      String.Pos.Raw.extract s ⟨c.position⟩ ⟨(c.readUntilAnyOf set).2.position⟩) ∧
    ∀ tag, ((c.readBalanced tag).1 = "" ∧ (c.readBalanced tag).2 = c) ∨
      ∃ q, c.position ≤ q ∧ q < (c.readBalanced tag).2.position ∧
        (c.readBalanced tag).1 = String.Pos.Raw.extract s ⟨c.position⟩ ⟨q⟩ ∧
        ("</" ++ tag).toList <+: (String.Pos.Raw.extract s ⟨q⟩ ⟨s.utf8ByteSize⟩).toList := by
  intro c
  have hs : c.source = s.toList := source_run calls
  exact ⟨hs, position_le_utf8ByteSize hs, isValid_position hs,
    fun k hk => (k.forward_apply hk).position_le,
    fun lit inclusive => fst_eq_extract_of_split hs (readUntil_eq lit inclusive),
    fun lit inclusive => fst_eq_extract_of_split hs (readUntilLiteral_eq lit inclusive),
    fun set => fst_eq_extract_of_split hs (readUntilAnyOf_eq set), readBalanced_spec hs⟩

end Cursor
end HtmlQuery
