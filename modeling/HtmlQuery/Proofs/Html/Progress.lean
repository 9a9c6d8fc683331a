import HtmlQuery.Proofs.Text.CursorRuns
import HtmlQuery.Html.Builder

/-! Why the builder ends: every call that one step of `build` makes of itself is on a shorter text. -/
namespace HtmlQuery
namespace Html
open Scan

set_option linter.unusedVariables false in
/-- The body of `build`, with its calls of itself handed to `B`. -/
def buildStep (B : NodeId → Nat → Nat → List Char → Draft → Draft) (cfg : Config) (parent : NodeId)
    (depth offset : Nat) (s : List Char) (d : Draft) : Draft :=
  match hs : s with
  | [] => d
  | _ :: _ =>
    let text := (breakAt ['<'] s).1
    let d := if text.all isMarkupBlank then d else (d.attach parent (.text (String.ofList text))).1
    let start := offset + byteSize text
    match hr : (breakAt ['<'] s).2 with
    | '<' :: '!' :: '-' :: '-' :: body =>
      let content := (breakAt "-->".toList body).1
      let after := (breakAt "-->".toList body).2
      let d := if "-->".toList.isPrefixOf after then d
        else d.report .unterminatedComment "<!--".toList start
      let d := (d.attach parent (.comment (String.ofList content))).1
      B parent depth (start + 4 + byteSize content + byteSize (after.take 3)) (after.drop 3) d
    | '<' :: tail =>
      let span := '<' :: (tagTail tail).1
      let next := start + byteSize span
      let afterTag := (tagTail tail).2
      if tail.head? == some '/' then
        B parent depth next afterTag (d.report .strayEndTag span start)
      else if tail.head? == some '!' then
        let content := if span.getLast? == some '>' then (span.drop 2).dropLast else span.drop 2
        let d := (d.attach parent (.declaration (String.ofList content))).1
        B parent depth next afterTag d
      else
        let name := tagName tail
        if name.isEmpty then B parent depth next afterTag (d.report .emptyTagName span start)
        else
          let tag := String.ofList name
          match d.attach parent (.element (.withAttributes tag (parseAttributes span))) with
          | (d, none) => B parent depth next afterTag d
          | (d, some node) =>
            if cfg.isVoid tag || span.reverse.take 2 == ['>', '/'] then
              B parent depth next afterTag d
            else
              match hb : breakBalanced ('<' :: name) ('<' :: '/' :: name) 0 (tagTail tail).2 with
              | none => B parent depth next afterTag (d.report .unterminatedElement span start)
              | some (inner, closing) =>
                let d :=
                  if cfg.isRawText tag then d.attachText node inner
                  else if depth + 1 ≥ cfg.maxDepth then
                    (d.report .depthLimit span start).attachText node inner
                  else B node (depth + 1) next inner d
                let closeTag := tagTail closing
                B parent depth (next + byteSize inner + byteSize closeTag.1) closeTag.2 d
    | _ => d

theorem build_eq_buildStep (cfg : Config) (p : NodeId) (dp off : Nat) (s : List Char) (d : Draft) :
    build cfg p dp off s d = buildStep (build cfg) cfg p dp off s d := by
  rw [build.eq_def]
  rfl

/-- The calls that building `s` may make of itself. -/
inductive Calls (p : NodeId) (dp off : Nat) (s : List Char) : NodeId → Nat → Nat → List Char → Prop
  | next {u rest : List Char} : s = u ++ rest → 0 < byteSize u →
      Calls p dp off s p dp (off + byteSize u) rest
  | down {q : NodeId} {a v b : List Char} : s = a ++ v ++ b → a ≠ [] → b ≠ [] →
      Calls p dp off s q (dp + 1) (off + byteSize a) v

theorem Calls.length_lt {p q : NodeId} {dp off k o : Nat} {s v : List Char}
    (h : Calls p dp off s q k o v) : v.length < s.length := by
  cases h with
  | @next u rest hs hu =>
    have hne : u ≠ [] := fun he => by simp [he] at hu
    have := List.length_pos_iff.mpr hne
    simp only [hs, List.length_append]
    omega
  | @down q a v b hs ha hb =>
    have := List.length_pos_iff.mpr ha
    simp only [hs, List.length_append]
    omega

/-! ## The calls of one turn -/

section Turn
variable {p : NodeId} {dp off : Nat} {s : List Char}

theorem Calls.next_at {u rest : List Char} {o : Nat} (hs : s = u ++ rest) (hu : u ≠ [])
    (ho : off + byteSize u = o) : Calls p dp off s p dp o rest :=
  ho ▸ .next hs (byteSize_pos_of_ne_nil hu)

theorem Calls.down_at {q : NodeId} {a v b : List Char} {o : Nat} (hs : s = a ++ v ++ b) (ha : a ≠ [])
    (hb : b ≠ []) (ho : off + byteSize a = o) : Calls p dp off s q (dp + 1) o v :=
  ho ▸ .down hs ha hb

theorem Calls.of_tag {tail : List Char} (hr : (breakAt ['<'] s).2 = '<' :: tail) :
    Calls p dp off s p dp (off + byteSize (breakAt ['<'] s).1 + byteSize ('<' :: (tagTail tail).1))
      (tagTail tail).2 := by
  have hs : s = ((breakAt ['<'] s).1 ++ '<' :: (tagTail tail).1) ++ (tagTail tail).2 := by
    rw [List.append_assoc, List.cons_append, tagTail_append, ← hr, breakAt_append]
  exact .next_at hs (by simp) (by rw [byteSize_append, Nat.add_assoc])

theorem Calls.of_comment {body : List Char} (hr : (breakAt ['<'] s).2 = '<' :: '!' :: '-' :: '-' :: body) :
    Calls p dp off s p dp
      (off + byteSize (breakAt ['<'] s).1 + 4 + byteSize (breakAt "-->".toList body).1 +
        byteSize ((breakAt "-->".toList body).2.take 3))
      ((breakAt "-->".toList body).2.drop 3) := by
  have hs : s = ((breakAt ['<'] s).1 ++ '<' :: '!' :: '-' :: '-' :: ((breakAt "-->".toList body).1 ++
      (breakAt "-->".toList body).2.take 3)) ++ (breakAt "-->".toList body).2.drop 3 := by
    simp only [List.append_assoc, List.cons_append, List.take_append_drop, breakAt_append, ← hr]
  have h4 : ('<'.utf8Size + ('!'.utf8Size + ('-'.utf8Size + '-'.utf8Size))) = 4 := rfl
  exact .next_at hs (by simp) (by simp only [byteSize_append, byteSize_cons]; omega)

theorem Calls.of_content {tail inner closing o c : List Char} {q : NodeId}
    (hr : (breakAt ['<'] s).2 = '<' :: tail)
    (hb : breakBalanced o ('<' :: c) 0 (tagTail tail).2 = some (inner, closing)) :
    Calls p dp off s q (dp + 1) (off + byteSize (breakAt ['<'] s).1 + byteSize ('<' :: (tagTail tail).1))
      inner := by
  have hclosing : closing ≠ [] := by
    obtain ⟨x, hx⟩ := List.isPrefixOf_iff_prefix.mp (breakBalanced_isPrefixOf hb)
    rw [← hx]
    simp
  have hs : s = ((breakAt ['<'] s).1 ++ '<' :: (tagTail tail).1) ++ inner ++ closing := by
    rw [List.append_assoc, List.append_assoc, List.cons_append, breakBalanced_append hb,
      tagTail_append, ← hr, breakAt_append]
  exact .down_at hs (by simp) hclosing (by rw [byteSize_append, Nat.add_assoc])

theorem Calls.of_element {tail inner closing o c : List Char} (hr : (breakAt ['<'] s).2 = '<' :: tail)
    (hb : breakBalanced o c 0 (tagTail tail).2 = some (inner, closing)) :
    Calls p dp off s p dp (off + byteSize (breakAt ['<'] s).1 + byteSize ('<' :: (tagTail tail).1) +
      byteSize inner + byteSize (tagTail closing).1) (tagTail closing).2 := by
  have hs : s = ((breakAt ['<'] s).1 ++ '<' :: (tagTail tail).1 ++ inner ++ (tagTail closing).1) ++
      (tagTail closing).2 := by
    simp only [List.append_assoc, List.cons_append, tagTail_append, breakBalanced_append hb, ← hr,
      breakAt_append]
  exact .next_at hs (by simp) (by simp only [byteSize_append]; omega)

end Turn

theorem buildStep_congr {B B' : NodeId → Nat → Nat → List Char → Draft → Draft} {cfg : Config}
    {p : NodeId} {dp off : Nat} {s : List Char}
    (h : ∀ q k o v e, Calls p dp off s q k o v → B q k o v e = B' q k o v e) (d : Draft) :
    buildStep B cfg p dp off s d = buildStep B' cfg p dp off s d := by
  unfold buildStep
  split
  · rfl
  · dsimp only
    split
    · next body hr => exact h _ _ _ _ _ (Calls.of_comment hr)
    · next tail _ hr =>
      have htag : Calls p dp off _ p dp _ _ := Calls.of_tag hr
      -- every test on the tag chooses between calls made after it
      refine ite_congr rfl (fun _ => h _ _ _ _ _ htag) fun _ => ?_
      refine ite_congr rfl (fun _ => h _ _ _ _ _ htag) fun _ => ?_
      refine ite_congr rfl (fun _ => h _ _ _ _ _ htag) fun _ => ?_
      split
      · exact h _ _ _ _ _ htag
      · refine ite_congr rfl (fun _ => h _ _ _ _ _ htag) fun _ => ?_
        split
        · exact h _ _ _ _ _ htag
        · next inner closing hb =>
          rw [h _ _ _ _ _ (Calls.of_element hr hb)]
          congr 1
          refine ite_congr rfl (fun _ => rfl) fun _ => ite_congr rfl (fun _ => rfl) fun _ => ?_
          exact h _ _ _ _ _ (Calls.of_content hr hb)
    · rfl

theorem eq_build_of_buildStep {cfg : Config} {B : NodeId → Nat → Nat → List Char → Draft → Draft}
    (hB : ∀ p dp off s d, B p dp off s d = buildStep B cfg p dp off s d) :
    ∀ p dp off s d, B p dp off s d = build cfg p dp off s d := by
  intro p dp off s
  induction hn : s.length using Nat.strongRecOn generalizing p dp off s with
  | _ n ih =>
    intro d
    rw [hB, build_eq_buildStep]
    exact buildStep_congr (fun q k o v e hc => ih v.length (hn ▸ hc.length_lt) q k o v rfl e) d

/-- The builder ends on every input: `build` is the only function that is `buildStep` of itself. -/
theorem build_progress (cfg : Config) :
    (∀ p dp off s d, build cfg p dp off s d = buildStep (build cfg) cfg p dp off s d) ∧
    (∀ (B B' : NodeId → Nat → Nat → List Char → Draft → Draft) p dp off s d,
      (∀ q k o v e, Calls p dp off s q k o v → B q k o v e = B' q k o v e) →
        buildStep B cfg p dp off s d = buildStep B' cfg p dp off s d) ∧
    (∀ B : NodeId → Nat → Nat → List Char → Draft → Draft,
      (∀ p dp off s d, B p dp off s d = buildStep B cfg p dp off s d) →
        ∀ p dp off s d, B p dp off s d = build cfg p dp off s d) :=
  ⟨build_eq_buildStep cfg, fun _ _ _ _ _ _ d h => buildStep_congr h d,
    fun _ hB => eq_build_of_buildStep hB⟩

end Html
end HtmlQuery
