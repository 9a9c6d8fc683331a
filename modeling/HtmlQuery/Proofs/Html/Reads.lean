import HtmlQuery.Proofs.Markup.Reading

/-! How the builder reads markup, one step at a time: `Reads` has a rule for each way `build` goes on. -/
namespace HtmlQuery
namespace Html
open Scan

/-- After its `<`, a tag that opens an element. -/
structure OpensElement (tail name r after : List Char) : Prop where
  not_slash : tail.head? ≠ some '/'
  not_bang : tail.head? ≠ some '!'
  tagName_eq : tagName tail = name
  name_ne_nil : name ≠ []
  tagTail_eq : tagTail tail = (r, after)

/-- The steps of building the text `s` under `p`, from the draft `d` to `d'`. -/
inductive Reads (cfg : Config) : NodeId → Nat → Nat → List Char → Draft → Draft → Prop
  | nil {p : NodeId} {dp off : Nat} {d : Draft} : Reads cfg p dp off [] d d
  | text {p : NodeId} {dp off : Nat} {s : List Char} {d : Draft} :
      s ≠ [] → '<' ∉ s → Reads cfg p dp off s d (d.lead p s)
  | lead {p : NodeId} {dp off : Nat} {s text X : List Char} {d d' : Draft} :
      '<' ∉ text → s = text ++ '<' :: X →
      Reads cfg p dp (off + byteSize text) ('<' :: X) (d.lead p text) d' →
      Reads cfg p dp off s d d'
  | comment {p : NodeId} {dp off : Nat} {body content after : List Char} {d d' : Draft} :
      breakAt "-->".toList body = (content, after) →
      Reads cfg p dp (off + 4 + byteSize content + byteSize (after.take 3)) (after.drop 3)
        ((if "-->".toList.isPrefixOf after then d
          else d.report .unterminatedComment "<!--".toList off).attach p
            (.comment (String.ofList content))).1 d' →
      Reads cfg p dp off ('<' :: '!' :: '-' :: '-' :: body) d d'
  | strayEndTag {p : NodeId} {dp off : Nat} {tail r after : List Char} {d d' : Draft} :
      tail.head? = some '/' → tagTail tail = (r, after) →
      Reads cfg p dp (off + byteSize ('<' :: r)) after (d.report .strayEndTag ('<' :: r) off) d' →
      Reads cfg p dp off ('<' :: tail) d d'
  | declaration {p : NodeId} {dp off : Nat} {tail r after : List Char} {d d' : Draft} :
      (∀ body, tail ≠ '!' :: '-' :: '-' :: body) → tail.head? = some '!' →
      tagTail tail = (r, after) →
      Reads cfg p dp (off + byteSize ('<' :: r)) after
        (d.attach p (.declaration (String.ofList
          (if ('<' :: r).getLast? == some '>' then (('<' :: r).drop 2).dropLast
            else ('<' :: r).drop 2)))).1 d' →
      Reads cfg p dp off ('<' :: tail) d d'
  | emptyTagName {p : NodeId} {dp off : Nat} {tail r after : List Char} {d d' : Draft} :
      tail.head? ≠ some '/' → tail.head? ≠ some '!' → tagName tail = [] →
      tagTail tail = (r, after) →
      Reads cfg p dp (off + byteSize ('<' :: r)) after (d.report .emptyTagName ('<' :: r) off) d' →
      Reads cfg p dp off ('<' :: tail) d d'
  | refused {p : NodeId} {dp off : Nat} {tail name r after : List Char} {d d₁ d' : Draft} :
      OpensElement tail name r after →
      d.attach p (.element (.withAttributes (String.ofList name) (parseAttributes ('<' :: r)))) = (d₁, none) →
      Reads cfg p dp (off + byteSize ('<' :: r)) after d₁ d' →
      Reads cfg p dp off ('<' :: tail) d d'
  | empty {p node : NodeId} {dp off : Nat} {tail name r after : List Char} {d d₁ d' : Draft} :
      OpensElement tail name r after →
      d.attach p (.element (.withAttributes (String.ofList name) (parseAttributes ('<' :: r)))) = (d₁, some node) →
      (cfg.isVoid (String.ofList name) || ('<' :: r).reverse.take 2 == ['>', '/']) = true →
      Reads cfg p dp (off + byteSize ('<' :: r)) after d₁ d' →
      Reads cfg p dp off ('<' :: tail) d d'
  | unterminated {p node : NodeId} {dp off : Nat} {tail name r after : List Char}
      {d d₁ d' : Draft} :
      OpensElement tail name r after →
      d.attach p (.element (.withAttributes (String.ofList name) (parseAttributes ('<' :: r)))) = (d₁, some node) →
      (cfg.isVoid (String.ofList name) || ('<' :: r).reverse.take 2 == ['>', '/']) = false →
      breakBalanced ('<' :: name) ('<' :: '/' :: name) 0 after = none →
      Reads cfg p dp (off + byteSize ('<' :: r)) after
        (d₁.report .unterminatedElement ('<' :: r) off) d' →
      Reads cfg p dp off ('<' :: tail) d d'
  | rawText {p node : NodeId} {dp off : Nat} {tail name r after inner closing cr after' : List Char}
      {d d₁ d' : Draft} :
      OpensElement tail name r after →
      d.attach p (.element (.withAttributes (String.ofList name) (parseAttributes ('<' :: r)))) = (d₁, some node) →
      (cfg.isVoid (String.ofList name) || ('<' :: r).reverse.take 2 == ['>', '/']) = false →
      breakBalanced ('<' :: name) ('<' :: '/' :: name) 0 after = some (inner, closing) →
      tagTail closing = (cr, after') → cfg.isRawText (String.ofList name) = true →
      Reads cfg p dp (off + byteSize ('<' :: r) + byteSize inner + byteSize cr) after'
        (d₁.attachText node inner) d' →
      Reads cfg p dp off ('<' :: tail) d d'
  | depthLimited {p node : NodeId} {dp off : Nat}
      {tail name r after inner closing cr after' : List Char} {d d₁ d' : Draft} :
      OpensElement tail name r after →
      d.attach p (.element (.withAttributes (String.ofList name) (parseAttributes ('<' :: r)))) = (d₁, some node) →
      (cfg.isVoid (String.ofList name) || ('<' :: r).reverse.take 2 == ['>', '/']) = false →
      breakBalanced ('<' :: name) ('<' :: '/' :: name) 0 after = some (inner, closing) →
      tagTail closing = (cr, after') → cfg.isRawText (String.ofList name) = false →
      cfg.maxDepth ≤ dp + 1 →
      Reads cfg p dp (off + byteSize ('<' :: r) + byteSize inner + byteSize cr) after'
        ((d₁.report .depthLimit ('<' :: r) off).attachText node inner) d' →
      Reads cfg p dp off ('<' :: tail) d d'
  | nested {p node : NodeId} {dp off : Nat} {tail name r after inner closing cr after' : List Char}
      {d d₁ d₂ d' : Draft} :
      OpensElement tail name r after →
      d.attach p (.element (.withAttributes (String.ofList name) (parseAttributes ('<' :: r)))) = (d₁, some node) →
      (cfg.isVoid (String.ofList name) || ('<' :: r).reverse.take 2 == ['>', '/']) = false →
      breakBalanced ('<' :: name) ('<' :: '/' :: name) 0 after = some (inner, closing) →
      tagTail closing = (cr, after') → cfg.isRawText (String.ofList name) = false →
      dp + 1 < cfg.maxDepth →
      Reads cfg node (dp + 1) (off + byteSize ('<' :: r)) inner d₁ d₂ →
      Reads cfg p dp (off + byteSize ('<' :: r) + byteSize inner + byteSize cr) after' d₂ d' →
      Reads cfg p dp off ('<' :: tail) d d'

theorem lt_not_mem_breakAt (s : List Char) : '<' ∉ (breakAt ['<'] s).1 := by
  induction s with
  | nil => simp [breakAt]
  | cons c cs ih =>
    simp only [breakAt]
    split
    · simp
    · next h =>
      have hc : c ≠ '<' := fun he => h (by simp [he, List.isPrefixOf])
      simp [Ne.symm hc, ih]

theorem breakAt_snd_eq (s : List Char) :
    (breakAt ['<'] s).2 = [] ∨ ∃ X, (breakAt ['<'] s).2 = '<' :: X := by
  induction s with
  | nil => exact .inl rfl
  | cons c cs ih =>
    simp only [breakAt]
    split
    · next h =>
      simp only [List.isPrefixOf, Bool.and_true, beq_iff_eq] at h
      exact .inr ⟨cs, by rw [h]⟩
    · exact ih

theorem eq_append_of_breakAt {s rest : List Char} (h : (breakAt ['<'] s).2 = rest) :
    s = (breakAt ['<'] s).1 ++ rest := by
  rw [← h, breakAt_append]

theorem build_reads (cfg : Config) (p : NodeId) (dp off : Nat) (s : List Char) (d : Draft) :
    Reads cfg p dp off s d (build cfg p dp off s d) := by
  fun_induction build cfg p dp off s d with
  | case1 => exact .nil
  | case2 parent depth offset d head tail body content after text d1 start hr d2 d3 ih =>
    split
    · next body' heq =>
      rw [hr] at heq
      simp only [List.cons.injEq, true_and] at heq
      subst heq
      exact .lead (lt_not_mem_breakAt _) (eq_append_of_breakAt hr) (.comment rfl ih)
    · simp_all
    · simp_all
  | case3 parent depth offset d head tail tail1 hnc span afterTag hslash text d1 start hr next ih =>
    split
    · next body' heq => exact absurd (by rw [hr] at heq; simpa using heq) (hnc body')
    · next tail' _ heq =>
      rw [hr] at heq
      simp only [List.cons.injEq, true_and] at heq
      subst heq
      dsimp only
      rw [if_pos hslash]
      exact .lead (lt_not_mem_breakAt _) (eq_append_of_breakAt hr)
        (.strayEndTag (by simpa using hslash) rfl ih)
    · simp_all
  | case4 parent depth offset d head tail tail1 hnc span afterTag hslash hbang content text d1 start hr
      next d2 ih =>
    split
    · next body' heq => exact absurd (by rw [hr] at heq; simpa using heq) (hnc body')
    · next tail' _ heq =>
      rw [hr] at heq
      simp only [List.cons.injEq, true_and] at heq
      subst heq
      dsimp only
      rw [if_neg hslash, if_pos hbang]
      exact .lead (lt_not_mem_breakAt _) (eq_append_of_breakAt hr)
        (.declaration (fun b h => hnc b h) (by simpa using hbang) rfl ih)
    · simp_all
  | case5 parent depth offset d head tail tail1 hnc span afterTag hslash hbang name hname text d1 start
      hr next ih =>
    split
    · next body' heq => exact absurd (by rw [hr] at heq; simpa using heq) (hnc body')
    · next tail' _ heq =>
      rw [hr] at heq
      simp only [List.cons.injEq, true_and] at heq
      subst heq
      dsimp only
      rw [if_neg hslash, if_neg hbang, if_pos hname]
      exact .lead (lt_not_mem_breakAt _) (eq_append_of_breakAt hr)
        (.emptyTagName (by simpa using hslash) (by simpa using hbang) (by simpa using hname) rfl ih)
    · simp_all
  | case6 parent depth offset d head tail tail1 hnc span afterTag hslash hbang name hname tag d1 text d2
      start hr next hatt ih =>
    split
    · next body' heq => exact absurd (by rw [hr] at heq; simpa using heq) (hnc body')
    · next tail' _ heq =>
      rw [hr] at heq
      simp only [List.cons.injEq, true_and] at heq
      subst heq
      dsimp only
      rw [if_neg hslash, if_neg hbang, if_neg hname]
      simp only [d2, dite_eq_ite] at hatt
      rw [hatt]
      exact .lead (lt_not_mem_breakAt _) (eq_append_of_breakAt hr)
        (.refused ⟨by simpa using hslash, by simpa using hbang, rfl, by simpa using hname, rfl⟩
          hatt ih)
    · simp_all
  | case7 parent depth offset d head tail tail1 hnc span afterTag hslash hbang name hname tag d1 node
      hvoid text d2 start hr next hatt ih =>
    split
    · next body' heq => exact absurd (by rw [hr] at heq; simpa using heq) (hnc body')
    · next tail' _ heq =>
      rw [hr] at heq
      simp only [List.cons.injEq, true_and] at heq
      subst heq
      dsimp only
      rw [if_neg hslash, if_neg hbang, if_neg hname]
      simp only [d2, dite_eq_ite] at hatt
      rw [hatt]
      dsimp only
      rw [if_pos hvoid]
      exact .lead (lt_not_mem_breakAt _) (eq_append_of_breakAt hr)
        (.empty ⟨by simpa using hslash, by simpa using hbang, rfl, by simpa using hname, rfl⟩
          hatt hvoid ih)
    · simp_all
  | case8 parent depth offset d head tail tail1 hnc span afterTag hslash hbang name hname tag d1 node
      hvoid hb text d2 start hr next hatt ih =>
    split
    · next body' heq => exact absurd (by rw [hr] at heq; simpa using heq) (hnc body')
    · next tail' _ heq =>
      rw [hr] at heq
      simp only [List.cons.injEq, true_and] at heq
      subst heq
      dsimp only
      rw [if_neg hslash, if_neg hbang, if_neg hname]
      simp only [d2, dite_eq_ite] at hatt
      rw [hatt]
      dsimp only
      rw [if_neg hvoid]
      split
      · exact .lead (lt_not_mem_breakAt _) (eq_append_of_breakAt hr)
          (.unterminated ⟨by simpa using hslash, by simpa using hbang, rfl, by simpa using hname, rfl⟩
            hatt (Bool.eq_false_iff.mpr hvoid) hb ih)
      · next heq' => rw [hb] at heq'; cases heq'
    · simp_all
  | case9 parent depth offset d head tail tail1 hnc span hslash hbang name hname tag d1 node hvoid inner
      closing hb closeTag text d2 start hr next hatt d3 ihin _ _ _ ih =>
    split
    · next body' heq => exact absurd (by rw [hr] at heq; simpa using heq) (hnc body')
    · next tail' _ heq =>
      rw [hr] at heq
      simp only [List.cons.injEq, true_and] at heq
      subst heq
      dsimp only
      rw [if_neg hslash, if_neg hbang, if_neg hname]
      simp only [d2, dite_eq_ite] at hatt
      rw [hatt]
      dsimp only
      rw [if_neg hvoid]
      split
      · next heq' => rw [hb] at heq'; cases heq'
      · next inner' closing' heq' =>
        rw [hb] at heq'
        simp only [Option.some.injEq, Prod.mk.injEq] at heq'
        obtain ⟨rfl, rfl⟩ := heq'
        have hopen : OpensElement tail1 name (tagTail tail1).1 (tagTail tail1).2 :=
          ⟨by simpa using hslash, by simpa using hbang, rfl, by simpa using hname, rfl⟩
        have hvoid' := Bool.eq_false_iff.mpr hvoid
        have hclose : tagTail closing = ((tagTail closing).1, (tagTail closing).2) := rfl
        refine .lead (lt_not_mem_breakAt _) (eq_append_of_breakAt hr) ?_
        by_cases hraw : cfg.isRawText (String.ofList (tagName tail1)) = true
        · rw [if_pos hraw]
          simp only [d3, closeTag, tag, name, hraw, dite_true] at ih
          exact .rawText hopen hatt hvoid' hb hclose hraw ih
        · by_cases hlimit : depth + 1 ≥ cfg.maxDepth
          · rw [if_neg hraw, if_pos hlimit]
            simp only [d3, closeTag, tag, name, hraw, hlimit, Bool.false_eq_true, dite_false, dite_true] at ih
            exact .depthLimited hopen hatt hvoid' hb hclose (Bool.eq_false_iff.mpr hraw) hlimit ih
          · rw [if_neg hraw, if_neg hlimit]
            simp only [d3, closeTag, tag, name, hraw, hlimit, Bool.false_eq_true, dite_false] at ih
            exact .nested hopen hatt hvoid' hb hclose (Bool.eq_false_iff.mpr hraw) (by omega) ihin ih
    · simp_all
  | case10 parent depth offset d head tail hnc hnt =>
    split
    · next body' heq => exact absurd heq (hnc body')
    · next tail' _ heq => exact absurd heq (hnt tail')
    · next hne hnt' =>
      have hrest : (breakAt ['<'] (head :: tail)).2 = [] := by
        rcases breakAt_snd_eq (head :: tail) with h | ⟨X, h⟩
        · exact h
        · exact absurd h (hnt X)
      have hs := eq_append_of_breakAt hrest
      rw [List.append_nil] at hs
      rw [← hs]
      exact .text (List.cons_ne_nil _ _) (hs ▸ lt_not_mem_breakAt _)

end Html
end HtmlQuery
