import HtmlQuery.Html.Builder
import HtmlQuery.Proofs.Tree.Arena

/-! What the tree builder does to the draft it is given: only `attach` and `report`. -/
namespace HtmlQuery
namespace Html
open Scan

namespace Draft

variable (d : Draft) (p : NodeId) (x : NodeData)

theorem attach_eq : d.attach p x =
    match (d.tree.alloc x).1.appendFailure? p ⟨d.tree.size⟩ with
    | none => (⟨(d.tree.alloc x).1.link p ⟨d.tree.size⟩,d.issues⟩,some ⟨d.tree.size⟩)
    | some _ => (⟨(d.tree.alloc x).1,d.issues⟩,none) := by
  cases d
  rfl

@[simp] theorem attach_issues : (d.attach p x).1.issues = d.issues := by
  rw [attach_eq]
  split <;> rfl

@[simp] theorem report_tree (k : IssueKind) (m : List Char) (o : Nat) :
    (d.report k m o).tree = d.tree := by
  cases d
  rfl

end Draft

/-- The builder makes elements only with the attributes that it reads from a tag. -/
def FromMarkup (x : NodeData) : Prop := ∀ e, x = .element e → ∃ span, e.attrs = parseAttributes span

theorem fromMarkup_element (tag : String) (span : List Char) :
    FromMarkup (.element (.withAttributes tag (parseAttributes span))) :=
  fun _ he => ⟨span, by obtain rfl := NodeData.element.inj he; rfl⟩

/-- The steps of building under the parent `p`. -/
inductive Builds : NodeId → Draft → Draft → Prop
  | done {p : NodeId} {d : Draft} : Builds p d d
  | report {p : NodeId} {d d' : Draft} (k : IssueKind) (m : List Char) (o : Nat) :
      Builds p (d.report k m o) d' → Builds p d d'
  | leaf {p : NodeId} {d d' : Draft} {x : NodeData} : (∀ e, x ≠ .element e) →
      Builds p (d.attach p x).1 d' → Builds p d d'
  | refused {p : NodeId} {d d₁ d' : Draft} {e : Element} : FromMarkup (.element e) →
      d.attach p (.element e) = (d₁, none) → Builds p d₁ d' → Builds p d d'
  | element {p node : NodeId} {d d₁ d₂ d' : Draft} {e : Element} : FromMarkup (.element e) →
      d.attach p (.element e) = (d₁, some node) → Builds node d₁ d₂ → Builds p d₂ d' → Builds p d d'

namespace Builds

theorem text {p : NodeId} {d d' : Draft} (s : String) (h : Builds p (d.attach p (.text s)).1 d') :
    Builds p d d' :=
  .leaf (fun _ h => by cases h) h

theorem attachText {p : NodeId} {d d' : Draft} {text : List Char}
    (h : Builds p (d.attachText p text) d') : Builds p d d' := by
  unfold Draft.attachText at h
  split at h
  · exact h
  · exact .text _ h

theorem leadText {p : NodeId} {d d' : Draft} {text : List Char}
    (h : Builds p (if text.all isMarkupBlank = true then d
      else (d.attach p (.text (String.ofList text))).1) d') : Builds p d d' := by
  split at h
  · exact h
  · exact .text _ h

theorem reportIf {p : NodeId} {d d' : Draft} {c : Prop} [Decidable c] {k : IssueKind} {m : List Char}
    {o : Nat} (h : Builds p (if c then d else d.report k m o) d') : Builds p d d' := by
  split at h
  · exact h
  · exact .report _ _ _ h

theorem content (cfg : Config) (node : NodeId) (d : Draft) (tag : String) (depth : Nat)
    (span inner : List Char) (start : Nat) (rest : Draft) (hrest : Builds node d rest) :
    Builds node d (if cfg.isRawText tag then d.attachText node inner
      else if depth + 1 ≥ cfg.maxDepth then (d.report .depthLimit span start).attachText node inner
      else rest) := by
  split
  · exact attachText .done
  · split
    · exact .report _ _ _ (attachText .done)
    · exact hrest

end Builds

theorem build_builds (cfg : Config) (p : NodeId) (dp off : Nat) (s : List Char) (d : Draft) :
    Builds p d (build cfg p dp off s d) := by
  fun_induction build cfg p dp off s d with
  | case1 => exact .done
  | case2 parent depth offset d head tail body content after text d1 start hr d2 d3 ih =>
    split
    · next body' heq =>
      rw [hr] at heq
      simp only [List.cons.injEq,true_and] at heq
      subst heq
      exact @Builds.leadText _ _ _ text (.reportIf (.leaf (fun _ h => by cases h) ih))
    · simp_all
    · simp_all
  | case3 parent depth offset d head tail tail1 hnc span afterTag hslash text d1 start hr next ih =>
    split
    · next body' heq => exact absurd (by rw [hr] at heq; simpa using heq) (hnc body')
    · next tail' _ heq =>
      rw [hr] at heq
      simp only [List.cons.injEq,true_and] at heq
      subst heq
      dsimp only
      rw [if_pos hslash]
      exact @Builds.leadText _ _ _ text (.report _ _ _ ih)
    · simp_all
  | case4 parent depth offset d head tail tail1 hnc span afterTag hslash hbang content text d1 start hr
      next d2 ih =>
    split
    · next body' heq => exact absurd (by rw [hr] at heq; simpa using heq) (hnc body')
    · next tail' _ heq =>
      rw [hr] at heq
      simp only [List.cons.injEq,true_and] at heq
      subst heq
      dsimp only
      rw [if_neg hslash,if_pos hbang]
      exact @Builds.leadText _ _ _ text (.leaf (fun _ h => by cases h) ih)
    · simp_all
  | case5 parent depth offset d head tail tail1 hnc span afterTag hslash hbang name hname text d1 start
      hr next ih =>
    split
    · next body' heq => exact absurd (by rw [hr] at heq; simpa using heq) (hnc body')
    · next tail' _ heq =>
      rw [hr] at heq
      simp only [List.cons.injEq,true_and] at heq
      subst heq
      dsimp only
      rw [if_neg hslash,if_neg hbang,if_pos hname]
      exact @Builds.leadText _ _ _ text (.report _ _ _ ih)
    · simp_all
  | case6 parent depth offset d head tail tail1 hnc span afterTag hslash hbang name hname tag d1 text d2
      start hr next hatt ih =>
    split
    · next body' heq => exact absurd (by rw [hr] at heq; simpa using heq) (hnc body')
    · next tail' _ heq =>
      rw [hr] at heq
      simp only [List.cons.injEq,true_and] at heq
      subst heq
      dsimp only
      rw [if_neg hslash,if_neg hbang,if_neg hname]
      simp only [d2,dite_eq_ite] at hatt
      rw [hatt]
      exact @Builds.leadText _ _ _ text (.refused (fromMarkup_element _ _) hatt ih)
    · simp_all
  | case7 parent depth offset d head tail tail1 hnc span afterTag hslash hbang name hname tag d1 node
      hvoid text d2 start hr next hatt ih =>
    split
    · next body' heq => exact absurd (by rw [hr] at heq; simpa using heq) (hnc body')
    · next tail' _ heq =>
      rw [hr] at heq
      simp only [List.cons.injEq,true_and] at heq
      subst heq
      dsimp only
      rw [if_neg hslash,if_neg hbang,if_neg hname]
      simp only [d2,dite_eq_ite] at hatt
      rw [hatt]
      dsimp only
      rw [if_pos hvoid]
      exact @Builds.leadText _ _ _ text (.element (fromMarkup_element _ _) hatt .done ih)
    · simp_all
  | case8 parent depth offset d head tail tail1 hnc span afterTag hslash hbang name hname tag d1 node
      hvoid hb text d2 start hr next hatt ih =>
    split
    · next body' heq => exact absurd (by rw [hr] at heq; simpa using heq) (hnc body')
    · next tail' _ heq =>
      rw [hr] at heq
      simp only [List.cons.injEq,true_and] at heq
      subst heq
      dsimp only
      rw [if_neg hslash,if_neg hbang,if_neg hname]
      simp only [d2,dite_eq_ite] at hatt
      rw [hatt]
      dsimp only
      rw [if_neg hvoid]
      split
      · exact @Builds.leadText _ _ _ text (.element (fromMarkup_element _ _) hatt .done (.report _ _ _ ih))
      · next heq' => rw [hb] at heq'; cases heq'
    · simp_all
  | case9 parent depth offset d head tail tail1 hnc span hslash hbang name hname tag d1 node hvoid inner
      closing hb closeTag text d2 start hr next hatt d3 ihin _ _ _ ih =>
    split
    · next body' heq => exact absurd (by rw [hr] at heq; simpa using heq) (hnc body')
    · next tail' _ heq =>
      rw [hr] at heq
      simp only [List.cons.injEq,true_and] at heq
      subst heq
      dsimp only
      rw [if_neg hslash,if_neg hbang,if_neg hname]
      simp only [d2,dite_eq_ite] at hatt
      rw [hatt]
      dsimp only
      rw [if_neg hvoid]
      split
      · next heq' => rw [hb] at heq'; cases heq'
      · next inner' closing' heq' =>
        rw [hb] at heq'
        simp only [Option.some.injEq,Prod.mk.injEq] at heq'
        obtain ⟨rfl,rfl⟩ := heq'
        exact @Builds.leadText _ _ _ text
          (.element (fromMarkup_element _ _) hatt
            (Builds.content cfg node d1 tag depth span inner start _ ihin) ih)
    · simp_all
  | case10 parent depth offset d head tail hnc hnt =>
    split
    · next body' heq => exact absurd heq (hnc body')
    · next tail' _ heq => exact absurd heq (hnt tail')
    · exact Builds.leadText .done

section Preserves

variable (P : Draft → Prop) (hattach : ∀ d p x, P d → FromMarkup x → P (d.attach p x).1)
  (hreport : ∀ d k m o, P d → P (d.report k m o))
include hattach hreport

theorem Builds.preserves {p : NodeId} {d d' : Draft} (h : Builds p d d') (hd : P d) : P d' := by
  induction h with
  | done => exact hd
  | report k m o _ ih => exact ih (hreport _ _ _ _ hd)
  | leaf hx _ ih => exact ih (hattach _ _ _ hd fun e he => absurd he (hx e))
  | @refused q d₀ _ _ e hfrom hatt _ ih =>
    have h₁ := hattach d₀ q _ hd hfrom
    rw [hatt] at h₁
    exact ih h₁
  | @element q _ d₀ _ _ _ e hfrom hatt _ _ ihin ihrest =>
    have h₁ := hattach d₀ q _ hd hfrom
    rw [hatt] at h₁
    exact ihrest (ihin h₁)

theorem build_preserves (cfg : Config) (p : NodeId) (dp off : Nat) (s : List Char) (d : Draft)
    (hd : P d) : P (build cfg p dp off s d) :=
  (build_builds cfg p dp off s d).preserves P hattach hreport hd

end Preserves

end Html
end HtmlQuery
