import HtmlQuery.Proofs.Selector.AttributeTest
import HtmlQuery.Proofs.Selector.Display
import HtmlQuery.Selector.Match

/-! A selector list is the union of its alternatives. -/
namespace HtmlQuery
namespace Selector
open Scan

/-- The bracket depth after the brackets `l`, starting from `d`. -/
def depthOver (d : Nat) (l : List Char) : Nat := l.foldl (fun d c => depthAfter c d) d

/-! ## The depth of the scan -/

theorem depthAfter_of_not_isBracket {c : Char} (h : isBracket c = false) (d : Nat) :
    depthAfter c d = d := by
  simp only [isBracket, Bool.or_eq_false_iff] at h
  simp [depthAfter, h.1, h.2]

theorem depth_run (q : Option Char) (d : Nat) (w : List Char) :
    (Lex.run ⟨q, d⟩ w).depth = depthOver d (bracketChars ⟨q, d⟩ w) := by
  induction w generalizing q d with
  | nil => rfl
  | cons c w ih =>
    cases q with
    | some x => simpa [bracketChars, Lex.next] using ih (if c = x then none else some x) d
    | none =>
      by_cases hb : isBracket c = true
      · simpa [bracketChars, Lex.next, hb, depthOver] using ih (quoteAfter c) (depthAfter c d)
      · have hd := depthAfter_of_not_isBracket (Bool.eq_false_iff.mpr hb) d
        simpa [bracketChars, Lex.next, hb, hd] using ih (quoteAfter c) d

theorem depthOver_nested {l : List Char} (h : Nested l) (d : Nat) : depthOver d l = d := by
  induction h generalizing d with
  | nil => rfl
  | @wrap o c u w hoc _ _ ihu ihw =>
    obtain ⟨ho, hc⟩ := isOpening_of_openingOf? hoc
    have hclose : depthAfter c (d + 1) = d := by simp [depthAfter, hc, hoc]
    have hopen : depthAfter o d = d + 1 := by simp [depthAfter, ho]
    calc depthOver d (o :: u ++ c :: w)
        = depthOver (depthAfter c (depthOver (depthAfter o d) u)) w := by
          simp [depthOver, List.foldl_append]
      _ = d := by rw [hopen, ihu, hclose, ihw]

theorem QuotesClosed.run_quote {stop : Char → Prop} {s : List Char} (h : QuotesClosed stop s)
    (d : Nat) : (Lex.run ⟨none, d⟩ s).quote = none := by
  induction h generalizing d with
  | nil => rfl
  | @plain c cs _ hq _ ih =>
    rw [Lex.run_cons, Lex.next, quoteAfter, if_neg (by simp [hq])]
    exact ih _
  | @quoted q body cs hq hbody _ ih =>
    have hin : ∀ b : List Char, q ∉ b → Lex.run ⟨some q, d⟩ b = ⟨some q, d⟩ := by
      intro b hb
      induction b with
      | nil => rfl
      | cons x b ihb =>
        have hx : x ≠ q := fun hx => hb (hx ▸ List.mem_cons_self)
        rw [Lex.run_cons, Lex.next, if_neg hx]
        exact ihb fun hm => hb (List.mem_cons_of_mem _ hm)
    have hopen : Lex.next ⟨none, d⟩ q = ⟨some q, d⟩ := by
      have hb := isBracket_of_quote hq
      simp [Lex.next, quoteAfter, hq, depthAfter, hb.1, hb.2]
    rw [List.cons_append, Lex.run_cons, hopen, Lex.run_append, hin body hbody, Lex.run_cons]
    simpa [Lex.next] using ih d

theorem run_top_of_nested {s : List Char} (hn : Nested (bracketChars Lex.top s))
    (hq : QuotesClosed (fun _ => False) s) : Lex.top.run s = Lex.top := by
  have hdepth : (Lex.top.run s).depth = 0 := (depth_run none 0 s).trans (depthOver_nested hn 0)
  have hquote : (Lex.top.run s).quote = none := hq.run_quote 0
  cases hst : Lex.top.run s with
  | mk q d =>
    rw [hst] at hdepth hquote
    exact Lex.eq_top_iff.mpr ⟨hquote, hdepth⟩

/-! ## Splitting a joined text -/

theorem pieceChains_append_comma_of_run {a : List Char} (ha : Lex.top.run a = Lex.top)
    (b : List Char) : pieceChains (a ++ ',' :: b) = pieceChains a ++ pieceChains b := by
  induction a using pieces_induction with
  | last p hp =>
    rw [pieceChains_append_comma hp ha, pieceChains_of_avoids hp]
  | cons p s hp hrun ih =>
    have hs : Lex.top.run s = Lex.top := by
      rwa [Lex.run_append, hrun, Lex.run_cons, Lex.next_top_comma] at ha
    rw [List.append_assoc, List.cons_append, pieceChains_append_comma hp hrun,
      pieceChains_append_comma hp hrun, ih hs, List.append_assoc]

/-- Joining two lists by `, ` reads as the chains of both, and selects what either selects. -/
theorem parse_join {A B : String} {LA LB : SelectorList} (hA : SelectorList.parse A = .ok LA)
    (hB : SelectorList.parse B = .ok LB) (hq : QuotesClosed (fun _ => False) A.toList) :
    ∃ L, SelectorList.parse (A ++ ", " ++ B) = .ok L ∧ L.chains = LA.chains ++ LB.chains ∧
      ∀ t n, L.selects t n = (LA.selects t n || LB.selects t n) := by
  obtain ⟨hbalA, hchainsA, hneA⟩ := parse_eq_ok_iff.mp hA
  obtain ⟨hbalB, hchainsB, -⟩ := parse_eq_ok_iff.mp hB
  have hnestA := (unbalanced?_eq_none_iff _).mp hbalA
  have hrun := run_top_of_nested hnestA hq
  have hjoin : (A ++ ", " ++ B).toList = A.toList ++ ',' :: ' ' :: B.toList := by simp
  have hbal : unbalanced? [] none 0 (A ++ ", " ++ B).toList = none := by
    rw [hjoin, unbalanced?_eq_none_iff, bracketChars_append_comma hrun,
      bracketChars_cons_stop (by decide)]
    exact hnestA.append ((unbalanced?_eq_none_iff _).mp hbalB)
  have hchains : pieceChains (A ++ ", " ++ B).toList = LA.chains ++ LB.chains := by
    rw [hjoin, pieceChains_append_comma_of_run hrun, pieceChains_blank, hchainsA, hchainsB]
  refine ⟨⟨LA.chains ++ LB.chains⟩, parse_eq_ok_iff.mpr ⟨hbal, hchains, ?_⟩, rfl, ?_⟩
  · exact fun h => hneA (List.append_eq_nil_iff.mp h).1
  · intro t n
    simp [SelectorList.selects]

theorem parse_eq_ok_of_toOption {s : String} {L : SelectorList}
    (h : (SelectorList.parse s).toOption = some L) : SelectorList.parse s = .ok L := by
  revert h
  cases SelectorList.parse s <;> simp [Except.toOption]

/-- A comma inside a quoted value stays in its chain. -/
theorem parse_join_quoted_title :
    let LA : SelectorList := ⟨[⟨Link.ofCompound "li[title=\"a, b\"]" .descendant, []⟩]⟩
    let LB : SelectorList := ⟨[⟨Link.ofCompound "p" .descendant, []⟩]⟩
    SelectorList.parse "li[title=\"a, b\"]" = .ok LA ∧ SelectorList.parse "p" = .ok LB ∧
      QuotesClosed (fun _ => False) "li[title=\"a, b\"]".toList ∧
      ∃ L, SelectorList.parse ("li[title=\"a, b\"]" ++ ", " ++ "p") = .ok L ∧
        L.chains = LA.chains ++ LB.chains ∧
        ∀ t n, L.selects t n = (LA.selects t n || LB.selects t n) := by
  intro LA LB
  have hA : SelectorList.parse "li[title=\"a, b\"]" = .ok LA :=
    parse_eq_ok_of_toOption (by decide +kernel)
  have hB : SelectorList.parse "p" = .ok LB := parse_eq_ok_of_toOption (by decide +kernel)
  have hq : QuotesClosed (fun _ => False) "li[title=\"a, b\"]".toList := by
    have h : "li[title=\"a, b\"]".toList =
        "li[title=".toList ++ ('"' :: "a, b".toList ++ '"' :: "]".toList) := by simp
    rw [h]
    apply QuotesClosed.append
    · exact .of_plain (by simp [isQuote])
    · exact .quoted rfl (by simp) (.of_plain (by simp [isQuote]))
  exact ⟨hA, hB, hq, parse_join hA hB hq⟩

end Selector
end HtmlQuery
