import HtmlQuery.Selector.Condition

/-! Compiling a compound selector part by part. -/
namespace HtmlQuery
namespace Selector
open Scan

/-- A text of closed quoted runs and of characters outside them that `stop` does not pick. -/
inductive QuotesClosed (stop : Char → Prop) : List Char → Prop
  | nil : QuotesClosed stop []
  | plain {c : Char} {cs : List Char} : ¬ stop c → isQuote c = false → QuotesClosed stop cs →
      QuotesClosed stop (c :: cs)
  | quoted {q : Char} {body cs : List Char} : isQuote q = true → q ∉ body →
      QuotesClosed stop cs → QuotesClosed stop (q :: body ++ q :: cs)

theorem QuotesClosed.of_plain {stop : Char → Prop} {s : List Char}
    (hs : ∀ c ∈ s, ¬ stop c ∧ isQuote c = false) : QuotesClosed stop s := by
  induction s with
  | nil => exact .nil
  | cons c cs ih =>
    have hc := hs c List.mem_cons_self
    exact .plain hc.1 hc.2 (ih fun x hx => hs x (List.mem_cons_of_mem _ hx))

/-- The text inside a pair of parentheses. -/
inductive ParensClosed : List Char → Prop
  | nil : ParensClosed []
  | plain {c : Char} {cs : List Char} : c ≠ '(' → c ≠ ')' → isQuote c = false → ParensClosed cs →
      ParensClosed (c :: cs)
  | quoted {q : Char} {body cs : List Char} : isQuote q = true → q ∉ body → ParensClosed cs →
      ParensClosed (q :: body ++ q :: cs)
  | group {inner cs : List Char} : ParensClosed inner → ParensClosed cs →
      ParensClosed ('(' :: inner ++ ')' :: cs)

/-- A simple selector of a compound, after its type token, as it is written. -/
inductive Simple where
  | byClass (name : List Char)
  | byId (name : List Char)
  | byAttribute (expr : List Char)
  | pseudo (doubled : Bool) (name : List Char) (arg : Option (List Char))

namespace Simple

/-- The argument of a pseudo-class as written: in parentheses, or nothing. -/
def argText (arg : Option (List Char)) : List Char := (arg.map fun a => '(' :: a ++ [')']).getD []

/-- How a simple selector is written. -/
def text : Simple → List Char
  | byClass name => '.' :: name
  | byId name => '#' :: name
  | byAttribute expr => '[' :: expr ++ [']']
  | pseudo doubled name arg => ':' :: ((if doubled then [':'] else []) ++ name ++ argText arg)

/-- The conditions a simple selector stands for. -/
def conditions : Simple → List Condition
  | byClass name => if name.isEmpty then [] else [.byClass (String.ofList name)]
  | byId name => if name.isEmpty then [] else [.byId (String.ofList name)]
  | byAttribute expr => (attrTest? expr).toList.map .byAttribute
  | pseudo .. => []

/-- A simple selector that reads back as itself. -/
def WellFormed : Simple → Prop
  | byClass name | byId name => ∀ c ∈ name, c ∉ partStart
  | byAttribute expr => QuotesClosed (· = ']') expr
  | pseudo _ name arg => (∀ c ∈ name, c ∉ ['.', '#', '[', ':', '(']) ∧ ∀ a ∈ arg, ParensClosed a

end Simple

def typeConditions : List Char → List Condition
  | [] => []
  | ['*'] => [.universal]
  | name => [.byType (String.ofList name)]

/-! ## The scans of the parts -/

theorem breakAtAny_of_stop {set w rest : List Char} (hw : ∀ c ∈ w, c ∉ set)
    (hrest : ∀ c r, rest = c :: r → c ∈ set) : breakAtAny set (w ++ rest) = (w, rest) := by
  induction w with
  | nil =>
    cases rest with
    | nil => rfl
    | cons c r => simp [breakAtAny, hrest c r rfl]
  | cons c cs ih =>
    have hc : c ∉ set := hw c List.mem_cons_self
    have h := ih fun x hx => hw x (List.mem_cons_of_mem _ hx)
    simp only [breakAtAny, Prod.mk.injEq] at h ⊢
    rw [List.cons_append, List.takeWhile_cons_of_pos (by simpa using hc),
      List.dropWhile_cons_of_pos (by simpa using hc), h.1, h.2]
    exact ⟨rfl, rfl⟩

theorem breakOutsideQuotes_quoted (lit : List Char) {q : Char} {body : List Char} (hq : q ∉ body)
    (X : List Char) :
    breakOutsideQuotes lit (some q) (body ++ q :: X) =
      (body ++ q :: (breakOutsideQuotes lit none X).1, (breakOutsideQuotes lit none X).2) := by
  induction body with
  | nil => simp [breakOutsideQuotes]
  | cons b bs ih =>
    have hb : b ≠ q := fun h => hq (h ▸ List.mem_cons_self)
    simp [breakOutsideQuotes, hb, ih fun h => hq (List.mem_cons_of_mem _ h)]

theorem breakOutsideQuotes_closed {e : List Char} (he : QuotesClosed (· = ']') e) (rest : List Char) :
    breakOutsideQuotes [']'] none (e ++ ']' :: rest) = (e, ']' :: rest) := by
  induction he with
  | nil => simp [breakOutsideQuotes, List.isPrefixOf]
  | @plain c cs hc hq _ ih =>
    simp only [List.cons_append, breakOutsideQuotes, hq, Bool.false_eq_true, if_false, ih]
    simp [List.isPrefixOf, Ne.symm hc]
  | @quoted q body cs hq hbody _ ih =>
    have hq' : q ≠ ']' := fun h => by subst h; cases hq
    simp only [List.cons_append, List.append_assoc, breakOutsideQuotes, hq, if_true]
    rw [breakOutsideQuotes_quoted _ hbody, ih]
    simp [List.isPrefixOf, Ne.symm hq']

theorem parenGroup_quoted (d : Nat) {q : Char} {body : List Char} (hq : q ∉ body) (X : List Char) :
    parenGroup d (some q) (body ++ q :: X) =
      (body ++ q :: (parenGroup d none X).1, (parenGroup d none X).2) := by
  induction body with
  | nil => simp [parenGroup]
  | cons b bs ih =>
    have hb : b ≠ q := fun h => hq (h ▸ List.mem_cons_self)
    simp [parenGroup, hb, ih fun h => hq (List.mem_cons_of_mem _ h)]

theorem parenGroup_closed {a : List Char} (ha : ParensClosed a) :
    ∀ {d : Nat}, 1 ≤ d → ∀ X, parenGroup d none (a ++ X) =
      (a ++ (parenGroup d none X).1, (parenGroup d none X).2) := by
  induction ha with
  | nil => simp
  | @plain c cs h₁ h₂ hq _ ih =>
    intro d hd X
    simp [parenGroup, h₁, h₂, hq, ih hd X]
  | @quoted q body cs hq hbody _ ih =>
    intro d hd X
    have h₁ : q ≠ ')' := fun h => by subst h; cases hq
    have h₂ : q ≠ '(' := fun h => by subst h; cases hq
    simp only [List.cons_append, List.append_assoc, parenGroup, h₁, decide_false, Bool.false_and,
      Bool.false_eq_true, if_false, h₂, hq, if_true]
    rw [parenGroup_quoted _ hbody, ih hd X]
  | @group inner cs _ _ ihin ih =>
    intro d hd X
    have hopen : parenGroup d none ('(' :: (inner ++ ')' :: (cs ++ X))) =
        ('(' :: (parenGroup (d + 1) none (inner ++ ')' :: (cs ++ X))).1,
          (parenGroup (d + 1) none (inner ++ ')' :: (cs ++ X))).2) := by
      simp [parenGroup, isQuote]
    have hclose : parenGroup (d + 1) none (')' :: (cs ++ X)) =
        (')' :: (parenGroup d none (cs ++ X)).1, (parenGroup d none (cs ++ X)).2) := by
      simp [parenGroup, isQuote, show ¬ d + 1 ≤ 1 by omega]
    simp only [List.cons_append, List.append_assoc]
    rw [hopen, ihin (by omega), hclose, ih hd X]

theorem parenGroup_argument {a : List Char} (ha : ParensClosed a) (X : List Char) :
    parenGroup 0 none ('(' :: (a ++ ')' :: X)) = ('(' :: (a ++ [')']), X) := by
  have hopen : parenGroup 0 none ('(' :: (a ++ ')' :: X)) =
      ('(' :: (parenGroup 1 none (a ++ ')' :: X)).1, (parenGroup 1 none (a ++ ')' :: X)).2) := by
    simp [parenGroup, isQuote]
  rw [hopen, parenGroup_closed ha (Nat.le_refl 1)]
  simp [parenGroup]

/-! ## Texts of simple selectors -/

namespace Simple

theorem text_head (y : Simple) : ∃ c r, y.text = c :: r ∧ c ∈ partStart := by
  cases y <;> simp [text, partStart]

theorem flatMap_text_head (ys : List Simple) :
    ∀ c r, ys.flatMap text = c :: r → c ∈ partStart := by
  intro c r h
  cases ys with
  | nil => cases h
  | cons y ys =>
    obtain ⟨c', r', hy, hc'⟩ := y.text_head
    rw [List.flatMap_cons, hy, List.cons_append, List.cons.injEq] at h
    exact h.1 ▸ hc'

end Simple

theorem pseudoSpan_colon (X : List Char) :
    pseudoSpan (':' :: X) = (':' :: (pseudoName X).1, (pseudoName X).2) := rfl

theorem pseudoSpan_of_not_colon {s : List Char} (h : ∀ r, s ≠ ':' :: r) :
    pseudoSpan s = pseudoName s := by
  unfold pseudoSpan
  split
  · next r => exact absurd rfl (h r)
  · rfl

theorem pseudoName_snd {name : List Char} {arg : Option (List Char)}
    (hname : ∀ c ∈ name, c ∉ ['.', '#', '[', ':', '(']) (harg : ∀ a ∈ arg, ParensClosed a)
    {rest : List Char} (hrest : ∀ c r, rest = c :: r → c ∈ partStart) :
    (pseudoName (name ++ Simple.argText arg ++ rest)).2 = rest := by
  cases arg with
  | none =>
    have hb : breakAtAny ['.', '#', '[', ':', '('] (name ++ rest) = (name, rest) :=
      breakAtAny_of_stop hname fun c r h => by
        have hc := hrest c r h
        simp only [partStart, List.mem_cons, List.not_mem_nil, or_false] at hc
        rcases hc with rfl | rfl | rfl | rfl <;> decide
    simp only [Simple.argText, Option.map_none, Option.getD_none, List.append_nil]
    unfold pseudoName
    rw [hb]
    cases rest with
    | nil => rfl
    | cons c r =>
      have hc := hrest c r rfl
      simp only [partStart, List.mem_cons, List.not_mem_nil, or_false] at hc
      rcases hc with rfl | rfl | rfl | rfl <;> rfl
  | some a =>
    have hb : breakAtAny ['.', '#', '[', ':', '('] (name ++ ('(' :: a ++ ')' :: rest)) =
        (name, '(' :: a ++ ')' :: rest) :=
      breakAtAny_of_stop hname fun c r h => by
        simp only [List.cons_append, List.cons.injEq] at h
        simp [← h.1]
    have htext : name ++ Simple.argText (some a) ++ rest = name ++ ('(' :: a ++ ')' :: rest) := by
      simp [Simple.argText]
    rw [htext]
    unfold pseudoName
    rw [hb]
    simp [parenGroup_argument (harg a rfl)]

theorem pseudoSpan_rest (doubled : Bool) {name : List Char} {arg : Option (List Char)}
    (hy : (Simple.pseudo doubled name arg).WellFormed) {ys : List Simple}
    (hys : ∀ y ∈ ys, y.WellFormed) :
    ∃ zs : List Simple, (∀ z ∈ zs, z.WellFormed) ∧
      (pseudoSpan ((if doubled then [':'] else []) ++ name ++ Simple.argText arg ++
        ys.flatMap Simple.text)).2 = zs.flatMap Simple.text ∧
      zs.flatMap Simple.conditions = ys.flatMap Simple.conditions := by
  obtain ⟨hname, harg⟩ := hy
  have hrest := Simple.flatMap_text_head ys
  cases doubled with
  | true =>
    refine ⟨ys, hys, ?_, rfl⟩
    show (pseudoSpan (':' :: (name ++ Simple.argText arg ++ ys.flatMap Simple.text))).2 = _
    rw [pseudoSpan_colon]
    exact pseudoName_snd hname harg hrest
  | false =>
    simp only [Bool.false_eq_true, if_false, List.nil_append]
    by_cases hcolon : ∃ r, name ++ Simple.argText arg ++ ys.flatMap Simple.text = ':' :: r
    · obtain ⟨r, hr⟩ := hcolon
      have hname0 : name = [] := by
        cases name with
        | nil => rfl
        | cons c cs =>
          simp only [List.cons_append, List.cons.injEq] at hr
          have hc := hname c List.mem_cons_self
          rw [hr.1] at hc
          exact absurd (by simp) hc
      have harg0 : arg = none := by
        cases arg with
        | none => rfl
        | some a => simp [hname0, Simple.argText] at hr
      subst hname0 harg0
      simp only [Simple.argText, Option.map_none, Option.getD_none, List.append_nil,
        List.nil_append] at hr ⊢
      cases ys with
      | nil => cases hr
      | cons y ys =>
        cases y with
        | byClass n => simp [Simple.text] at hr
        | byId n => simp [Simple.text] at hr
        | byAttribute e => simp [Simple.text] at hr
        | pseudo doubled' name' arg' =>
          obtain ⟨hname', harg'⟩ := hys _ List.mem_cons_self
          have hys' : ∀ y ∈ ys, y.WellFormed := fun y hy => hys y (List.mem_cons_of_mem _ hy)
          have hrest' := Simple.flatMap_text_head ys
          simp only [List.flatMap_cons, Simple.text, List.cons_append, pseudoSpan_colon]
          cases doubled' with
          | false =>
            refine ⟨ys, hys', ?_, by simp [Simple.conditions]⟩
            simp only [Bool.false_eq_true, if_false, List.nil_append, List.append_assoc]
            rw [← List.append_assoc]
            exact pseudoName_snd hname' harg' hrest'
          | true =>
            -- the second colon ends an empty name, and the rest is the pseudo-class undoubled
            refine ⟨.pseudo false name' arg' :: ys,
              fun z hz => ?_, ?_, by simp [Simple.conditions]⟩
            · rcases List.mem_cons.mp hz with rfl | hz
              · exact ⟨hname', harg'⟩
              · exact hys' z hz
            · have h := @pseudoName_snd [] none (by simp) (by simp)
                (':' :: (name' ++ Simple.argText arg' ++ ys.flatMap Simple.text))
                (fun c r h => by simp only [List.cons.injEq] at h; simp [← h.1, partStart])
              simpa [Simple.argText, Simple.text] using h
    · refine ⟨ys, hys, ?_, rfl⟩
      rw [pseudoSpan_of_not_colon fun r h => hcolon ⟨r, h⟩]
      exact pseudoName_snd hname harg hrest

/-! ## Compiling a compound -/

theorem Simple.eq_of_text_append {y : Simple} {rest cs : List Char} {c : Char}
    (h : y.text ++ rest = c :: cs) :
    (∃ n, y = .byClass n ∧ c = '.' ∧ cs = n ++ rest) ∨
    (∃ n, y = .byId n ∧ c = '#' ∧ cs = n ++ rest) ∨
    (∃ e, y = .byAttribute e ∧ c = '[' ∧ cs = e ++ ']' :: rest) ∨
    (∃ doubled n arg, y = .pseudo doubled n arg ∧ c = ':' ∧
      cs = (if doubled then [':'] else []) ++ n ++ Simple.argText arg ++ rest) := by
  cases y with
  | byClass n =>
    simp only [text, List.cons_append, List.cons.injEq] at h
    exact .inl ⟨n, rfl, h.1.symm, h.2.symm⟩
  | byId n =>
    simp only [text, List.cons_append, List.cons.injEq] at h
    exact .inr (.inl ⟨n, rfl, h.1.symm, h.2.symm⟩)
  | byAttribute e =>
    simp only [text, List.cons_append, List.cons.injEq, List.append_assoc] at h
    exact .inr (.inr (.inl ⟨e, rfl, h.1.symm, h.2.symm⟩))
  | pseudo doubled n arg =>
    simp only [text, List.cons_append, List.cons.injEq] at h
    exact .inr (.inr (.inr ⟨doubled, n, arg, rfl, h.1.symm, h.2.symm⟩))

theorem breakAtAny_name {n : List Char} (hn : ∀ c ∈ n, c ∉ partStart) (ys : List Simple) :
    breakAtAny partStart (n ++ ys.flatMap Simple.text) = (n, ys.flatMap Simple.text) :=
  breakAtAny_of_stop hn (Simple.flatMap_text_head ys)

theorem Simple.exists_cons_of_flatMap {ys : List Simple} {c : Char} {cs : List Char}
    (h : c :: cs = ys.flatMap Simple.text) :
    ∃ y ys', ys = y :: ys' ∧ y.text ++ ys'.flatMap Simple.text = c :: cs := by
  cases ys with
  | nil => cases h
  | cons y ys => exact ⟨y, ys, rfl, by rw [h, List.flatMap_cons]⟩

theorem Simple.read_name {ys : List Simple} (hys : ∀ y ∈ ys, y.WellFormed) {c : Char}
    {cs : List Char} (hw : c :: cs = ys.flatMap Simple.text) (hc : (c = '.' || c = '#') = true) :
    ∃ (n : List Char) (ys' : List Simple), (∀ y ∈ ys', y.WellFormed) ∧
      breakAtAny partStart cs = (n, ys'.flatMap Simple.text) ∧
      ys.flatMap Simple.conditions = (if n.isEmpty then [] else
        [(if c = '.' then Condition.byClass else Condition.byId) (String.ofList n)]) ++
        ys'.flatMap Simple.conditions := by
  obtain ⟨y, ys', rfl, hy⟩ := Simple.exists_cons_of_flatMap hw
  have hys' : ∀ z ∈ ys', z.WellFormed := fun z hz => hys z (List.mem_cons_of_mem _ hz)
  have hname := hys y List.mem_cons_self
  rcases Simple.eq_of_text_append hy with
    ⟨n, rfl, rfl, rfl⟩ | ⟨n, rfl, rfl, rfl⟩ | ⟨_, -, rfl, -⟩ | ⟨_, _, _, -, rfl, -⟩
  · exact ⟨n, ys', hys', breakAtAny_name hname ys', by simp [Simple.conditions]⟩
  · exact ⟨n, ys', hys', breakAtAny_name hname ys', by simp [Simple.conditions]⟩
  · exact absurd hc (by decide)
  · exact absurd hc (by decide)

theorem Simple.read_attribute {ys : List Simple} (hys : ∀ y ∈ ys, y.WellFormed) {cs : List Char}
    (hw : '[' :: cs = ys.flatMap Simple.text) :
    ∃ (e : List Char) (ys' : List Simple), (∀ y ∈ ys', y.WellFormed) ∧
      breakOutsideQuotes [']'] none cs = (e, ']' :: ys'.flatMap Simple.text) ∧
      ys.flatMap Simple.conditions =
        (attrTest? e).toList.map .byAttribute ++ ys'.flatMap Simple.conditions := by
  obtain ⟨y, ys', rfl, hy⟩ := Simple.exists_cons_of_flatMap hw
  have hys' : ∀ z ∈ ys', z.WellFormed := fun z hz => hys z (List.mem_cons_of_mem _ hz)
  rcases Simple.eq_of_text_append hy with
    ⟨_, -, h, -⟩ | ⟨_, -, h, -⟩ | ⟨e, rfl, -, rfl⟩ | ⟨_, _, _, -, h, -⟩
  · exact absurd h (by decide)
  · exact absurd h (by decide)
  · exact ⟨e, ys', hys', breakOutsideQuotes_closed (hys _ List.mem_cons_self) _,
      by simp [Simple.conditions]⟩
  · exact absurd h (by decide)

theorem Simple.read_pseudo {ys : List Simple} (hys : ∀ y ∈ ys, y.WellFormed) {cs : List Char}
    (hw : ':' :: cs = ys.flatMap Simple.text) :
    ∃ zs : List Simple, (∀ z ∈ zs, z.WellFormed) ∧ (pseudoSpan cs).2 = zs.flatMap Simple.text ∧
      ys.flatMap Simple.conditions = zs.flatMap Simple.conditions := by
  obtain ⟨y, ys', rfl, hy⟩ := Simple.exists_cons_of_flatMap hw
  have hys' : ∀ z ∈ ys', z.WellFormed := fun z hz => hys z (List.mem_cons_of_mem _ hz)
  rcases Simple.eq_of_text_append hy with
    ⟨_, -, h, -⟩ | ⟨_, -, h, -⟩ | ⟨_, -, h, -⟩ | ⟨doubled, n, arg, rfl, -, rfl⟩
  · exact absurd h (by decide)
  · exact absurd h (by decide)
  · exact absurd h (by decide)
  · obtain ⟨zs, hzs, hspan, hconds⟩ := pseudoSpan_rest doubled (hys _ List.mem_cons_self) hys'
    exact ⟨zs, hzs, hspan, by simp [Simple.conditions, hconds]⟩

theorem compileParts_simples (compound : String) (w : List Char) :
    ∀ ys : List Simple, (∀ y ∈ ys, y.WellFormed) → w = ys.flatMap Simple.text →
      (compileParts compound w).1 = ys.flatMap Simple.conditions := by
  fun_induction compileParts compound w with
  | case1 =>
    intro ys _ hw
    cases ys with
    | nil => rfl
    | cons y ys =>
      obtain ⟨c, r, hy, -⟩ := y.text_head
      simp [hy] at hw
  | case2 c cs hdot name r hempty ih =>
    intro ys hys hw
    obtain ⟨n, ys', hys', hb, hconds⟩ := Simple.read_name hys hw hdot
    simp only [name, r, hb] at hempty ih ⊢
    rw [hconds, if_pos hempty, List.nil_append]
    exact ih ys' hys' rfl
  | case3 c cs hdot name r hne ih =>
    intro ys hys hw
    obtain ⟨n, ys', hys', hb, hconds⟩ := Simple.read_name hys hw hdot
    simp only [name, r, hb] at hne ih ⊢
    rw [hconds, if_neg hne, ih ys' hys' rfl]
    rfl
  | case4 cs expr r t ht hdot ih =>
    intro ys hys hw
    obtain ⟨e, ys', hys', hb, hconds⟩ := Simple.read_attribute hys hw
    simp only [expr, r, hb, List.tail_cons] at ht ih ⊢
    rw [hconds, ht, ih ys' hys' rfl]
    rfl
  | case5 cs expr r ht hdot ih =>
    intro ys hys hw
    obtain ⟨e, ys', hys', hb, hconds⟩ := Simple.read_attribute hys hw
    simp only [expr, r, hb, List.tail_cons] at ht ih ⊢
    rw [hconds, ht, ih ys' hys' rfl]
    rfl
  | case6 cs pseudo r hdot hbr ih =>
    intro ys hys hw
    obtain ⟨zs, hzs, hspan, hconds⟩ := Simple.read_pseudo hys hw
    simp only [pseudo, r, hspan] at ih ⊢
    rw [hconds, ih zs hzs rfl]
  | case7 c cs hdot hbr hcolon stray r ih =>
    intro ys _ hw
    have hc := Simple.flatMap_text_head ys c cs hw.symm
    simp only [partStart, List.mem_cons, List.not_mem_nil, or_false] at hc
    rcases hc with rfl | rfl | rfl | rfl <;> simp at hdot hbr hcolon

theorem compile_fst_type {t rest : List Char} (ht : ∀ c ∈ t, c ∉ partStart)
    (hrest : ∀ c r, rest = c :: r → c ∈ partStart) :
    (compile (String.ofList (t ++ rest))).1 =
      typeConditions t ++ (compileParts (String.ofList (t ++ rest)) rest).1 := by
  have hb : breakAtAny partStart (t ++ rest) = (t, rest) := breakAtAny_of_stop ht hrest
  unfold compile
  simp only [String.toList_ofList, hb]
  split <;> simp_all [typeConditions]

theorem compile_conditions {t : List Char} (ht : ∀ c ∈ t, c ∉ partStart) {ys : List Simple}
    (hys : ∀ y ∈ ys, y.WellFormed) :
    (compile (String.ofList (t ++ ys.flatMap Simple.text))).1 =
      typeConditions t ++ ys.flatMap Simple.conditions := by
  rw [compile_fst_type ht (Simple.flatMap_text_head ys), compileParts_simples _ _ ys hys rfl]

/-- Compiling is compositional over simple selectors. -/
theorem compile_simples {t : List Char} (ht : ∀ c ∈ t, c ∉ partStart) :
    (∀ ys : List Simple, (∀ y ∈ ys, y.WellFormed) →
      (compile (String.ofList (t ++ ys.flatMap Simple.text))).1 =
        typeConditions t ++ ys.flatMap Simple.conditions) ∧
    (∀ (ys zs : List Simple) (doubled : Bool) (name : List Char) (arg : Option (List Char)),
      (∀ y ∈ ys ++ zs, y.WellFormed) → (Simple.pseudo doubled name arg).WellFormed →
      (compile (String.ofList (t ++ (ys ++ .pseudo doubled name arg :: zs).flatMap Simple.text))).1 =
        (compile (String.ofList (t ++ (ys ++ zs).flatMap Simple.text))).1) := by
  refine ⟨fun ys hys => compile_conditions ht hys, ?_⟩
  intro ys zs doubled name arg hys hp
  have hall : ∀ y ∈ ys ++ .pseudo doubled name arg :: zs, y.WellFormed := by
    intro y hy
    simp only [List.mem_append, List.mem_cons] at hy
    rcases hy with hy | rfl | hy
    · exact hys y (List.mem_append_left _ hy)
    · exact hp
    · exact hys y (List.mem_append_right _ hy)
  rw [compile_conditions ht hall, compile_conditions ht hys]
  simp [Simple.conditions]

theorem compile_simples_link :
    (compile "a.x:hover[href]").1 = (compile "a.x[href]").1 ∧
      (compile "a.x[href]").1 = [.byType "a", .byClass "x", .byAttribute ⟨"href", .present, "", false⟩] := by
  have ht : ∀ c ∈ "a".toList, c ∉ partStart := by simp [partStart]
  have hx : (Simple.byClass "x".toList).WellFormed := by simp [Simple.WellFormed, partStart]
  have hhref : (Simple.byAttribute "href".toList).WellFormed := by
    exact QuotesClosed.of_plain (by simp [isQuote])
  have hhover : (Simple.pseudo false "hover".toList none).WellFormed := by
    simp [Simple.WellFormed]
  have hys : ∀ y ∈ [Simple.byClass "x".toList] ++ [Simple.byAttribute "href".toList], y.WellFormed := by
    simp only [List.cons_append, List.nil_append, List.mem_cons, List.not_mem_nil, or_false]
    rintro y (rfl | rfl)
    · exact hx
    · exact hhref
  have h := compile_simples ht
  have h₁ := h.2 [.byClass "x".toList] [.byAttribute "href".toList] false "hover".toList none hys hhover
  have h₂ := h.1 ([Simple.byClass "x".toList] ++ [Simple.byAttribute "href".toList]) hys
  have e₁ : String.ofList ("a".toList ++ ([Simple.byClass "x".toList] ++
      Simple.pseudo false "hover".toList none :: [Simple.byAttribute "href".toList]).flatMap
        Simple.text) = "a.x:hover[href]" := by decide
  have e₂ : String.ofList ("a".toList ++ ([Simple.byClass "x".toList] ++
      [Simple.byAttribute "href".toList]).flatMap Simple.text) = "a.x[href]" := by decide
  rw [e₁, e₂] at h₁
  rw [e₂] at h₂
  refine ⟨h₁, ?_⟩
  rw [h₂]
  decide

end Selector
end HtmlQuery
