import HtmlQuery.Selector.Condition

/-! Selector lists such as `ul > li.item, p a`: chains separated by commas, each a sequence of
compounds joined by combinators. -/
namespace HtmlQuery
namespace Selector
open Scan

/-- How an element relates to the element of the compound before it. -/
inductive Combinator where
  | descendant
  | child
  | nextSibling
  | subsequentSibling
deriving DecidableEq, Repr, Inhabited

namespace Combinator

def ofSymbol? : Char → Option Combinator
  | '>' => some .child
  | '+' => some .nextSibling
  | '~' => some .subsequentSibling
  | _ => none

def text : Combinator → String
  | .descendant => " "
  | .child => " > "
  | .nextSibling => " + "
  | .subsequentSibling => " ~ "

end Combinator

/-- A compound, its conditions, and how its element relates to that of the compound before it. -/
structure Link where
  compound : String
  combinator : Combinator
  conditions : List Condition
deriving DecidableEq, Repr, Inhabited

/-- The link of a compound, with its conditions compiled. -/
def Link.ofCompound (compound : String) (combinator : Combinator) : Link :=
  ⟨compound, combinator, (compile compound).1⟩

/-- A chain of compounds, from the head back to the first written. -/
structure Chain where
  head : Link
  rest : List Link
deriving DecidableEq, Repr, Inhabited

namespace Chain

def links (c : Chain) : List Link := c.head :: c.rest

def display (c : Chain) : String :=
  match c.links.reverse with
  | [] => ""
  | first :: later => first.compound ++ String.join (later.map fun l => l.combinator.text ++ l.compound)

end Chain

/-- Why a selector list cannot be read. -/
inductive SelectorError where
  | empty
  | unbalanced (delimiter : Char) (offset : Nat)
deriving DecidableEq, Repr

def SelectorError.message : SelectorError → String
  | .empty => "empty selector"
  | .unbalanced d offset =>
    "unbalanced `" ++ String.singleton d ++ "` at offset " ++ toString offset ++ " in selector"

def isOpening (c : Char) : Bool := c == '(' || c == '[' || c == '\x7b'

def openingOf? : Char → Option Char
  | ')' => some '('
  | ']' => some '['
  | '\x7d' => some '\x7b'
  | _ => none

/-- The bracket that breaks nesting, with its offset. -/
def unbalanced? (stack : List (Char × Nat)) (quote : Option Char) (offset : Nat) :
    List Char → Option (Char × Nat)
  | [] => stack.head?
  | c :: cs =>
    let next := offset + c.utf8Size
    match quote with
    | some q => unbalanced? stack (if c = q then none else some q) next cs
    | none =>
      if isQuote c then unbalanced? stack (some c) next cs
      else if isOpening c then unbalanced? ((c, offset) :: stack) none next cs
      else match openingOf? c with
        | none => unbalanced? stack none next cs
        | some o =>
          match stack with
          | (top, _) :: below => if top = o then unbalanced? below none next cs else some (c, offset)
          | [] => some (c, offset)

/-- The quoted run that a character opens outside runs. -/
def quoteAfter (c : Char) : Option Char := if isQuote c then some c else none

/-- The bracket depth after a character, never below zero. -/
def depthAfter (c : Char) (d : Nat) : Nat :=
  if isOpening c then d + 1 else if (openingOf? c).isSome then d - 1 else d

def consFirst (c : Char) : List (List Char) → List (List Char)
  | [] => [[c]]
  | p :: ps => (c :: p) :: ps

/-- Splits at the commas outside brackets and quoted runs. -/
def splitTopLevel (quote : Option Char) (depth : Nat) : List Char → List (List Char)
  | [] => [[]]
  | c :: cs =>
    match quote with
    | some q => consFirst c (splitTopLevel (if c = q then none else some q) depth cs)
    | none =>
      if c = ',' && depth = 0 then [] :: splitTopLevel none 0 cs
      else consFirst c (splitTopLevel (if isQuote c then some c else none) (depthAfter c depth) cs)

/-- Whether a character ends a compound when it stands outside brackets and quoted runs. -/
def endsCompound (c : Char) : Bool := isMarkupBlank c || (Combinator.ofSymbol? c).isSome

/-- Reads a compound: up to a blank or combinator outside brackets and quoted runs. -/
def compoundSpan (quote : Option Char) (depth : Nat) : List Char → List Char × List Char
  | [] => ([], [])
  | c :: cs =>
    match quote with
    | some q =>
      let r := compoundSpan (if c = q then none else some q) depth cs
      (c :: r.1, r.2)
    | none =>
      if depth = 0 && endsCompound c then ([], c :: cs)
      else
        let r := compoundSpan (if isQuote c then some c else none) (depthAfter c depth) cs
        (c :: r.1, r.2)

theorem compoundSpan_append (q : Option Char) (d : Nat) (s : List Char) :
    (compoundSpan q d s).1 ++ (compoundSpan q d s).2 = s := by
  induction s generalizing q d with
  | nil => rfl
  | cons c cs ih =>
    cases q with
    | none =>
      simp only [compoundSpan]
      split <;> simp [ih]
    | some q => simp [compoundSpan, ih]

theorem compoundSpan_length_le (q : Option Char) (d : Nat) (s : List Char) :
    (compoundSpan q d s).2.length ≤ s.length := by
  have h := congrArg List.length (compoundSpan_append q d s)
  simp only [List.length_append] at h
  omega

/-- The compounds of a piece, each with the combinator written before it. -/
def segments (pending : Combinator) (s : List Char) : List (Combinator × List Char) :=
  match s with
  | [] => []
  | c :: cs =>
    if isMarkupBlank c then segments pending cs
    else match Combinator.ofSymbol? c with
      | some k => segments k cs
      | none =>
        let r := compoundSpan (quoteAfter c) (depthAfter c 0) cs
        (pending, c :: r.1) :: segments .descendant r.2
termination_by s.length
decreasing_by
  all_goals simp only [List.length_cons]
  · omega
  · omega
  · have := compoundSpan_length_le (quoteAfter c) (depthAfter c 0) cs
    omega

def Chain.ofSegments (segs : List (Combinator × List Char)) : Option Chain :=
  let links := segs.zipIdx.map fun ((k, compound), i) =>
    Link.ofCompound (String.ofList compound) (if i = 0 then .descendant else k)
  match links.reverse with
  | [] => none
  | head :: rest => some ⟨head, rest⟩

end Selector

/-- Comma-separated alternatives: an element is selected when one chain selects it. -/
structure SelectorList where
  chains : List Selector.Chain
deriving DecidableEq, Repr, Inhabited

namespace SelectorList
open Selector

def parse (text : String) : Except SelectorError SelectorList :=
  match unbalanced? [] none 0 text.toList with
  | some (d, offset) => .error (.unbalanced d offset)
  | none =>
    match (splitTopLevel none 0 text.toList).filterMap fun p => Chain.ofSegments (segments .descendant p) with
    | [] => .error .empty
    | chains => .ok ⟨chains⟩

def display (l : SelectorList) : String := ", ".intercalate (l.chains.map Chain.display)

def warnings (l : SelectorList) : List Warning :=
  l.chains.flatMap fun c => c.links.flatMap fun link => (compile link.compound).2

end SelectorList
end HtmlQuery
