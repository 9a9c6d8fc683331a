import HtmlQuery.Text.Scan
import HtmlQuery.Text.Lowercase
import HtmlQuery.Tree.Basic

/-! The conditions of a compound selector such as `p.note[lang|=en]` and what they test. -/
namespace HtmlQuery
namespace Selector
open Scan

/-- How an attribute selector compares the attribute's value `a` with its own value `v`. -/
inductive AttrOp where
  | present
  | equals
  | includesWord
  | dashMatch
  | startsWith
  | endsWith
  | contains
deriving DecidableEq, Repr, Inhabited

def AttrOp.symbol : AttrOp → String
  | .present => ""
  | .equals => "="
  | .includesWord => "~="
  | .dashMatch => "|="
  | .startsWith => "^="
  | .endsWith => "$="
  | .contains => "*="

/-- An attribute selector; under the `i` flag, `value` is already lowercase. -/
structure AttrTest where
  name : String
  op : AttrOp
  value : String
  caseInsensitive : Bool
deriving DecidableEq, Repr, Inhabited

/-- One condition of a compound selector. -/
inductive Condition where
  | universal
  | byType (name : String)
  | byClass (name : String)
  | byId (name : String)
  | byAttribute (test : AttrTest)
deriving DecidableEq, Repr, Inhabited

/-- A part of a compound that tests nothing and is reported. -/
inductive Warning where
  | malformedAttribute (expr : String)
  | unsupportedPseudo (pseudo : String)
  | strayText (text compound : String)
deriving DecidableEq, Repr, Inhabited

def Warning.message : Warning → String
  | .malformedAttribute expr => "ignoring malformed attribute selector `[" ++ expr ++ "]`"
  | .unsupportedPseudo pseudo =>
    "pseudo-class `:" ++ pseudo ++ "` is not supported and matches everything"
  | .strayText text compound => "ignoring `" ++ text ++ "` in compound `" ++ compound ++ "`"

/-- The distinct messages of some warnings, each at its first report. -/
def distinctMessages (ws : List Warning) : List String := (ws.map Warning.message).eraseDups

/-- Whether `v` occurs in a text as a contiguous part. -/
def containsPart (v : List Char) : List Char → Bool
  | [] => v.isEmpty
  | c :: cs => v.isPrefixOf (c :: cs) || containsPart v cs

namespace AttrTest

/-- Whether an element's attribute passes the test. A flag attribute reads as empty text. -/
def holds (t : AttrTest) (e : Element) : Bool :=
  match e.attrs.get? t.name with
  | none => false
  | some v =>
    let actual := (if t.caseInsensitive then Lowercase.lowercase v.asText else v.asText).toList
    let expected := t.value.toList
    match t.op with
    | .present => true
    | .equals => actual == expected
    | .includesWord => (actual.splitOnP isMarkupBlank).any fun w => !w.isEmpty && w == expected
    | .dashMatch =>
      actual == expected || (expected.isPrefixOf actual && (actual.drop expected.length).head? == some '-')
    | .startsWith => expected.isPrefixOf actual
    | .endsWith => expected.isSuffixOf actual
    | .contains => containsPart expected actual

end AttrTest

/-- Whether an element passes a condition. Type names compare with ASCII letters folded. -/
def Condition.holds : Condition → Element → Bool
  | .universal, _ => true
  | .byType name, e => Lowercase.eqIgnoreAsciiCase e.tag name
  | .byClass name, e => e.hasClass name
  | .byId name, e => e.id? == some name
  | .byAttribute t, e => t.holds e

/-- The characters that start a part after the type name. -/
def partStart : List Char := ['.', '#', '[', ':']

/-- Splits a trailing case flag off an attribute value. -/
def splitFlag (raw : List Char) : List Char × Bool :=
  match raw.reverse with
  | [] => (raw, false)
  | flag :: before =>
    let separated := match before with
      | c :: _ => isMarkupBlank c || isQuote c
      | [] => false
    if separated && (flag == 'i' || flag == 'I') then ((before.dropWhile isMarkupBlank).reverse, true)
    else if separated && (flag == 's' || flag == 'S') then
      ((before.dropWhile isMarkupBlank).reverse, false)
    else (raw, false)

/-- The operator that a character before `=` makes, if any. -/
def opOfMark : Char → Option AttrOp
  | '~' => some .includesWord
  | '|' => some .dashMatch
  | '^' => some .startsWith
  | '$' => some .endsWith
  | '*' => some .contains
  | _ => none

/-- Reads the text between the brackets of an attribute part; `none` when it has no name. -/
def attrTest? (expr : List Char) : Option AttrTest :=
  let e := trimMarkupBlanks expr
  match e.span (· != '=') with
  | (_, []) => if e.isEmpty then none else some ⟨String.ofList e, .present, "", false⟩
  | (before, _ :: after) =>
    let (op, nameChars) := match before.getLast?.bind opOfMark with
      | some op => (op, before.dropLast)
      | none => (AttrOp.equals, before)
    let name := trimMarkupBlanks nameChars
    if name.isEmpty then none
    else
      let (raw, ci) := splitFlag (trimMarkupBlanks after)
      let value := String.ofList (unquote raw)
      some ⟨String.ofList name, op, if ci then Lowercase.lowercase value else value, ci⟩

/-- Reads a parenthesised group up to the `)` that closes the level `depth`. -/
def parenGroup : Nat → Option Char → List Char → List Char × List Char
  | _, _, [] => ([], [])
  | d, some q, c :: cs =>
    let r := parenGroup d (if c = q then none else some q) cs
    (c :: r.1, r.2)
  | d, none, c :: cs =>
    if c = ')' && d ≤ 1 then ([c], cs)
    else
      let r := parenGroup (if c = '(' then d + 1 else if c = ')' then d - 1 else d)
        (if isQuote c then some c else none) cs
      (c :: r.1, r.2)

/-- Reads the name of a pseudo-class and an argument in parentheses. -/
def pseudoName (s : List Char) : List Char × List Char :=
  let name := breakAtAny ['.', '#', '[', ':', '('] s
  match name.2 with
  | '(' :: _ =>
    let arg := parenGroup 0 none name.2
    (name.1 ++ arg.1, arg.2)
  | _ => name

def pseudoSpan (s : List Char) : List Char × List Char :=
  match s with
  | ':' :: r =>
    let p := pseudoName r
    (':' :: p.1, p.2)
  | r => pseudoName r

theorem breakAtAny_length_le (set s : List Char) : (breakAtAny set s).2.length ≤ s.length := by
  have h := congrArg List.length (breakAtAny_append set s)
  simp only [List.length_append] at h
  omega

theorem parenGroup_length_le (d : Nat) (q : Option Char) (s : List Char) :
    (parenGroup d q s).2.length ≤ s.length := by
  induction s generalizing d q with
  | nil => cases q <;> simp [parenGroup]
  | cons c cs ih =>
    cases q with
    | none =>
      simp only [parenGroup]
      split
      · simp
      · exact Nat.le_succ_of_le (ih _ _)
    | some q => exact Nat.le_succ_of_le (ih _ _)

theorem pseudoName_length_le (s : List Char) : (pseudoName s).2.length ≤ s.length := by
  have h1 := breakAtAny_length_le ['.', '#', '[', ':', '('] s
  unfold pseudoName
  dsimp only
  split
  · next hn =>
    have := parenGroup_length_le 0 none (breakAtAny ['.', '#', '[', ':', '('] s).2
    simp only at this ⊢
    omega
  · exact h1

theorem pseudoSpan_length_le (s : List Char) : (pseudoSpan s).2.length ≤ s.length := by
  unfold pseudoSpan
  split
  · next r => have := pseudoName_length_le r; simp only [List.length_cons]; omega
  · exact pseudoName_length_le _

theorem breakOutsideQuotes_length_le (lit : List Char) (q : Option Char) (s : List Char) :
    (breakOutsideQuotes lit q s).2.length ≤ s.length := by
  have h := congrArg List.length (breakOutsideQuotes_append lit q s)
  simp only [List.length_append] at h
  omega

/-- The conditions and warnings of the parts in `s`, the rest of the compound `compound`. -/
def compileParts (compound : String) (s : List Char) : List Condition × List Warning :=
  match s with
  | [] => ([], [])
  | c :: cs =>
    if c = '.' || c = '#' then
      let name := breakAtAny partStart cs
      let r := compileParts compound name.2
      if name.1.isEmpty then r
      else ((if c = '.' then Condition.byClass else Condition.byId) (String.ofList name.1) :: r.1, r.2)
    else if c = '[' then
      let expr := breakOutsideQuotes [']'] none cs
      let r := compileParts compound expr.2.tail
      match attrTest? expr.1 with
      | some t => (.byAttribute t :: r.1, r.2)
      | none => (r.1, .malformedAttribute (String.ofList expr.1) :: r.2)
    else if c = ':' then
      let pseudo := pseudoSpan cs
      let r := compileParts compound pseudo.2
      (r.1, .unsupportedPseudo (String.ofList pseudo.1) :: r.2)
    else
      let stray := breakAtAny partStart cs
      let r := compileParts compound stray.2
      (r.1, .strayText (String.ofList (c :: stray.1)) compound :: r.2)
termination_by s.length
decreasing_by
  all_goals simp only [List.length_cons]
  · have := breakAtAny_length_le partStart cs; omega
  · have := breakOutsideQuotes_length_le [']'] none cs
    have : (breakOutsideQuotes [']'] none cs).2.tail.length ≤ (breakOutsideQuotes [']'] none cs).2.length :=
      by simp
    omega
  · have := pseudoSpan_length_le cs; omega
  · have := breakAtAny_length_le partStart cs; omega

/-- The conditions of a compound and the warnings about its parts. -/
def compile (compound : String) : List Condition × List Warning :=
  let head := breakAtAny partStart compound.toList
  let first := match head.1 with
    | [] => []
    | ['*'] => [Condition.universal]
    | name => [Condition.byType (String.ofList name)]
  let r := compileParts compound head.2
  (first ++ r.1, r.2)

end Selector
end HtmlQuery
