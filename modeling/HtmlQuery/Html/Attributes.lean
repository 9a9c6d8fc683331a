import HtmlQuery.Text.Scan
import HtmlQuery.Text.Blank
import HtmlQuery.Tree.Attrs

/-! Reading the attributes of an opening tag such as `<a href="x" hidden>`. -/
namespace HtmlQuery
namespace Html
open Scan

/-- Writes each run of markup blanks outside quoted runs as one space. -/
def collapseBlanks : Option Char → Bool → List Char → List Char
  | _, _, [] => []
  | some q, _, c :: cs => c :: collapseBlanks (if c = q then none else some q) false cs
  | none, afterBlank, c :: cs =>
    if isMarkupBlank c then (if afterBlank then [] else [' ']) ++ collapseBlanks none true cs
    else c :: collapseBlanks (if isQuote c then some c else none) false cs

/-- What follows the tag name, without the closing `>` or `/>`. -/
def tagBody (span : List Char) : List Char :=
  let afterLt := match span with
    | '<' :: r => r
    | r => r
  let body := afterLt.dropWhile fun c => !(c == ' ' || c == '>' || c == '/')
  match body.reverse with
  | '>' :: '/' :: r => r.reverse
  | '>' :: r => r.reverse
  | _ => body

theorem breakOutsideQuotes_rest_tail_lt (lit : List Char) (c : Char) (cs : List Char) :
    (breakOutsideQuotes lit none (c :: cs)).2.tail.length < (c :: cs).length := by
  have h := breakOutsideQuotes_append lit none (c :: cs)
  have hl := congrArg List.length h
  simp only [List.length_append] at hl
  cases hr : (breakOutsideQuotes lit none (c :: cs)).2 with
  | nil => simp
  | cons d ds => rw [hr] at hl; simp at hl ⊢; omega

/-- The pieces between spaces outside quoted runs, each trimmed of white space. -/
def spaceSeparated (s : List Char) : List (List Char) :=
  match s with
  | [] => []
  | c :: cs =>
    let r := breakOutsideQuotes [' '] none (c :: cs)
    Blank.trim r.1 :: spaceSeparated r.2.tail
termination_by s.length
decreasing_by exact breakOutsideQuotes_rest_tail_lt [' '] c cs

/-- Joins a word to the one before it when that one ends in `=` or this one starts with `=`. -/
def joinSpacedEquals (words : List (List Char)) : List (List Char) :=
  (words.foldl (fun acc w =>
    match acc with
    | last :: before =>
      if last.getLast? == some '=' || w.head? == some '=' then (last ++ w) :: before
      else w :: acc
    | [] => [w]) []).reverse

def wordAttribute (w : List Char) : String × AttrValue :=
  match w.span (· != '=') with
  | (name, _ :: value) => (String.ofList name, .text (String.ofList (unquote value)))
  | (name, []) => (String.ofList name, .flag)

/-- The attributes of an opening tag; a later one of the same name wins. -/
def parseAttributes (span : List Char) : Attrs :=
  let words := joinSpacedEquals ((spaceSeparated (tagBody (collapseBlanks none false span))).filter
    (!·.isEmpty))
  Attrs.ofList ((words.map wordAttribute).filter (!·.1.isEmpty))

end Html
end HtmlQuery
