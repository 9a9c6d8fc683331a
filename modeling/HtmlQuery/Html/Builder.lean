import HtmlQuery.Html.Attributes
import HtmlQuery.Html.Config
import HtmlQuery.Html.Issue
import HtmlQuery.Tree.Basic

/-! Building a tree from markup. The content of an element runs to the closing tag that balances it
and is built below the element; raw-text elements and elements at the depth limit keep it as text. -/
namespace HtmlQuery
namespace Html
open Scan

/-- A tree being built and the issues reported so far. -/
structure Draft where
  tree : Tree
  issues : Array Issue := #[]
deriving Inhabited

namespace Draft

/-- Makes a node and attaches it under `parent`, when `parent` can take it. -/
def attach (d : Draft) (parent : NodeId) (data : NodeData) : Draft × Option NodeId :=
  match d with
  | ⟨tree, issues⟩ =>
    let (t, id) := tree.alloc data
    match t.appendFailure? parent id with
    | none => (⟨t.link parent id, issues⟩, some id)
    | some _ => (⟨t, issues⟩, none)

def report (d : Draft) (kind : IssueKind) (markup : List Char) (offset : Nat) : Draft :=
  match d with
  | ⟨tree, issues⟩ => ⟨tree, issues.push ⟨kind, String.ofList markup, offset⟩⟩

/-- Attaches a text node when the text is not empty. -/
def attachText (d : Draft) (parent : NodeId) (text : List Char) : Draft :=
  if text.isEmpty then d else (d.attach parent (.text (String.ofList text))).1

end Draft

/-- Reads a tag after its `<` up to and over the first `>` outside quoted runs. -/
def tagTail (s : List Char) : List Char × List Char :=
  takeLiteral ['>'] (breakOutsideQuotes ['>'] none s)

theorem tagTail_append (s : List Char) : (tagTail s).1 ++ (tagTail s).2 = s := by
  unfold tagTail
  rw [takeLiteral_append, breakOutsideQuotes_append]

theorem tagTail_length_le (s : List Char) : (tagTail s).2.length ≤ s.length := by
  have h := congrArg List.length (tagTail_append s)
  simp only [List.length_append] at h
  omega

theorem breakAt_length_le (lit s : List Char) : (breakAt lit s).2.length ≤ s.length := by
  have h := congrArg List.length (breakAt_append lit s)
  simp only [List.length_append] at h
  omega

theorem breakBalanced_length_le {o c : List Char} {depth : Nat} {s inner rest : List Char}
    (h : breakBalanced o c depth s = some (inner, rest)) :
    inner.length ≤ s.length ∧ rest.length ≤ s.length := by
  have h' := congrArg List.length (breakBalanced_append h)
  simp only [List.length_append] at h'
  omega

/-- The tag name at the start of a tag after its `<`: up to `>`, `/` or a markup blank. -/
def tagName (tail : List Char) : List Char :=
  tail.takeWhile fun c => !(c == '>' || c == '/' || isMarkupBlank c)

set_option linter.unusedVariables false in
/-- Builds the markup `s`, at byte `offset` of the input, under `parent` at level `depth`. -/
def build (cfg : Config) (parent : NodeId) (depth : Nat) (offset : Nat) (s : List Char)
    (d : Draft) : Draft :=
  match hs : s with
  | [] => d
  | _ :: _ =>
    let text := (breakAt ['<'] s).1
    let d := if text.all isMarkupBlank then d else (d.attach parent (.text (String.ofList text))).1
    let start := offset + byteSize text
    match hr : (breakAt ['<'] s).2 with
    | '<' :: '!' :: '-' :: '-' :: body =>
      let content := (breakAt "-->".toList body).1
      let after := (breakAt "-->".toList body).2
      let d := if "-->".toList.isPrefixOf after then d
        else d.report .unterminatedComment "<!--".toList start
      let d := (d.attach parent (.comment (String.ofList content))).1
      build cfg parent depth (start + 4 + byteSize content + byteSize (after.take 3)) (after.drop 3) d
    | '<' :: tail =>
      let span := '<' :: (tagTail tail).1
      let next := start + byteSize span
      let afterTag := (tagTail tail).2
      if tail.head? == some '/' then
        build cfg parent depth next afterTag (d.report .strayEndTag span start)
      else if tail.head? == some '!' then
        let content := if span.getLast? == some '>' then (span.drop 2).dropLast else span.drop 2
        let d := (d.attach parent (.declaration (String.ofList content))).1
        build cfg parent depth next afterTag d
      else
        let name := tagName tail
        if name.isEmpty then build cfg parent depth next afterTag (d.report .emptyTagName span start)
        else
          let tag := String.ofList name
          match d.attach parent (.element (.withAttributes tag (parseAttributes span))) with
          | (d, none) => build cfg parent depth next afterTag d
          | (d, some node) =>
            if cfg.isVoid tag || span.reverse.take 2 == ['>', '/'] then
              build cfg parent depth next afterTag d
            else
              match hb : breakBalanced ('<' :: name) ('<' :: '/' :: name) 0 (tagTail tail).2 with
              | none => build cfg parent depth next afterTag (d.report .unterminatedElement span start)
              | some (inner, closing) =>
                let d :=
                  if cfg.isRawText tag then d.attachText node inner
                  else if depth + 1 ≥ cfg.maxDepth then
                    (d.report .depthLimit span start).attachText node inner
                  else build cfg node (depth + 1) next inner d
                let closeTag := tagTail closing
                build cfg parent depth (next + byteSize inner + byteSize closeTag.1) closeTag.2 d
    | _ => d
termination_by s.length
decreasing_by
  all_goals
    have hlen := breakAt_length_le ['<'] s
    rw [hr] at hlen
    subst hs
    simp only [List.length_cons] at hlen ⊢
  · simp only [List.length_drop]
    have := breakAt_length_le "-->".toList body
    omega
  · have := tagTail_length_le tail
    omega
  · have := tagTail_length_le tail
    omega
  · have := tagTail_length_le tail
    omega
  · have := tagTail_length_le tail
    omega
  · have := tagTail_length_le tail
    omega
  · have := tagTail_length_le tail
    omega
  · have := tagTail_length_le tail
    have := (breakBalanced_length_le hb).1
    omega
  · have := tagTail_length_le tail
    have := (breakBalanced_length_le hb).2
    have := tagTail_length_le closing
    omega

def buildInto (cfg : Config) (tree : Tree) (parent : NodeId) (html : String) : Tree × List Issue :=
  let d := build cfg parent 0 0 html.toList { tree }
  (d.tree, d.issues.toList)

/-- The tree of a document and the issues met while building it. -/
def parseDocument (cfg : Config) (html : String) : Tree × List Issue :=
  buildInto cfg Tree.empty NodeId.root html

end Html
end HtmlQuery
