import Mathlib.Data.List.Infix
import HtmlQuery.Proofs.Markup.Doc

/-! The plain trees whose markup reads back as they are. -/
namespace HtmlQuery
namespace Markup
open Scan

/-- Characters of tag names: ASCII letters, digits and `-`. -/
def isTagChar (c : Char) : Bool := c.isAlphanum || c == '-'

/-- An ASCII letter followed by letters, digits and `-`. -/
def isTagName (tag : String) : Bool :=
  match tag.toList with
  | [] => false
  | c :: cs => c.isAlpha && cs.all isTagChar

/-- Characters that end an attribute name or a tag, or open a quoted run. -/
def isNameStop (c : Char) : Bool :=
  Blank.isWhiteSpace c || c == '=' || c == '/' || c == '<' || c == '>' || isQuote c

/-- A nonempty attribute name with no white space, `=`, `/`, `<`, `>` or quote. -/
def isAttrName (name : String) : Bool := !name.isEmpty && name.toList.all (!isNameStop ·)

/-- A text value holds no `<` and not both kinds of quote. -/
def isAttrValue : AttrValue → Bool
  | .text v => !v.toList.contains '<' && !(v.toList.contains '\x22' && v.toList.contains '\x27')
  | .flag => true

end Markup

/-- Every attribute has a canonical name and value. -/
def Attrs.canonical (a : Attrs) : Bool :=
  a.entries.all fun p => Markup.isAttrName p.1 && Markup.isAttrValue p.2

namespace Doc
open Scan

def isText : Doc → Bool
  | .text _ => true
  | _ => false

mutual
/-- The plain tree is canonical at `depth` levels below the root. -/
def canonical (depth : Nat) : Doc → Bool
  | .element tag attrs cs =>
    Markup.isTagName tag && !Tags.mem Tags.rawText tag && (!Tags.isVoid tag || cs.isEmpty) &&
      decide (depth < 511) && attrs.canonical && canonicalAll (depth + 1) cs
  | .text s => !s.toList.contains '<' && !s.toList.all isMarkupBlank
  | .comment s => !s.toList.contains '<' && !decide ("-->".toList <:+: s.toList)
  | .declaration s =>
    !s.toList.any (fun c => c == '<' || c == '>' || isQuote c) && !"--".toList.isPrefixOf s.toList

/-- Every tree of the forest is canonical and no two texts stand next to each other. -/
def canonicalAll (depth : Nat) : List Doc → Bool
  | [] => true
  | d :: ds => canonical depth d && (!d.isText || !(ds.head?.any isText)) && canonicalAll depth ds
end

end Doc

namespace Tree

/-- The root has no attributes and the plain tree of its children is canonical. -/
def canonical (t : Tree) : Bool :=
  match t.view NodeId.root with
  | some (.element _ attrs cs) => attrs.entries.isEmpty && Doc.canonicalAll 0 cs
  | _ => false

end Tree

namespace Markup
open Scan

/-! ## Characters of canonical names -/

theorem isTagChar_of_special : ∀ c ∈ ['<','>','/','!','=','\x22','\x27',' ','\t','\n','\r','\x0c'],
    isTagChar c = false := by
  intro c hc
  simp only [List.mem_cons,List.not_mem_nil,or_false] at hc
  rcases hc with rfl | rfl | rfl | rfl | rfl | rfl | rfl | rfl | rfl | rfl | rfl | rfl <;> decide

theorem ne_of_isTagChar {c : Char} (h : isTagChar c = true) (x : Char)
    (hx : x ∈ ['<','>','/','!','=','\x22','\x27',' ','\t','\n','\r','\x0c']) : c ≠ x := by
  rintro rfl
  rw [isTagChar_of_special c hx] at h
  cases h

theorem isQuote_of_isTagChar {c : Char} (h : isTagChar c = true) : isQuote c = false := by
  have h1 := ne_of_isTagChar h '\x22' (by simp)
  have h2 := ne_of_isTagChar h '\x27' (by simp)
  simp [isQuote,h1,h2]

end Markup
end HtmlQuery
