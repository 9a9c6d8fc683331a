import HtmlQuery.Text.Lowercase

/-! Void elements and raw-text elements. -/
namespace HtmlQuery
namespace Tags

/-- Elements written without a closing tag. -/
def void : List String :=
  ["area", "base", "br", "col", "embed", "hr", "img", "input", "link", "meta", "param", "source",
    "track", "wbr"]

/-- Elements whose content is kept as text. -/
def rawText : List String := ["script", "style"]

/-- Whether `tag` is one of `names`, with ASCII letters folded. -/
def mem (names : List String) (tag : String) : Bool :=
  names.any (Lowercase.eqIgnoreAsciiCase · tag)

def isVoid (tag : String) : Bool := mem void tag

end Tags
end HtmlQuery
