import HtmlQuery.Tree.Tags

/-! What the tree builder is told about tags: which are void, which hold raw text, and how deep
elements may nest before their content is kept as text. -/
namespace HtmlQuery
namespace Html

/-- Settings of the tree builder. Tag names compare with ASCII letters folded. -/
structure Config where
  voidTags : List String := Tags.void
  rawTextTags : List String := Tags.rawText
  maxDepth : Nat := 512
deriving Repr, Inhabited

namespace Config

def isVoid (cfg : Config) (tag : String) : Bool := Tags.mem cfg.voidTags tag

def isRawText (cfg : Config) (tag : String) : Bool := Tags.mem cfg.rawTextTags tag

end Config
end Html
end HtmlQuery
