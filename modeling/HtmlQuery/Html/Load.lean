import HtmlQuery.Html.Builder
import HtmlQuery.Text.Utf8

/-! Reading a document from a file. A file system is seen as the bytes that each path holds, when
it names a regular file; the bytes are read as UTF-8 with ill-formed parts replaced. -/
namespace HtmlQuery
namespace Html

/-- The bytes of the regular file at each path, if there is one. -/
abbrev Files := String → Option ByteArray

/-- Why a document cannot be read. -/
inductive LoadError where
  | notFound (path : String)
deriving DecidableEq, Repr

def LoadError.message : LoadError → String
  | .notFound path => path ++ ": file not found"

def readText (files : Files) (path : String) : Except LoadError String :=
  match files path with
  | none => .error (.notFound path)
  | some bytes => .ok (Utf8.decodeText bytes)

/-- The tree of the document in the file at `path`, built with the default settings. -/
def parseFile (files : Files) (path : String) : Except LoadError Tree :=
  (readText files path).map fun text => (parseDocument {} text).1

end Html
end HtmlQuery
