import HtmlQuery.Cli.Options
import HtmlQuery.Cli.Outline
import HtmlQuery.Html.Load
import HtmlQuery.Selector.Consult
import HtmlQuery.Tree.Markup

/-! One run of the tool: build the document's tree, print it when asked, and print each element the
selector matches, with issues and warnings on the error stream. -/
namespace HtmlQuery
namespace Cli
open Style

/-- What a run prints on each stream, and its exit code. -/
structure Outcome where
  stdout : String
  stderr : String
  code : Nat
deriving Repr

/-- An error that ends the run: its context and, if any, its cause. -/
def failure (context : String) (cause : Option String) : String :=
  "Error: " ++ context ++ match cause with
    | some c => "\n\nCaused by:\n    " ++ c ++ "\n"
    | none => "\n"

/-- Each reported warning once, in the order first reported. -/
def warningLines (reports : List (String × String)) : String :=
  String.join (reports.eraseDups.map fun (c, m) => warningLine c m)

def input (o : Options) (files : Html.Files) : Except String String :=
  match o.html, o.file with
  | some html, _ => .ok html
  | none, some path =>
    match Html.readText files path with
    | .ok text => .ok text
    | .error e => .error (failure ("could not load " ++ path) (some e.message))
  | none, none => .error (failure "no input: pass a FILE or --html \x27<p>...</p>\x27" none)

def issuesSection (issues : List Html.Issue) : String :=
  "\n" ++ bold "=== Parse Issues ===" ++ "\n" ++
    if issues.isEmpty then "  " ++ dimmed "none" ++ "\n"
    else String.join (issues.map fun i => "  - " ++ yellow ("@" ++ toString i.offset) ++ " " ++ i.message ++ "\n")

/-- A run with the given options, where `files` holds the files that can be read. -/
def run (o : Options) (files : Html.Files) : Outcome :=
  match input o files with
  | .error e => ⟨"", e, 1⟩
  | .ok html =>
    let (t, issues) := Html.parseDocument { maxDepth := o.maxDepth } html
    let parseReports := issues.map fun i => ("HTML", i.message)
    let tree := if o.showTree || o.selector.isNone then
        bold "=== DOM Tree ===" ++ "\n" ++ outline .terminal t NodeId.root
      else ""
    let issuesOut := if o.showIssues then issuesSection issues else ""
    match o.selector with
    | none => ⟨tree ++ issuesOut, warningLines parseReports, 0⟩
    | some text =>
      match SelectorList.parse text with
      | .error e =>
        ⟨tree, warningLines parseReports ++ failure ("invalid selector `" ++ text ++ "`") (some e.message), 1⟩
      | .ok l =>
        let found := if o.firstOnly then (l.queryFirst t NodeId.root).toList else l.queryAll t NodeId.root
        let selectorReports := (l.consultOrder t o.firstOnly).flatMap fun link =>
          (Selector.compile link.compound).2.map fun w => ("Selector", w.message)
        let heading := if o.showTree then
            "\n" ++ bold ("=== Matches (" ++ toString found.length ++ ") ===") ++ "\n"
          else ""
        let shown := String.join (found.map fun id =>
          (if o.textOnly then t.innerText id else t.outerHtml id) ++ "\n")
        let none := if found.isEmpty then dimmed ("no element matches `" ++ l.display ++ "`") ++ "\n" else ""
        ⟨tree ++ heading ++ shown ++ issuesOut, warningLines (parseReports ++ selectorReports) ++ none,
          if found.isEmpty then 1 else 0⟩

/-- What a command line prints and its exit code. -/
def respond (args : List String) (files : Html.Files) : Outcome :=
  match parseArgs args with
  | .error e => ⟨"", e.message, 2⟩
  | .ok .help => ⟨helpText, "", 0⟩
  | .ok .version => ⟨versionText, "", 0⟩
  | .ok (.run o) => run o files

def fileToRead (args : List String) : Option String :=
  match parseArgs args with
  | .ok (.run o) => if o.html.isNone then o.file else none
  | _ => none

end Cli
end HtmlQuery
