/-! The command line of the query tool: a document given as a file or inline, a selector, and
switches that choose what is printed. -/
namespace HtmlQuery
namespace Cli

/-- What one run of the tool is asked to do. -/
structure Options where
  file : Option String := none
  html : Option String := none
  selector : Option String := none
  firstOnly : Bool := false
  textOnly : Bool := false
  showTree : Bool := false
  showIssues : Bool := false
  maxDepth : Nat := 512
deriving Repr, Inhabited

/-- Why a command line is refused. -/
inductive ArgError where
  | unexpected (arg : String)
  | missingValue (option : String)
  | repeated (option : String)
  | invalidNumber (value : String)
  | needsSelector (option : String)
  | fileWithHtml
deriving DecidableEq, Repr

def usage : String := "Usage: quokka [OPTIONS] [FILE]"

def ArgError.message (e : ArgError) : String :=
  let what := match e with
    | .unexpected arg => "unexpected argument \x27" ++ arg ++ "\x27 found"
    | .missingValue opt => "a value is required for \x27" ++ opt ++ "\x27 but none was supplied"
    | .repeated opt => "the argument \x27" ++ opt ++ "\x27 cannot be used multiple times"
    | .invalidNumber v => "invalid value \x27" ++ v ++ "\x27 for \x27--max-depth <N>\x27: invalid digit found in string"
    | .needsSelector opt =>
      "the following required arguments were not provided:\n  --selector <SELECTOR>\n\nwhen using \x27" ++
        opt ++ "\x27"
    | .fileWithHtml => "the argument \x27[FILE]\x27 cannot be used with \x27--html <HTML>\x27"
  "error: " ++ what ++ "\n\n" ++ usage ++ "\n\nFor more information, try \x27--help\x27.\n"

def helpText : String :=
  usage ++ "\n\nArguments:\n  [FILE]  \n\nOptions:\n" ++
  "      --html <HTML>          \n" ++
  "  -s, --selector <SELECTOR>  \n" ++
  "      --first                \n" ++
  "      --text                 \n" ++
  "      --tree                 \n" ++
  "      --issues               \n" ++
  "      --max-depth <N>        [default: 512]\n" ++
  "  -h, --help                 Print help\n" ++
  "  -V, --version              Print version\n"

def versionText : String := "quokka 0.1.0\n"

/-- What a command line asks for. -/
inductive Request where
  | run (o : Options)
  | help
  | version
deriving Repr

/-- A decimal number, with an optional leading `+`. -/
def parseCount? (s : String) : Option Nat :=
  let ds := match s.toList with
    | '+' :: r => r
    | r => r
  if !ds.isEmpty && ds.all Char.isDigit then
    some (ds.foldl (fun n c => 10 * n + (c.toNat - '0'.toNat)) 0)
  else none

/-- Whether an argument reads as an option rather than a value. -/
def looksLikeOption (a : String) : Bool := a.startsWith "-" && a != "-"

def setValue (o : Options) (name value : String) : Except ArgError Options :=
  match name with
  | "html" => if o.html.isSome then .error (.repeated "--html <HTML>") else .ok { o with html := some value }
  | "selector" =>
    if o.selector.isSome then .error (.repeated "--selector <SELECTOR>")
    else .ok { o with selector := some value }
  | _ =>
    match parseCount? value with
    | some n => .ok { o with maxDepth := n }
    | none => .error (.invalidNumber value)

def setSwitch (o : Options) (name : String) : Except ArgError Options :=
  match name with
  | "first" => if o.firstOnly then .error (.repeated "--first") else .ok { o with firstOnly := true }
  | "text" => if o.textOnly then .error (.repeated "--text") else .ok { o with textOnly := true }
  | "tree" => if o.showTree then .error (.repeated "--tree") else .ok { o with showTree := true }
  | _ => if o.showIssues then .error (.repeated "--issues") else .ok { o with showIssues := true }

def takesValue (name : String) : Bool := name == "html" || name == "selector" || name == "max-depth"

def isSwitch (name : String) : Bool :=
  name == "first" || name == "text" || name == "tree" || name == "issues"

def setFile (o : Options) (a : String) : Except ArgError Options :=
  if o.file.isSome then .error (.unexpected a) else .ok { o with file := some a }

/-- Reads the arguments after the options have ended. -/
def positionals (o : Options) : List String → Except ArgError Options
  | [] => .ok o
  | a :: rest => do positionals (← setFile o a) rest

/-- Checks what options need and exclude. -/
def finish (o : Options) : Except ArgError Request :=
  if o.file.isSome && o.html.isSome then .error .fileWithHtml
  else if o.firstOnly && o.selector.isNone then .error (.needsSelector "--first")
  else if o.textOnly && o.selector.isNone then .error (.needsSelector "--text")
  else .ok (.run o)

/-- Reads a command line into options. -/
def parseFrom (o : Options) : List String → Except ArgError Request
  | [] => finish o
  | a :: rest =>
    if a == "--" then do finish (← positionals o rest)
    else if a == "--help" || a == "-h" then .ok .help
    else if a == "--version" || a == "-V" then .ok .version
    else if a.startsWith "--" then
      let body := (a.drop 2).toString
      let name := (body.takeWhile (· != '=')).toString
      let inline := if body.contains '=' then some (body.dropWhile (· != '=') |>.drop 1).toString else none
      if takesValue name then
        match inline with
        | some v => do parseFrom (← setValue o name v) rest
        | none =>
          match rest with
          | v :: rest' =>
            if looksLikeOption v then .error (.missingValue ("--" ++ name))
            else do parseFrom (← setValue o name v) rest'
          | [] => .error (.missingValue ("--" ++ name))
      else if isSwitch name && inline.isNone then do parseFrom (← setSwitch o name) rest
      else .error (.unexpected a)
    else if a.startsWith "-s" then
      -- Whatever follows the letter in the same argument is the value, one leading `=` apart,
      -- even when nothing is left after it; only a bare `-s` takes the next argument.
      let v := (a.drop 2).toString
      if !v.isEmpty then
        do parseFrom (← setValue o "selector" (if v.startsWith "=" then (v.drop 1).toString else v)) rest
      else match rest with
        | v :: rest' =>
          if looksLikeOption v then .error (.missingValue "--selector <SELECTOR>")
          else do parseFrom (← setValue o "selector" v) rest'
        | [] => .error (.missingValue "--selector <SELECTOR>")
    else if looksLikeOption a then .error (.unexpected a)
    else do parseFrom (← setFile o a) rest

def parseArgs (args : List String) : Except ArgError Request := parseFrom {} args

end Cli
end HtmlQuery
