/-! Terminal styles of the tool's output, as ANSI escape sequences. Bold and dim text end with a
full reset, colours with the reset of the foreground colour. -/
namespace HtmlQuery
namespace Cli
namespace Style

def bold (s : String) : String := "\x1b[1m" ++ s ++ "\x1b[0m"

def dimmed (s : String) : String := "\x1b[2m" ++ s ++ "\x1b[0m"

/-- Text in a foreground colour given by its code. -/
def colour (code : String) (s : String) : String := "\x1b[" ++ code ++ "m" ++ s ++ "\x1b[39m"

def cyan : String → String := colour "36"

def yellow : String → String := colour "33"

def green : String → String := colour "32"

def magenta : String → String := colour "35"

def brightBlack : String → String := colour "90"

/-- A warning line: in yellow, after the component that reports it. -/
def warningLine (component message : String) : String :=
  "\x1b[33m[Quokka " ++ component ++ "] ⚠ " ++ message ++ "\x1b[0m\n"

end Style
end Cli
end HtmlQuery
