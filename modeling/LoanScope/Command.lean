import LoanScope.Command.Arguments
import LoanScope.Config.Toml
import LoanScope.Report

/-! The command: what it prints and how it ends, given its arguments and the files there are. -/

namespace LoanScope.Command

structure Outcome where
  exit : UInt32
  stdout : String
  stderr : String

/-! ### Colours -/

inductive Colour where
  | boldGreen | boldRed | boldBlue | bold | yellow

def Colour.code : Colour → String
  | boldGreen => "1;32"
  | boldRed => "1;31"
  | boldBlue => "1;34"
  | bold => "1"
  | yellow => "33"

/-- Text in a colour, where colours are on. -/
def paint (colours : Bool) (colour : Colour) (text : String) : String :=
  if colours then "\x1b[" ++ colour.code ++ "m" ++ text ++ "\x1b[0m" else text

/-! ### Reports -/

def lines (ls : List String) : String := String.join (ls.map (· ++ "\n"))

def loanLine (colours : Bool) (l : LoanSummary) : String :=
  let id := paint colours .bold l.id
  s!"    {id} {l.kind} borrow of `{l.place}` at node {l.origin}, region {l.region}"

def nodeLines (colours : Bool) (n : NodeSummary) : List String :=
  let inScope :=
    if n.inScope.isEmpty then []
    else [s!"    node {n.id}: in scope " ++ ", ".intercalate n.inScope]
  inScope ++ n.moves.map fun m => s!"    node {n.id}: " ++ paint colours .yellow "move" ++ " " ++ m

def summary (colours : Bool) (path : String) (r : Report) : String :=
  lines ([paint colours .boldGreen "Checked" ++ s!" {r.function} ({path})",
    s!"    {r.regions.length} regions, {r.loans.length} loans, solved in {r.passes} passes"] ++
    r.loans.map (loanLine colours) ++ r.nodes.flatMap (nodeLines colours))

def printed (colours : Bool) (style : Style) (path : String) (r : Report) : String :=
  match style with
  | .summary => summary colours path r
  | .dump => lines [paint colours .boldGreen "Function" ++ " " ++ r.function] ++ r.dump
  | .json => lines [r.toJson.pretty]

/-! ### Failures -/

/-- Why a file has no report. -/
inductive Failure where
  | unreadable
  | error (e : Error)

def Failure.message (path : String) : Failure → String
  | unreadable => s!"failed to read {path}"
  | error e => e.message

def Failure.span? : Failure → Option FileSpan
  | unreadable => none
  | error e => e.span?

def failureLines (colours : Bool) (path : String) (f : Failure) : List String :=
  (paint colours .boldRed "error" ++ s!" {path}: " ++ f.message path) ::
    (f.span?.toList.map fun s => "  " ++ paint colours .boldBlue "-->" ++ " " ++ s.text)

/-- Why there is no configuration. -/
inductive ConfigFailure where
  | unreadable
  | invalid

def ConfigFailure.causes (path : String) : ConfigFailure → List String
  | unreadable => [s!"failed to read config file {path}", "No such file or directory (os error 2)"]
  | invalid => ["invalid config:"]

/-- An error with its numbered causes. -/
def errorLines (message : String) (causes : List String) : List String :=
  ("Error: " ++ message) ::
    if causes.isEmpty then []
    else "" :: "Caused by:" :: causes.zipIdx.map fun (c, i) => s!"    {i}: {c}"

/-! ### Running -/

def loadConfig (files : String → Option String) :
    Option String → Except (String × ConfigFailure) Config
  | none => .ok .default
  | some path =>
      match files path with
      | none => .error (path, .unreadable)
      | some text =>
          match Config.parse? text with
          | none => .error (path, .invalid)
          | some c => .ok c

def checkFile (files : String → Option String) (config : Config) (path : String) :
    Except Failure Report :=
  match files path with
  | none => .error .unreadable
  | some text =>
      match checkText text config with
      | .ok r => .ok r
      | .error e => .error (.error e)

/-- Checks files in order; reports go to one channel and failures to the other. -/
def checkFiles (files : String → Option String) (colours : Bool) (config : Config) (style : Style)
    (paths : List String) : Outcome :=
  let results := paths.map fun path => (path, checkFile files config path)
  let stdout := results.map fun
    | (path, .ok r) => printed colours style path r
    | (_, .error _) => ""
  let failures := results.filterMap fun
    | (path, .error f) => some (failureLines colours path f)
    | (_, .ok _) => none
  let count := failures.length
  let total := paths.length
  if count = 0 then ⟨0, String.join stdout, ""⟩
  else
    ⟨1, String.join stdout, lines (failures.flatten ++
      [paint colours .boldRed "Failed:" ++ s!" {count} of {total} files"] ++
      errorLines s!"region check failed for {count} files" [])⟩

def helpText : Topic → String
  | .program => lines ["Region-based borrow checker", "",
      "Usage: coral [OPTIONS] <COMMAND>", "", "Commands:",
      "  check  Check one or more function fixtures",
      "  help   Print this message or the help of the given subcommand(s)", "", "Options:",
      "  -v, --verbose...  Increase log verbosity (-v debug, -vv trace)",
      "  -h, --help        Print help",
      "  -V, --version     Print version"]
  | .check => lines ["Check one or more function fixtures", "",
      "Usage: coral check [OPTIONS] <PATHS>...", "", "Arguments:",
      "  <PATHS>...  JSON fixture files", "", "Options:",
      "      --config <CONFIG>  TOML configuration file",
      "  -v, --verbose...       Increase log verbosity (-v debug, -vv trace)",
      "      --dump             Print the region and constraint dump",
      "      --json             Print the full report as JSON",
      "  -h, --help             Print help"]
  | .help => lines ["Print this message or the help of the given subcommand(s)", "",
      "Usage: coral help [COMMAND]...", "", "Arguments:",
      "  [COMMAND]...  Print help for the subcommand(s)"]

def usageText : String :=
  lines ["error: bad usage", "", "Usage: coral [OPTIONS] <COMMAND>", "",
    "For more information, try '--help'."]

/-- Runs an invocation. `files` gives the content of the files there are. -/
def Invocation.run (files : String → Option String) (colours : Bool) : Invocation → Outcome
  | help topic => ⟨0, helpText topic, ""⟩
  | version => ⟨0, "coral 0.1.0\n", ""⟩
  | badUsage => ⟨2, "", usageText⟩
  | check paths config style =>
      match loadConfig files config with
      | .error (path, f) =>
          ⟨1, "", lines (errorLines s!"failed to load configuration {path}" (f.causes path))⟩
      | .ok c => checkFiles files colours c style paths

end LoanScope.Command
