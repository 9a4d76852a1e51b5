import ResourceOrder.CommandLine.Request

/-!
# Help on the command line

The help about a topic says what it is about, how it is called, what values it takes, and its
switches, each in a line of a list.
-/

namespace ResourceOrder.CommandLine

def programName : String := "kuruma"

def programVersion : String := "0.1.0"

def Verb.about : Verb → String
  | .order => "Print the load order of a resource set"
  | .tree => "Draw the dependency tree of a resource set"
  | .inspect => "Print the properties of a single manifest as JSON"
  | .discover => "List resource directories below a root"

def helpAbout : String := "Print this message or the help of the given subcommand(s)"

def Topic.about : Topic → String
  | .program => "Resource dependency resolver"
  | .help => helpAbout
  | .verb v => v.about

def Switch.about : Switch → String
  | .config => "Config file"
  | .inferScripts => "Infer dependencies from \x60@resource/...\x60 script paths"
  | .json => "Print the full resolution as JSON"
  | .verbose => "Enable debug logging"
  | .help => "Print help"
  | .version => "Print version"

def Topic.usage : Topic → String
  | .program => programName ++ " [OPTIONS] <COMMAND>"
  | .help => programName ++ " help [COMMAND]..."
  | .verb .inspect => programName ++ " inspect [OPTIONS] <FILE>"
  | .verb .discover => programName ++ " discover [OPTIONS] [ROOT]"
  | .verb v => programName ++ " " ++ v.name ++ " [OPTIONS] [DIRS]..."

/-- the values that a topic takes, and what they are -/
def Topic.values : Topic → List (String × String)
  | .program => []
  | .help => [("[COMMAND]...", "Print help for the subcommand(s)")]
  | .verb .inspect => [("<FILE>", "Manifest file")]
  | .verb .discover => [("[ROOT]", "Root directory [default: .]")]
  | .verb _ =>
    [("[DIRS]...", "Resource directories; read from the config file when omitted")]

def Switch.form (s : Switch) : String :=
  (match s.letter? with
    | some c => "-" ++ c.toString ++ ", "
    | none => "    ") ++ "--" ++ s.word ++ (if s = .config then " <CONFIG>" else "")

/-- a title, and below it the lines of a list whose right parts stand in one column; nothing for
an empty list -/
def listing (title : String) (rows : List (String × String)) : String :=
  if rows.isEmpty then ""
  else
    let width := rows.foldl (fun w row => max w row.1.length) 0
    let line (row : String × String) : String :=
      "  " ++ row.1 ++ String.ofList (List.replicate (width - row.1.length + 2) ' ') ++
        row.2 ++ "\n"
    "\n" ++ title ++ ":\n" ++ String.join (rows.map line)

/-- the line that says how a topic is called -/
def Topic.usageLine (t : Topic) : String := "Usage: " ++ t.usage ++ "\n"

def Topic.text (t : Topic) : String :=
  t.about ++ "\n\n" ++ t.usageLine ++
    (if t = .program then
      listing "Commands" (verbs.map (fun v => (v.name, v.about)) ++ [(helpName, helpAbout)])
    else "") ++
    listing "Arguments" t.values ++
    listing "Options" (t.switches.map fun s => (s.form, s.about))

def versionText : String := programName ++ " " ++ programVersion ++ "\n"

end ResourceOrder.CommandLine
