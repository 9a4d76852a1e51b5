/-!
# What is asked on the command line

The arguments are the name of a command, switches, and values.  Switches in front of the name
belong to the program as a whole, those behind it to the command.

* `Verb`, `Topic`   the commands; what help is given about;
* `Switch`          what begins with a dash: a word behind two dashes, or a letter behind one;
* `Word`            how a single argument is read;
* `Request`         what is asked: a command, help, or the version;
* `UsageFault`      why the arguments ask for nothing;
* `Request.read`    reads the arguments from left to right.

Help and the version are granted at once, whatever follows.  Behind a lone pair of dashes, all
arguments are values.  No switch may be given twice in the same place, and no value is empty.
-/

namespace ResourceOrder.CommandLine

/-! ## commands and switches -/

inductive Verb where
  | order
  | tree
  | inspect
  | discover
deriving DecidableEq

/-- all the commands, in the order in which help lists them -/
def verbs : List Verb := [.order, .tree, .inspect, .discover]

def Verb.name : Verb → String
  | .order => "order"
  | .tree => "tree"
  | .inspect => "inspect"
  | .discover => "discover"

def Verb.ofName? (name : String) : Option Verb := verbs.find? fun v => v.name == name

/-- what help is given about -/
inductive Topic where
  | program
  | help
  | verb (v : Verb)
deriving DecidableEq

def helpName : String := "help"

inductive Switch where
  | config
  | inferScripts
  | json
  | verbose
  | help
  | version
deriving DecidableEq

def Switch.word : Switch → String
  | .config => "config"
  | .inferScripts => "infer-scripts"
  | .json => "json"
  | .verbose => "verbose"
  | .help => "help"
  | .version => "version"

def Switch.letter? : Switch → Option Char
  | .config => some 'c'
  | .verbose => some 'v'
  | .help => some 'h'
  | .version => some 'V'
  | _ => none

def Topic.switches : Topic → List Switch
  | .program => [.verbose, .help, .version]
  | .help => []
  | .verb .order => [.config, .inferScripts, .json, .verbose, .help]
  | .verb .tree => [.config, .inferScripts, .verbose, .help]
  | .verb _ => [.verbose, .help]

/-- whether a command takes another value besides those given -/
def Verb.takesValue (given : List String) : Verb → Bool
  | .order | .tree => true
  | .inspect | .discover => given.isEmpty

/-! ## requests -/

/-- the resources that a command is about -/
structure Selection where
  /-- the directories of the resources; if there are none, the configuration lists them -/
  directories : List String
  /-- the file with the configuration, if one is named -/
  config : Option String
  infersScripts : Bool
deriving DecidableEq

inductive Command where
  | order (set : Selection) (json : Bool)
  | tree (set : Selection)
  | inspect (file : String)
  | discover (root : String)
deriving DecidableEq

inductive Request where
  | command (c : Command)
  | help (topic : Topic)
  | version
deriving DecidableEq

inductive UsageFault where
  | missingCommand
  | unknownCommand (name : String)
  | unexpected (argument : String)
  | repeated (s : Switch)
  | missingValue (s : Switch)
  | needlessValue (s : Switch)
  | emptyValue
  | missingFile
deriving DecidableEq

def UsageFault.message : UsageFault → String
  | .missingCommand => "a command is missing"
  | .unknownCommand name => "there is no command '" ++ name ++ "'"
  | .unexpected argument => "unexpected argument '" ++ argument ++ "'"
  | .repeated s => "'--" ++ s.word ++ "' is given more than once"
  | .missingValue s => "'--" ++ s.word ++ "' needs a value"
  | .needlessValue s => "'--" ++ s.word ++ "' takes no value"
  | .emptyValue => "a value is empty"
  | .missingFile => "a file is missing"

/-! ## single arguments -/

/-- how an argument is read where dashes count -/
inductive Word where
  /-- two dashes and nothing else -/
  | dashes
  /-- the name behind two dashes, and what follows the first equals sign -/
  | long (name : List Char) (value : Option (List Char))
  /-- the letters behind one dash -/
  | letters (letters : List Char)
  /-- anything else, a lone dash too -/
  | value
deriving DecidableEq

/-- the part in front of the first equals sign, and the part behind it -/
def cutAtEquals : List Char → List Char × Option (List Char)
  | [] => ([], none)
  | c :: cs => if c = '=' then ([], some cs) else (c :: (cutAtEquals cs).1, (cutAtEquals cs).2)

def Word.of : List Char → Word
  | ['-', '-'] => .dashes
  | '-' :: '-' :: rest => .long (cutAtEquals rest).1 (cutAtEquals rest).2
  | '-' :: c :: cs => .letters (c :: cs)
  | _ => .value

/-! ## reading -/

/-- why reading ends before the last argument -/
inductive Stop where
  | fault (f : UsageFault)
  | help (topic : Topic)
  | version
deriving DecidableEq

/-- what has been given so far -/
structure Given where
  /-- the switches without a value -/
  switches : List Switch
  config : Option String
  /-- the value of `--config` comes next -/
  awaitsConfig : Bool
  /-- all that comes next are values -/
  literal : Bool
  values : List String
deriving DecidableEq

namespace Given

def nothing : Given := ⟨[], none, false, false, []⟩

def has (g : Given) (s : Switch) : Bool := g.switches.contains s

def selection (g : Given) : Selection := ⟨g.values, g.config, g.has .inferScripts⟩

/-- one more switch without a value, seen on the given topic -/
def addSwitch (topic : Topic) (g : Given) : Switch → Except Stop Given
  | .help => .error (.help topic)
  | .version => .error .version
  | s =>
    if g.has s then .error (.fault (.repeated s))
    else .ok { g with switches := g.switches ++ [s] }

def setConfig (g : Given) (path : String) : Except Stop Given :=
  if path = "" then .error (.fault .emptyValue)
  else if g.config.isSome then .error (.fault (.repeated .config))
  else .ok { g with config := some path, awaitsConfig := false }

def addValue (verb : Verb) (g : Given) (value : String) : Except Stop Given :=
  if !verb.takesValue g.values then .error (.fault (.unexpected value))
  else if value = "" then .error (.fault .emptyValue)
  else .ok { g with values := g.values ++ [value] }

/-- the switches that letters stand for; what follows the one for a configuration is its value,
with or without an equals sign -/
def addLetters (topic : Topic) (g : Given) : List Char → Except Stop Given
  | [] => .ok g
  | c :: cs =>
    match topic.switches.find? fun s => s.letter? == some c with
    | none => .error (.fault (.unexpected (String.ofList ['-', c])))
    | some .config =>
      match cs with
      | [] => .ok { g with awaitsConfig := true }
      | '=' :: path => g.setConfig (String.ofList path)
      | path => g.setConfig (String.ofList path)
    | some s => do addLetters topic (← g.addSwitch topic s) cs

/-- the switch of a word, with the value that is attached to it -/
def addWord (topic : Topic) (g : Given) (name : List Char) (value : Option (List Char)) :
    Except Stop Given :=
  match topic.switches.find? fun s => s.word.toList == name, value with
  | none, _ => .error (.fault (.unexpected ("--" ++ String.ofList name)))
  | some .config, none => .ok { g with awaitsConfig := true }
  | some .config, some path => g.setConfig (String.ofList path)
  | some s, none => g.addSwitch topic s
  | some s, some _ => .error (.fault (.needlessValue s))

def add (verb : Verb) (g : Given) (argument : String) : Except Stop Given :=
  if g.literal then g.addValue verb argument
  else
    match Word.of argument.toList with
    | .value => if g.awaitsConfig then g.setConfig argument else g.addValue verb argument
    | word =>
      if g.awaitsConfig then .error (.fault (.missingValue .config))
      else
        match word with
        | .long name value => g.addWord (.verb verb) name value
        | .letters letters => g.addLetters (.verb verb) letters
        | _ => .ok { g with literal := true }

def command (g : Given) : Verb → Except UsageFault Command
  | .order => .ok (.order g.selection (g.has .json))
  | .tree => .ok (.tree g.selection)
  | .inspect =>
    match g.values with
    | [] => .error .missingFile
    | file :: _ => .ok (.inspect file)
  | .discover => .ok (.discover (g.values.head?.getD "."))

end Given

def readCommand (verb : Verb) (arguments : List String) : Except Stop Command := do
  let g ← arguments.foldlM (Given.add verb) Given.nothing
  if g.awaitsConfig then throw (.fault (.missingValue .config))
  (g.command verb).mapError .fault

/-- reads what follows the name of the command that gives help -/
def helpTopic : List String → Stop
  | [] => .help .program
  | name :: rest =>
    match Verb.ofName? name, rest with
    | some verb, [] => .help (.verb verb)
    | some _, other :: _ => .fault (.unknownCommand other)
    | none, [] => if name = helpName then .help .help else .fault (.unknownCommand name)
    | none, _ :: _ => .fault (.unknownCommand name)

/-- reads all the arguments; `g` holds what has been given in front of the command -/
def readProgram (g : Given) : List String → Except Stop Command
  | [] => .error (.fault .missingCommand)
  | argument :: rest =>
    match Verb.ofName? argument with
    | some verb => readCommand verb rest
    | none =>
      if argument = helpName then .error (helpTopic rest)
      else
        match Word.of argument.toList with
        | .value => .error (.fault (.unknownCommand argument))
        | .dashes =>
          .error (.fault (rest.head?.elim .missingCommand .unexpected))
        | .long name value => do readProgram (← g.addWord .program name value) rest
        | .letters letters => do readProgram (← g.addLetters .program letters) rest

def Request.read (arguments : List String) : Except UsageFault Request :=
  match readProgram Given.nothing arguments with
  | .ok c => .ok (.command c)
  | .error (.help topic) => .ok (.help topic)
  | .error .version => .ok .version
  | .error (.fault f) => .error f

end ResourceOrder.CommandLine
