import ResourceOrder.CommandLine.Help
import ResourceOrder.Files.Loader
import ResourceOrder.Graph.Tree
import ResourceOrder.Json.Forms

/-!
# Running commands

* `Failure`   what keeps a command from being done, and why;
* `Outcome`   how a run ends, with its exit code and what it writes;
* `execute`   does a command with the files of a file system;
* `run`       reads the arguments and does what they ask for.

A configuration that is named must be there; the one with the usual name may be missing.  It is
read even if directories are given, for it also says whether requirements are inferred from
scripts.
-/

namespace ResourceOrder.CommandLine

open Manifest

structure Failure where
  message : String
  /-- the words of what lies behind it, if the message does not say them -/
  cause : Option String
deriving DecidableEq

def Failure.text (f : Failure) : String :=
  "Error: " ++ f.message ++ "\n" ++
    match f.cause with
    | some cause => "\nCaused by:\n    " ++ cause ++ "\n"
    | none => ""

inductive Outcome where
  | done (output : String) (warnings : List String)
  | failed (f : Failure)
  | misused (fault : UsageFault)
deriving DecidableEq

namespace Outcome

def exitCode : Outcome → Nat
  | .done _ _ => 0
  | .failed _ => 1
  | .misused _ => 2

def output : Outcome → String
  | .done output _ => output
  | _ => ""

def errors : Outcome → String
  | .done _ warnings => String.join (warnings.map fun w => "Warning: " ++ w ++ "\n")
  | .failed f => f.text
  | .misused fault =>
    "error: " ++ fault.message ++ "\n\n" ++ Topic.usageLine .program

end Outcome

def lines (texts : List String) : String := String.join (texts.map fun t => t ++ "\n")

def warningsOf (diagnostics : List Diagnostic) : List String := diagnostics.map Diagnostic.message

section
variable {m : Type → Type} [Monad m]

def selectConfig (fs : FileAccess m) (set : Selection) : ExceptT Failure m Config :=
  match set.config with
  | some path =>
    (Config.fromFile fs path).adapt fun e => ⟨"Failed to load " ++ path, some e.message⟩
  | none => (Config.loadOrDefault fs Config.fileName).adapt fun e => ⟨e.message, none⟩

/-- the directory from which the entries of a selection's configuration are seen -/
def Selection.base (set : Selection) : RawText :=
  (Path.parent? (set.config.getD Config.fileName)).getD [Path.dot]

/-- the resources of a selection, and how they are resolved -/
def select (fs : FileAccess m) (set : Selection) : ExceptT Failure m (Resolver × List Source) := do
  let config ← selectConfig fs set
  let load : ExceptT LoadError m (List Source) :=
    if set.directories.isEmpty then readConfigured fs config set.base
    else set.directories.mapM fun directory => readResource fs (RawText.ofText directory) none
  let sources ← load.adapt fun e => ⟨e.message, none⟩
  return (.standard (set.infersScripts || config.infersScripts), sources)

/-- a result, or why it cannot be had -/
def orFail {ε α : Type} (message : ε → String) (result : Except ε α) : ExceptT Failure m α :=
  ExceptT.mk (pure (result.mapError fun e => ⟨message e, none⟩))

/-- does a command; the outcome is what it writes and the warnings beside it -/
def execute (fs : FileAccess m) : Command → ExceptT Failure m (String × List String)
  | .order set json => do
    let (resolver, sources) ← select fs set
    let r ← orFail ResolveError.message (resolver.resolve sources)
    return (if json then r.toJson.pretty ++ "\n" else lines r.loadOrder, warningsOf r.diagnostics)
  | .tree set => do
    let (resolver, sources) ← select fs set
    let g ← orFail ResolveError.message (resolver.graph sources)
    return (lines (Graph.treeHeading :: g.tree), warningsOf g.loadOrder.diagnostics)
  | .inspect file => do
    let text ← (fs.text file).adapt fun fault => ⟨"Failed to read " ++ file, some fault.text⟩
    let i ← orFail ManifestError.message (interpret text)
    return (i.properties.toJson.pretty ++ "\n", warningsOf i.diagnostics)
  | .discover root => do
    let directories ← (discover fs root).adapt fun e => ⟨e.message, none⟩
    return (lines (directories.map RawText.shown), [])

/-- reads the arguments and does what they ask for -/
def run (fs : FileAccess m) (arguments : List String) : m Outcome := do
  match Request.read arguments with
  | .error fault => return .misused fault
  | .ok (.help topic) => return .done topic.text []
  | .ok .version => return .done versionText []
  | .ok (.command c) =>
    match ← (execute fs c).run with
    | .ok (output, warnings) => return .done output warnings
    | .error f => return .failed f

end

end ResourceOrder.CommandLine
