import ResourceOrder.Config
import ResourceOrder.Resolution

/-!
# Loading resources

A resource is a directory that holds a manifest under one of two names.

* `findManifest`    the manifest of a directory; the first name counts more;
* `directoryName`   the name of a directory, looked up if its path ends in dots or in a name that is
                    no text;
* `readResource`    the name of a resource and the text of its manifest;
* `readConfigured`  the resources that a configuration lists;
* `discover`        the directories below a root that hold a manifest, in the order of their
                    paths.  It neither looks into directories whose names begin with a dot, or are
                    no texts, nor follows links.
-/

namespace ResourceOrder

/-- the names of manifests, in the order of preference -/
def manifestNames : List String := ["fxmanifest.lua", "__resource.lua"]

def isManifestName (name : String) : Bool := manifestNames.contains name

inductive LoadError where
  | noManifest (directory : RawText)
  | unnamedResource (directory : RawText)
  | unreadable (path : RawText) (fault : FileFault)
deriving DecidableEq

/-- what is wrong, without the words of the system -/
def LoadError.title : LoadError → String
  | .noManifest directory =>
    "No " ++ " or ".intercalate manifestNames ++ " found in " ++ directory.shown
  | .unnamedResource directory => "Cannot derive a resource name from " ++ directory.shown
  | .unreadable path _ => "Failed to read " ++ path.shown ++ ": "

def LoadError.message (e : LoadError) : String :=
  e.title ++ match e with
    | .unreadable _ fault => fault.text
    | _ => ""

/-! ## names -/

/-- the segment in front of the last one, where single dots do not count; it may not be empty -/
def nameAbove? (path : String) : Option String :=
  match ((Path.splitAt '/' path.toList).filter (· ≠ ['.'])).reverse with
  | _ :: name :: _ => if name = [] then none else some (String.ofList name)
  | _ => none

/-- the path with slashes in place of backslashes -/
def withSlashes (path : String) : String :=
  String.ofList (path.toList.map fun c => if c = '\\' then '/' else c)

/-- no name that stands above another is empty -/
theorem ne_empty_of_nameAbove? {path name : String} (h : nameAbove? path = some name) :
    name ≠ "" := by
  unfold nameAbove? at h
  split at h
  · split at h
    · cases h
    · rename_i hne
      cases h
      simpa using hne
  · cases h

section
variable {m : Type → Type} [Monad m]

/-- the name of a directory: the last one of its path, or else of where the path leads, if it is a
text -/
def directoryName (fs : FileAccess m) (directory : RawText) : m (Option String) := do
  match (Path.fileName? directory).bind RawText.text? with
  | some name => return some name
  | none => return (← fs.finalName directory).bind RawText.text?

/-! ## manifests -/

/-- the path of what a directory holds under the name of a manifest -/
def manifestPath (directory : RawText) (name : String) : RawText := Path.join directory name

def findManifest (fs : FileAccess m) (directory : RawText) : ExceptT LoadError m RawText := do
  match ← (manifestNames.map (manifestPath directory)).findM? fun path => fs.isFile path with
  | some path => return path
  | none => throw (.noManifest directory)

/-- the name of the resource in a directory with the given manifest -/
def resourceName (fs : FileAccess m) (directory manifest : RawText) :
    ExceptT LoadError m String := do
  let found : Option String ← ExceptT.lift (directoryName fs directory)
  match found.or (manifest.text?.bind fun path => nameAbove? (withSlashes path)) with
  | some name => return name
  | none => throw (.unnamedResource directory)

/-- the resource in a directory; its name is `name`, if that is given -/
def readResource (fs : FileAccess m) (directory : RawText) (name : Option String) :
    ExceptT LoadError m Source := do
  let manifest ← findManifest fs directory
  let resource ← match name with
    | some name => pure name
    | none => resourceName fs directory manifest
  match ← (fs.text manifest).run with
  | .ok text => return ⟨resource, text⟩
  | .error fault => throw (.unreadable manifest fault)

/-- the resources that a configuration lists, seen from the directory `base` -/
def readConfigured (fs : FileAccess m) (config : Config) (base : RawText) :
    ExceptT LoadError m (List Source) :=
  config.enabled.mapM fun e => readResource fs (e.directory base) e.name

/-! ## discovery -/

def isHidden (name : String) : Bool := name.toList.head? == some '.'

/-- whether an entry is looked at: its name is a text and not hidden -/
def isShown (name : RawText) : Bool := name.text?.any fun text => !isHidden text

/-- the directories with a manifest at `directory` and at most `depth - 1` levels below it, in
no particular order -/
def discoverBelow (fs : FileAccess m) : Nat → RawText → ExceptT LoadError m (List RawText)
  | 0, _ => return []
  | depth + 1, directory => do
    match ← fs.entries directory with
    | .error fault => throw (.unreadable directory fault)
    | .ok entries =>
      let shown := entries.filter fun e => isShown e.1
      let (directories, others) := shown.partition fun e => e.2 = .directory
      let below ← directories.mapM fun e => discoverBelow fs depth (Path.join directory e.1)
      let here := if others.any fun e => e.1.text?.any isManifestName then [directory] else []
      return below.flatten ++ here

/-- the directories with a manifest at `root` and below it, in the order of their paths -/
def discover (fs : FileAccess m) (root : RawText) : ExceptT LoadError m (List RawText) := do
  return Path.sort (← discoverBelow fs (fs.depth + 1) root)

end

end ResourceOrder
