import ResourceOrder.Files.Access
import ResourceOrder.Files.Path
import ResourceOrder.Text.Blank
import ResourceOrder.Toml.Reader

/-!
# Configurations

A configuration lists the resources of a set and says how they are resolved.

* `Entry`            the directory of a resource, a name for it, and whether it counts;
* `Config`           the version of the format, the choice to infer requirements from scripts,
                     and the entries;
* `Config.ofText`    reads a configuration and validates it;
* `Config.validate`  the version is known, no path is blank, and no name is;
* `Config.fromFile`, `Config.loadOrDefault`  read it from a file.
-/

namespace ResourceOrder

structure Entry where
  path : String
  name : Option String
  enabled : Bool
deriving DecidableEq

/-- the directory of the entry, seen from the directory `base` -/
def Entry.directory (e : Entry) (base : RawText) : RawText := Path.join base e.path

structure Config where
  version : Nat
  infersScripts : Bool
  entries : List Entry
deriving DecidableEq

/-- what a valid configuration cannot have -/
inductive Invalid where
  | version (v : Nat)
  | emptyPath (index : Nat)
  | emptyName (index : Nat) (path : String)
deriving DecidableEq

inductive ConfigError where
  | unreadable (fault : FileFault)
  /-- the text is no TOML, or says something else than a configuration -/
  | malformed
  | invalid (reason : Invalid)
deriving DecidableEq

namespace Config

def knownVersion : Nat := 1

/-- versions lie below this number -/
def versionBound : Nat := 0x100000000

/-- the file that is read when no other is named -/
def fileName : String := "kuruma.toml"

def default : Config := ⟨knownVersion, false, []⟩

end Config

/-! ## messages -/

def Invalid.message : Invalid → String
  | .version v =>
    "Unsupported config version " ++ toString v ++ ", expected " ++ toString Config.knownVersion
  | .emptyPath index => "Resource entry " ++ toString index ++ " has an empty path"
  | .emptyName index path =>
    "Resource entry " ++ toString index ++ " (" ++ path ++ ") has an empty name"

/-- what is wrong, without the words of the system -/
def ConfigError.title : ConfigError → String
  | .unreadable _ => "Failed to read config file: "
  | .malformed => "Failed to parse config: "
  | .invalid reason => "Invalid config: " ++ reason.message

def ConfigError.message (e : ConfigError) : String :=
  e.title ++ match e with
    | .unreadable fault => fault.text
    | _ => ""

/-! ## validation -/

def isBlankText (s : String) : Bool := s.toList.all isBlank

/-- the first fault of the entries, which stand at `index` and behind it -/
def entryFault? (index : Nat) : List Entry → Option Invalid
  | [] => none
  | e :: es =>
    if isBlankText e.path then some (.emptyPath index)
    else if e.name.any isBlankText then some (.emptyName index e.path)
    else entryFault? (index + 1) es

namespace Config

def validate (c : Config) : Except ConfigError Unit :=
  if c.version ≠ knownVersion then .error (.invalid (.version c.version))
  else
    match entryFault? 0 c.entries with
    | some reason => .error (.invalid reason)
    | none => .ok ()

def enabled (c : Config) : List Entry := c.entries.filter Entry.enabled

end Config

/-! ## reading -/

/-- an entry from a record with a path, which must be there, a name and a switch -/
def Entry.ofToml? (v : Toml) : Option Entry := do
  match ← v.fields? ["path", "name", "enabled"] with
  | [path, name, enabled] =>
    return ⟨← (← path).string?, ← Toml.orElse? none (fun v => v.string?.map some) name,
      ← Toml.orElse? true Toml.boolean? enabled⟩
  | _ => none

/-- the choice to infer requirements, from a record with only this field -/
def infersOfToml? (v : Toml) : Option Bool := do
  match ← v.fields? ["infer_script_dependencies"] with
  | [infers] => Toml.orElse? false Toml.boolean? infers
  | _ => none

namespace Config

def ofToml? (v : Toml) : Option Config := do
  match ← v.fields? ["version", "resolver", "resources"] with
  | [version, resolver, resources] =>
    return ⟨← Toml.orElse? knownVersion (Toml.natBelow? versionBound) version,
      ← Toml.orElse? false infersOfToml? resolver,
      ← Toml.orElse? [] (fun v => do (← v.array?).mapM Entry.ofToml?) resources⟩
  | _ => none

def ofText (text : String) : Except ConfigError Config := do
  match (Toml.parse? text.toList).bind ofToml? with
  | none => .error .malformed
  | some c =>
    c.validate
    return c

variable {m : Type → Type} [Monad m]

def fromFile (fs : FileAccess m) (path : RawText) : ExceptT ConfigError m Config := do
  match ← (fs.text path).run with
  | .error fault => throw (.unreadable fault)
  | .ok text => ExceptT.mk (pure (ofText text))

/-- reads the configuration from a file if there is one, and is empty otherwise -/
def loadOrDefault (fs : FileAccess m) (path : RawText) : ExceptT ConfigError m Config := do
  if ← fs.isFile path then fromFile fs path else return default

end Config

end ResourceOrder
