import ResourceOrder.Diagnostic
import ResourceOrder.Manifest.Properties
import ResourceOrder.Resource.Basic

/-!
# From properties to resources

What a resource requires and provides follows from the properties of its manifest.

* `providedName`    the property `provide`, else a well-formed `name`, else the resource's own
                    name;
* `explicitNames`   the property `dependency`, else the strings of `dependencies`;
* `inferredNames`   the resources whose files the scripts of this one are taken from: a script
                    `@a/b.lua` is the file `b.lua` of the resource `a`;
* `Extractor`       extraction with or without inferred names.

Properties that are missing or have the wrong shape are passed over, so there is always an
answer.
-/

namespace ResourceOrder

open Manifest

/-! ## names -/

/-- ASCII letters, digits, dashes and underscores, one at least -/
def isResourceName (name : String) : Bool :=
  name ≠ "" && name.toList.all fun c => c.isAlphanum || c == '-' || c == '_'

/-- the properties that list scripts, in the order in which they are looked at -/
def scriptProperties : List String :=
  ["client_script", "client_scripts", "shared_script", "shared_scripts", "server_script",
    "server_scripts"]

def scriptOwner? (script : String) : Option String :=
  match script.toList with
  | '@' :: path =>
    let owner := path.takeWhile (· != '/')
    if owner = [] then none else some (String.ofList owner)
  | _ => none

/-! ## provided and required names -/

/-- the name under which the resource is required, and the property that gives it; none if it
is the resource's own name -/
def providedName (properties : Properties) (resource : String) : String × Option String :=
  match (properties.scalar? "provide").filter (· ≠ "") with
  | some provide => (provide, some "provide")
  | none =>
    match (properties.scalar? "name").filter isResourceName with
    | some name => (name, some "name")
    | none => (resource, none)

/-- the names that the manifest requires in so many words -/
def explicitNames (properties : Properties) : List String :=
  match properties.scalar? "dependency" with
  | some name => [name]
  | none => ((properties.get? "dependencies").map PropertyValue.strings).getD []

/-- the names that the scripts of the manifest imply -/
def inferredNames (properties : Properties) : List String :=
  ((scriptProperties.filterMap properties.get?).flatMap PropertyValue.strings).filterMap
    scriptOwner?

/-! ## extraction -/

/-- a resource, and what was found in deriving it -/
structure Extraction where
  resource : Resource
  diagnostics : List Diagnostic
deriving DecidableEq

/-- the report that a property gives the resource another name -/
def overrideDiagnostics (resource : String) : String × Option String → List Diagnostic
  | (provides, some property) =>
    if provides = resource then []
    else [(Diagnostic.mk none (.providesOverride provides property)).forResource resource]
  | (_, none) => []

/-- derives resources from properties; whether scripts imply requirements is a choice -/
structure Extractor where
  infersScripts : Bool
deriving DecidableEq

namespace Extractor

/-- the names that the resource requires, each once -/
def requires (e : Extractor) (properties : Properties) : List String :=
  distinct (explicitNames properties ++
    if e.infersScripts then inferredNames properties else [])

/-- the resource of the given name that has these properties -/
def extract (e : Extractor) (properties : Properties) (resource : String) : Extraction :=
  let provided := providedName properties resource
  ⟨⟨resource, e.requires properties, provided.1⟩, overrideDiagnostics resource provided⟩

end Extractor

end ResourceOrder
