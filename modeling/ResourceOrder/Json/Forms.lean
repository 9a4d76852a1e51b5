import ResourceOrder.Json.Reader
import ResourceOrder.Diagnostic
import ResourceOrder.Manifest.Properties
import ResourceOrder.Resolution

/-!
# The JSON forms of properties, resources, diagnostics and resolutions

* properties are an object, with a string or an array of strings for each name;
* a resource is an object with the members `resource`, `requires` and `provides`; when it is
  read, `requires` may be missing, other members are passed over, and an array of the three
  values in this order does as well;
* a diagnostic is an object with the resource, if it is known, the kind, and what was found;
* a resolution is an object with the load order, the resources, and the diagnostics.
-/

namespace ResourceOrder

open Manifest

/-! ## properties -/

def Manifest.PropertyValue.toJson : PropertyValue → Json
  | .scalar s => .string s
  | .list items => .strings items

def Manifest.PropertyValue.ofJson? (j : Json) : Option PropertyValue :=
  match j.string? with
  | some s => some (.scalar s)
  | none => j.strings?.map .list

def Manifest.Properties.toJson (p : Properties) : Json :=
  .object (p.entries.map fun e => (e.1, e.2.toJson))

def Manifest.Properties.ofJson? : Json → Option Properties
  | .object members =>
    (members.mapM fun m => (PropertyValue.ofJson? m.2).map (m.1, ·)).map Properties.ofList
  | _ => none

/-! ## resources -/

namespace Resource

def toJson (r : Resource) : Json :=
  .object [("resource", .string r.name), ("requires", .strings r.requires),
    ("provides", .string r.provides)]

def valuesOf (key : String) (members : List (String × Json)) : List Json :=
  (members.filter fun m => m.1 == key).map Prod.snd

def ofJson? : Json → Option Resource
  | .object members =>
    match valuesOf "resource" members, valuesOf "requires" members,
        valuesOf "provides" members with
    | [name], [], [provides] => do return ⟨← name.string?, [], ← provides.string?⟩
    | [name], [requires], [provides] => do
      return ⟨← name.string?, ← requires.strings?, ← provides.string?⟩
    | _, _, _ => none
  | .array [name, requires, provides] => do
    return ⟨← name.string?, ← requires.strings?, ← provides.string?⟩
  | _ => none

end Resource

/-! ## diagnostics -/

def Finding.members : Finding → List (String × Json)
  | .unrecognizedStatement line column statement =>
    [("kind", .string "unrecognized_statement"), ("line", .nat line.toNat), ("column", .nat column.toNat),
      ("statement", .string statement)]
  | .providesOverride provides property =>
    [("kind", .string "provides_override"), ("provides", .string provides),
      ("property", .string property)]
  | .missingDependencies names =>
    [("kind", .string "missing_dependencies"), ("names", .strings names)]

def Diagnostic.toJson (d : Diagnostic) : Json :=
  .object ((d.resource.toList.map fun r => ("resource", .string r)) ++ d.finding.members)

/-! ## resolutions -/

def Resolution.toJson (r : Resolution) : Json :=
  .object [("load_order", .strings r.loadOrder),
    ("dependencies", .array (r.resources.map Resource.toJson)),
    ("diagnostics", .array (r.diagnostics.map Diagnostic.toJson))]

end ResourceOrder
