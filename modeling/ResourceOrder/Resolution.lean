import ResourceOrder.Graph.Build
import ResourceOrder.Graph.LoadOrder
import ResourceOrder.Manifest.Interpretation
import ResourceOrder.Resource.Extraction

/-!
# Resolving a set of resources

* `Source`            a resource's name and the text of its manifest;
* `ResolveError`      a manifest that cannot be read, or resources that form no graph;
* `Resolution`        the names in load order, the resources, and what was found;
* `resolveResources`  resources in load order;
* `Resolver`          how manifests are read; `Resolver.resolve` reads the manifests of all
                      sources first, and the first that fails decides the error.
-/

namespace ResourceOrder

open Manifest

/-- the name of a resource and the text of its manifest -/
structure Source where
  resource : String
  text : String
deriving DecidableEq

inductive ResolveError where
  | manifest (resource : String) (cause : ManifestError)
  | graph (cause : GraphError)
deriving DecidableEq

def ResolveError.message : ResolveError → String
  | .manifest resource cause =>
    "Failed to interpret manifest of resource \"" ++ resource ++ "\": " ++ cause.message
  | .graph cause => cause.message

/-- names in load order, the resources in the order of the input, and what was found -/
structure Resolution where
  loadOrder : List String
  resources : List Resource
  diagnostics : List Diagnostic
deriving DecidableEq

/-- the graph of resources, as part of a resolution -/
def buildGraph (rs : List Resource) : Except ResolveError Graph :=
  (Graph.build rs).mapError .graph

def resolveResources (rs : List Resource) : Except ResolveError Resolution :=
  (buildGraph rs).map fun g =>
    let order := g.loadOrder
    ⟨order.names, g.resources, order.diagnostics⟩

/-- how manifests are read and what is derived from them -/
structure Resolver where
  interpreter : Interpreter
  extractor : Extractor

namespace Resolver

def standard (infersScripts : Bool) : Resolver := ⟨interpret, ⟨infersScripts⟩⟩

/-- the resource of one source; what was found in the manifest comes before what was found in
its properties -/
def extract (r : Resolver) (s : Source) : Except ResolveError Extraction :=
  match r.interpreter s.text with
  | .error cause => .error (.manifest s.resource cause)
  | .ok i =>
    let e := r.extractor.extract i.properties s.resource
    .ok ⟨e.resource, i.diagnostics.map (·.forResource s.resource) ++ e.diagnostics⟩

def extractAll (r : Resolver) (sources : List Source) : Except ResolveError (List Extraction) :=
  sources.mapM r.extract

def graph (r : Resolver) (sources : List Source) : Except ResolveError Graph := do
  let extractions ← r.extractAll sources
  buildGraph (extractions.map Extraction.resource)

/-- the load order of the resources of all sources -/
def resolve (r : Resolver) (sources : List Source) : Except ResolveError Resolution := do
  let extractions ← r.extractAll sources
  let resolution ← resolveResources (extractions.map Extraction.resource)
  return { resolution with
    diagnostics := extractions.flatMap Extraction.diagnostics ++ resolution.diagnostics }

end Resolver

end ResourceOrder
