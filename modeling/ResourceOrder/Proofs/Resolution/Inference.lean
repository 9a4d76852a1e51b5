import ResourceOrder.Proofs.Graph.Relaxation
import ResourceOrder.Proofs.Resolution.Pipeline

/-!
# With and without inferred requirements

What scripts imply is required after what the manifest requires in so many words
(`Extractor.requires_prefix`), and everything else about a resource is the same with it and
without it (`Resolver.relaxed_resourceOf`).  So resources that can be ordered with the inferred
requirements can be ordered without them, and the order that respects all requirements respects
those that are written down (`resolve_without_inference`).
-/

namespace ResourceOrder

open Manifest

/-! ## requirements -/

theorem Extractor.requires_prefix (properties : Properties) :
    (Extractor.mk false).requires properties <+: (Extractor.mk true).requires properties := by
  show distinct (explicitNames properties ++ []) <+:
    distinct (explicitNames properties ++ inferredNames properties)
  rw [List.append_nil, distinct_append]
  exact List.prefix_append ..

namespace Resolver
variable {interpreter : Interpreter} {sources : List Source} {readings : List Reading}

theorem relaxed_resourceOf (x : Reading) :
    Relaxed (resourceOf ⟨interpreter, ⟨true⟩⟩ x) (resourceOf ⟨interpreter, ⟨false⟩⟩ x) where
  name_eq := rfl
  provides_eq := rfl
  requires_subset _ hname := (Extractor.requires_prefix x.interpretation.properties).subset hname

theorem relaxed_resources :
    List.Forall₂ Relaxed (readings.map (resourceOf ⟨interpreter, ⟨true⟩⟩))
      (readings.map (resourceOf ⟨interpreter, ⟨false⟩⟩)) :=
  forall₂_maps_iff.2 fun x _ => relaxed_resourceOf x

theorem requires_prefix_resources :
    List.Forall₂ (fun r r' => r'.name = r.name ∧ r'.requires <+: r.requires)
      (readings.map (resourceOf ⟨interpreter, ⟨true⟩⟩))
      (readings.map (resourceOf ⟨interpreter, ⟨false⟩⟩)) :=
  forall₂_maps_iff.2 fun x _ => ⟨rfl, Extractor.requires_prefix x.interpretation.properties⟩

end Resolver

/-- **Requirements can be left out: what could be ordered with them can be ordered without them,
and in the same order.**  The requirements that scripts imply are such requirements, and they stand
behind the others. -/
theorem resolve_without_inference :
    (∀ (rs rs' : List Resource) (g : Graph), Graph.build rs = .ok g →
      List.Forall₂ Relaxed rs rs' →
      ∃ g', Graph.build rs' = .ok g' ∧ ∀ i j, j ∈ g'.dependencies i →
        Precedes g.loadOrder.names (g'.nameOf j) (g'.nameOf i)) ∧
    ∀ (interpreter : Interpreter) (sources : List Source) (res : Resolution),
      Resolver.resolve ⟨interpreter, ⟨true⟩⟩ sources = .ok res →
      ∃ res' g', Resolver.resolve ⟨interpreter, ⟨false⟩⟩ sources = .ok res' ∧
        Resolver.graph ⟨interpreter, ⟨false⟩⟩ sources = .ok g' ∧
        List.Forall₂ (fun r r' => r'.name = r.name ∧ r'.requires <+: r.requires)
          res.resources res'.resources ∧
        ∀ i j, j ∈ g'.dependencies i →
          Precedes res.loadOrder (g'.nameOf j) (g'.nameOf i) := by
  refine ⟨fun rs rs' g hb h => Graph.exists_build_relaxed hb h, fun interpreter sources res h => ?_⟩
  obtain ⟨readings, hreads⟩ := Resolver.exists_reads_of_resolve h
  obtain ⟨g, hb, rfl⟩ := (Resolver.resolve_eq_ok_iff hreads).1 h
  obtain ⟨g', hb', hprecedes⟩ := Graph.exists_build_relaxed hb Resolver.relaxed_resources
  have hreads' : Resolver.Reads ⟨interpreter, ⟨false⟩⟩ sources readings := hreads
  have hresolve := (Resolver.resolve_eq_ok_iff hreads').2 ⟨g', hb', rfl⟩
  have hgraph : Resolver.graph ⟨interpreter, ⟨false⟩⟩ sources = .ok g' := by
    rw [Resolver.graph_eq hreads', buildGraph, hb']
    rfl
  exact ⟨_, g', hresolve, hgraph, Resolver.requires_prefix_resources, hprecedes⟩

/-- a script of the resource `base`, and a requirement in so many words -/
theorem resolve_without_inference_base :
    ∃ res res', Resolver.resolve ⟨interpret, ⟨true⟩⟩
        [⟨"ui", "dependency 'core'\nclient_script '@base/a.lua'"⟩, ⟨"core", ""⟩, ⟨"base", ""⟩] =
          .ok res ∧
      Resolver.resolve ⟨interpret, ⟨false⟩⟩
        [⟨"ui", "dependency 'core'\nclient_script '@base/a.lua'"⟩, ⟨"core", ""⟩, ⟨"base", ""⟩] =
          .ok res' ∧
      res.resources.map Resource.requires = [["core", "base"], [], []] ∧
      List.Forall₂ (fun r r' => r'.name = r.name ∧ r'.requires <+: r.requires)
        res.resources res'.resources := by
  have h : Resolver.resolve ⟨interpret, ⟨true⟩⟩
      [⟨"ui", "dependency 'core'\nclient_script '@base/a.lua'"⟩, ⟨"core", ""⟩, ⟨"base", ""⟩] =
        .ok ⟨["core", "base", "ui"], [⟨"ui", ["core", "base"], "ui"⟩, ⟨"core", [], "core"⟩,
          ⟨"base", [], "base"⟩], []⟩ := by
    decide +kernel
  obtain ⟨res', _, h', _, hrequires, _⟩ := resolve_without_inference.2 _ _ _ h
  exact ⟨_, res', h, h', rfl, hrequires⟩

end ResourceOrder
