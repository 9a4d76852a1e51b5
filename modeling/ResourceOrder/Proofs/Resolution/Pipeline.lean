import ResourceOrder.Proofs.Graph.Placement
import ResourceOrder.Resolution

/-!
# Reading manifests, then ordering resources

* `Reading`            a source and what its manifest says;
* `Resolver.resourceOf`  the resource of a source that has been read;
* `Resolver.findings`    what there is to report about it: first what was found in the manifest,
                         then what was found in its properties, all under the name of the source.

All manifests are read before any resource is looked at, so a manifest that cannot be read is
reported whatever the resources are like, and of several the first one
(`Resolver.extractAll_eq_error`).  If all can be read, each source gives its own resource and
findings (`Resolver.extractAll_eq_ok`), and ordering the resources finds nothing more
(`resolveResources_of_build`).  **So resolving is ordering the resources of the sources, and gives
the load order of their graph** (`Resolver.resolve_two_stages`).
-/

namespace ResourceOrder

open Manifest

/-! ## ordering resources -/

section
variable {rs : List Resource}

theorem resolveResources_of_build {g : Graph} (h : Graph.build rs = .ok g) :
    resolveResources rs = .ok ⟨g.loadOrder.names, rs, []⟩ := by
  obtain ⟨_, hc, _⟩ := Graph.build_eq_ok_iff.1 h
  have hdiagnostics := (Graph.valid_of_build h).loadOrder_diagnostics
  rw [resolveResources, buildGraph, h]
  show Except.ok (Resolution.mk g.loadOrder.names g.resources g.loadOrder.diagnostics) = _
  rw [hc.resources, hdiagnostics]

theorem resolveResources_of_error {e : GraphError} (h : Graph.build rs = .error e) :
    resolveResources rs = .error (.graph e) := by
  rw [resolveResources, buildGraph, h]
  rfl

theorem resolveResources_eq_ok_iff {res : Resolution} :
    resolveResources rs = .ok res ↔
      ∃ g, Graph.build rs = .ok g ∧ res = ⟨g.loadOrder.names, rs, []⟩ := by
  cases h : Graph.build rs with
  | error e =>
    rw [resolveResources_of_error h]
    exact iff_of_false nofun fun ⟨_, hg, _⟩ => nomatch hg
  | ok g =>
    rw [resolveResources_of_build h]
    constructor
    · intro hres
      exact ⟨g, rfl, (Except.ok.inj hres).symm⟩
    · intro hg
      obtain ⟨g', hg, rfl⟩ := hg
      cases hg
      rfl

end

/-! ## reading manifests -/

structure Reading where
  source : Source
  interpretation : Interpretation

namespace Resolver
variable (r : Resolver)

def resourceOf (x : Reading) : Resource :=
  (r.extractor.extract x.interpretation.properties x.source.resource).resource

def findings (x : Reading) : List Diagnostic :=
  x.interpretation.diagnostics.map (fun d => ⟨some x.source.resource, d.finding⟩) ++
    (r.extractor.extract x.interpretation.properties x.source.resource).diagnostics

/-- each source with what the interpreter makes of its text -/
def Reads (sources : List Source) (readings : List Reading) : Prop :=
  readings.map Reading.source = sources ∧
    ∀ x ∈ readings, r.interpreter x.source.text = .ok x.interpretation

variable {r} {sources : List Source}

theorem extract_eq_ok {x : Reading} (h : r.interpreter x.source.text = .ok x.interpretation) :
    r.extract x.source = .ok ⟨r.resourceOf x, r.findings x⟩ := by
  rw [extract, h]
  rfl

theorem extract_eq_error {s : Source} {cause : ManifestError}
    (h : r.interpreter s.text = .error cause) :
    r.extract s = .error (.manifest s.resource cause) := by
  rw [extract, h]

theorem extractAll_eq_ok {readings : List Reading} (h : r.Reads sources readings) :
    r.extractAll sources = .ok (readings.map fun x => ⟨r.resourceOf x, r.findings x⟩) := by
  obtain ⟨rfl, h⟩ := h
  rw [extractAll, mapM_eq_ok_iff, forall₂_maps_iff]
  exact fun x hx => extract_eq_ok (h x hx)

theorem extractAll_eq_error {front back : List Source} {s : Source} {cause : ManifestError}
    (hfront : ∀ q ∈ front, ∃ i, r.interpreter q.text = .ok i)
    (h : r.interpreter s.text = .error cause) :
    r.extractAll (front ++ s :: back) = .error (.manifest s.resource cause) := by
  refine mapM_eq_error (fun q hq => ?_) (extract_eq_error h)
  obtain ⟨i, hi⟩ := hfront q hq
  exact ⟨_, extract_eq_ok (x := ⟨q, i⟩) hi⟩

theorem exists_reads (h : ∀ s ∈ sources, ∃ i, r.interpreter s.text = .ok i) :
    ∃ readings, r.Reads sources readings := by
  induction sources with
  | nil => exact ⟨[], rfl, by simp⟩
  | cons s sources ih =>
    obtain ⟨i, hi⟩ := h s (by simp)
    obtain ⟨readings, hmap, hread⟩ := ih fun q hq => h q (List.mem_cons_of_mem _ hq)
    refine ⟨⟨s, i⟩ :: readings, by rw [List.map_cons, hmap], fun x hx => ?_⟩
    rcases List.mem_cons.1 hx with rfl | hx
    · exact hi
    · exact hread x hx

/-! ## resolving -/

section
variable {readings : List Reading} (h : r.Reads sources readings)
include h

theorem resolve_eq :
    r.resolve sources = (resolveResources (readings.map r.resourceOf)).map fun res =>
      ⟨res.loadOrder, res.resources, readings.flatMap r.findings⟩ := by
  rw [resolve, extractAll_eq_ok h]
  show (resolveResources ((readings.map _).map Extraction.resource) >>= _) = _
  rw [List.map_map]
  show (resolveResources (readings.map r.resourceOf) >>= _) = _
  cases hres : resolveResources (readings.map r.resourceOf) with
  | error e => rfl
  | ok res =>
    obtain ⟨g, _, rfl⟩ := resolveResources_eq_ok_iff.1 hres
    show Except.ok (Resolution.mk _ _ ((readings.map _).flatMap Extraction.diagnostics ++ [])) = _
    rw [List.append_nil, List.flatMap_map]
    rfl

theorem resolve_eq_ok_iff {res : Resolution} :
    r.resolve sources = .ok res ↔ ∃ g, Graph.build (readings.map r.resourceOf) = .ok g ∧
      res = ⟨g.loadOrder.names, readings.map r.resourceOf, readings.flatMap r.findings⟩ := by
  rw [resolve_eq h, map_eq_ok_iff]
  simp only [resolveResources_eq_ok_iff]
  constructor
  · intro hres
    obtain ⟨_, ⟨g, hg, rfl⟩, rfl⟩ := hres
    exact ⟨g, hg, rfl⟩
  · intro hres
    obtain ⟨g, hg, rfl⟩ := hres
    exact ⟨_, ⟨g, hg, rfl⟩, rfl⟩

theorem graph_eq : r.graph sources = buildGraph (readings.map r.resourceOf) := by
  rw [graph, extractAll_eq_ok h]
  show buildGraph ((readings.map _).map Extraction.resource) = _
  rw [List.map_map]
  rfl

theorem names_resourceOf :
    (readings.map r.resourceOf).map Resource.name = sources.map Source.resource := by
  rw [← h.1, List.map_map, List.map_map]
  rfl

end

theorem resolve_eq_error {e : ResolveError} (h : r.extractAll sources = .error e) :
    r.resolve sources = .error e := by
  rw [resolve, h]
  rfl

theorem graph_eq_error {e : ResolveError} (h : r.extractAll sources = .error e) :
    r.graph sources = .error e := by
  rw [graph, h]
  rfl

/-- a manifest that cannot be read decides the result, whatever the others are -/
theorem exists_first_refused (h : ∃ s ∈ sources, ∃ cause, r.interpreter s.text = .error cause) :
    ∃ front s back cause, sources = front ++ s :: back ∧
      (∀ q ∈ front, ∃ i, r.interpreter q.text = .ok i) ∧ r.interpreter s.text = .error cause ∧
      r.extractAll sources = .error (.manifest s.resource cause) := by
  obtain ⟨s, hs, cause, h⟩ := h
  obtain ⟨front, q, back, cause, rfl, hfront, hq⟩ :=
    exists_first_error (f := fun s : Source => r.interpreter s.text) hs h
  exact ⟨front, q, back, cause, rfl, hfront, hq, extractAll_eq_error hfront hq⟩

theorem exists_reads_of_not_refused
    (h : ∀ resource cause, r.resolve sources ≠ .error (.manifest resource cause)) :
    ∃ readings, r.Reads sources readings := by
  refine exists_reads fun s hs => ?_
  cases hi : r.interpreter s.text with
  | ok i => exact ⟨i, rfl⟩
  | error cause =>
    obtain ⟨_, _, _, _, _, _, _, hfail⟩ := exists_first_refused ⟨s, hs, cause, hi⟩
    exact absurd (resolve_eq_error hfail) (h _ _)

theorem exists_reads_of_resolve {res : Resolution} (h : r.resolve sources = .ok res) :
    ∃ readings, r.Reads sources readings :=
  exists_reads_of_not_refused fun _ _ he => error_ne_ok (he.symm.trans h)

/-- what is wrong with a graph is found only in the graph of what was read -/
theorem exists_build_of_resolve {e : GraphError} (h : r.resolve sources = .error (.graph e)) :
    ∃ readings, r.Reads sources readings ∧
      Graph.build (readings.map r.resourceOf) = .error e := by
  obtain ⟨readings, hreads⟩ : ∃ readings, r.Reads sources readings :=
    exists_reads_of_not_refused fun _ _ he => nomatch he.symm.trans h
  refine ⟨readings, hreads, ?_⟩
  rw [resolve_eq hreads, map_eq_error_iff] at h
  cases hb : Graph.build (readings.map r.resourceOf) with
  | ok g =>
    rw [resolveResources_of_build hb] at h
    cases h
  | error e' =>
    rw [resolveResources_of_error hb] at h
    cases h
    rfl

/-- the graph and the resolution are two views of one result -/
theorem graph_map_names (r : Resolver) (sources : List Source) :
    (r.graph sources).map (fun g => g.loadOrder.names) =
      (r.resolve sources).map Resolution.loadOrder := by
  cases he : r.extractAll sources with
  | error e =>
    rw [resolve_eq_error he, graph_eq_error he]
    rfl
  | ok es =>
    rw [graph, resolve, he]
    show (buildGraph (es.map Extraction.resource)).map _ =
      (resolveResources (es.map Extraction.resource) >>= _).map _
    rw [resolveResources]
    cases buildGraph (es.map Extraction.resource) <;> rfl

/-- **Manifests are read first, and the first that cannot be read decides the result; what they
say is then resolved source by source, and with it the graph is built.** -/
theorem resolve_two_stages (r : Resolver) (sources : List Source) :
    ((∃ s ∈ sources, ∃ cause, r.interpreter s.text = .error cause) →
      ∃ front s back cause, sources = front ++ s :: back ∧
        (∀ q ∈ front, ∃ i, r.interpreter q.text = .ok i) ∧
        r.interpreter s.text = .error cause ∧
        r.resolve sources = .error (.manifest s.resource cause)) ∧
    ((∀ s ∈ sources, ∃ i, r.interpreter s.text = .ok i) →
      ∃ readings, r.Reads sources readings ∧
        (∀ x ∈ readings, r.extract x.source = .ok ⟨r.resourceOf x, r.findings x⟩) ∧
        r.resolve sources = (resolveResources (readings.map r.resourceOf)).map (fun res =>
          ⟨res.loadOrder, res.resources, readings.flatMap r.findings⟩) ∧
        ∀ res, r.resolve sources = .ok res → res.resources = readings.map r.resourceOf ∧
          res.resources.map Resource.name = sources.map Source.resource) ∧
    (r.graph sources).map (fun g => g.loadOrder.names) =
      (r.resolve sources).map Resolution.loadOrder := by
  refine ⟨fun h => ?_, fun h => ?_, graph_map_names r sources⟩
  · obtain ⟨front, s, back, cause, hsplit, hfront, hs, hfail⟩ := exists_first_refused h
    exact ⟨front, s, back, cause, hsplit, hfront, hs, resolve_eq_error hfail⟩
  · obtain ⟨readings, hreads⟩ := exists_reads h
    refine ⟨readings, hreads, fun x hx => extract_eq_ok (hreads.2 x hx), resolve_eq hreads, ?_⟩
    intro res hres
    obtain ⟨g, _, rfl⟩ := (resolve_eq_ok_iff hreads).1 hres
    exact ⟨rfl, names_resourceOf hreads⟩

/-- a text is what its resource requires; some are refused, and the reports name no resource -/
def curt : Resolver where
  interpreter text :=
    if text = "?" then .error ⟨.other "refused", 1, 1, text⟩
    else .ok ⟨.ofList [("dependency", .scalar text)], [⟨none, .unrecognizedStatement 1 1 text⟩]⟩
  extractor := ⟨false⟩

/-- the first resource requires what is not there, and the two behind it cannot be read -/
theorem resolve_two_stages_curt :
    curt.resolve [⟨"a", "nowhere"⟩, ⟨"b", "?"⟩, ⟨"c", "?"⟩] =
      .error (.manifest "b" ⟨.other "refused", 1, 1, "?"⟩) ∧
    (∃ s ∈ [Source.mk "a" "nowhere", ⟨"b", "?"⟩, ⟨"c", "?"⟩], ∃ cause,
      curt.interpreter s.text = .error cause) ∧
    ∃ front s back cause, [Source.mk "a" "nowhere", ⟨"b", "?"⟩, ⟨"c", "?"⟩] = front ++ s :: back ∧
      (∀ q ∈ front, ∃ i, curt.interpreter q.text = .ok i) ∧
      curt.interpreter s.text = .error cause ∧
      curt.resolve [⟨"a", "nowhere"⟩, ⟨"b", "?"⟩, ⟨"c", "?"⟩] =
        .error (.manifest s.resource cause) := by
  have hrefused : ∃ s ∈ [Source.mk "a" "nowhere", ⟨"b", "?"⟩, ⟨"c", "?"⟩], ∃ cause,
      curt.interpreter s.text = .error cause := ⟨⟨"b", "?"⟩, by simp, _, rfl⟩
  exact ⟨rfl, hrefused, (resolve_two_stages curt _).1 hrefused⟩

end Resolver

end ResourceOrder
