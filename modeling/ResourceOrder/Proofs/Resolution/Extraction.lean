import Mathlib.Data.List.TakeWhile
import ResourceOrder.Proofs.Digits
import ResourceOrder.Proofs.Distinct
import ResourceOrder.Proofs.Graph.FirstFault
import ResourceOrder.Proofs.Resolution.Pipeline

/-!
# What a resource requires and provides

* `Explicit`    the names that a manifest requires in so many words;
* `ScriptOf`    the script is a file of the resource with this name;
* `Owners`      the resources whose files the scripts are, script by script;
* `ProvidedAs`  the name by which the resource is required, and the property that gives it;
* `Reports`     what there is to report about that name;
* `Derived`     the resource that the properties describe, with the reports;
* `telling`     the properties that all this follows from.

A string and a list are told apart: where a string is looked for, a list is passed over like a
property that is missing.  Each step of the extraction is described by one of these relations
(`explicitNames_eq_iff`, `scriptOwner?_eq_some_iff`, `providedName_eq_iff`), so **the resource that
is extracted is the one that the telling properties describe, and the name it provides is not empty
if its own name is not** (`extract_by_precedence`).  The own name of a resource is checked first,
hence no graph of extracted resources is refused for a provided name that is empty.
-/

namespace ResourceOrder

open Manifest

/-! ## what properties describe -/

/-- letters and digits of ASCII, dashes and underscores, one at least -/
def WellNamed (name : String) : Prop :=
  name ≠ "" ∧ ∀ c ∈ name.toList, 'a' ≤ c ∧ c ≤ 'z' ∨ 'A' ≤ c ∧ c ≤ 'Z' ∨ '0' ≤ c ∧ c ≤ '9' ∨
    c = '-' ∨ c = '_'

/-- the names required in so many words: a string under `dependency` is the only one, otherwise
`dependencies` is one name or a list of them -/
inductive Explicit (p : Properties) : List String → Prop
  | only {name : String} : p.get? "dependency" = some (.scalar name) → Explicit p [name]
  | one {name : String} : (∀ s, p.get? "dependency" ≠ some (.scalar s)) →
      p.get? "dependencies" = some (.scalar name) → Explicit p [name]
  | several {names : List String} : (∀ s, p.get? "dependency" ≠ some (.scalar s)) →
      p.get? "dependencies" = some (.list names) → Explicit p names
  | nothing : (∀ s, p.get? "dependency" ≠ some (.scalar s)) →
      p.get? "dependencies" = none → Explicit p []

/-- `@owner/path`, or `@owner` alone; the owner ends where the first slash is -/
def ScriptOf (owner script : String) : Prop :=
  owner ≠ "" ∧ '/' ∉ owner.toList ∧ (script.toList = '@' :: owner.toList ∨
    ∃ path, script.toList = '@' :: owner.toList ++ '/' :: path)

/-- a script that is a file of no resource in particular has no owner -/
inductive Owners : List String → List String → Prop
  | nil : Owners [] []
  | owned {script owner : String} {scripts owners : List String} : ScriptOf owner script →
      Owners scripts owners → Owners (script :: scripts) (owner :: owners)
  | other {script : String} {scripts owners : List String} : (∀ owner, ¬ ScriptOf owner script) →
      Owners scripts owners → Owners (script :: scripts) owners

/-- the scripts of a manifest, property by property -/
def scripts (p : Properties) : List String :=
  (scriptProperties.filterMap p.get?).flatMap PropertyValue.strings

/-- the name by which the resource is required, and the property that gives it unless it is the
resource's own name -/
inductive ProvidedAs (p : Properties) (resource : String) : String → Option String → Prop
  | provide {name : String} : p.get? "provide" = some (.scalar name) → name ≠ "" →
      ProvidedAs p resource name (some "provide")
  | name {name : String} : (∀ s, p.get? "provide" = some (.scalar s) → s = "") →
      p.get? "name" = some (.scalar name) → WellNamed name →
      ProvidedAs p resource name (some "name")
  | resource : (∀ s, p.get? "provide" = some (.scalar s) → s = "") →
      (∀ s, p.get? "name" = some (.scalar s) → ¬ WellNamed s) →
      ProvidedAs p resource resource none

/-- a property that gives the resource another name is reported, and nothing else is -/
inductive Reports (resource provides : String) : Option String → List Diagnostic → Prop
  | same {property : Option String} : provides = resource → Reports resource provides property []
  | other {property : String} : provides ≠ resource →
      Reports resource provides (some property)
        [⟨some resource, .providesOverride provides property⟩]

/-- the resource `x` of this name is as the properties describe it -/
structure Derived (e : Extractor) (p : Properties) (resource : String) (x : Extraction) :
    Prop where
  name : x.resource.name = resource
  requires : ∃ explicit owners, Explicit p explicit ∧ Owners (scripts p) owners ∧
    FirstOccurrences (explicit ++ if e.infersScripts then owners else []) x.resource.requires
  provides : ∃ property, ProvidedAs p resource x.resource.provides property ∧
    Reports resource x.resource.provides property x.diagnostics

/-- the properties that extraction looks at -/
def telling : List String :=
  "provide" :: "name" :: "dependency" :: "dependencies" :: scriptProperties

/-! ## names -/

section
variable {name script owner : String}

theorem isResourceName_iff : isResourceName name = true ↔ WellNamed name := by
  have hchar : ∀ c : Char, (c.isAlphanum || c == '-' || c == '_') = true ↔
      'a' ≤ c ∧ c ≤ 'z' ∨ 'A' ≤ c ∧ c ≤ 'Z' ∨ '0' ≤ c ∧ c ≤ '9' ∨ c = '-' ∨ c = '_' := by
    intro c
    simp only [Bool.or_eq_true, isAlphanum_iff, beq_iff_eq, or_assoc]
  rw [isResourceName, Bool.and_eq_true, decide_eq_true_iff, List.all_eq_true]
  exact and_congr Iff.rfl (forall₂_congr fun c _ => hchar c)

/-- what stands in front of the first `c`, or everything if there is none -/
theorem takeWhile_ne_eq_iff {c : Char} {text front : List Char} :
    text.takeWhile (· != c) = front ↔
      c ∉ front ∧ (text = front ∨ ∃ back, text = front ++ c :: back) := by
  constructor
  · rintro rfl
    refine ⟨fun hc => by simpa using List.mem_takeWhile_imp hc, ?_⟩
    have hsplit := List.takeWhile_append_dropWhile (p := (· != c)) (l := text)
    have hstop := List.head?_dropWhile_not (· != c) text
    cases hback : text.dropWhile (· != c) with
    | nil =>
      rw [hback, List.append_nil] at hsplit
      exact .inl hsplit.symm
    | cons a back =>
      rw [hback] at hsplit hstop
      have ha : a = c := by simpa using hstop
      exact .inr ⟨back, ha ▸ hsplit.symm⟩
  · rintro ⟨hc, h⟩
    have hfront : ∀ a ∈ front, (a != c) = true := fun a ha =>
      bne_iff_ne.2 fun he => hc (he ▸ ha)
    rcases h with rfl | ⟨back, rfl⟩
    · exact List.takeWhile_eq_self_iff.2 hfront
    · rw [List.takeWhile_append_of_pos hfront, List.takeWhile_cons_of_neg (by simp),
        List.append_nil]

theorem scriptOwner?_eq_some_iff : scriptOwner? script = some owner ↔ ScriptOf owner script := by
  unfold scriptOwner? ScriptOf
  split
  next path hscript =>
    have howner : owner ≠ "" ↔ owner.toList ≠ [] := not_congr String.toList_eq_nil_iff.symm
    simp only [hscript, List.cons.injEq, true_and, List.cons_append]
    rw [howner, ← takeWhile_ne_eq_iff]
    split
    next hnil => exact iff_of_false nofun fun ⟨hne, h⟩ => hne (h.symm.trans hnil)
    next hne =>
      rw [Option.some.injEq, ← String.toList_inj, String.toList_ofList]
      exact ⟨fun h => ⟨h ▸ hne, h⟩, And.right⟩
  next hother =>
    refine iff_of_false nofun fun ⟨_, _, h⟩ => ?_
    rcases h with h | ⟨path, h⟩
    · exact hother _ h
    · exact hother _ h

theorem owners_iff {scripts owners : List String} :
    scripts.filterMap scriptOwner? = owners ↔ Owners scripts owners := by
  induction scripts generalizing owners with
  | nil =>
    constructor
    · rintro rfl
      exact .nil
    · rintro ⟨⟩
      rfl
  | cons script scripts ih =>
    cases h : scriptOwner? script with
    | none =>
      have hnone : ∀ owner, ¬ ScriptOf owner script := fun owner howner =>
        nomatch h.symm.trans (scriptOwner?_eq_some_iff.2 howner)
      rw [List.filterMap_cons_none h, ih]
      constructor
      · exact .other hnone
      · rintro (_ | ⟨howner, _⟩ | ⟨_, hrest⟩)
        · exact absurd howner (hnone _)
        · exact hrest
    | some owner =>
      have howner := scriptOwner?_eq_some_iff.1 h
      rw [List.filterMap_cons_some h]
      constructor
      · rintro rfl
        exact .owned howner (ih.1 rfl)
      · rintro (_ | ⟨howner', hrest⟩ | ⟨hnone, _⟩)
        · rw [ih.2 hrest]
          rw [scriptOwner?_eq_some_iff.2 howner'] at h
          cases h
          rfl
        · exact absurd howner (hnone _)

end

/-! ## properties -/

namespace Manifest.Properties
variable {p : Properties} {key name : String}

theorem scalar?_eq_some_iff : p.scalar? key = some name ↔ p.get? key = some (.scalar name) := by
  rw [Properties.scalar?, Option.bind_eq_some_iff]
  constructor
  · rintro ⟨value, hvalue, hname⟩
    cases value with
    | scalar s =>
      cases hname
      exact hvalue
    | list items => cases hname
  · exact fun h => ⟨_, h, rfl⟩

theorem scalar?_eq_none_iff : p.scalar? key = none ↔ ∀ s, p.get? key ≠ some (.scalar s) := by
  rw [Option.eq_none_iff_forall_ne_some]
  exact forall_congr' fun s => not_congr scalar?_eq_some_iff

theorem filter_scalar?_eq_some_iff {accepts : String → Bool} :
    (p.scalar? key).filter accepts = some name ↔
      p.get? key = some (.scalar name) ∧ accepts name = true := by
  rw [Option.filter_eq_some_iff, scalar?_eq_some_iff]

theorem filter_scalar?_eq_none_iff {accepts : String → Bool} :
    (p.scalar? key).filter accepts = none ↔
      ∀ s, p.get? key = some (.scalar s) → ¬ accepts s = true := by
  rw [Option.eq_none_iff_forall_ne_some]
  exact forall_congr' fun s => (not_congr filter_scalar?_eq_some_iff).trans not_and

end Manifest.Properties

section
variable {p : Properties} {resource name : String} {property : Option String}

theorem explicitNames_eq_iff {names : List String} :
    explicitNames p = names ↔ Explicit p names := by
  constructor
  · rintro rfl
    rw [explicitNames]
    split
    next hname => exact .only (Properties.scalar?_eq_some_iff.1 hname)
    next hnone =>
      have hnone := Properties.scalar?_eq_none_iff.1 hnone
      cases hvalue : p.get? "dependencies" with
      | none => exact .nothing hnone hvalue
      | some value =>
        cases value with
        | scalar s => exact .one hnone hvalue
        | list items => exact .several hnone hvalue
  · intro h
    cases h with
    | only hname => rw [explicitNames, Properties.scalar?_eq_some_iff.2 hname]
    | one hnone hvalue | several hnone hvalue | nothing hnone hvalue =>
      rw [explicitNames, Properties.scalar?_eq_none_iff.2 hnone, hvalue]
      rfl

theorem providedName_eq_iff :
    providedName p resource = (name, property) ↔ ProvidedAs p resource name property := by
  have hprovide : (p.scalar? "provide").filter (· ≠ "") = none ↔
      ∀ s, p.get? "provide" = some (.scalar s) → s = "" := by
    rw [Properties.filter_scalar?_eq_none_iff]
    simp only [ne_eq, decide_eq_true_eq, not_not]
  have hname : (p.scalar? "name").filter isResourceName = none ↔
      ∀ s, p.get? "name" = some (.scalar s) → ¬ WellNamed s := by
    rw [Properties.filter_scalar?_eq_none_iff]
    simp only [isResourceName_iff]
  constructor
  · intro h
    rw [providedName] at h
    split at h
    next provide hsome =>
      cases h
      obtain ⟨hvalue, hne⟩ := Properties.filter_scalar?_eq_some_iff.1 hsome
      exact .provide hvalue (of_decide_eq_true hne)
    next hempty =>
      split at h
      next name hsome =>
        cases h
        obtain ⟨hvalue, hwell⟩ := Properties.filter_scalar?_eq_some_iff.1 hsome
        exact .name (hprovide.1 hempty) hvalue (isResourceName_iff.1 hwell)
      next hill =>
        cases h
        exact .resource (hprovide.1 hempty) (hname.1 hill)
  · intro h
    cases h with
    | provide hvalue hne =>
      rw [providedName, Properties.filter_scalar?_eq_some_iff.2 ⟨hvalue, decide_eq_true hne⟩]
    | name hempty hvalue hwell =>
      have hsome := Properties.filter_scalar?_eq_some_iff.2 ⟨hvalue, isResourceName_iff.2 hwell⟩
      rw [providedName, hprovide.2 hempty, hsome]
    | resource hempty hill => rw [providedName, hprovide.2 hempty, hname.2 hill]

theorem ProvidedAs.eq_empty (h : ProvidedAs p resource name property) (hname : name = "") :
    resource = "" := by
  cases h with
  | provide _ hne => exact absurd hname hne
  | name _ _ hwell => exact absurd hname hwell.1
  | resource => exact hname

theorem overrideDiagnostics_eq_iff {diagnostics : List Diagnostic}
    (h : ProvidedAs p resource name property) :
    overrideDiagnostics resource (name, property) = diagnostics ↔
      Reports resource name property diagnostics := by
  by_cases hsame : name = resource
  · have hnil : overrideDiagnostics resource (name, property) = [] := by
      cases property with
      | none => rfl
      | some key => exact if_pos hsame
    rw [hnil]
    constructor
    · rintro rfl
      exact .same hsame
    · rintro (_ | hother)
      · rfl
      · exact absurd hsame hother
  · obtain ⟨key, rfl⟩ : ∃ key, property = some key := by
      cases h with
      | provide => exact ⟨_, rfl⟩
      | name => exact ⟨_, rfl⟩
      | resource => exact absurd rfl hsame
    rw [overrideDiagnostics, if_neg hsame]
    constructor
    · rintro rfl
      exact .other hsame
    · rintro (h | _)
      · exact absurd h hsame
      · rfl

end

/-! ## extraction -/

namespace Extractor
variable {e : Extractor} {p q : Properties} {resource : String}

theorem extract_eq_iff {x : Extraction} :
    e.extract p resource = x ↔ Derived e p resource x := by
  constructor
  · rintro rfl
    have hprovided := providedName_eq_iff.1 (Prod.mk.eta (p := providedName p resource)).symm
    exact ⟨rfl, ⟨_, _, explicitNames_eq_iff.1 rfl, owners_iff.1 rfl, firstOccurrences_distinct _⟩,
      _, hprovided, (overrideDiagnostics_eq_iff hprovided).1 rfl⟩
  · rintro ⟨rfl, ⟨explicit, owners, hexplicit, howners, hrequires⟩, property, hprovides, hreports⟩
    obtain ⟨⟨resource, required, provided⟩, diagnostics⟩ := x
    have hexplicit := explicitNames_eq_iff.2 hexplicit
    have howners : inferredNames p = owners := owners_iff.2 howners
    have hprovided := providedName_eq_iff.2 hprovides
    have hreports := (overrideDiagnostics_eq_iff hprovides).2 hreports
    show Extraction.mk ⟨resource, e.requires p, (providedName p resource).1⟩
      (overrideDiagnostics resource (providedName p resource)) = _
    rw [requires, hexplicit, howners, distinct_eq_iff.2 hrequires, hprovided, hreports]

/-- an extracted resource provides nothing only if it has no name either -/
theorem name_eq_empty (h : (e.extract p resource).resource.provides = "") : resource = "" := by
  obtain ⟨property, hprovides, _⟩ := (extract_eq_iff.1 (rfl : e.extract p resource = _)).provides
  exact hprovides.eq_empty h

theorem extract_congr (h : ∀ key ∈ telling, p.get? key = q.get? key) :
    e.extract p resource = e.extract q resource := by
  have hscalar : ∀ key ∈ telling, p.scalar? key = q.scalar? key := fun key hkey => by
    rw [Properties.scalar?, Properties.scalar?, h key hkey]
  have hprovided : providedName p resource = providedName q resource := by
    rw [providedName, providedName, hscalar "provide" (by decide), hscalar "name" (by decide)]
  have hexplicit : explicitNames p = explicitNames q := by
    rw [explicitNames, explicitNames, hscalar "dependency" (by decide),
      h "dependencies" (by decide)]
  have hscripts : scriptProperties.filterMap p.get? = scriptProperties.filterMap q.get? :=
    List.filterMap_congr fun key hkey => h key (by simp [telling, hkey])
  have hinferred : inferredNames p = inferredNames q := by
    rw [inferredNames, inferredNames, hscripts]
  rw [extract, extract, requires, requires, hprovided, hexplicit, hinferred]

end Extractor

namespace Resolver
variable {r : Resolver} {sources : List Source} {i : Nat}

theorem resolve_ne_empty_provides :
    r.resolve sources ≠ .error (.graph (.emptyIdentity i .provides)) := by
  intro h
  obtain ⟨readings, _, hb⟩ := exists_build_of_resolve h
  obtain ⟨j, hj⟩ := Graph.exists_nameFault_of_build hb rfl
  cases hj with
  | providesNothing hx hname hprovides =>
    obtain ⟨x, _, rfl⟩ := List.mem_map.1 (List.mem_of_getElem? hx)
    exact hname (Extractor.name_eq_empty hprovides)

theorem graph_ne_empty_provides :
    r.graph sources ≠ .error (.graph (.emptyIdentity i .provides)) := by
  intro h
  have hnames := graph_map_names r sources
  rw [h] at hnames
  exact resolve_ne_empty_provides (map_eq_error_iff.1 hnames.symm)

end Resolver

/-- **The properties of a manifest describe one resource, and it is the one that is extracted.**  It
requires each name once, provides the empty name only if that is its own, and depends on the telling
properties alone.  So no resources of manifests are refused for providing the empty name. -/
theorem extract_by_precedence :
    (∀ (e : Extractor) (p : Properties) (resource : String) (x : Extraction),
      e.extract p resource = x ↔ Derived e p resource x) ∧
    (∀ (e : Extractor) (p : Properties) (resource : String),
      (e.extract p resource).resource.requires.Nodup ∧
      ((e.extract p resource).resource.provides = "" → resource = "")) ∧
    (∀ (e : Extractor) (p q : Properties) (resource : String),
      (∀ key ∈ telling, p.get? key = q.get? key) →
      e.extract p resource = e.extract q resource) ∧
    ∀ (r : Resolver) (sources : List Source) (i : Nat),
      r.resolve sources ≠ .error (.graph (.emptyIdentity i .provides)) ∧
      r.graph sources ≠ .error (.graph (.emptyIdentity i .provides)) := by
  refine ⟨fun _ _ _ _ => Extractor.extract_eq_iff, fun e p resource => ⟨?_, ?_⟩,
    fun _ _ _ _ => Extractor.extract_congr, fun _ _ _ => ⟨?_, ?_⟩⟩
  · exact nodup_distinct _
  · exact Extractor.name_eq_empty
  · exact Resolver.resolve_ne_empty_provides
  · exact Resolver.graph_ne_empty_provides

/-- lists where a string is looked for, and `core` is required in two ways -/
def hud : Properties :=
  .ofList [("provide", .list ["map"]), ("name", .scalar "hud-v2"), ("dependency", .list ["map"]),
    ("dependencies", .scalar "core"), ("client_script", .scalar "@base/a.lua"),
    ("shared_scripts", .list ["@core/b.lua", "@/c.lua", "d.lua", "@solo"])]

theorem extract_by_precedence_hud :
    Derived ⟨true⟩ hud "hud" ⟨⟨"hud", ["core", "base", "solo"], "hud-v2"⟩,
      [⟨some "hud", .providesOverride "hud-v2" "name"⟩]⟩ ∧
    ((Extractor.extract ⟨true⟩ (.ofList [("provide", .scalar "")]) "").resource.provides = "" ∧
      "" = "") ∧
    (∀ key ∈ telling, hud.get? key = (hud.insert "version" (.scalar "2")).get? key) ∧
    Extractor.extract ⟨true⟩ hud "hud" =
      Extractor.extract ⟨true⟩ (hud.insert "version" (.scalar "2")) "hud" := by
  obtain ⟨hderived, hrest, hagree, _⟩ := extract_by_precedence
  have hempty :
      (Extractor.extract ⟨true⟩ (.ofList [("provide", .scalar "")]) "").resource.provides = "" := by
    decide +kernel
  have hversion : ∀ key ∈ telling,
      hud.get? key = (hud.insert "version" (.scalar "2")).get? key := by
    decide +kernel
  refine ⟨(hderived _ _ _ _).1 ?_, ⟨hempty, (hrest _ _ _).2 hempty⟩, hversion,
    hagree _ _ _ _ hversion⟩
  decide +kernel

/-- a resource without a name is refused for the name and not for what it provides -/
example : Resolver.resolve ⟨interpret, ⟨true⟩⟩ [⟨"", "provide ''"⟩] =
    .error (.graph (.emptyIdentity 0 .resource)) := by
  decide +kernel

end ResourceOrder
