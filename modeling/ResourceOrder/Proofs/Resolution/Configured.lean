import ResourceOrder.Proofs.Files.Manifests
import ResourceOrder.Proofs.Resolution.Extraction

/-!
# Configured resources have names

* `Config.Valid`  what is asked of a configuration;
* `NameOf`        where the name of the source of an entry comes from;
* `SourceOf`      the source of an entry: its name, and the text of the manifest in its directory.

Reading a configuration gives the source of each enabled entry in turn
(`readConfigured_eq_ok_iff`).  A name that is given is not blank in a valid configuration
(`Config.validate_eq_ok_iff`), the last component of a path is never empty, and neither is the name
of a place or a name above a manifest; so all sources have names (`NameOf.ne_empty`).  **Hence the
resources that a valid configuration lists are never refused for an empty name, whatever their
manifests say and however these are read** (`readConfigured_named`).
-/

namespace ResourceOrder

open ResourceOrder.Path

/-! ## valid configurations -/

/-- the version is known, and neither a path nor a name that is given is blank -/
structure Config.Valid (c : Config) : Prop where
  version : c.version = Config.knownVersion
  path : ∀ e ∈ c.entries, isBlankText e.path = false
  name : ∀ e ∈ c.entries, ∀ name, e.name = some name → isBlankText name = false

theorem entryFault?_eq_none_iff {es : List Entry} {index : Nat} :
    entryFault? index es = none ↔ ∀ e ∈ es, isBlankText e.path = false ∧
      ∀ name, e.name = some name → isBlankText name = false := by
  induction es generalizing index with
  | nil => exact iff_of_true rfl nofun
  | cons e es ih =>
    rw [entryFault?, List.forall_mem_cons]
    split
    · rename_i hpath
      exact iff_of_false nofun fun h => Bool.false_ne_true (h.1.1.symm.trans hpath)
    split
    · rename_i hname
      obtain ⟨name, hsome, hblank⟩ := Option.any_eq_true _ _ |>.1 hname
      exact iff_of_false nofun fun h =>
        Bool.false_ne_true ((h.1.2 name hsome).symm.trans hblank)
    · rename_i hpath hname
      rw [ih]
      refine (and_iff_right ⟨Bool.eq_false_iff.2 hpath, fun name hsome => ?_⟩).symm
      rw [Bool.eq_false_iff]
      exact fun hblank => hname (Option.any_eq_true _ _ |>.2 ⟨name, hsome, hblank⟩)

theorem Config.validate_eq_ok_iff {c : Config} : c.validate = .ok () ↔ c.Valid := by
  rw [validate]
  split
  · rename_i hversion
    exact iff_of_false error_ne_ok fun h => hversion h.version
  rename_i hversion
  split
  · rename_i reason hfault
    refine iff_of_false error_ne_ok fun h => ?_
    rw [entryFault?_eq_none_iff.2 fun e he => ⟨h.path e he, h.name e he⟩] at hfault
    cases hfault
  · rename_i hfault
    have hall := entryFault?_eq_none_iff.1 hfault
    exact iff_of_true rfl
      ⟨not_not.1 hversion, fun e he => (hall e he).1, fun e he => (hall e he).2⟩

theorem ne_empty_of_not_isBlankText {name : String} (h : isBlankText name = false) :
    name ≠ "" := by
  rintro rfl
  exact Bool.false_ne_true h.symm

/-! ## the source of an entry -/

/-- the last component of the directory's path, if it is a name and a text -/
def componentName? (e : Entry) (base : RawText) : Option String :=
  (fileName? (e.directory base)).bind RawText.text?

/-- the name of the place to which the directory's path leads, if it is a text -/
def placeName? (fs : FileAccess Id) (e : Entry) (base : RawText) : Option String :=
  (fs.finalName (e.directory base)).bind RawText.text?

/-- the segment above the manifest, if its path is a text -/
def segmentAbove? (manifest : RawText) : Option String :=
  manifest.text?.bind fun path => nameAbove? (withSlashes path)

/-- where the name of an entry comes from: it is given, or else it is the last component of the
directory's path, or the name of the place to which the path leads, or the segment above the
manifest -/
inductive NameOf (fs : FileAccess Id) (e : Entry) (base manifest : RawText) : String → Prop
  | given {name} : e.name = some name → NameOf fs e base manifest name
  | component {name} : e.name = none → componentName? e base = some name →
      NameOf fs e base manifest name
  | place {name} : e.name = none → componentName? e base = none → placeName? fs e base = some name →
      NameOf fs e base manifest name
  | above {name} : e.name = none → componentName? e base = none → placeName? fs e base = none →
      segmentAbove? manifest = some name → NameOf fs e base manifest name

/-- the source of an entry, seen from the directory `base` -/
def SourceOf (fs : FileAccess Id) (base : RawText) (e : Entry) (s : Source) : Prop :=
  ∃ manifest, findManifest fs (e.directory base) = .ok manifest ∧
    NameOf fs e base manifest s.resource ∧ fs.text manifest = .ok s.text

section
variable {fs : FileAccess Id} {base manifest : RawText} {e : Entry} {s : Source}

theorem nameOf_iff {name : String} : NameOf fs e base manifest name ↔
    e.name = some name ∨
      e.name = none ∧ resourceName fs (e.directory base) manifest = .ok name := by
  have hname : resourceName fs (e.directory base) manifest = .ok name ↔
      (directoryName fs (e.directory base) : Option String).or (segmentAbove? manifest) =
        some name := by
    rw [resourceName_eq, ← segmentAbove?]
    split
    · rename_i found hfound
      rw [hfound, Except.ok.injEq, Option.some.injEq]
    · rename_i hfound
      rw [hfound]
      exact iff_of_false error_ne_ok nofun
  have hdirectory : (directoryName fs (e.directory base) : Option String) =
      (componentName? e base).or (placeName? fs e base) := by
    rw [directoryName, ← componentName?]
    cases componentName? e base <;> rfl
  rw [hname, hdirectory, Option.or_eq_some_iff, Option.or_eq_some_iff, Option.or_eq_none_iff]
  constructor
  · rintro (h | ⟨h, hcomponent⟩ | ⟨h, hcomponent, hplace⟩ | ⟨h, hcomponent, hplace, habove⟩)
    · exact .inl h
    · exact .inr ⟨h, .inl (.inl hcomponent)⟩
    · exact .inr ⟨h, .inl (.inr ⟨hcomponent, hplace⟩)⟩
    · exact .inr ⟨h, .inr ⟨⟨hcomponent, hplace⟩, habove⟩⟩
  · rintro (h | ⟨h, (hcomponent | ⟨hcomponent, hplace⟩) | ⟨⟨hcomponent, hplace⟩, habove⟩⟩)
    · exact .given h
    · exact .component h hcomponent
    · exact .place h hcomponent hplace
    · exact .above h hcomponent hplace habove

/-- a name is empty as a text only if it has no bytes -/
theorem ne_empty_of_bind_text? {raw? : Option RawText} {name : String} (hraw : raw? ≠ some [])
    (h : raw?.bind RawText.text? = some name) : name ≠ "" := by
  rintro rfl
  obtain ⟨raw, hsome, htext⟩ := Option.bind_eq_some_iff.1 h
  rw [RawText.text?_eq_some_iff.1 htext] at hsome
  exact hraw hsome

theorem NameOf.ne_empty {name : String} (h : NameOf fs e base manifest name)
    (hplaces : ∀ path, fs.finalName path ≠ some [])
    (hgiven : ∀ name, e.name = some name → isBlankText name = false) : name ≠ "" := by
  cases h with
  | given h => exact ne_empty_of_not_isBlankText (hgiven name h)
  | component _ h => exact ne_empty_of_bind_text? (fun he => ne_nil_of_fileName? he rfl) h
  | place _ _ h => exact ne_empty_of_bind_text? (hplaces _) h
  | above _ _ _ h =>
    obtain ⟨path, -, habove⟩ := Option.bind_eq_some_iff.1 h
    exact ne_empty_of_nameAbove? habove

theorem textOf_eq_ok_iff {resource : String} : textOf fs manifest resource = .ok s ↔
    s.resource = resource ∧ fs.text manifest = .ok s.text := by
  obtain ⟨name, text⟩ := s
  rw [textOf]
  split
  · rename_i text' htext
    rw [htext, Except.ok.injEq, Source.mk.injEq]
    exact and_congr eq_comm (Except.ok.injEq .. ▸ Iff.rfl)
  · rename_i fault hfault
    rw [hfault]
    exact iff_of_false error_ne_ok fun h => error_ne_ok h.2

theorem readResource_eq_ok_iff :
    readResource fs (e.directory base) e.name = .ok s ↔ SourceOf fs base e s := by
  by_cases hfind : ∃ manifest, findManifest fs (e.directory base) = .ok manifest
  · obtain ⟨manifest, hfind⟩ := hfind
    rw [readResource_eq hfind, exceptT_bind, bind_eq_ok_iff]
    have hsource : SourceOf fs base e s ↔
        NameOf fs e base manifest s.resource ∧ fs.text manifest = .ok s.text := by
      constructor
      · rintro ⟨manifest', hfind', h⟩
        cases hfind.symm.trans hfind'
        exact h
      · exact fun h => ⟨manifest, hfind, h⟩
    rw [hsource, nameOf_iff]
    simp only [textOf_eq_ok_iff]
    cases e.name with
    | some name =>
      constructor
      · rintro ⟨resource, h, rfl, htext⟩
        cases h
        exact ⟨.inl rfl, htext⟩
      · rintro ⟨h | ⟨h, -⟩, htext⟩
        · cases h
          exact ⟨_, rfl, rfl, htext⟩
        · cases h
    | none =>
      constructor
      · rintro ⟨resource, h, rfl, htext⟩
        exact ⟨.inr ⟨rfl, h⟩, htext⟩
      · rintro ⟨h | ⟨-, h⟩, htext⟩
        · cases h
        · exact ⟨_, h, rfl, htext⟩
  · refine iff_of_false (fun h => ?_) fun ⟨manifest, h, _⟩ => hfind ⟨manifest, h⟩
    rw [readResource, findManifest_eq_error hfind] at h
    cases h

/-- reading a configuration gives the source of each enabled entry in turn -/
theorem readConfigured_eq_ok_iff {config : Config} {sources : List Source} :
    readConfigured fs config base = .ok sources ↔
      List.Forall₂ (SourceOf fs base) (config.entries.filter Entry.enabled) sources := by
  have hsource : (fun e s => readResource fs (Entry.directory e base) e.name = .ok s) =
      SourceOf fs base := by
    funext e s
    exact propext readResource_eq_ok_iff
  rw [readConfigured, exceptT_mapM, mapM_eq_ok_iff, ← hsource]
  rfl

end

/-! ## resolving -/

/-- sources with names have no empty identity, whatever their manifests say -/
theorem Resolver.resolve_ne_emptyIdentity {r : Resolver} {sources : List Source}
    (h : ∀ s ∈ sources, s.resource ≠ "") (index : Nat) (field : IdentityField) :
    r.resolve sources ≠ .error (.graph (.emptyIdentity index field)) := by
  cases field with
  | provides => exact resolve_ne_empty_provides
  | resource =>
    intro hresolve
    obtain ⟨readings, ⟨rfl, -⟩, hb⟩ := exists_build_of_resolve hresolve
    obtain ⟨i, hi⟩ := Graph.exists_nameFault_of_build hb rfl
    cases hi with
    | unnamed hx hname =>
      obtain ⟨x, hmem, rfl⟩ := List.mem_map.1 (List.mem_of_getElem? hx)
      exact h x.source (List.mem_map_of_mem hmem) hname

/-- the name of a place to which a path leads is never empty -/
theorem Disk.finalName_ne_nil {d : Disk} (hd : d.root.Lawful) (path : RawText) :
    d.access.finalName path ≠ some [] := by
  intro h
  simp only [access] at h
  split at h
  · rename_i name t rest hresolve
    have hall : ∀ e ∈ ((name, t) :: rest : Trail), IsName e.1 ∧ e.2.Lawful :=
      forall_mem_of_resolve (R := fun e => IsName e.1 ∧ e.2.Lawful)
        (fun entries hdir e he => ⟨(hdir ▸ hd).isName he, (hdir ▸ hd).entry e he⟩)
        (fun _ entries hlawful e he => ⟨hlawful.2.isName he, hlawful.2.entry e he⟩) hresolve
    cases h
    exact (hall _ (List.mem_cons_self ..)).1.ne_nil rfl
  · cases h

/-- **The resources that a valid configuration lists have names, so resolving them never fails for
an empty one.**  No place has the empty name. -/
theorem readConfigured_named {fs : FileAccess Id} (hplaces : ∀ path, fs.finalName path ≠ some [])
    {config : Config} (hvalid : config.validate = .ok ()) {base : RawText} {sources : List Source}
    (h : readConfigured fs config base = .ok sources) :
    List.Forall₂ (SourceOf fs base) (config.entries.filter Entry.enabled) sources ∧
    (∀ s ∈ sources, s.resource ≠ "") ∧
    ∀ (r : Resolver) (index : Nat) (field : IdentityField),
      r.resolve sources ≠ .error (.graph (.emptyIdentity index field)) := by
  have hsources := readConfigured_eq_ok_iff.1 h
  have hnamed : ∀ s ∈ sources, s.resource ≠ "" := by
    intro s hs
    obtain ⟨e, he, manifest, -, hname, -⟩ := exists_of_mem_forall₂ hsources hs
    exact hname.ne_empty hplaces
      ((Config.validate_eq_ok_iff.1 hvalid).name e (List.mem_of_mem_filter he))
  exact ⟨hsources, hnamed, fun r => r.resolve_ne_emptyIdentity hnamed⟩

/-- a resource in each of three directories inside one another, the root among them -/
def Disk.nested : Disk where
  root := .directory [("fxmanifest.lua", .file .empty),
    ("res", .directory [("__resource.lua", .file .empty),
      ("a", .directory [("fxmanifest.lua", .file .empty)])])]
  current := []

theorem Disk.lawful_nested : nested.root.Lawful := FileTree.lawful_of_isLawful (by decide)

/-- a name of each kind; the root has none of its own, and is called by the dots that lead to it -/
def Config.fourNames : Config where
  version := 1
  infersScripts := true
  entries := [⟨"res/a", some "ui", true⟩, ⟨"res/a", none, true⟩, ⟨"gone", none, false⟩,
    ⟨"res/a/..", none, true⟩, ⟨"res/..", none, true⟩]

theorem readConfigured_named_fourNames :
    (∀ path, Disk.nested.access.finalName path ≠ some []) ∧
    Config.fourNames.validate = .ok () ∧
    readConfigured Disk.nested.access Config.fourNames "" =
      .ok [⟨"ui", ""⟩, ⟨"a", ""⟩, ⟨"res", ""⟩, ⟨"..", ""⟩] ∧
    List.Forall₂ (SourceOf Disk.nested.access "")
      (Config.fourNames.entries.filter Entry.enabled)
      [⟨"ui", ""⟩, ⟨"a", ""⟩, ⟨"res", ""⟩, ⟨"..", ""⟩] ∧
    (∀ s ∈ [Source.mk "ui" "", ⟨"a", ""⟩, ⟨"res", ""⟩, ⟨"..", ""⟩], s.resource ≠ "") ∧
    ∀ (r : Resolver) (index : Nat) (field : IdentityField),
      r.resolve [⟨"ui", ""⟩, ⟨"a", ""⟩, ⟨"res", ""⟩, ⟨"..", ""⟩] ≠
        .error (.graph (.emptyIdentity index field)) := by
  have hplaces := Disk.finalName_ne_nil Disk.lawful_nested
  exact ⟨hplaces, rfl, rfl, readConfigured_named hplaces rfl rfl⟩

end ResourceOrder
