import ResourceOrder.Proofs.Files.Discovery

/-!
# Manifests in directories that are discovered

* `Disk.Misleading`  a labelled directory without a manifest: whatever has the name of a manifest
                     and is no directory is a link that leads to no file, or its path is too long.

A manifest is a file, links followed (`exists_findManifest_iff`), but what labels a directory is
looked at without following it.  A file under the name of a manifest labels its directory and is
found there (`isFile_join`); with a link, the two can come apart.  **A directory is discovered if and
only if it is visited and has a manifest or is misleading, and reading one that was discovered fails
for want of a manifest if and only if it is misleading** (`mem_discover_iff_findManifest`).
-/

namespace ResourceOrder

open ResourceOrder.Path

section
variable {fs : FileAccess Id} {path : RawText}

/-! ## finding and reading -/

theorem findManifest_eq (fs : FileAccess Id) (path : RawText) :
    findManifest fs path = match (manifestNames.map (manifestPath path)).find? fs.isFile with
      | some manifest => .ok manifest
      | none => .error (.noManifest path) := by
  rw [findManifest]
  simp only [manifestNames, List.map_cons, List.map_nil, List.find?, List.findM?]
  cases fs.isFile (manifestPath path "fxmanifest.lua") with
  | true => rfl
  | false => cases fs.isFile (manifestPath path "__resource.lua") <;> rfl

theorem exists_findManifest_iff : (∃ manifest, findManifest fs path = .ok manifest) ↔
    ∃ name ∈ manifestNames, fs.isFile (manifestPath path name) = true := by
  rw [findManifest_eq]
  constructor
  · rintro ⟨manifest, h⟩
    cases hfind : (manifestNames.map (manifestPath path)).find? fs.isFile with
    | none =>
      rw [hfind] at h
      cases h
    | some found =>
      obtain ⟨name, hname, rfl⟩ := List.mem_map.1 (List.mem_of_find?_eq_some hfind)
      exact ⟨name, hname, List.find?_some hfind⟩
  · rintro ⟨name, hname, hfile⟩
    cases hfind : (manifestNames.map (manifestPath path)).find? fs.isFile with
    | none => exact absurd hfile (List.find?_eq_none.1 hfind _ (List.mem_map_of_mem hname))
    | some found => exact ⟨found, rfl⟩

theorem findManifest_eq_error (h : ¬ ∃ manifest, findManifest fs path = .ok manifest) :
    findManifest fs path = .error (.noManifest path) := by
  rw [findManifest_eq] at h ⊢
  split at h
  · exact absurd ⟨_, rfl⟩ h
  · rfl

theorem resourceName_eq (fs : FileAccess Id) (path manifest : RawText) :
    resourceName fs path manifest =
      match (directoryName fs path : Option String).or
        (manifest.text?.bind fun path => nameAbove? (withSlashes path)) with
      | some name => .ok name
      | none => .error (.unnamedResource path) := by
  rw [resourceName]
  show (match (directoryName fs path : Option String).or _ with
    | some name => _
    | none => _) = _
  split <;> rfl

theorem resourceName_ne_noManifest (manifest refused : RawText) :
    resourceName fs path manifest ≠ .error (.noManifest refused) := by
  rw [resourceName_eq]
  split <;> nofun

/-- the text of the manifest that was found, with the name of the resource -/
def textOf (fs : FileAccess Id) (manifest : RawText) (resource : String) : Except LoadError Source :=
  match fs.text manifest with
  | .ok text => .ok ⟨resource, text⟩
  | .error fault => .error (.unreadable manifest fault)

theorem textOf_ne_noManifest (manifest : RawText) (resource : String) (refused : RawText) :
    textOf fs manifest resource ≠ .error (.noManifest refused) := by
  unfold textOf
  split <;> nofun

/-- a resource with a manifest: first its name, and then its text -/
theorem readResource_eq {manifest : RawText} (h : findManifest fs path = .ok manifest)
    (name : Option String) :
    readResource fs path name = bind (m := ExceptT LoadError Id)
      (match name with
        | some resource => pure resource
        | none => resourceName fs path manifest) (textOf fs manifest) := by
  rw [readResource, h]
  cases name <;> rfl

/-- only a directory without a manifest is refused for this reason -/
theorem readResource_eq_noManifest_iff (name : Option String) (refused : RawText) :
    readResource fs path name = .error (.noManifest refused) ↔
      refused = path ∧ ¬ ∃ manifest, findManifest fs path = .ok manifest := by
  by_cases hfind : ∃ manifest, findManifest fs path = .ok manifest
  · refine iff_of_false (fun h => ?_) fun h => h.2 hfind
    obtain ⟨manifest, hfind⟩ := hfind
    rw [readResource_eq hfind, exceptT_bind] at h
    rcases bind_eq_error_iff.1 h with h | ⟨resource, -, h⟩
    · cases name with
      | some resource => cases h
      | none => exact resourceName_ne_noManifest manifest refused h
    · exact textOf_ne_noManifest manifest resource refused h
  · have hread : readResource fs path name = .error (.noManifest path) := by
      rw [readResource, findManifest_eq_error hfind]
      rfl
    rw [hread]
    constructor
    · intro h
      cases h
      exact ⟨rfl, hfind⟩
    · rintro ⟨rfl, -⟩
      rfl

end

/-! ## labels -/

namespace Disk
variable {d : Disk} {path : RawText} {name : String}

theorem isFile_access_iff :
    d.access.isFile path = true ↔ ∃ content, d.node path = .ok (.file content) := by
  simp only [access]
  constructor
  · intro h
    split at h
    · rename_i content hnode
      exact ⟨content, hnode⟩
    · cases h
  · rintro ⟨content, hnode⟩
    simp only [hnode]

theorem isName_of_mem_manifestNames (h : name ∈ manifestNames) :
    IsName name ∧ (RawText.ofText name).length ≤ nameLimit := by
  have hall : ∀ name ∈ manifestNames, IsName name ∧ (RawText.ofText name).length ≤ nameLimit := by decide
  exact hall name h

/-- what is a file, links followed, is held by its directory and is no directory -/
theorem exists_holds_of_isFile {entries : List (RawText × EntryKind)}
    (hentries : d.access.entries path = .ok entries) (hname : IsName name)
    (hfile : d.access.isFile (manifestPath path name) = true) :
    ∃ kind, kind ≠ .directory ∧ d.access.Holds path name kind := by
  obtain ⟨held, hheld, -⟩ := entries_access_eq_ok_iff.1 hentries
  obtain ⟨trail, hresolve, hdir⟩ := node_eq_ok_iff.1 hheld
  obtain ⟨content, hcontent⟩ := isFile_access_iff.1 hfile
  obtain ⟨reached, hjoin, hnode⟩ := node_eq_ok_iff.1 hcontent
  obtain ⟨t, ht, hreached⟩ := exists_lookup_of_resolve_join hresolve hdir hname hjoin
  refine ⟨t.kind, fun hkind => ?_,
    holds_access_iff.2 ⟨trail, held, t, hresolve, hdir, mem_of_lookup ht, rfl⟩⟩
  rcases hreached with hlink | rfl
  · cases hlink.symm.trans hkind
  · cases hnode
    cases hkind

/-- a file that a directory holds is found under its name -/
theorem isFile_join (hd : d.root.Lawful) (hholds : d.access.Holds path name .file)
    (hshort : (RawText.ofText name).length ≤ nameLimit)
    (hlong : (manifestPath path name).length ≤ pathLimit) :
    d.access.isFile (manifestPath path name) = true := by
  obtain ⟨trail, held, t, hresolve, hdir, ht, hkind⟩ := holds_access_iff.1 hholds
  have hlawful : (FileTree.directory held).Lawful := hdir ▸ lawful_of_resolve hd hresolve
  cases t with
  | link target => cases hkind
  | directory entries => cases hkind
  | file content =>
    have hjoin := resolve_join hresolve hdir (hlawful.isName ht) hshort hlong
      (hlawful.lookup_eq ht) nofun
    exact isFile_access_iff.2 ⟨content, node_eq_ok_iff.2 ⟨_, hjoin, rfl⟩⟩

theorem isFile_of_tooLong (h : pathLimit < path.length) : d.access.isFile path = false := by
  rw [Bool.eq_false_iff]
  intro hfile
  obtain ⟨content, hcontent⟩ := isFile_access_iff.1 hfile
  obtain ⟨trail, hresolve, -⟩ := node_eq_ok_iff.1 hcontent
  exact Nat.not_le.2 h (resolve_eq_ok_iff.1 hresolve).2.2.1

/-- a labelled directory in which whatever has the name of a manifest, and is no directory, is a
link that leads to no file, or has a path that is too long -/
def Misleading (d : Disk) (path : RawText) : Prop :=
  d.access.Labelled path ∧
    ∀ name ∈ manifestNames, ∀ kind, kind ≠ .directory → d.access.Holds path name kind →
      kind = .link ∧ d.access.isFile (manifestPath path name) = false ∨
        pathLimit < (manifestPath path name).length

theorem Misleading.not_findManifest (h : d.Misleading path)
    {entries : List (RawText × EntryKind)} (hentries : d.access.entries path = .ok entries) :
    ¬ ∃ manifest, findManifest d.access path = .ok manifest := by
  rw [exists_findManifest_iff]
  rintro ⟨name, hname, hfile⟩
  obtain ⟨kind, hkind, hholds⟩ :=
    exists_holds_of_isFile hentries (isName_of_mem_manifestNames hname).1 hfile
  rcases h.2 name hname kind hkind hholds with ⟨-, hnot⟩ | hlong
  · exact Bool.false_ne_true (hnot.symm.trans hfile)
  · exact Bool.false_ne_true ((isFile_of_tooLong hlong).symm.trans hfile)

/-- a labelled directory has a manifest or is misleading -/
theorem labelled_iff_findManifest (hd : d.root.Lawful) {entries : List (RawText × EntryKind)}
    (hentries : d.access.entries path = .ok entries) : d.access.Labelled path ↔
      (∃ manifest, findManifest d.access path = .ok manifest) ∨ d.Misleading path := by
  rw [exists_findManifest_iff]
  constructor
  · intro hlabel
    by_cases hfile : ∃ name ∈ manifestNames, d.access.isFile (manifestPath path name) = true
    · exact .inl hfile
    refine .inr ⟨hlabel, fun name hname kind hkind hholds => ?_⟩
    have hnot : d.access.isFile (manifestPath path name) ≠ true := fun h => hfile ⟨name, hname, h⟩
    cases kind with
    | directory => exact absurd rfl hkind
    | link => exact .inl ⟨rfl, Bool.eq_false_iff.2 hnot⟩
    | file =>
      have hshort := (isName_of_mem_manifestNames hname).2
      exact .inr (Nat.lt_of_not_le fun hlong => hnot (isFile_join hd hholds hshort hlong))
  · rintro (⟨name, hname, hfile⟩ | h)
    · obtain ⟨kind, hkind, hholds⟩ :=
        exists_holds_of_isFile hentries (isName_of_mem_manifestNames hname).1 hfile
      exact ⟨name, hname, kind, hkind, hholds⟩
    · exact h.1

end Disk

/-- **a directory is discovered if and only if it is visited and has a manifest or is misleading,
and reading one that was discovered fails for want of a manifest if and only if it is
misleading** -/
theorem mem_discover_iff_findManifest {d : Disk} (hd : d.root.Lawful) {root : RawText}
    {found : List RawText} (h : discover d.access root = .ok found) (path : RawText) :
    (path ∈ found ↔ d.access.Visited root path ∧
      ((∃ manifest, findManifest d.access path = .ok manifest) ∨ d.Misleading path)) ∧
    (path ∈ found → ∀ (name : Option String) (refused : RawText),
      readResource d.access path name = .error (.noManifest refused) ↔
        refused = path ∧ d.Misleading path) := by
  obtain ⟨hread, hmem⟩ := mem_discover hd h
  refine ⟨?_, fun hfound name refused => ?_⟩
  · rw [hmem]
    refine and_congr_right fun hvisited => ?_
    obtain ⟨entries, hentries⟩ := hread path hvisited
    exact Disk.labelled_iff_findManifest hd hentries
  · obtain ⟨hvisited, hlabel⟩ := (hmem path).1 hfound
    obtain ⟨entries, hentries⟩ := hread path hvisited
    rw [readResource_eq_noManifest_iff]
    refine and_congr_right fun _ => ?_
    constructor
    · exact ((Disk.labelled_iff_findManifest hd hentries).1 hlabel).resolve_left
    · exact fun h => h.not_findManifest hentries

/-- two labelled directories, one with a file and one with a link that leads nowhere -/
def Disk.twoLabels : Disk where
  root := .directory [("res", .directory [("a", .directory [("fxmanifest.lua", .link "nowhere")]),
    ("b", .directory [("fxmanifest.lua", .file .empty)])])]
  current := []

theorem Disk.lawful_twoLabels : twoLabels.root.Lawful := FileTree.lawful_of_isLawful (by decide)

/-- what is discovered there -/
def twoLabelsFound : List RawText := Path.sort ["res/a", "res/b"]

theorem mem_discover_iff_findManifest_twoLabels : Disk.twoLabels.root.Lawful ∧
    discover Disk.twoLabels.access "res" = .ok twoLabelsFound ∧
    (.ofText "res/a" ∈ twoLabelsFound ↔ Disk.twoLabels.access.Visited "res" "res/a" ∧
      ((∃ manifest, findManifest Disk.twoLabels.access "res/a" = .ok manifest) ∨
        Disk.twoLabels.Misleading "res/a")) ∧
    (.ofText "res/a" ∈ twoLabelsFound → ∀ (name : Option String) (refused : RawText),
      readResource Disk.twoLabels.access "res/a" name = .error (.noManifest refused) ↔
        refused = "res/a" ∧ Disk.twoLabels.Misleading "res/a") :=
  ⟨Disk.lawful_twoLabels, rfl,
    mem_discover_iff_findManifest Disk.lawful_twoLabels rfl "res/a"⟩

/-- a link that leads nowhere is enough for a directory to be discovered -/
theorem discover_dangling : discover Disk.twoLabels.access "res" = .ok twoLabelsFound ∧
    .ofText "res/a" ∈ twoLabelsFound ∧
    findManifest Disk.twoLabels.access "res/a" = .error (.noManifest "res/a") ∧
    readResource Disk.twoLabels.access "res/a" none = .error (.noManifest "res/a") :=
  ⟨rfl, List.mem_mergeSort.2 (List.mem_cons_self ..), rfl, rfl⟩

end ResourceOrder
