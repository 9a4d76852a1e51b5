import ResourceOrder.Files.Loader
import ResourceOrder.Proofs.Files.Following
import ResourceOrder.Proofs.Outcome
import Mathlib.Logic.Relation

/-!
# Which directories are discovered

* `FileAccess.Holds`     what the directory holds to which a path leads;
* `FileAccess.Visited`   the directories below a directory to which names lead that are texts and
                         not hidden, links not followed;
* `FileAccess.Labelled`  a directory with something under the name of a manifest that is no
                         directory;
* `FileTree.Lawful`      no directory holds two entries of one name, or one of an impossible name.

A step of the search finds what is found inside, and the directory itself if it is labelled
(`discoverBelow_succ_eq_ok`).  Each step goes down a level, so a search of as many steps as there
are levels misses nothing (`mem_discoverBelow`).  On a disk the height of the tree is enough,
because what a directory holds is of a smaller height than the directory
(`Disk.rank_lt_of_entered`), wherever on the disk a link may have led (`Disk.rank_le`).  **Hence what
is discovered are the labelled directories that are visited** (`mem_discover`).
-/

namespace ResourceOrder

open ResourceOrder.Path

/-! ## what is visited -/

namespace FileAccess
variable (fs : FileAccess Id)

/-- what the directory holds to which the path leads -/
def Holds (path name : RawText) (kind : EntryKind) : Prop :=
  ∃ entries, fs.entries path = .ok entries ∧ (name, kind) ∈ entries

/-- a directory in another one that is looked into: its name is a text, and not hidden -/
def Entered (path inner : RawText) : Prop :=
  ∃ name : String, fs.Holds path name .directory ∧ isHidden name = false ∧
    inner = join path name

def Visited : RawText → RawText → Prop := Relation.ReflTransGen fs.Entered

/-- the directory holds something under the name of a manifest that is no directory -/
def Labelled (path : RawText) : Prop :=
  ∃ name ∈ manifestNames, ∃ kind, kind ≠ .directory ∧ fs.Holds path (.ofText name) kind

end FileAccess

section
variable {fs : FileAccess Id} {depth : Nat} {path name : RawText} {found : List RawText}

theorem isShown_iff :
    isShown name = true ↔ ∃ text : String, name = text ∧ isHidden text = false := by
  rw [isShown, Option.any_eq_true]
  simp only [RawText.text?_eq_some_iff, Bool.not_eq_true']

theorem isShown_of_mem_manifestNames {text : String} (h : text ∈ manifestNames) :
    isShown text = true := by
  have hall : ∀ text ∈ manifestNames, isHidden text = false := by decide
  exact isShown_iff.2 ⟨text, rfl, hall text h⟩

theorem any_isManifestName_iff :
    name.text?.any isManifestName = true ↔ ∃ text ∈ manifestNames, name = .ofText text := by
  rw [Option.any_eq_true]
  simp only [RawText.text?_eq_some_iff, isManifestName, List.contains_iff_mem, and_comm]

theorem discoverBelow_succ (fs : FileAccess Id) (depth : Nat) (path : RawText) :
    discoverBelow fs (depth + 1) path = match fs.entries path with
      | .error fault => .error (.unreadable path fault)
      | .ok entries =>
        let shown := entries.filter fun e => isShown e.1
        let parts := shown.partition fun e => e.2 = .directory
        let below : Except LoadError (List (List RawText)) :=
          parts.1.mapM fun e => discoverBelow fs depth (join path e.1)
        below.map fun below => below.flatten ++
          if parts.2.any fun e => e.1.text?.any isManifestName then [path] else [] := by
  rw [discoverBelow]
  show (match fs.entries path with
    | .error fault => _
    | .ok entries => _) = _
  cases fs.entries path with
  | error f => rfl
  | ok entries =>
    simp only []
    rw [exceptT_bind, exceptT_mapM]
    rfl

section
variable {entries : List (RawText × EntryKind)} (hentries : fs.entries path = .ok entries)
include hentries

theorem holds_iff {kind : EntryKind} : fs.Holds path name kind ↔ (name, kind) ∈ entries := by
  constructor
  · rintro ⟨entries', h, hmem⟩
    rw [hentries] at h
    cases h
    exact hmem
  · exact fun hmem => ⟨entries, hentries, hmem⟩

theorem entered_iff {inner : RawText} : fs.Entered path inner ↔
    ∃ e ∈ ((entries.filter fun e => isShown e.1).partition fun e => e.2 = .directory).1,
      inner = join path e.1 := by
  rw [List.partition_eq_filter_filter]
  constructor
  · rintro ⟨text, hholds, hshown, rfl⟩
    refine ⟨(.ofText text, .directory), ?_, rfl⟩
    simp [(holds_iff hentries).1 hholds, isShown_iff.2 ⟨text, rfl, hshown⟩]
  · rintro ⟨⟨name, kind⟩, he, rfl⟩
    simp only [List.mem_filter, decide_eq_true_eq] at he
    obtain ⟨⟨hmem, hshown⟩, rfl⟩ := he
    obtain ⟨text, rfl, hnot⟩ := isShown_iff.1 hshown
    exact ⟨text, (holds_iff hentries).2 hmem, hnot, rfl⟩

theorem labelled_iff : fs.Labelled path ↔
    (((entries.filter fun e => isShown e.1).partition fun e => e.2 = .directory).2.any
      fun e => e.1.text?.any isManifestName) = true := by
  rw [List.partition_eq_filter_filter, List.any_eq_true]
  constructor
  · rintro ⟨text, htext, kind, hkind, hholds⟩
    refine ⟨(.ofText text, kind), ?_, any_isManifestName_iff.2 ⟨text, htext, rfl⟩⟩
    simp [(holds_iff hentries).1 hholds, isShown_of_mem_manifestNames htext, hkind]
  · rintro ⟨⟨name, kind⟩, he, hname⟩
    obtain ⟨text, htext, rfl⟩ := any_isManifestName_iff.1 hname
    simp only [List.mem_filter, Function.comp_apply, Bool.not_eq_true',
      decide_eq_false_iff_not] at he
    exact ⟨text, htext, kind, he.2, (holds_iff hentries).2 he.1.1⟩

end

/-- what one step of the search finds: what is found in the directories inside, and the directory
itself if it is labelled -/
theorem discoverBelow_succ_eq_ok (h : discoverBelow fs (depth + 1) path = .ok found) :
    (∃ entries, fs.entries path = .ok entries) ∧
    (∀ inner, fs.Entered path inner → ∃ below, discoverBelow fs depth inner = .ok below) ∧
    ∀ q, q ∈ found ↔
      (∃ inner, fs.Entered path inner ∧ ∃ below, discoverBelow fs depth inner = .ok below ∧
        q ∈ below) ∨ q = path ∧ fs.Labelled path := by
  rw [discoverBelow_succ] at h
  cases hentries : fs.entries path with
  | error f =>
    rw [hentries] at h
    cases h
  | ok entries =>
    rw [hentries] at h
    obtain ⟨below, hbelow, rfl⟩ := map_eq_ok_iff.1 h
    refine ⟨⟨entries, rfl⟩, fun inner hentered => ?_, fun q => ?_⟩
    · obtain ⟨e, he, rfl⟩ := (entered_iff hentries).1 hentered
      exact exists_eq_ok_of_mapM hbelow he
    · rw [List.mem_append, mem_flatten_of_mapM hbelow, labelled_iff hentries]
      refine or_congr ?_ ?_
      · simp only [entered_iff hentries]
        constructor
        · rintro ⟨e, he, found, hfound, hq⟩
          exact ⟨_, ⟨e, he, rfl⟩, found, hfound, hq⟩
        · rintro ⟨_, ⟨e, he, rfl⟩, found, hfound, hq⟩
          exact ⟨e, he, found, hfound, hq⟩
      · split
        · rename_i hany
          rw [List.mem_singleton, and_iff_left hany]
        · rename_i hany
          exact iff_of_false List.not_mem_nil fun h => hany h.2

/-- **a search that goes down at least as many levels as there are finds the labelled directories
that are visited**; `rank` tells how many levels there are -/
theorem mem_discoverBelow {rank : RawText → Nat}
    (hrank : ∀ path inner, fs.Entered path inner → rank inner < rank path)
    (hdepth : rank path < depth) (h : discoverBelow fs depth path = .ok found) :
    (∀ q, fs.Visited path q → ∃ entries, fs.entries q = .ok entries) ∧
      ∀ q, q ∈ found ↔ fs.Visited path q ∧ fs.Labelled q := by
  induction depth generalizing path found with
  | zero => exact absurd hdepth (Nat.not_lt_zero _)
  | succ depth ih =>
    obtain ⟨hentries, hinner, hmem⟩ := discoverBelow_succ_eq_ok h
    have hless : ∀ inner, fs.Entered path inner → rank inner < depth := fun inner hentered =>
      Nat.lt_of_lt_of_le (hrank path inner hentered) (Nat.le_of_lt_succ hdepth)
    refine ⟨fun q hq => ?_, fun q => ?_⟩
    · rcases Relation.ReflTransGen.cases_head_iff.1 hq with rfl | ⟨inner, hentered, hq⟩
      · exact hentries
      · obtain ⟨below, hbelow⟩ := hinner inner hentered
        exact (ih (hless inner hentered) hbelow).1 q hq
    · rw [hmem]
      constructor
      · rintro (⟨inner, hentered, below, hbelow, hq⟩ | ⟨rfl, hlabel⟩)
        · obtain ⟨hvisited, hlabel⟩ := ((ih (hless inner hentered) hbelow).2 q).1 hq
          exact ⟨.head hentered hvisited, hlabel⟩
        · exact ⟨.refl, hlabel⟩
      · rintro ⟨hvisited, hlabel⟩
        rcases Relation.ReflTransGen.cases_head_iff.1 hvisited with rfl | ⟨inner, hentered, hq⟩
        · exact .inr ⟨rfl, hlabel⟩
        · obtain ⟨below, hbelow⟩ := hinner inner hentered
          have hfound := ((ih (hless inner hentered) hbelow).2 q).2 ⟨hq, hlabel⟩
          exact .inl ⟨inner, hentered, below, hbelow, hfound⟩

end

/-! ## trees -/

namespace FileTree

/-- no two entries of a directory have the same name, and all names are possible -/
inductive Lawful : FileTree → Prop
  | file (content : ByteArray) : Lawful (.file content)
  | link (target : RawText) : Lawful (.link target)
  | directory {entries : List (RawText × FileTree)} :
      (entries.map Prod.fst).Nodup → (∀ e ∈ entries, IsName e.1) → (∀ e ∈ entries, Lawful e.2) →
      Lawful (.directory entries)

mutual

/-- whether a tree is lawful -/
def isLawful : FileTree → Bool
  | .directory entries => decide (entries.map Prod.fst).Nodup && areLawful entries
  | _ => true

/-- whether the names of the entries are possible, and the entries lawful -/
def areLawful : List (RawText × FileTree) → Bool
  | [] => true
  | (name, t) :: rest => decide (IsName name) && isLawful t && areLawful rest

end

mutual

theorem lawful_of_isLawful : ∀ {t : FileTree}, t.isLawful = true → Lawful t
  | .file content, _ => .file content
  | .link target, _ => .link target
  | .directory entries, h => by
    rw [isLawful, Bool.and_eq_true, decide_eq_true_iff] at h
    have hall := forall_of_areLawful h.2
    exact .directory h.1 (fun e he => (hall e he).1) fun e he => (hall e he).2

theorem forall_of_areLawful : ∀ {entries : List (RawText × FileTree)}, areLawful entries = true →
    ∀ e ∈ entries, IsName e.1 ∧ Lawful e.2
  | [], _ => nofun
  | (name, t) :: rest, h => by
    rw [areLawful, Bool.and_eq_true, Bool.and_eq_true, decide_eq_true_iff] at h
    exact List.forall_mem_cons.2 ⟨⟨h.1.1, lawful_of_isLawful h.1.2⟩, forall_of_areLawful h.2⟩

end

variable {entries : List (RawText × FileTree)}

theorem Lawful.entry (h : Lawful (.directory entries)) : ∀ e ∈ entries, Lawful e.2 := by
  cases h with
  | directory _ _ hall => exact hall

theorem Lawful.nodup (h : Lawful (.directory entries)) : (entries.map Prod.fst).Nodup := by
  cases h with
  | directory hnodup _ _ => exact hnodup

theorem Lawful.isName (h : Lawful (.directory entries)) {name : RawText} {t : FileTree}
    (ht : (name, t) ∈ entries) : IsName name := by
  cases h with
  | directory _ hnames _ => exact hnames (name, t) ht

/-- an entry is found under its name -/
theorem Lawful.lookup_eq (h : Lawful (.directory entries)) {name : RawText} {t : FileTree}
    (ht : (name, t) ∈ entries) : entries.lookup name = some t := by
  cases h with
  | directory hnodup _ _ =>
    obtain ⟨front, back, rfl⟩ := List.append_of_mem ht
    rw [List.map_append, List.map_cons] at hnodup
    refine List.lookup_eq_some_iff.2 ⟨front, back, rfl, fun e he => ?_⟩
    have hne := (List.nodup_append.1 hnodup).2.2 e.1 (List.mem_map_of_mem he) name
      (List.mem_cons_self ..)
    exact bne_iff_ne.2 (Ne.symm hne)

theorem height_le_entriesHeight {e : RawText × FileTree} (h : e ∈ entries) :
    e.2.height ≤ entriesHeight entries := by
  induction entries with
  | nil => cases h
  | cons d ds ih =>
    obtain ⟨name, t⟩ := d
    rw [entriesHeight]
    rcases List.mem_cons.1 h with rfl | h
    · exact Nat.le_max_left ..
    · exact Nat.le_trans (ih h) (Nat.le_max_right ..)

theorem height_lt {e : RawText × FileTree} (h : e ∈ entries) :
    e.2.height < (directory entries).height := by
  rw [height]
  exact Nat.lt_succ_of_le (height_le_entriesHeight h)

end FileTree

/-! ## disks -/

namespace Disk
variable {d : Disk} {path inner name : RawText}

theorem node_eq_ok_iff {t : FileTree} :
    d.node path = .ok t ↔ ∃ trail, d.resolve path = .ok trail ∧ d.nodeAt trail = t :=
  map_eq_ok_iff

theorem entries_access_eq_ok_iff {entries : List (RawText × EntryKind)} :
    d.access.entries path = .ok entries ↔ ∃ held, d.node path = .ok (.directory held) ∧
      entries = held.map fun e => (e.1, e.2.kind) := by
  simp only [access]
  constructor
  · intro h
    split at h
    · rename_i held hnode
      cases h
      exact ⟨held, hnode, rfl⟩
    · cases h
    · cases h
  · rintro ⟨held, hnode, rfl⟩
    simp only [hnode]

/-- what is held by a directory of a disk is an entry of the directory to which the path leads -/
theorem holds_access_iff {kind : EntryKind} : d.access.Holds path name kind ↔
    ∃ trail held t, d.resolve path = .ok trail ∧ d.nodeAt trail = .directory held ∧
      (name, t) ∈ held ∧ t.kind = kind := by
  constructor
  · rintro ⟨entries, hentries, hmem⟩
    obtain ⟨held, hnode, rfl⟩ := entries_access_eq_ok_iff.1 hentries
    obtain ⟨trail, hresolve, hdir⟩ := node_eq_ok_iff.1 hnode
    obtain ⟨⟨_, t⟩, ht, heq⟩ := List.mem_map.1 hmem
    cases heq
    exact ⟨trail, held, t, hresolve, hdir, ht, rfl⟩
  · rintro ⟨trail, held, t, hresolve, hdir, ht, rfl⟩
    refine ⟨_, entries_access_eq_ok_iff.2 ⟨held, node_eq_ok_iff.2 ⟨trail, hresolve, hdir⟩, rfl⟩, ?_⟩
    exact List.mem_map.2 ⟨(name, t), ht, rfl⟩

theorem lawful_of_resolve (hd : d.root.Lawful) {trail : Trail} (h : d.resolve path = .ok trail) :
    (d.nodeAt trail).Lawful :=
  forall_of_resolve hd (fun _ => FileTree.Lawful.entry) h

/-- how many directories lie inside one another where a path leads -/
def rank (d : Disk) (path : RawText) : Nat :=
  match d.node path with
  | .ok t => t.height
  | .error _ => 0

theorem rank_eq {trail : Trail} (h : d.resolve path = .ok trail) :
    d.rank path = (d.nodeAt trail).height := by
  rw [rank, node, h]
  rfl

theorem rank_le (d : Disk) (path : RawText) : d.rank path ≤ d.root.height := by
  cases hresolve : d.resolve path with
  | error f =>
    rw [rank, node, hresolve]
    exact Nat.zero_le _
  | ok trail =>
    rw [rank_eq hresolve]
    refine forall_of_resolve (P := fun t => t.height ≤ d.root.height) (Nat.le_refl _) ?_ hresolve
    intro entries hle e he
    exact Nat.le_of_lt (Nat.lt_of_lt_of_le (FileTree.height_lt he) hle)

theorem rank_lt_of_entered (hd : d.root.Lawful) (h : d.access.Entered path inner) :
    d.rank inner < d.rank path := by
  obtain ⟨name, hholds, -, rfl⟩ := h
  obtain ⟨trail, held, t, hresolve, hdir, ht, hkind⟩ := holds_access_iff.1 hholds
  have hlawful : (FileTree.directory held).Lawful := hdir ▸ lawful_of_resolve hd hresolve
  have hlt : t.height < d.rank path := by
    rw [rank_eq hresolve, hdir]
    exact FileTree.height_lt ht
  cases hinner : d.resolve (join path name) with
  | error f =>
    rw [rank, node, hinner]
    exact Nat.lt_of_le_of_lt (Nat.zero_le _) hlt
  | ok reached =>
    have hname : IsName name := hlawful.isName ht
    obtain ⟨u, hu, hreached⟩ := exists_lookup_of_resolve_join hresolve hdir hname hinner
    cases (hlawful.lookup_eq ht).symm.trans hu
    rcases hreached with hlink | rfl
    · cases hlink.symm.trans hkind
    · rw [rank_eq hinner]
      exact hlt

end Disk

/-- **what is discovered on a disk are the labelled directories that are visited**, and all that are
visited can be read -/
theorem mem_discover {d : Disk} (hd : d.root.Lawful) {root : RawText} {found : List RawText}
    (h : discover d.access root = .ok found) :
    (∀ path, d.access.Visited root path → ∃ entries, d.access.entries path = .ok entries) ∧
      ∀ path, path ∈ found ↔ d.access.Visited root path ∧ d.access.Labelled path := by
  rw [discover, exceptT_bind] at h
  obtain ⟨below, hbelow, h⟩ := bind_eq_ok_iff.1 h
  cases h
  obtain ⟨hread, hmem⟩ := mem_discoverBelow (fun _ _ => Disk.rank_lt_of_entered hd)
    (Nat.lt_succ_of_le (d.rank_le root)) hbelow
  refine ⟨hread, fun path => ?_⟩
  rw [← hmem]
  exact List.mem_mergeSort

end ResourceOrder
