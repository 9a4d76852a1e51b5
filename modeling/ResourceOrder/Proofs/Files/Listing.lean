import ResourceOrder.Proofs.Files.Discovery
import ResourceOrder.Proofs.Files.PathOrder
import ResourceOrder.Proofs.Manifest.Bytes
import Mathlib.Data.List.Nodup

/-!
# The list of the directories that are discovered

* `FileTree.within?`    what the directory holds to which names lead, one inside the other, where
                        links are not followed and no name that begins with a dot is entered;
* `FileAccess.Lawful`   no directory lists two entries of one name, or one of an impossible name;
* `FileAccess.Relists`  another file system with the same answers, except that directories are
                        listed in another order.

A name adds one component to a path (`components_join`), and two entries of a directory have two
names.  So all directories that are found have different components (`nodup_discoverBelow`), and
their list depends only on what is in it.  A search that goes deep enough is never cut short
(`discoverBelow_add`), and it succeeds as soon as all that is visited can be read
(`exists_discoverBelow`).  The directories that are visited on a disk are those to which names lead
from the root of the search that are all texts (`exists_within_of_visited`, `visited_of_within`).

**Hence the directories that are discovered are the ones below the root, with texts for names, that
have an entry with the name of a manifest that is no directory, in strictly increasing order,
whatever the order in which directories list their entries** (`discover_listing`).  What lies below
a name that is no text is not discovered (`discover_notText`).
-/

namespace ResourceOrder

open ResourceOrder.Path

/-! ## the components of a path -/

namespace Path
variable {path name : RawText}

theorem segments_ne_nil (path : RawText) : segments path ≠ [] := splitAt_ne_nil slash path

theorem ofSegment?_name (hname : IsName name) :
    Component.ofSegment? name = some (.name name) := by
  have hidle : ¬ (name = [] ∨ name = [dot]) := not_or.2 ⟨hname.ne_nil, hname.ne_dot⟩
  rw [Component.ofSegment?, if_neg hidle, if_neg hname.ne_dots]

/-- a name that is joined to a path stands behind its segments, or in place of an empty one at their
end -/
theorem exists_segments_join (hpath : path ≠ []) (hname : slash ∉ name) :
    ∃ above, above ≠ [] ∧ (segments path = above ∨ segments path = above ++ [[]]) ∧
      segments (join path name) = above ++ [name] := by
  rcases join_eq hpath hname with h | ⟨above, rfl, h⟩
  · refine ⟨segments path, segments_ne_nil path, .inl rfl, ?_⟩
    rw [h, segments_append, segments_of_notMem hname]
  · refine ⟨segments above, segments_ne_nil above, .inr (segments_append above []), ?_⟩
    rw [h, segments_append, segments_of_notMem hname]

theorem isAbsolute_join (hpath : path ≠ []) (hname : slash ∉ name) :
    isAbsolute (join path name) = isAbsolute path := by
  rcases join_eq hpath hname with h | ⟨above, habove, h⟩
  · rw [h, Disk.isAbsolute_append hpath]
  · rw [h, List.append_cons, ← habove, Disk.isAbsolute_append hpath]

/-- a name that is joined to a path adds a component -/
theorem components_join (hpath : path ≠ []) (hname : IsName name) :
    components (join path name) = components path ++ [.name name] := by
  obtain ⟨above, hne, hends, hjoin⟩ := exists_segments_join hpath hname.slash
  have hhead : (segments path).head? = above.head? := by
    rcases hends with h | h
    · rw [h]
    · rw [h, List.head?_append_of_ne_nil _ hne]
  have hidle : (segments path).filterMap Component.ofSegment? =
      above.filterMap Component.ofSegment? := by
    rcases hends with h | h
    · rw [h]
    · rw [h, List.filterMap_append]
      exact List.append_nil _
  have hbegin : beginning (join path name) = beginning path := by
    rw [beginning, beginning, isAbsolute_join hpath hname.slash, hhead, hjoin,
      List.head?_append_of_ne_nil _ hne]
  rw [components, components, hbegin, hjoin, hidle, List.filterMap_append, List.append_assoc,
    List.filterMap_cons, ofSegment?_name hname, List.filterMap_nil]

end Path

/-! ## the search -/

namespace FileAccess

/-- no directory lists two entries of one name, or one of an impossible name, and none is reached
by an empty path -/
structure Lawful (fs : FileAccess Id) : Prop where
  ne_nil : ∀ {path entries}, fs.entries path = .ok entries → path ≠ []
  nodup : ∀ {path entries}, fs.entries path = .ok entries → (entries.map Prod.fst).Nodup
  isName : ∀ {path entries}, fs.entries path = .ok entries → ∀ e ∈ entries, IsName e.1

end FileAccess

section
variable {fs : FileAccess Id} {depth : Nat} {path : RawText} {found : List RawText}

/-- a search that may go down more levels than there are is never cut short: with more levels it is
the same -/
theorem discoverBelow_add {rank : RawText → Nat}
    (hrank : ∀ path inner, fs.Entered path inner → rank inner < rank path)
    (hdepth : rank path < depth) (more : Nat) :
    discoverBelow fs (depth + more) path = discoverBelow fs depth path := by
  induction depth generalizing path with
  | zero => exact absurd hdepth (Nat.not_lt_zero _)
  | succ depth ih =>
    rw [Nat.succ_add, discoverBelow_succ, discoverBelow_succ]
    cases hentries : fs.entries path with
    | error f => rfl
    | ok entries =>
      have hbelow : ∀ e ∈ ((entries.filter fun e => isShown e.1).partition
            fun e => e.2 = .directory).1,
          discoverBelow fs (depth + more) (join path e.1) =
            discoverBelow fs depth (join path e.1) := fun e he =>
        ih (Nat.lt_of_lt_of_le (hrank path _ ((entered_iff hentries).2 ⟨e, he, rfl⟩))
          (Nat.le_of_lt_succ hdepth))
      simp only [mapM_congr hbelow]

theorem exists_discoverBelow
    (hread : ∀ q, fs.Visited path q → ∃ entries, fs.entries q = .ok entries) (depth : Nat) :
    ∃ found, discoverBelow fs depth path = .ok found := by
  induction depth generalizing path with
  | zero => exact ⟨[], rfl⟩
  | succ depth ih =>
    obtain ⟨entries, hentries⟩ := hread path .refl
    have hbelow : ∀ e ∈ ((entries.filter fun e => isShown e.1).partition
          fun e => e.2 = .directory).1,
        ∃ found, discoverBelow fs depth (join path e.1) = .ok found := fun e he =>
      ih fun q hq => hread q (.head ((entered_iff hentries).2 ⟨e, he, rfl⟩) hq)
    obtain ⟨below, hbelow⟩ := exists_mapM_eq_ok hbelow
    rw [discoverBelow_succ, hentries]
    exact ⟨_, map_eq_ok_iff.2 ⟨below, hbelow, rfl⟩⟩

/-- the path itself has fewer components than what lies behind a name below it -/
theorem prefix_and_ne {front comps : List Component} {name : RawText}
    (h : front ++ [.name name] <+: comps) : front <+: comps ∧ front ≠ comps := by
  refine ⟨(List.prefix_append ..).trans h, fun he => ?_⟩
  have hlen := (he ▸ h).length_le
  rw [List.length_append, List.length_singleton] at hlen
  omega

/-- what is found for entries of different names has no path in common, if the components of the
paths go on with these names -/
theorem nodup_flatten {front : List Component} {es : List (RawText × EntryKind)}
    {below : List (List RawText)} {find : RawText × EntryKind → Except LoadError (List RawText)}
    (h : es.mapM find = .ok below)
    (hfind : ∀ e ∈ es, ∀ found, find e = .ok found → (found.map components).Nodup ∧
      ∀ q ∈ found, front ++ [.name e.1] <+: components q)
    (hes : (es.map Prod.fst).Nodup) :
    (below.flatten.map components).Nodup ∧
      ∀ q ∈ below.flatten, ∃ e ∈ es, front ++ [.name e.1] <+: components q := by
  have hall := mapM_eq_ok_iff.1 h
  clear h
  induction hall with
  | nil => exact ⟨List.nodup_nil, nofun⟩
  | @cons e found es below hfound _ ih =>
    obtain ⟨hnotMem, hes⟩ := List.nodup_cons.1 hes
    obtain ⟨hown, hbegins⟩ := hfind e (List.mem_cons_self ..) found hfound
    obtain ⟨hothers, hfront⟩ := ih (fun e he => hfind e (List.mem_cons_of_mem _ he)) hes
    rw [List.flatten_cons, List.map_append]
    refine ⟨List.Nodup.append hown hothers ?_, fun q hq => ?_⟩
    · intro c hc hc'
      obtain ⟨q, hq, rfl⟩ := List.mem_map.1 hc
      obtain ⟨q', hq', hsame⟩ := List.mem_map.1 hc'
      obtain ⟨e', he', hbegins'⟩ := hfront q' hq'
      rw [hsame] at hbegins'
      have heq := (List.prefix_of_prefix_length_le (hbegins q hq) hbegins'
        (by simp)).eq_of_length (by simp)
      have hname : e.1 = e'.1 := by simpa using heq
      exact hnotMem (List.mem_map.2 ⟨e', he', hname.symm⟩)
    · rcases List.mem_append.1 hq with hq | hq
      · exact ⟨e, List.mem_cons_self .., hbegins q hq⟩
      · obtain ⟨e', he', hbegins⟩ := hfront q hq
        exact ⟨e', List.mem_cons_of_mem _ he', hbegins⟩

/-- nor has it the path itself, if that is found, too -/
theorem nodup_ownLast {found own : List RawText} (hfound : (found.map components).Nodup)
    (hbelow : ∀ q ∈ found, components path <+: components q ∧ components path ≠ components q)
    (hown : own = [path] ∨ own = []) :
    ((found ++ own).map components).Nodup ∧
      ∀ q ∈ found ++ own, components path <+: components q := by
  rcases hown with rfl | rfl
  · rw [List.map_append]
    refine ⟨List.Nodup.append hfound (List.nodup_singleton _) ?_, fun q hq => ?_⟩
    · intro c hc hc'
      obtain ⟨q, hq, rfl⟩ := List.mem_map.1 hc
      exact (hbelow q hq).2 (List.mem_singleton.1 hc').symm
    · rcases List.mem_append.1 hq with hq | hq
      · exact (hbelow q hq).1
      · exact List.mem_singleton.1 hq ▸ List.prefix_rfl
  · rw [List.append_nil]
    exact ⟨hfound, fun q hq => (hbelow q hq).1⟩

/-- all that is found lies below the path, and has components of its own -/
theorem nodup_discoverBelow (hfs : fs.Lawful) (h : discoverBelow fs depth path = .ok found) :
    (found.map components).Nodup ∧ ∀ q ∈ found, components path <+: components q := by
  induction depth generalizing path found with
  | zero =>
    cases h
    exact ⟨List.nodup_nil, nofun⟩
  | succ depth ih =>
    rw [discoverBelow_succ] at h
    cases hentries : fs.entries path with
    | error f =>
      rw [hentries] at h
      cases h
    | ok entries =>
      rw [hentries] at h
      simp only [List.partition_eq_filter_filter] at h
      obtain ⟨below, hbelow, rfl⟩ := map_eq_ok_iff.1 h
      have hsub : ((entries.filter fun e => isShown e.1).filter
          fun e => decide (e.2 = .directory)).Sublist entries :=
        List.filter_sublist.trans List.filter_sublist
      have hfind : ∀ e ∈ (entries.filter fun e => isShown e.1).filter
          fun e => decide (e.2 = .directory), ∀ found,
          discoverBelow fs depth (join path e.1) = .ok found → (found.map components).Nodup ∧
            ∀ q ∈ found, components path ++ [.name e.1] <+: components q := by
        intro e he found h
        rw [← components_join (hfs.ne_nil hentries) (hfs.isName hentries e (hsub.subset he))]
        exact ih h
      obtain ⟨hnodup, hfront⟩ := nodup_flatten hbelow hfind
        ((hfs.nodup hentries).sublist (hsub.map _))
      refine nodup_ownLast hnodup (fun q hq => ?_) ?_
      · obtain ⟨e, -, hbegins⟩ := hfront q hq
        exact prefix_and_ne hbegins
      · split
        · exact .inl rfl
        · exact .inr rfl

theorem discover_eq_ok_iff {root : RawText} : discover fs root = .ok found ↔
    ∃ below, discoverBelow fs (fs.depth + 1) root = .ok below ∧ found = sort below := by
  rw [discover, exceptT_bind, bind_eq_ok_iff]
  refine exists_congr fun below => and_congr_right fun _ => ?_
  constructor
  · intro h
    cases h
    rfl
  · rintro rfl
    rfl

end

/-! ## another order of the entries -/

namespace FileAccess
variable {fs fs' : FileAccess Id} {path : RawText}

/-- the same answers, but what a directory holds may be listed in another order -/
structure Relists (fs fs' : FileAccess Id) : Prop where
  ok : ∀ {path entries}, fs.entries path = .ok entries →
    ∃ entries', fs'.entries path = .ok entries' ∧ entries.Perm entries'
  error : ∀ {path f}, fs.entries path = .error f → fs'.entries path = .error f
  depth : fs'.depth = fs.depth

theorem Relists.exists_perm (h : fs.Relists fs') {entries' : List (RawText × EntryKind)}
    (he : fs'.entries path = .ok entries') :
    ∃ entries, fs.entries path = .ok entries ∧ entries.Perm entries' := by
  cases hentries : fs.entries path with
  | error f =>
    rw [h.error hentries] at he
    cases he
  | ok entries =>
    obtain ⟨entries'', he', hperm⟩ := h.ok hentries
    rw [he'] at he
    cases he
    exact ⟨entries, rfl, hperm⟩

theorem Relists.holds_iff (h : fs.Relists fs') {name : RawText} {kind : EntryKind} :
    fs'.Holds path name kind ↔ fs.Holds path name kind := by
  constructor
  · rintro ⟨entries', he, hmem⟩
    obtain ⟨entries, hentries, hperm⟩ := h.exists_perm he
    exact ⟨entries, hentries, hperm.mem_iff.2 hmem⟩
  · rintro ⟨entries, hentries, hmem⟩
    obtain ⟨entries', he, hperm⟩ := h.ok hentries
    exact ⟨entries', he, hperm.mem_iff.1 hmem⟩

theorem Relists.entered_eq (h : fs.Relists fs') : fs'.Entered = fs.Entered := by
  funext path inner
  simp only [Entered, h.holds_iff]

theorem Relists.lawful (h : fs.Relists fs') (hfs : fs.Lawful) : fs'.Lawful where
  ne_nil he := by
    obtain ⟨entries, hentries, -⟩ := h.exists_perm he
    exact hfs.ne_nil hentries
  nodup he := by
    obtain ⟨entries, hentries, hperm⟩ := h.exists_perm he
    exact (hperm.map Prod.fst).nodup_iff.1 (hfs.nodup hentries)
  isName he := by
    obtain ⟨entries, hentries, hperm⟩ := h.exists_perm he
    exact fun e hmem => hfs.isName hentries e (hperm.mem_iff.2 hmem)

/-- what is discovered does not depend on the order in which directories are listed -/
theorem Relists.discover_eq_ok (h : fs.Relists fs') (hfs : fs.Lawful) {rank : RawText → Nat}
    (hrank : ∀ path inner, fs.Entered path inner → rank inner < rank path) {root : RawText}
    (hdepth : rank root < fs.depth + 1) {found : List RawText}
    (hfound : discover fs root = .ok found) :
    discover fs' root = .ok found := by
  obtain ⟨below, hbelow, rfl⟩ := discover_eq_ok_iff.1 hfound
  obtain ⟨hread, hmem⟩ := mem_discoverBelow hrank hdepth hbelow
  have hvisited : fs'.Visited = fs.Visited := by
    unfold Visited
    rw [h.entered_eq]
  have hread' : ∀ q, fs'.Visited root q → ∃ entries, fs'.entries q = .ok entries := by
    intro q hq
    obtain ⟨entries, hentries⟩ := hread q (hvisited ▸ hq)
    obtain ⟨entries', he, -⟩ := h.ok hentries
    exact ⟨entries', he⟩
  obtain ⟨below', hbelow'⟩ := exists_discoverBelow hread' (fs.depth + 1)
  obtain ⟨-, hmem'⟩ := mem_discoverBelow (h.entered_eq ▸ hrank) hdepth hbelow'
  have hnodup := (nodup_discoverBelow hfs hbelow).1
  have hnodup' := (nodup_discoverBelow (h.lawful hfs) hbelow').1
  have hperm : below.Perm below' := by
    refine (List.perm_ext_iff_of_nodup hnodup.of_map hnodup'.of_map).2 fun q => ?_
    rw [hmem, hmem', hvisited, Labelled, Labelled]
    simp only [h.holds_iff]
  refine discover_eq_ok_iff.2 ⟨below', ?_, sort_eq_of_perm hnodup hperm⟩
  rw [h.depth]
  exact hbelow'

end FileAccess

/-! ## what is visited on a disk -/

/-- what the directory holds to which the names lead, one inside the other; links are not followed,
and no name that begins with a dot is entered -/
def FileTree.within? : FileTree → List RawText → Option (List (RawText × FileTree))
  | .directory held, [] => some held
  | .directory held, name :: names =>
    if name.head? = some dot then none else (held.lookup name).bind fun t => within? t names
  | _, _ => none

/-- the bytes of a text begin with a dot if the text does -/
theorem isHidden_iff {text : String} :
    isHidden text = true ↔ (RawText.ofText text).head? = some dot := by
  have hascii : ∀ c ∈ ['.'], IsAscii c := List.forall_mem_singleton.2 (by decide)
  have hprefix : (∃ rest, '.' :: rest = text.toList) ↔ ∃ rest, dot :: rest = RawText.ofText text :=
    (utf8_prefix_iff hascii).symm
  rw [isHidden, beq_iff_eq, List.head?_eq_some_iff, List.head?_eq_some_iff]
  simpa only [eq_comm] using hprefix

theorem isShown_iff_head? {name : RawText} :
    isShown name = true ↔ name.text?.isSome = true ∧ name.head? ≠ some dot := by
  rw [isShown_iff, Option.isSome_iff_exists]
  simp only [RawText.text?_eq_some_iff]
  constructor
  · rintro ⟨text, rfl, hnot⟩
    exact ⟨⟨text, rfl⟩, fun h => Bool.false_ne_true (hnot.symm.trans (isHidden_iff.2 h))⟩
  · rintro ⟨⟨text, rfl⟩, hdot⟩
    exact ⟨text, rfl, Bool.eq_false_iff.2 fun h => hdot (isHidden_iff.1 h)⟩

namespace Disk
variable {d : Disk} {path name : RawText} {held inner : List (RawText × FileTree)}

theorem lawful_access (hd : d.root.Lawful) : d.access.Lawful where
  ne_nil h := by
    obtain ⟨held, hnode, -⟩ := entries_access_eq_ok_iff.1 h
    obtain ⟨trail, hresolve, -⟩ := node_eq_ok_iff.1 hnode
    exact (resolve_eq_ok_iff.1 hresolve).2.1
  nodup h := by
    obtain ⟨held, hnode, rfl⟩ := entries_access_eq_ok_iff.1 h
    obtain ⟨trail, hresolve, hdir⟩ := node_eq_ok_iff.1 hnode
    have hlawful : (FileTree.directory held).Lawful := hdir ▸ lawful_of_resolve hd hresolve
    rw [List.map_map]
    exact hlawful.nodup
  isName h := by
    obtain ⟨held, hnode, rfl⟩ := entries_access_eq_ok_iff.1 h
    obtain ⟨trail, hresolve, hdir⟩ := node_eq_ok_iff.1 hnode
    have hlawful : (FileTree.directory held).Lawful := hdir ▸ lawful_of_resolve hd hresolve
    intro e he
    obtain ⟨⟨name, t⟩, hmem, rfl⟩ := List.mem_map.1 he
    exact hlawful.isName hmem

/-- a path that is joined with the name of a directory leads to this directory, if it can be read at
all -/
theorem node_join (hd : d.root.Lawful) (hnode : d.node path = .ok (.directory held))
    (hlookup : held.lookup name = some (.directory inner))
    (hread : ∃ entries, d.access.entries (join path name) = .ok entries) :
    d.node (join path name) = .ok (.directory inner) := by
  obtain ⟨trail, hresolve, hdir⟩ := node_eq_ok_iff.1 hnode
  have hlawful : (FileTree.directory held).Lawful := hdir ▸ lawful_of_resolve hd hresolve
  obtain ⟨entries, hentries⟩ := hread
  obtain ⟨held', hnode', -⟩ := entries_access_eq_ok_iff.1 hentries
  obtain ⟨reached, hjoin, hdir'⟩ := node_eq_ok_iff.1 hnode'
  obtain ⟨t, ht, hreached⟩ := exists_lookup_of_resolve_join hresolve hdir
    (hlawful.isName (mem_of_lookup hlookup)) hjoin
  cases hlookup.symm.trans ht
  rcases hreached with hlink | rfl
  · cases hlink
  · exact node_eq_ok_iff.2 ⟨_, hjoin, rfl⟩

theorem entered_iff_lookup (hd : d.root.Lawful) (hnode : d.node path = .ok (.directory held))
    {q : RawText} : d.access.Entered path q ↔
      ∃ name inner, held.lookup name = some (.directory inner) ∧ isShown name = true ∧
        q = join path name := by
  obtain ⟨trail, hresolve, hdir⟩ := node_eq_ok_iff.1 hnode
  have hlawful : (FileTree.directory held).Lawful := hdir ▸ lawful_of_resolve hd hresolve
  constructor
  · rintro ⟨text, hholds, hnot, rfl⟩
    obtain ⟨trail', held', t, hresolve', hdir', ht, hkind⟩ := holds_access_iff.1 hholds
    cases hresolve.symm.trans hresolve'
    cases hdir.symm.trans hdir'
    cases t with
    | file content => cases hkind
    | link target => cases hkind
    | directory inner =>
      exact ⟨text, inner, hlawful.lookup_eq ht, isShown_iff.2 ⟨text, rfl, hnot⟩, rfl⟩
  · rintro ⟨name, inner, hlookup, hshown, rfl⟩
    obtain ⟨text, rfl, hnot⟩ := isShown_iff.1 hshown
    refine ⟨text, holds_access_iff.2 ?_, hnot, rfl⟩
    exact ⟨trail, held, .directory inner, hresolve, hdir, mem_of_lookup hlookup, rfl⟩

section
variable (hd : d.root.Lawful) (hnode : d.node path = .ok (.directory held))
  (hread : ∀ q, d.access.Visited path q → ∃ entries, d.access.entries q = .ok entries)
include hd hnode hread

theorem exists_within_of_visited {q : RawText} (h : d.access.Visited path q) :
    ∃ names inner, FileTree.within? (.directory held) names = some inner ∧
      (∀ name ∈ names, name.text?.isSome = true) ∧
      d.node q = .ok (.directory inner) ∧ q = names.foldl join path := by
  induction h using Relation.ReflTransGen.head_induction_on generalizing held with
  | refl => exact ⟨[], held, rfl, nofun, hnode, rfl⟩
  | @head p next hentered _ ih =>
    obtain ⟨name, inner, hlookup, hshown, rfl⟩ := (entered_iff_lookup hd hnode).1 hentered
    have hnext := node_join hd hnode hlookup (hread _ (.single hentered))
    obtain ⟨names, held', hwithin, htexts, hq, rfl⟩ :=
      ih hnext fun q hq => hread q (.head hentered hq)
    obtain ⟨htext, hdot⟩ := isShown_iff_head?.1 hshown
    refine ⟨name :: names, held', ?_, List.forall_mem_cons.2 ⟨htext, htexts⟩, hq, rfl⟩
    rw [FileTree.within?, if_neg hdot, hlookup]
    exact hwithin

theorem visited_of_within {names : List RawText} (htexts : ∀ name ∈ names, name.text?.isSome = true)
    (h : FileTree.within? (.directory held) names = some inner) :
    d.access.Visited path (names.foldl join path) ∧
      d.node (names.foldl join path) = .ok (.directory inner) := by
  induction names generalizing path held with
  | nil =>
    cases h
    exact ⟨.refl, hnode⟩
  | cons name names ih =>
    obtain ⟨htext, htexts⟩ := List.forall_mem_cons.1 htexts
    rw [FileTree.within?] at h
    split at h
    · cases h
    rename_i hdot
    obtain ⟨t, hlookup, h⟩ := Option.bind_eq_some_iff.1 h
    cases t with
    | file content => cases names <;> cases h
    | link target => cases names <;> cases h
    | directory held' =>
      have hentered := (entered_iff_lookup hd hnode).2
        ⟨name, held', hlookup, isShown_iff_head?.2 ⟨htext, hdot⟩, rfl⟩
      have hnext := node_join hd hnode hlookup (hread _ (.single hentered))
      obtain ⟨hvisited, hq⟩ := ih hnext (fun q hq => hread q (.head hentered hq)) htexts h
      exact ⟨.head hentered hvisited, hq⟩

end

theorem labelled_iff_lookup (hd : d.root.Lawful) (hnode : d.node path = .ok (.directory held)) :
    d.access.Labelled path ↔
      ∃ name ∈ manifestNames, ∃ t, held.lookup (.ofText name) = some t ∧
        t.kind ≠ .directory := by
  obtain ⟨trail, hresolve, hdir⟩ := node_eq_ok_iff.1 hnode
  have hlawful : (FileTree.directory held).Lawful := hdir ▸ lawful_of_resolve hd hresolve
  refine exists_congr fun name => and_congr_right fun _ => ?_
  constructor
  · rintro ⟨kind, hkind, hholds⟩
    obtain ⟨trail', held', t, hresolve', hdir', ht, rfl⟩ := holds_access_iff.1 hholds
    cases hresolve.symm.trans hresolve'
    cases hdir.symm.trans hdir'
    exact ⟨t, hlawful.lookup_eq ht, hkind⟩
  · rintro ⟨t, hlookup, hkind⟩
    exact ⟨t.kind, hkind, holds_access_iff.2
      ⟨trail, held, t, hresolve, hdir, mem_of_lookup hlookup, rfl⟩⟩

end Disk

/-! ## what is discovered -/

/-- **A search is never cut short.  If it succeeds, it finds the directories below its root, with
texts for names, that hold an entry with the name of a manifest that is no directory, in strictly
increasing order, and it finds the same when directories are listed in another order.** -/
theorem discover_listing {d : Disk} (hd : d.root.Lawful) (root : RawText) :
    (∀ more, discoverBelow d.access (d.access.depth + 1 + more) root =
      discoverBelow d.access (d.access.depth + 1) root) ∧
    ∀ found, discover d.access root = .ok found →
      (found.Pairwise fun p q => before (components p) (components q) = true) ∧
      found.Nodup ∧
      (∃ start, d.node root = .ok start ∧ ∀ path, path ∈ found ↔
        ∃ names held, start.within? names = some held ∧
          (∀ name ∈ names, name.text?.isSome = true) ∧ path = names.foldl join root ∧
          ∃ name ∈ manifestNames, ∃ t, held.lookup (.ofText name) = some t ∧
            t.kind ≠ .directory) ∧
      ∀ fs, d.access.Relists fs → discover fs root = .ok found := by
  have hrank : ∀ path inner, d.access.Entered path inner → d.rank inner < d.rank path :=
    fun _ _ => Disk.rank_lt_of_entered hd
  have hdepth : d.rank root < d.access.depth + 1 := Nat.lt_succ_of_le (d.rank_le root)
  refine ⟨discoverBelow_add hrank hdepth, fun found h => ?_⟩
  obtain ⟨hread, hmem⟩ := mem_discover hd h
  obtain ⟨below, hbelow, hsort⟩ := discover_eq_ok_iff.1 h
  have hnodup := (nodup_discoverBelow (Disk.lawful_access hd) hbelow).1
  obtain ⟨entries, hentries⟩ := hread root .refl
  obtain ⟨held, hnode, -⟩ := Disk.entries_access_eq_ok_iff.1 hentries
  refine ⟨hsort ▸ pairwise_sort hnodup, hsort ▸ (perm_sort below).nodup_iff.2 hnodup.of_map,
    ⟨.directory held, hnode, fun path => ?_⟩,
    fun fs hfs => hfs.discover_eq_ok (Disk.lawful_access hd) hrank hdepth h⟩
  rw [hmem]
  constructor
  · rintro ⟨hvisited, hlabel⟩
    obtain ⟨names, inner, hwithin, htexts, hpath, hnames⟩ :=
      Disk.exists_within_of_visited hd hnode hread hvisited
    exact ⟨names, inner, hwithin, htexts, hnames, (Disk.labelled_iff_lookup hd hpath).1 hlabel⟩
  · rintro ⟨names, inner, hwithin, htexts, rfl, hlabel⟩
    obtain ⟨hvisited, hpath⟩ := Disk.visited_of_within hd hnode hread htexts hwithin
    exact ⟨hvisited, (Disk.labelled_iff_lookup hd hpath).2 hlabel⟩

/-! ## a link back up the tree -/

/-- the same file system, with every directory listed from its end -/
def FileAccess.reversed (fs : FileAccess Id) : FileAccess Id :=
  { fs with entries := fun path => (fs.entries path).map List.reverse }

theorem FileAccess.relists_reversed (fs : FileAccess Id) : fs.Relists fs.reversed where
  ok {path entries} h := by
    refine ⟨entries.reverse, ?_, (List.reverse_perm entries).symm⟩
    show (fs.entries path).map List.reverse = _
    rw [h]
    rfl
  error {path f} h := by
    show (fs.entries path).map List.reverse = _
    rw [h]
    rfl
  depth := rfl

/-- a resource inside another one, from which a link leads back up, one beside them that comes
before them as a text, a hidden one, and one with a name that is no text -/
def Disk.upward : Disk where
  root := .directory [("res", .directory [
    ("a-b", .directory [("__resource.lua", .file .empty)]),
    (".git", .directory [("fxmanifest.lua", .file .empty)]),
    ([0xFF], .directory [("fxmanifest.lua", .file .empty)]),
    ("a", .directory [("up", .link ".."), ("fxmanifest.lua", .file .empty),
      ("b", .directory [("fxmanifest.lua", .link "nowhere")])])])]
  current := []

theorem Disk.lawful_upward : upward.root.Lawful := FileTree.lawful_of_isLawful (by decide)

/-- what is discovered there -/
def upwardFound : List RawText := ["res/a", "res/a/b", "res/a-b"]

theorem discover_upward : discover Disk.upward.access "res" = .ok upwardFound :=
  discover_eq_ok_iff.2
    ⟨["res/a-b", "res/a/b", "res/a"], rfl, (sort_eq (by decide) (by decide)).symm⟩

theorem discover_listing_upward : Disk.upward.root.Lawful ∧
    discover Disk.upward.access "res" = .ok upwardFound ∧
    Disk.upward.access.Relists Disk.upward.access.reversed ∧
    (∀ more, discoverBelow Disk.upward.access (Disk.upward.access.depth + 1 + more) "res" =
      discoverBelow Disk.upward.access (Disk.upward.access.depth + 1) "res") ∧
    (upwardFound.Pairwise fun p q => before (components p) (components q) = true) ∧
    upwardFound.Nodup ∧
    (∃ start, Disk.upward.node "res" = .ok start ∧ ∀ path, path ∈ upwardFound ↔
      ∃ names held, start.within? names = some held ∧
        (∀ name ∈ names, name.text?.isSome = true) ∧ path = names.foldl join "res" ∧
        ∃ name ∈ manifestNames, ∃ t, held.lookup (.ofText name) = some t ∧
          t.kind ≠ .directory) ∧
    discover Disk.upward.access.reversed "res" = .ok upwardFound := by
  obtain ⟨hmore, hfound⟩ := discover_listing Disk.lawful_upward "res"
  obtain ⟨hincreasing, hnodup, hmem, hrelists⟩ := hfound _ discover_upward
  have hreversed := Disk.upward.access.relists_reversed
  exact ⟨Disk.lawful_upward, discover_upward, hreversed, hmore, hincreasing, hnodup, hmem,
    hrelists _ hreversed⟩

/-- a directory with a manifest is passed over if its name is no text -/
theorem discover_notText : ∃ start held, Disk.upward.node "res" = .ok start ∧
    start.within? [[0xFF]] = some held ∧
    held.lookup (.ofText "fxmanifest.lua") = some (.file .empty) ∧
    findManifest Disk.upward.access (join "res" [0xFF]) =
      .ok (manifestPath (join "res" [0xFF]) "fxmanifest.lua") ∧
    discover Disk.upward.access "res" = .ok upwardFound ∧ join "res" [0xFF] ∉ upwardFound :=
  ⟨_, _, rfl, rfl, rfl, rfl, discover_upward, by decide⟩

end ResourceOrder
