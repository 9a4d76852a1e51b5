import ResourceOrder.Files.Disk

/-!
# Where paths lead

* `Disk.way`        the segments that are followed for a path;
* `IsName`          what can be a segment of its own and is looked up as it stands.

A name joined to a path adds its segment at the end, in place of the empty one if the path ends in
a slash (`Disk.way_join`).  Segments are followed one after the other: once what stands in front has
been followed, what is behind is followed from the place that was reached, with as many links as are
left (`Disk.follow_append`).  **So a name joined to the path of a directory leads to what the
directory holds under this name** (`Disk.exists_lookup_of_resolve_join`, `Disk.resolve_join`).

What holds of the root of a disk, and of the entries of every directory of which it holds, holds of
whatever a path leads to (`Disk.forall_of_resolve`).
-/

namespace ResourceOrder

namespace Path

/-! ## segments -/

section
variable {α : Type} [DecidableEq α]

theorem splitAt_append (mark : α) (front back : List α) :
    splitAt mark (front ++ mark :: back) = splitAt mark front ++ splitAt mark back := by
  induction front with
  | nil => simp [splitAt]
  | cons c cs ih =>
    rw [List.cons_append, splitAt, splitAt, ih]
    split
    · rfl
    · cases hcs : splitAt mark cs with
      | nil => exact absurd hcs (splitAt_ne_nil mark cs)
      | cons part parts => rfl

theorem splitAt_of_notMem {mark : α} {cs : List α} (h : mark ∉ cs) :
    splitAt mark cs = [cs] := by
  induction cs with
  | nil => rfl
  | cons c cs ih =>
    have hc : c ≠ mark := fun he => h (he ▸ List.mem_cons_self ..)
    rw [splitAt, if_neg hc, ih fun hm => h (List.mem_cons_of_mem _ hm)]

end

theorem segments_append (front back : RawText) :
    segments (front ++ slash :: back) = segments front ++ segments back :=
  splitAt_append slash front back

theorem segments_of_notMem {name : RawText} (h : slash ∉ name) : segments name = [name] :=
  splitAt_of_notMem h

/-! ## names -/

/-- what can be a segment of its own, and is looked up as it stands -/
structure IsName (name : RawText) : Prop where
  ne_nil : name ≠ []
  ne_dot : name ≠ [dot]
  ne_dots : name ≠ [dot, dot]
  slash : slash ∉ name
  nul : 0 ∉ name

instance (name : RawText) : Decidable (IsName name) :=
  decidable_of_iff (name ≠ [] ∧ name ≠ [dot] ∧ name ≠ [dot, dot] ∧ slash ∉ name ∧ 0 ∉ name)
    ⟨fun ⟨hempty, hdot, hdots, hslash, hnul⟩ => ⟨hempty, hdot, hdots, hslash, hnul⟩,
      fun h => ⟨h.ne_nil, h.ne_dot, h.ne_dots, h.slash, h.nul⟩⟩

theorem isAbsolute_iff {path : RawText} :
    isAbsolute path = true ↔ ∃ rest, path = slash :: rest := by
  rw [isAbsolute, beq_iff_eq, List.head?_eq_some_iff]

theorem not_isAbsolute {name : RawText} (h : slash ∉ name) : isAbsolute name = false := by
  rw [Bool.eq_false_iff]
  intro ha
  obtain ⟨rest, rfl⟩ := isAbsolute_iff.1 ha
  exact h (List.mem_cons_self ..)

/-- a name is put behind a slash, which is the one at the end of the path if there is one -/
theorem join_eq {path name : RawText} (hpath : path ≠ []) (hname : slash ∉ name) :
    join path name = path ++ slash :: name ∨
      ∃ above, path = above ++ [slash] ∧ join path name = above ++ slash :: name := by
  rw [join, not_isAbsolute hname, if_neg Bool.false_ne_true]
  split
  · rename_i hlast
    rw [List.getLast?_eq_some_getLast hpath, Option.all_some, beq_iff_eq] at hlast
    have hsplit : path = path.dropLast ++ [slash] := by
      rw [← hlast, List.dropLast_concat_getLast]
    refine .inr ⟨path.dropLast, hsplit, ?_⟩
    rw [List.append_cons, ← hsplit]
  · exact .inl rfl

end Path

namespace Disk
variable {d : Disk} {trail reached : Trail} {path name : RawText} {links : Nat}

open ResourceOrder.Path

/-! ## one segment -/

/-- where one segment that is no link leads: nowhere else, back, or to an entry -/
inductive Next (d : Disk) (trail : Trail) : Trail → Prop
  | stay : Next d trail trail
  | back : Next d trail trail.tail
  | entry {entries : List (RawText × FileTree)} {segment : RawText} {t : FileTree} :
      d.nodeAt trail = .directory entries → (segment, t) ∈ entries →
      Next d trail ((segment, t) :: trail)

theorem mem_of_lookup {es : List (RawText × FileTree)} {segment : RawText} {t : FileTree}
    (h : es.lookup segment = some t) : (segment, t) ∈ es := by
  obtain ⟨front, back, hes, _⟩ := List.lookup_eq_some_iff.1 h
  exact hes ▸ List.mem_append_right _ (List.mem_cons_self ..)

/-- what a segment can do: fail, lead on, or be a link -/
theorem descend_cons (d : Disk) {jump : Trail → RawText → List RawText → Except FileFault Trail}
    (trail : Trail) (segment : RawText) :
    (∃ f, ∀ rest, d.descend nowhere jump trail (segment :: rest) = .error f) ∨
    (∃ next, Next d trail next ∧ ∀ rest, d.descend nowhere jump trail (segment :: rest) =
      d.descend nowhere jump next rest) ∨
    ∃ target, ∀ rest, d.descend nowhere jump trail (segment :: rest) =
      jump trail target rest := by
  simp only [descend]
  cases hnode : d.nodeAt trail with
  | file content => exact .inl ⟨_, fun _ => rfl⟩
  | link target => exact .inl ⟨_, fun _ => rfl⟩
  | directory entries =>
    by_cases hidle : segment = [] ∨ segment = [dot]
    · simp only [if_pos hidle]
      exact .inr (.inl ⟨trail, .stay, fun _ => rfl⟩)
    by_cases hback : segment = [dot, dot]
    · simp only [if_neg hidle, if_pos hback]
      exact .inr (.inl ⟨trail.tail, .back, fun _ => rfl⟩)
    by_cases hlong : nameLimit < segment.length
    · simp only [if_neg hidle, if_neg hback, if_pos hlong]
      exact .inl ⟨_, fun _ => rfl⟩
    simp only [if_neg hidle, if_neg hback, if_neg hlong]
    cases hentry : entries.lookup segment with
    | none => exact .inl ⟨.notFound, fun _ => rfl⟩
    | some t =>
      have hnext : Next d trail ((segment, t) :: trail) := .entry hnode (mem_of_lookup hentry)
      cases t with
      | link target => exact .inr (.inr ⟨target, fun _ => rfl⟩)
      | file content => exact .inr (.inl ⟨_, hnext, fun _ => rfl⟩)
      | directory entries => exact .inr (.inl ⟨_, hnext, fun _ => rfl⟩)

/-! ## following in two parts -/

theorem descend_append (d : Disk) (jump : Trail → RawText → List RawText → Except FileFault Trail)
    (trail : Trail) (front : List RawText) :
    (∃ f, ∀ back, d.descend nowhere jump trail (front ++ back) = .error f) ∨
    (∃ reached, ∀ back, d.descend nowhere jump trail (front ++ back) =
      d.descend nowhere jump reached back) ∨
    ∃ place target rest, ∀ back, d.descend nowhere jump trail (front ++ back) =
      jump place target (rest ++ back) := by
  induction front generalizing trail with
  | nil => exact .inr (.inl ⟨trail, fun _ => rfl⟩)
  | cons segment rest ih =>
    simp only [List.cons_append]
    rcases d.descend_cons trail segment with ⟨f, h⟩ | ⟨next, -, h⟩ | ⟨target, h⟩
    · exact .inl ⟨f, fun back => h _⟩
    · simp only [h]
      exact ih next
    · exact .inr (.inr ⟨trail, target, rest, fun back => h _⟩)

/-- following fails in front, whatever is behind, or what is behind is followed from where the front
has led -/
theorem follow_append (d : Disk) (links : Nat) (trail : Trail) (front : List RawText) :
    (∃ f, ∀ back, d.follow nowhere links trail (front ++ back) = .error f) ∨
    ∃ left reached, ∀ back, d.follow nowhere links trail (front ++ back) =
      d.follow nowhere left reached back := by
  induction links generalizing trail front with
  | zero =>
    rcases d.descend_append (fun _ _ _ => .error .tooManyLinks) trail front with
      h | ⟨reached, h⟩ | ⟨_, _, _, h⟩
    · exact .inl h
    · exact .inr ⟨0, reached, h⟩
    · exact .inl ⟨_, h⟩
  | succ links ih =>
    rcases d.descend_append (fun trail target rest => d.follow nowhere links
        (if isAbsolute target then [] else trail) (segments target ++ rest)) trail front with
      h | ⟨reached, h⟩ | ⟨place, target, rest, h⟩
    · exact .inl h
    · exact .inr ⟨links + 1, reached, h⟩
    · -- behind a link, the front has the segments of its target before those that are left
      rcases ih (if isAbsolute target then [] else place) (segments target ++ rest) with
        ⟨f, hf⟩ | ⟨left, reached, hr⟩
      · exact .inl ⟨f, fun back => (h back).trans (List.append_assoc .. ▸ hf back)⟩
      · exact .inr ⟨left, reached, fun back => (h back).trans (List.append_assoc .. ▸ hr back)⟩

/-- what stands in front of segments that lead nowhere else has led to the same place -/
theorem exists_follow_eq {front last : List RawText}
    (hlast : ∀ left place, d.follow nowhere left place last = .ok reached → place = reached)
    (h : d.follow nowhere links trail (front ++ last) = .ok reached) :
    ∃ left, ∀ back, d.follow nowhere links trail (front ++ back) =
      d.follow nowhere left reached back := by
  rcases d.follow_append links trail front with ⟨f, hf⟩ | ⟨left, place, hplace⟩
  · rw [hf] at h
    cases h
  · rw [hplace] at h
    cases hlast left place h
    exact ⟨left, hplace⟩

theorem eq_of_follow_nil (h : d.follow nowhere links trail [] = .ok reached) : trail = reached := by
  cases links <;> (rw [follow, descend] at h; exact Except.ok.inj h)

/-- what is followed last is followed in one way, until a link is met -/
theorem exists_descend (d : Disk) (links : Nat) :
    ∃ jump, d.follow nowhere links = d.descend nowhere jump := by
  cases links with
  | zero => exact ⟨_, rfl⟩
  | succ links => exact ⟨_, rfl⟩

/-- an empty segment at the end leads nowhere else -/
theorem eq_of_follow_empty (h : d.follow nowhere links trail [[]] = .ok reached) :
    trail = reached := by
  obtain ⟨jump, hjump⟩ := d.exists_descend links
  rw [hjump, descend] at h
  split at h
  · rw [if_pos (.inl rfl), descend] at h
    exact Except.ok.inj h
  · cases h

/-! ## paths -/

/-- the segments that are followed for a path -/
def way (d : Disk) (path : RawText) : List RawText :=
  if isAbsolute path then segments path else d.current ++ segments path

theorem resolve_eq (hpossible : isPossible path = true) (hempty : path ≠ [])
    (hlong : path.length ≤ pathLimit) :
    d.resolve path = d.follow nowhere linkLimit [] (d.way path) := by
  rw [resolve, hpossible, if_neg (by decide), if_neg (Nat.not_lt.2 hlong), if_neg hempty]
  rfl

theorem resolve_eq_ok_iff : d.resolve path = .ok reached ↔
    isPossible path = true ∧ path ≠ [] ∧ path.length ≤ pathLimit ∧
      d.follow nowhere linkLimit [] (d.way path) = .ok reached := by
  constructor
  · intro h
    rw [resolve] at h
    split at h
    · cases h
    rename_i hpossible
    split at h
    · cases h
    rename_i hlong
    split at h
    · cases h
    rename_i hempty
    exact ⟨by simpa using hpossible, hempty, Nat.not_lt.1 hlong, h⟩
  · rintro ⟨hp, hempty, hl, h⟩
    rw [resolve_eq hp hempty hl, h]

theorem isAbsolute_append (hpath : path ≠ []) (more : RawText) :
    isAbsolute (path ++ more) = isAbsolute path := by
  obtain ⟨c, cs, rfl⟩ := List.exists_cons_of_ne_nil hpath
  rfl

theorem way_append (d : Disk) (above more : RawText) :
    d.way (above ++ slash :: more) =
      (if isAbsolute (above ++ [slash]) then segments above else d.current ++ segments above) ++
        segments more := by
  rw [way, segments_append, List.append_cons, isAbsolute_append (by simp)]
  split
  · rfl
  · rw [List.append_assoc]

/-- the way to a name joined to a path: the name stands behind the way to the path, or in place of
an empty segment at its end -/
theorem way_join (d : Disk) (hpath : path ≠ []) (hname : slash ∉ name) :
    d.way (join path name) = d.way path ++ [name] ∨
      ∃ above, d.way path = above ++ [[]] ∧ d.way (join path name) = above ++ [name] := by
  rcases join_eq hpath hname with h | ⟨above, rfl, h⟩
  · rw [h, way_append, segments_of_notMem hname, isAbsolute_append hpath]
    exact .inl rfl
  · rw [h, way_append, way_append, segments_of_notMem hname]
    exact .inr ⟨_, rfl, rfl⟩

theorem follow_way_join (h : d.resolve path = .ok trail) (hname : slash ∉ name) :
    ∃ left, d.follow nowhere linkLimit [] (d.way (join path name)) =
      d.follow nowhere left trail [name] := by
  obtain ⟨-, hpath, -, hfollow⟩ := resolve_eq_ok_iff.1 h
  rcases d.way_join hpath hname with hway | ⟨above, hend, hway⟩
  · rw [← List.append_nil (d.way path)] at hfollow
    obtain ⟨left, hleft⟩ := exists_follow_eq (fun _ _ => eq_of_follow_nil) hfollow
    exact ⟨left, hway ▸ hleft [name]⟩
  · rw [hend] at hfollow
    obtain ⟨left, hleft⟩ := exists_follow_eq (fun _ _ => eq_of_follow_empty) hfollow
    exact ⟨left, hway ▸ hleft [name]⟩

/-! ## a name joined to the path of a directory -/

section
variable {entries : List (RawText × FileTree)}

theorem isPossible_join (hpossible : isPossible path = true) (hpath : path ≠ [])
    (hname : IsName name) : isPossible (join path name) = true := by
  have hslash : (0 : UInt8) ≠ slash := by decide
  have hnul : 0 ∉ path := by simpa [isPossible] using hpossible
  have hjoin : 0 ∉ join path name := by
    rcases join_eq hpath hname.slash with h | ⟨above, rfl, h⟩
    · simp [h, hnul, hname.nul, hslash]
    · have habove : 0 ∉ above := fun hm => hnul (List.mem_append_left _ hm)
      simp [h, habove, hname.nul, hslash]
  simpa [isPossible] using hjoin

theorem join_ne_nil (hpath : path ≠ []) (hname : slash ∉ name) : join path name ≠ [] := by
  rcases join_eq hpath hname with h | ⟨above, -, h⟩ <;> simp [h]

theorem follow_name (links : Nat) (hdir : d.nodeAt trail = .directory entries)
    (hname : IsName name) :
    ∃ jump : RawText → Except FileFault Trail,
      d.follow nowhere links trail [name] =
        if nameLimit < name.length then .error .tooLong
        else match entries.lookup name with
          | none => .error .notFound
          | some (.link target) => jump target
          | some t => .ok ((name, t) :: trail) := by
  obtain ⟨jump, hjump⟩ := d.exists_descend links
  refine ⟨fun target => jump trail target [], ?_⟩
  have hidle : ¬ (name = [] ∨ name = [dot]) := not_or.2 ⟨hname.ne_nil, hname.ne_dot⟩
  rw [hjump, descend, hdir]
  simp only [if_neg hidle, if_neg hname.ne_dots]
  rfl

/-- a name that leads somewhere is held by the directory; if it is no link, it leads to what the
directory holds -/
theorem exists_lookup_of_resolve_join (h : d.resolve path = .ok trail)
    (hdir : d.nodeAt trail = .directory entries) (hname : IsName name)
    (hjoin : d.resolve (join path name) = .ok reached) :
    ∃ t, entries.lookup name = some t ∧ (t.kind = .link ∨ reached = (name, t) :: trail) := by
  obtain ⟨-, -, -, hfollow⟩ := resolve_eq_ok_iff.1 hjoin
  obtain ⟨left, hleft⟩ := follow_way_join h hname.slash
  obtain ⟨jump, hjump⟩ := follow_name left hdir hname
  rw [hleft, hjump] at hfollow
  split at hfollow
  · cases hfollow
  split at hfollow
  · cases hfollow
  · rename_i target hlookup
    exact ⟨_, hlookup, .inl rfl⟩
  · rename_i t _ hlookup
    cases hfollow
    exact ⟨t, hlookup, .inr rfl⟩

/-- a name joined to the path of a directory leads to what the directory holds, unless this is a
link or the path is too long -/
theorem resolve_join {t : FileTree} (h : d.resolve path = .ok trail)
    (hdir : d.nodeAt trail = .directory entries) (hname : IsName name)
    (hshort : name.length ≤ nameLimit) (hlong : (join path name).length ≤ pathLimit)
    (hlookup : entries.lookup name = some t) (hkind : t.kind ≠ .link) :
    d.resolve (join path name) = .ok ((name, t) :: trail) := by
  obtain ⟨hpossible, hpath, -, -⟩ := resolve_eq_ok_iff.1 h
  obtain ⟨left, hleft⟩ := follow_way_join h hname.slash
  obtain ⟨jump, hjump⟩ := follow_name left hdir hname
  rw [resolve_eq (isPossible_join hpossible hpath hname) (join_ne_nil hpath hname.slash) hlong,
    hleft, hjump, if_neg (Nat.not_lt.2 hshort), hlookup]
  cases t with
  | link target => exact absurd rfl hkind
  | file content => rfl
  | directory entries => rfl

end

/-! ## what holds of every entry -/

section
variable {R : RawText × FileTree → Prop}
  (hroot : ∀ entries, d.root = .directory entries → ∀ e ∈ entries, R e)
  (hentry : ∀ name entries, R (name, .directory entries) → ∀ e ∈ entries, R e)
include hroot hentry

theorem Next.forall {next : Trail} (h : Next d trail next) (htrail : ∀ e ∈ trail, R e) :
    ∀ e ∈ next, R e := by
  cases h with
  | stay => exact htrail
  | back => exact fun e he => htrail e (List.mem_of_mem_tail he)
  | @entry entries segment t hdir hmem =>
    refine List.forall_mem_cons.2 ⟨?_, htrail⟩
    cases trail with
    | nil => exact hroot entries hdir _ hmem
    | cons place rest =>
      obtain ⟨name, u⟩ := place
      obtain rfl : u = .directory entries := hdir
      exact hentry name entries (htrail _ (List.mem_cons_self ..)) _ hmem

theorem forall_of_descend {jump : Trail → RawText → List RawText → Except FileFault Trail}
    (hjump : ∀ place target rest, (∀ e ∈ place, R e) → jump place target rest = .ok reached →
      ∀ e ∈ reached, R e) {segments : List RawText} (htrail : ∀ e ∈ trail, R e)
    (h : d.descend nowhere jump trail segments = .ok reached) : ∀ e ∈ reached, R e := by
  induction segments generalizing trail with
  | nil =>
    rw [descend] at h
    cases h
    exact htrail
  | cons segment rest ih =>
    rcases d.descend_cons trail segment with ⟨f, hstep⟩ | ⟨next, hnext, hstep⟩ | ⟨target, hstep⟩
    · rw [hstep] at h
      cases h
    · exact ih (hnext.forall hroot hentry htrail) (hstep rest ▸ h)
    · exact hjump trail target rest htrail (hstep rest ▸ h)

theorem forall_of_follow {segments : List RawText} (htrail : ∀ e ∈ trail, R e)
    (h : d.follow nowhere links trail segments = .ok reached) : ∀ e ∈ reached, R e := by
  induction links generalizing trail segments with
  | zero =>
    rw [follow] at h
    refine forall_of_descend hroot hentry ?_ htrail h
    exact fun _ _ _ _ hjump => nomatch hjump
  | succ links ih =>
    refine forall_of_descend hroot hentry (fun place target rest hplace h => ?_) htrail h
    refine ih ?_ h
    split
    · nofun
    · exact hplace

/-- what holds of the entries of the root, and of the entries of each directory of which it holds,
holds of all entries that are passed -/
theorem forall_mem_of_resolve (h : d.resolve path = .ok reached) : ∀ e ∈ reached, R e := by
  obtain ⟨-, -, -, hfollow⟩ := resolve_eq_ok_iff.1 h
  have hstart : ∀ e ∈ ([] : Trail), R e := nofun
  exact forall_of_follow hroot hentry hstart hfollow

end

/-- **what holds of the root, and of the entries of each directory of which it holds, holds of
whatever a path leads to** -/
theorem forall_of_resolve {P : FileTree → Prop} (hroot : P d.root)
    (hentry : ∀ entries, P (.directory entries) → ∀ e ∈ entries, P e.2)
    (h : d.resolve path = .ok reached) : P (d.nodeAt reached) := by
  have hall : ∀ e ∈ reached, P e.2 := forall_mem_of_resolve (R := fun e => P e.2)
    (fun entries hdir => hentry entries (hdir ▸ hroot)) (fun _ entries => hentry entries) h
  cases reached with
  | nil => exact hroot
  | cons e rest => exact hall e (List.mem_cons_self ..)

end Disk

end ResourceOrder
