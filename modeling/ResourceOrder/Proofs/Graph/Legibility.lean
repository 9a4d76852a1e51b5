import ResourceOrder.Proofs.Graph.Drawing

/-!
# Reading a graph off its drawing

* `readLine`          the depth of a line and the name on it, whatever characters the name has;
* `ParentAt`          in a list of depths, the last place in front of another one that is one level
                      higher;
* `Graph.entries`     the depths and names of the lines of a tree, in order;
* `Graph.EdgeBetween` a resource with the first name depends on one with the second;
* `DrawnBelow`        the same, read off the entries of a drawing.

The chains are in order, so what stands between a chain and one that goes on from it by one node
goes on from it as well (`exists_append_of_between`), and is drawn deeper.  A line therefore stands
below the last one in front of it that is one level higher, and the edges of a graph are those
drawn in its tree (`Graph.edgeBetween_iff`).  **Two graphs with the same tree have the same names
and the same edges between them** (`Graph.same_edges_of_tree_eq`).
-/

namespace ResourceOrder

/-! ## lines -/

/-- the depth of a line, which has two characters for each level above it, and the name behind its
connector -/
def readLine : List Char → Nat × List Char
  | '└' :: ' ' :: name => (0, name)
  | '├' :: ' ' :: name => (0, name)
  | _ :: _ :: rest => ((readLine rest).1 + 1, (readLine rest).2)
  | _ => (0, [])

namespace Graph

theorem readLine_connector (last : Bool) (name : String) :
    readLine (connector last ++ " " ++ name).toList = (0, name.toList) := by
  rw [String.toList_append, String.toList_append]
  cases last <;> rfl

theorem readLine_indentBelow (last : Bool) (line : String) :
    readLine (indentBelow last ++ line).toList =
      ((readLine line.toList).1 + 1, (readLine line.toList).2) := by
  rw [String.toList_append]
  cases last <;> rfl

/-- what is read in the line of a chain -/
theorem readLine_line {g : Graph} {level : List Nat} {c : List Nat} {i : Nat} :
    readLine (g.line level (c ++ [i])).toList = (c.length, (g.nameOf i).toList) := by
  induction c generalizing level with
  | nil => rw [List.nil_append, line_singleton, readLine_connector, List.length_nil]
  | cons j c ih =>
    rw [List.cons_append, line_cons (by simp), readLine_indentBelow, ih, List.length_cons]

end Graph

/-! ## depths -/

/-- the last place in front of `k` that is one level higher than place `k` -/
structure ParentAt (depths : List Nat) (p k : Nat) : Prop where
  lt : p < k
  above : ∃ d, depths[p]? = some d ∧ depths[k]? = some (d + 1)
  last : ∀ m, p < m → m < k → depths[m]? ≠ depths[p]?

theorem ParentAt.unique {depths : List Nat} {p q k : Nat} (hp : ParentAt depths p k)
    (hq : ParentAt depths q k) : p = q := by
  obtain ⟨d, hpd, hkd⟩ := hp.above
  obtain ⟨e, hqe, hke⟩ := hq.above
  have hde : d = e := by
    rw [hkd] at hke
    exact Nat.succ.inj (Option.some.inj hke)
  have hsame : depths[p]? = depths[q]? := by rw [hpd, hqe, hde]
  rcases Nat.lt_trichotomy p q with hlt | heq | hlt
  · exact absurd hsame.symm (hp.last q hlt hq.lt)
  · exact heq
  · exact absurd hsame (hq.last p hlt hp.lt)

/-- a list between another one and the same with one more element goes on from it -/
theorem exists_append_of_between {c d : List Nat} {i : Nat} (hcd : c < d) (hdc : d < c ++ [i]) :
    ∃ j s, d = c ++ j :: s := by
  induction c generalizing d with
  | nil =>
    cases d with
    | nil => exact absurd hcd (List.not_lt_nil [])
    | cons j s => exact ⟨j, s, rfl⟩
  | cons x c ih =>
    cases d with
    | nil => exact absurd hcd (List.not_lt_nil _)
    | cons y d =>
      rw [List.cons_append] at hdc
      rcases List.cons_lt_cons_iff.1 hcd with hxy | ⟨hxy, hrest⟩
      · rcases List.cons_lt_cons_iff.1 hdc with hyx | ⟨hyx, _⟩
        · exact absurd hyx (Nat.lt_asymm hxy)
        · exact absurd hyx.symm (Nat.ne_of_lt hxy)
      · subst hxy
        rcases List.cons_lt_cons_iff.1 hdc with hxx | ⟨_, hrest'⟩
        · exact absurd hxx (Nat.lt_irrefl x)
        · obtain ⟨j, s, rfl⟩ := ih hrest hrest'
          exact ⟨j, s, rfl⟩

section
variable {cs : List (List Nat)} (hsorted : cs.Pairwise (· < ·))
include hsorted

theorem lt_of_getElem?_lt {p q : Nat} {c d : List Nat} (hp : cs[p]? = some c)
    (hq : cs[q]? = some d) (hcd : c < d) : p < q := by
  obtain ⟨hp', rfl⟩ := List.getElem?_eq_some_iff.1 hp
  obtain ⟨hq', rfl⟩ := List.getElem?_eq_some_iff.1 hq
  rcases Nat.lt_trichotomy p q with hlt | rfl | hlt
  · exact hlt
  · exact absurd hcd Std.lt_irrefl
  · have hdc := List.pairwise_iff_getElem.1 hsorted q p hq' hp' hlt
    exact absurd hdc (Std.not_gt_of_lt hcd)

/-- in a sorted list, whose lists count as one level less deep than they are long, a list stands
below the one that it goes on from -/
theorem parentAt_concat {p k : Nat} {c : List Nat} {i : Nat} (hne : c ≠ [])
    (hp : cs[p]? = some c) (hk : cs[k]? = some (c ++ [i])) :
    ParentAt (cs.map fun c => c.length - 1) p k := by
  have hpos := List.length_pos_iff.2 hne
  have hlt : c < c ++ [i] := by
    have happend : c ++ [] < c ++ [i] := List.append_left_lt (List.nil_lt_cons i [])
    rwa [List.append_nil] at happend
  refine ⟨lt_of_getElem?_lt hsorted hp hk hlt, ⟨c.length - 1, ?_, ?_⟩, fun m hpm hmk => ?_⟩
  · rw [List.getElem?_map, hp, Option.map_some]
  · rw [List.getElem?_map, hk, Option.map_some, List.length_append, List.length_singleton]
    exact congrArg some (by omega)
  · obtain ⟨hp', hcp⟩ := List.getElem?_eq_some_iff.1 hp
    obtain ⟨hk', hck⟩ := List.getElem?_eq_some_iff.1 hk
    have hm' : m < cs.length := Nat.lt_trans hmk hk'
    have hcm := List.pairwise_iff_getElem.1 hsorted p m hp' hm' hpm
    have hmc := List.pairwise_iff_getElem.1 hsorted m k hm' hk' hmk
    rw [hcp] at hcm
    rw [hck] at hmc
    obtain ⟨j, s, hd⟩ := exists_append_of_between hcm hmc
    rw [List.getElem?_map, List.getElem?_map, hp, List.getElem?_eq_getElem hm', hd]
    simp only [Option.map_some, List.length_append, List.length_cons, ne_eq, Option.some.injEq]
    omega

end

/-! ## edges -/

/-- the depths and names stand in the list so that `b` is drawn below `a` -/
def DrawnBelow (entries : List (Nat × List Char)) (a b : String) : Prop :=
  ∃ p k d, ParentAt (entries.map Prod.fst) p k ∧ entries[p]? = some (d, a.toList) ∧
    entries[k]? = some (d + 1, b.toList)

namespace Graph

def EdgeBetween (g : Graph) (a b : String) : Prop :=
  ∃ i j, j ∈ g.dependencies i ∧ g.nameOf i = a ∧ g.nameOf j = b

/-- what is read in the lines of the tree -/
def entries (g : Graph) : List (Nat × List Char) := g.tree.map fun line => readLine line.toList

theorem ChainFrom.dropLast {g : Graph} {level c : List Nat} {i : Nat} (hne : c ≠ [])
    (h : g.ChainFrom level (c ++ [i])) :
    g.ChainFrom level c ∧ ∃ j, c.getLast? = some j ∧ i ∈ g.dependents j := by
  obtain ⟨k, hk, hhead⟩ := h.root
  obtain ⟨hc, _, hlast⟩ := List.isChain_append.1 h.linked
  have hj := List.getLast?_eq_some_getLast hne
  refine ⟨⟨⟨k, hk, ?_⟩, hc⟩, _, hj, hlast _ hj i rfl⟩
  rwa [List.head?_append_of_ne_nil c hne] at hhead

section
variable {g : Graph}

theorem entries_eq : g.entries = g.chains.map fun c => readLine (g.line g.free c).toList := by
  rw [entries, tree_eq, List.map_map]
  rfl

theorem getElem?_entries {k : Nat} {c : List Nat} {i : Nat} (h : g.chains[k]? = some (c ++ [i])) :
    g.entries[k]? = some (c.length, (g.nameOf i).toList) := by
  rw [entries_eq, List.getElem?_map, h, Option.map_some, readLine_line]

theorem exists_getElem?_chains (hv : g.Valid) {c : List Nat} (hc : g.Chain c) :
    ∃ k : Nat, g.chains[k]? = some c :=
  List.getElem?_of_mem (hv.mem_chains.2 hc)

/-- an entry is that of a chain -/
theorem exists_of_getElem?_entries (hv : g.Valid) {k d : Nat} {name : List Char}
    (h : g.entries[k]? = some (d, name)) :
    ∃ c i, g.chains[k]? = some (c ++ [i]) ∧ g.Chain (c ++ [i]) ∧ d = c.length ∧
      name = (g.nameOf i).toList := by
  rw [entries_eq, List.getElem?_map, Option.map_eq_some_iff] at h
  obtain ⟨x, hx, hread⟩ := h
  have hchain := hv.mem_chains.1 (List.mem_of_getElem? hx)
  obtain ⟨c, i, rfl⟩ := (List.eq_nil_or_concat' x).resolve_left (ne_nil_of_chainFrom hchain)
  rw [readLine_line, Prod.mk.injEq] at hread
  exact ⟨c, i, hx, hchain, hread.1.symm, hread.2.symm⟩

theorem depths_eq (hv : g.Valid) :
    g.entries.map Prod.fst = g.chains.map fun c => c.length - 1 := by
  rw [entries_eq, List.map_map]
  refine List.map_congr_left fun x hx => ?_
  have hne := ne_nil_of_chainFrom (hv.mem_chains.1 hx)
  obtain ⟨c, i, rfl⟩ := (List.eq_nil_or_concat' x).resolve_left hne
  rw [Function.comp_apply, readLine_line, List.length_append]
  rfl

/-- the line of a node stands below that of the node that its chain comes from -/
theorem parentAt_chains (hv : g.Valid) {p k : Nat} {c : List Nat} {i : Nat} (hne : c ≠ [])
    (hp : g.chains[p]? = some c) (hk : g.chains[k]? = some (c ++ [i])) :
    ParentAt (g.entries.map Prod.fst) p k := by
  rw [depths_eq hv]
  exact parentAt_concat g.chains_sorted hne hp hk

/-- what depends on what is what is drawn below what -/
theorem edgeBetween_iff (hv : g.Valid) {a b : String} :
    g.EdgeBetween a b ↔ DrawnBelow g.entries b a := by
  constructor
  · rintro ⟨i, j, hij, rfl, rfl⟩
    have hj := hv.below i j hij
    obtain ⟨c, hc⟩ := hv.exists_chain (hv.shallow hj) hj
    have hci := hc.concat List.getLast?_concat (mem_dependents.2 hij)
    obtain ⟨p, hp⟩ := exists_getElem?_chains hv hc
    obtain ⟨k, hk⟩ := exists_getElem?_chains hv hci
    have hentry := getElem?_entries hk
    rw [List.length_append, List.length_singleton] at hentry
    exact ⟨p, k, c.length, parentAt_chains hv (by simp) hp hk, getElem?_entries hp, hentry⟩
  · rintro ⟨p, k, d, hparent, hp, hk⟩
    obtain ⟨x, i, hx, hchain, hlen, hb⟩ := exists_of_getElem?_entries hv hk
    have hne : x ≠ [] := by
      rintro rfl
      cases hlen
    -- the chain without its last node is the one whose line stands in front
    obtain ⟨hfront, j, hj, hij⟩ := hchain.dropLast hne
    obtain ⟨q, hq⟩ := exists_getElem?_chains hv hfront
    obtain rfl := hparent.unique (parentAt_chains hv hne hq hx)
    obtain ⟨y, rfl⟩ := List.getLast?_eq_some_iff.1 hj
    have hentry := getElem?_entries hq
    rw [hp, Option.some.injEq, Prod.mk.injEq, String.toList_inj] at hentry
    exact ⟨i, j, mem_dependents.1 hij, (String.toList_inj.1 hb).symm, hentry.2.symm⟩

theorem lt_size_of_chain {c : List Nat} {i : Nat} (hc : g.Chain (c ++ [i])) : i < g.size := by
  cases c with
  | nil => exact (mem_free_iff.1 (chainFrom_cons.1 hc).1).1
  | cons j c =>
    obtain ⟨_, k, _, hik⟩ := hc.dropLast (List.cons_ne_nil j c)
    exact lt_size_of_edge (mem_dependents.1 hik)

end

section
variable {rs : List Resource} {g : Graph} (h : build rs = .ok g)
include h

theorem mem_names_iff {name : String} :
    name ∈ rs.map Resource.name ↔ ∃ k d : Nat, g.entries[k]? = some (d, name.toList) := by
  have hv := valid_of_build h
  constructor
  · intro hname
    obtain ⟨r, hr, rfl⟩ := List.mem_map.1 hname
    obtain ⟨c, i, hc, hi⟩ := exists_chain_of_mem h hr
    obtain ⟨k, hk⟩ := exists_getElem?_chains hv hc
    exact ⟨k, c.length, hi ▸ getElem?_entries hk⟩
  · rintro ⟨k, d, hk⟩
    obtain ⟨c, i, _, hchain, _, hname⟩ := exists_of_getElem?_entries hv hk
    obtain ⟨_, hconnects, _⟩ := build_eq_ok_iff.1 h
    have hn := List.getElem?_eq_getElem (lt_size_of_chain hchain)
    rw [String.toList_inj.1 hname, nameOf_of_getElem? hn]
    exact List.mem_map_of_mem (List.mem_of_getElem? (hconnects.getElem?_resource hn))

end

/-- **Graphs with the same tree have the same names, and the same edges between them.** -/
theorem same_edges_of_tree_eq {rs rs' : List Resource} {g g' : Graph} (h : build rs = .ok g)
    (h' : build rs' = .ok g') (htree : g.tree = g'.tree) :
    (∀ name, name ∈ rs.map Resource.name ↔ name ∈ rs'.map Resource.name) ∧
      ∀ a b, g.EdgeBetween a b ↔ g'.EdgeBetween a b := by
  have hentries : g.entries = g'.entries := by rw [entries, entries, htree]
  constructor
  · intro name
    rw [mem_names_iff h, mem_names_iff h', hentries]
  · intro a b
    rw [edgeBetween_iff (valid_of_build h), edgeBetween_iff (valid_of_build h'), hentries]

/-- two resources with names like parts of a drawing; the one that is required provides another
name -/
def framed : List Resource := [⟨"hud\n└ map", [], "core"⟩, ⟨"│ ├ ", ["core"], "core"⟩]

/-- the resources of `framed` in another order, with the requirement by name -/
def framedByName : List Resource := [⟨"│ ├ ", ["hud\n└ map"], "ui"⟩, ⟨"hud\n└ map", [], "world"⟩]

theorem same_edges_of_tree_eq_framed :
    ∃ g g' : Graph, build framed = .ok g ∧ build framedByName = .ok g' ∧
      g.tree = ["└ hud\n└ map", "  └ │ ├ "] ∧ g.tree = g'.tree ∧
      g.dependencies 1 = [0] ∧ g'.dependencies 0 = [1] ∧
      ∀ a b, g.EdgeBetween a b ↔ g'.EdgeBetween a b :=
  ⟨_, _, rfl, rfl, rfl, rfl, rfl, rfl,
    (same_edges_of_tree_eq (show build framed = .ok _ from rfl)
      (show build framedByName = .ok _ from rfl) rfl).2⟩

end Graph

end ResourceOrder
