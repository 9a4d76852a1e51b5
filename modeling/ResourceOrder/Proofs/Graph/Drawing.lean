import Mathlib.Data.List.Flatten
import ResourceOrder.Graph.Tree
import ResourceOrder.Proofs.Graph.Placement

/-!
# What a drawing shows

* `Graph.Chain`       nodes of which the first depends on nothing, and each further one on the one
                      in front of it; `Graph.ChainFrom` the same for those that begin in a given
                      list of siblings;
* `Graph.siblings`    the nodes among which a node of a chain stands;
* `Graph.line`        the line of the node that a chain ends with: an indent for every node in
                      front of it, a connector and its name;
* `Graph.chainsFrom`  those of up to so many nodes that begin in the list, in order;
* `Graph.chains`      all chains, in order.

Lists of numbers are ordered by their first difference, and a list stands in front of those that
it begins.  For chains this is the order in which one goes down a tree: a node, then everything
below it, then its next sibling.  **The lines of a tree are those of all chains in this order, and
every resource has a line** (`Graph.tree_eq_map_line`).

The drawing keeps no list of the nodes that it has drawn.  That it ends is the absence of cycles:
a chain is a way along the edges, so it has no more nodes than the graph (`Graph.Valid.length_le`).
-/

namespace ResourceOrder

namespace Graph

/-! ## chains -/

/-- a way along what depends on what that begins in `level` -/
structure ChainFrom (g : Graph) (level c : List Nat) : Prop where
  root : ∃ i ∈ level, c.head? = some i
  linked : c.IsChain (Edge g.dependents)

/-- the first node depends on nothing, each further one on the one in front of it -/
def Chain (g : Graph) (c : List Nat) : Prop := g.ChainFrom g.free c

/-- the chains of at most `depth` nodes that begin in `level`, each followed by those that go on
from it -/
def chainsFrom (g : Graph) : Nat → List Nat → List (List Nat)
  | 0, _ => []
  | depth + 1, level =>
    level.flatMap fun i => [i] :: (g.chainsFrom depth (g.dependents i)).map (i :: ·)

/-! ## lines -/

/-- the siblings of the node at place `k` of a chain that begins in `level` -/
def siblings (g : Graph) (level nodes : List Nat) : Nat → List Nat
  | 0 => level
  | k + 1 => (nodes[k]?).elim [] g.dependents

/-- whether the node at place `k` of the chain is the last one of its siblings -/
def isLastAt (g : Graph) (level nodes : List Nat) (k : Nat) : Bool :=
  (g.siblings level nodes k).getLast? == nodes[k]?

/-- the line of the last node of a chain that begins in `level` -/
def line (g : Graph) (level nodes : List Nat) : String :=
  let k := nodes.length - 1
  String.join ((List.range k).map fun i => indentBelow (g.isLastAt level nodes i)) ++
    connector (g.isLastAt level nodes k) ++ " " ++ (nodes[k]?).elim "" g.nameOf

section
variable {g : Graph} {level : List Nat} {i : Nat} {c : List Nat}

theorem ne_nil_of_chainFrom (h : g.ChainFrom level c) : c ≠ [] := by
  rintro rfl
  obtain ⟨i, _, hi⟩ := h.root
  cases hi

theorem chainFrom_cons :
    g.ChainFrom level (i :: c) ↔ i ∈ level ∧ (c = [] ∨ g.ChainFrom (g.dependents i) c) := by
  constructor
  · intro h
    obtain ⟨k, hk, hhead⟩ := h.root
    obtain rfl : i = k := Option.some.inj hhead
    refine ⟨hk, ?_⟩
    cases c with
    | nil => exact .inl rfl
    | cons j c =>
      obtain ⟨hij, hc⟩ := List.isChain_cons_cons.1 h.linked
      exact .inr ⟨⟨j, hij, rfl⟩, hc⟩
  · intro h
    obtain ⟨hi, rfl | hc⟩ := h
    · exact ⟨⟨i, hi, rfl⟩, .singleton i⟩
    · obtain ⟨⟨j, hij, hj⟩, hlinked⟩ := hc
      obtain ⟨c, rfl⟩ := List.head?_eq_some_iff.1 hj
      exact ⟨⟨i, hi, rfl⟩, List.isChain_cons_cons.2 ⟨hij, hlinked⟩⟩

/-- a chain goes on to what depends on its last node -/
theorem ChainFrom.concat (h : g.ChainFrom level c) {j : Nat} (hj : c.getLast? = some j)
    (hij : i ∈ g.dependents j) : g.ChainFrom level (c ++ [i]) := by
  obtain ⟨k, hk, hhead⟩ := h.root
  refine ⟨⟨k, hk, ?_⟩, h.linked.append (.singleton i) ?_⟩
  · rw [List.head?_append, hhead, Option.some_or]
  · intro x hx y hy
    obtain rfl := Option.some.inj (hj.symm.trans hx)
    obtain rfl := Option.some.inj hy
    exact hij

theorem mem_chainsFrom {depth : Nat} :
    c ∈ g.chainsFrom depth level ↔ g.ChainFrom level c ∧ c.length ≤ depth := by
  induction depth generalizing level c with
  | zero =>
    refine iff_of_false (by simp [chainsFrom]) fun h => ne_nil_of_chainFrom h.1 ?_
    exact List.length_eq_zero_iff.1 (Nat.le_zero.1 h.2)
  | succ depth ih =>
    rw [chainsFrom, List.mem_flatMap]
    constructor
    · intro h
      obtain ⟨i, hi, h⟩ := h
      rcases List.mem_cons.1 h with rfl | h
      · exact ⟨chainFrom_cons.2 ⟨hi, .inl rfl⟩, by simp⟩
      · obtain ⟨c, hc, rfl⟩ := List.mem_map.1 h
        obtain ⟨hc, hlen⟩ := ih.1 hc
        exact ⟨chainFrom_cons.2 ⟨hi, .inr hc⟩, Nat.succ_le_succ hlen⟩
    · intro h
      obtain ⟨hc, hlen⟩ := h
      obtain ⟨i, c, rfl⟩ := List.exists_cons_of_ne_nil (ne_nil_of_chainFrom hc)
      obtain ⟨hi, hc⟩ := chainFrom_cons.1 hc
      refine ⟨i, hi, ?_⟩
      rcases hc with rfl | hc
      · exact List.mem_cons_self ..
      · refine List.mem_cons_of_mem _ (List.mem_map_of_mem (ih.2 ⟨hc, ?_⟩))
        exact Nat.le_of_succ_le_succ hlen

/-- each chain stands in front of those that go on from it, and these in front of the chains of
the next sibling -/
theorem chainsFrom_sorted {depth : Nat} (h : level.Pairwise (· < ·)) :
    (g.chainsFrom depth level).Pairwise (· < ·) := by
  induction depth generalizing level with
  | zero => exact List.Pairwise.nil
  | succ depth ih =>
    rw [chainsFrom, List.pairwise_flatMap]
    constructor
    · intro i _
      rw [List.pairwise_cons, List.pairwise_map]
      constructor
      · intro x hx
        obtain ⟨c, hc, rfl⟩ := List.mem_map.1 hx
        have hne := ne_nil_of_chainFrom (mem_chainsFrom.1 hc).1
        obtain ⟨j, c, rfl⟩ := List.exists_cons_of_ne_nil hne
        exact List.cons_lt_cons_iff.2 (.inr ⟨rfl, List.nil_lt_cons j c⟩)
      · refine (ih positions_sorted).imp fun {a b} hab => ?_
        exact List.cons_lt_cons_iff.2 (.inr ⟨rfl, hab⟩)
    · refine h.imp fun {i j} hij x hx y hy => ?_
      have hhead : ∀ k, ∀ z ∈ [k] :: (g.chainsFrom depth (g.dependents k)).map (k :: ·),
          ∃ c, z = k :: c := by
        intro k z hz
        rcases List.mem_cons.1 hz with rfl | hz
        · exact ⟨[], rfl⟩
        · obtain ⟨c, _, rfl⟩ := List.mem_map.1 hz
          exact ⟨c, rfl⟩
      obtain ⟨a, rfl⟩ := hhead i x hx
      obtain ⟨b, rfl⟩ := hhead j y hy
      exact List.cons_lt_cons_iff.2 (.inl hij)

/-! ## drawing chains -/

theorem line_singleton :
    g.line level [i] = connector (level.getLast? == some i) ++ " " ++ g.nameOf i := by
  show "" ++ connector (level.getLast? == some i) ++ " " ++ g.nameOf i = _
  rw [String.empty_append]

theorem isLastAt_succ (k : Nat) :
    g.isLastAt level (i :: c) (k + 1) = g.isLastAt (g.dependents i) c k := by
  cases k <;> rfl

theorem line_cons (hc : c ≠ []) :
    g.line level (i :: c) =
      indentBelow (level.getLast? == some i) ++ g.line (g.dependents i) c := by
  obtain ⟨j, c, rfl⟩ := List.exists_cons_of_ne_nil hc
  have hindents : (List.range (c.length + 1)).map
      (fun k => indentBelow (g.isLastAt level (i :: j :: c) k)) =
      indentBelow (level.getLast? == some i) :: (List.range c.length).map
        fun k => indentBelow (g.isLastAt (g.dependents i) (j :: c) k) := by
    rw [List.range_succ_eq_map, List.map_cons, List.map_map]
    refine congrArg (_ :: ·) (List.map_congr_left fun k _ => ?_)
    exact congrArg indentBelow (isLastAt_succ k)
  simp only [line, List.length_cons, Nat.add_sub_cancel, hindents, isLastAt_succ,
    String.join_cons, List.getElem?_cons_succ, String.append_assoc]

/-- siblings are drawn one after the other, each with what is below it -/
theorem drawLevel_eq {nameOf : Nat → String} {below : String → Nat → List String}
    {indent : String} (h : level.Nodup) :
    drawLevel nameOf below indent level = level.flatMap fun i =>
      (indent ++ connector (level.getLast? == some i) ++ " " ++ nameOf i) ::
        below (indent ++ indentBelow (level.getLast? == some i)) i := by
  induction level with
  | nil => rfl
  | cons i rest ih =>
    obtain ⟨hi, hrest⟩ := List.nodup_cons.1 h
    have hlast : ((i :: rest).getLast? == some i) = rest.isEmpty := by
      cases rest with
      | nil => simp
      | cons j rest =>
        rw [List.getLast?_cons_cons, List.isEmpty_cons, beq_eq_false_iff_ne]
        exact fun he => hi (List.mem_of_getLast? he)
    have hothers : ∀ j ∈ rest, (i :: rest).getLast? = rest.getLast? := by
      intro j hj
      obtain ⟨k, ks, rfl⟩ := List.exists_cons_of_ne_nil (List.ne_nil_of_mem hj)
      exact List.getLast?_cons_cons
    rw [drawLevel, List.flatMap_cons, hlast, ih hrest, List.cons_append]
    refine congrArg (fun lines => _ :: (_ ++ lines)) (List.flatMap_congr fun j hj => ?_)
    rw [hothers j hj]

theorem draw_eq {depth : Nat} (h : level.Nodup) (indent : String) :
    g.draw depth indent level =
      (g.chainsFrom depth level).map fun c => indent ++ g.line level c := by
  induction depth generalizing level indent with
  | zero => rfl
  | succ depth ih =>
    rw [draw, drawLevel_eq h, chainsFrom, List.map_flatMap]
    refine List.flatMap_congr fun i _ => ?_
    have hbelow : (g.dependents i).Nodup := positions_nodup
    rw [List.map_cons, List.map_map, line_singleton, ih hbelow]
    simp only [String.append_assoc]
    refine congrArg (_ :: ·) (List.map_congr_left fun c hc => ?_)
    show _ = indent ++ g.line level (i :: c)
    rw [line_cons (ne_nil_of_chainFrom (mem_chainsFrom.1 hc).1)]

end

/-! ## graphs without cycles -/

/-- all chains of a graph without cycles -/
def chains (g : Graph) : List (List Nat) := g.chainsFrom g.size g.free

theorem chains_sorted (g : Graph) : g.chains.Pairwise (· < ·) := chainsFrom_sorted positions_sorted

theorem draw_free (g : Graph) (depth : Nat) :
    g.draw depth "" g.free = (g.chainsFrom depth g.free).map (g.line g.free) := by
  have hfree : g.free.Nodup := positions_nodup
  rw [draw_eq hfree]
  simp only [String.empty_append]

theorem tree_eq (g : Graph) : g.tree = g.chains.map (g.line g.free) := g.draw_free g.size

namespace Valid
variable {g : Graph} (h : g.Valid)
include h

/-- a chain visits no node twice -/
theorem length_le {c : List Nat} (hc : g.Chain c) : c.length ≤ g.size := by
  obtain ⟨i, c, rfl⟩ := List.exists_cons_of_ne_nil (ne_nil_of_chainFrom hc)
  have hi := (mem_free_iff.1 (chainFrom_cons.1 hc).1).1
  exact (h.shallow_dependents hi).length_le hc.linked

theorem mem_chainsFrom_free {depth : Nat} (hd : g.size ≤ depth) {c : List Nat} :
    c ∈ g.chainsFrom depth g.free ↔ g.Chain c := by
  rw [mem_chainsFrom]
  exact and_iff_left_of_imp fun hc => Nat.le_trans (h.length_le hc) hd

theorem mem_chains {c : List Nat} : c ∈ g.chains ↔ g.Chain c :=
  h.mem_chainsFrom_free (Nat.le_refl _)

/-- more depth than there are nodes brings no more chains -/
theorem chainsFrom_free_eq {depth : Nat} (hd : g.size ≤ depth) :
    g.chainsFrom depth g.free = g.chains := by
  have hsorted : (g.chainsFrom depth g.free).Pairwise (· < ·) := chainsFrom_sorted positions_sorted
  refine List.Perm.eq_of_pairwise (fun a b _ _ hab hba => ?_) hsorted g.chains_sorted ?_
  · exact absurd hba (Std.not_gt_of_lt hab)
  · have hnodup : (g.chainsFrom depth g.free).Nodup := hsorted.imp Std.ne_of_lt
    have hnodup' : g.chains.Nodup := g.chains_sorted.imp Std.ne_of_lt
    refine (List.perm_ext_iff_of_nodup hnodup hnodup').2 fun c => ?_
    rw [h.mem_chainsFrom_free hd, h.mem_chains]

/-- every node ends a chain; the induction is on how far one can go on to what it depends on -/
theorem exists_chain {depth i : Nat} (hd : Shallow g.dependencies depth i) (hi : i < g.size) :
    ∃ c, g.Chain (c ++ [i]) := by
  induction depth generalizing i with
  | zero => exact False.elim hd
  | succ depth ih =>
    cases hdep : g.dependencies i with
    | nil =>
      have hfree : i ∈ g.free := mem_free_iff.2 ⟨hi, hdep⟩
      exact ⟨[], chainFrom_cons.2 ⟨hfree, .inl rfl⟩⟩
    | cons j js =>
      have hj : j ∈ g.dependencies i := by simp [hdep]
      obtain ⟨c, hc⟩ := ih (hd j hj) (h.below i j hj)
      exact ⟨c ++ [j], hc.concat List.getLast?_concat (mem_dependents.2 hj)⟩

end Valid

theorem exists_chain_of_mem {rs : List Resource} {g : Graph} (h : build rs = .ok g) {r : Resource}
    (hr : r ∈ rs) : ∃ c i, g.Chain (c ++ [i]) ∧ g.nameOf i = r.name := by
  obtain ⟨_, hconnects, _⟩ := build_eq_ok_iff.1 h
  obtain ⟨i, hi⟩ := List.getElem?_of_mem hr
  obtain ⟨n, hn, rfl⟩ := hconnects.exists_node hi
  have hsize : i < g.size := (List.getElem?_eq_some_iff.1 hn).1
  have hv := valid_of_build h
  obtain ⟨c, hc⟩ := hv.exists_chain (hv.shallow hsize) hsize
  exact ⟨c, i, hc, nameOf_of_getElem? hn⟩

/-- **The lines of a tree are those of all chains, in the order of the chains; more depth draws no
more lines, and every resource has one.** -/
theorem tree_eq_map_line {rs : List Resource} {g : Graph} (h : build rs = .ok g) :
    ∃ cs : List (List Nat),
      (∀ c, c ∈ cs ↔ g.Chain c) ∧ cs.Pairwise (· < ·) ∧ g.tree = cs.map (g.line g.free) ∧
      (∀ depth, g.size ≤ depth → g.draw depth "" g.free = g.tree) ∧
      ∀ r ∈ rs, ∃ c ∈ cs, ∃ i, c.getLast? = some i ∧ g.nameOf i = r.name := by
  have hv := valid_of_build h
  refine ⟨g.chains, fun c => hv.mem_chains, g.chains_sorted, g.tree_eq, fun depth hd => ?_,
    fun r hr => ?_⟩
  · rw [draw_free, hv.chainsFrom_free_eq hd, tree_eq]
  · obtain ⟨c, i, hc, hname⟩ := exists_chain_of_mem h hr
    exact ⟨c ++ [i], hv.mem_chains.2 hc, i, List.getLast?_concat, hname⟩

/-- `hud` and `game` are drawn below each of their dependencies -/
theorem tree_eq_map_line_diamond :
    ∃ g, build diamond = .ok g ∧
      g.tree = ["├ base", "│ ├ ui", "│ │ └ game", "│ └ hud", "│   ├ ui", "│   │ └ game",
        "│   └ game", "└ map", "  └ hud", "    ├ ui", "    │ └ game", "    └ game"] ∧
      ∃ cs : List (List Nat), (∀ c, c ∈ cs ↔ g.Chain c) ∧ g.tree = cs.map (g.line g.free) := by
  refine ⟨_, rfl, rfl, ?_⟩
  obtain ⟨cs, hmem, _, htree, _⟩ := tree_eq_map_line (show build diamond = .ok _ from rfl)
  exact ⟨cs, hmem, htree⟩

end Graph

end ResourceOrder
