import Mathlib.Data.List.Chain
import Mathlib.Data.List.Dedup
import Mathlib.Data.List.Perm.Subperm
import Mathlib.Logic.Relation

/-!
# Edges without a cycle

Vertices are numbers, and `next v` are the vertices to which `v` has an edge.

* `Edge`     the edges as a relation;
* `Acyclic`  no way along the edges leads back to its start;
* `Settled`  a list in which everything that comes next after a vertex stands behind the vertex:
             a proof that no cycle meets the list (`Settled.ne_of_transGen`);
* `Trail`    a simple way along the edges, with its latest vertex first;
* `Shallow`  no way from a vertex has more than so many vertices.

Without a cycle a way cannot be longer than there are vertices (`shallow_of_acyclic`).  This is
what makes a recursion along the edges end, and it is an induction on the number of vertices that
a trail does not use yet.
-/

namespace ResourceOrder

def Edge (next : Nat → List Nat) (a b : Nat) : Prop := b ∈ next a

def Acyclic (next : Nat → List Nat) : Prop := ∀ v, ¬ Relation.TransGen (Edge next) v v

def Settled (next : Nat → List Nat) : List Nat → Prop
  | [] => True
  | v :: l => (∀ w ∈ next v, w ∈ l) ∧ Settled next l

/-- a simple way along the edges among the vertices below `count`, the latest vertex first -/
structure Trail (next : Nat → List Nat) (count : Nat) (path : List Nat) : Prop where
  simple : path.Nodup
  below : ∀ v ∈ path, v < count
  chain : path.IsChain fun a b => Edge next b a

def Shallow (next : Nat → List Nat) : Nat → Nat → Prop
  | 0, _ => False
  | depth + 1, v => ∀ w ∈ next v, Shallow next depth w

section
variable {next : Nat → List Nat}

/-! ## settled lists -/

theorem settled_nil : Settled next [] := trivial

theorem Settled.mem_of_edge {l : List Nat} (h : Settled next l) {a b : Nat} (ha : a ∈ l)
    (hab : Edge next a b) : b ∈ l := by
  induction l with
  | nil => exact absurd ha (by simp)
  | cons v l ih =>
    rcases List.mem_cons.1 ha with rfl | ha'
    · exact List.mem_cons_of_mem _ (h.1 b hab)
    · exact List.mem_cons_of_mem _ (ih h.2 ha')

theorem Settled.mem_of_transGen {l : List Nat} (h : Settled next l) {a b : Nat} (ha : a ∈ l)
    (hab : Relation.TransGen (Edge next) a b) : b ∈ l := by
  induction hab with
  | single hab => exact h.mem_of_edge ha hab
  | tail _ hbc ih => exact h.mem_of_edge ih hbc

/-- no cycle meets a settled list: a way from the head leads behind the head -/
theorem Settled.ne_of_transGen {l : List Nat} (h : Settled next l) {a b : Nat} (ha : a ∈ l)
    (hab : Relation.TransGen (Edge next) a b) : b ≠ a := by
  induction l with
  | nil => exact absurd ha (by simp)
  | cons v l ih =>
    by_cases hl : a ∈ l
    · exact ih h.2 hl
    · have hav : a = v := (List.mem_cons.1 ha).resolve_right hl
      subst hav
      have hb : b ∈ l := by
        rcases Relation.TransGen.head'_iff.1 hab with ⟨c, hac, hcb⟩
        have hc : c ∈ l := h.1 c hac
        rcases Relation.reflTransGen_iff_eq_or_transGen.1 hcb with rfl | hcb
        · exact hc
        · exact h.2.mem_of_transGen hc hcb
      exact fun he => hl (he ▸ hb)

theorem Settled.dedup {l : List Nat} (h : Settled next l) : Settled next l.dedup := by
  induction l with
  | nil => exact trivial
  | cons v l ih =>
    rw [List.dedup_cons]
    split
    · exact ih h.2
    · exact ⟨fun w hw => List.mem_dedup.2 (h.1 w hw), ih h.2⟩

/-! ## trails -/

theorem Trail.single {count v : Nat} (hv : v < count) : Trail next count [v] :=
  ⟨List.nodup_singleton v, fun w hw => by rw [List.mem_singleton.1 hw]; exact hv, by simp⟩

theorem Trail.cons {count v w : Nat} {path : List Nat} (h : Trail next count (v :: path))
    (hvw : Edge next v w) (hw : w < count) (hnew : w ∉ v :: path) :
    Trail next count (w :: v :: path) where
  simple := List.nodup_cons.2 ⟨hnew, h.simple⟩
  below u hu := by
    rcases List.mem_cons.1 hu with rfl | hu
    · exact hw
    · exact h.below u hu
  chain := List.isChain_cons_cons.2 ⟨hvw, h.chain⟩

theorem Trail.length_le {count : Nat} {path : List Nat} (h : Trail next count path) :
    path.length ≤ count := by
  have hsub : path ⊆ List.range count := fun v hv => List.mem_range.2 (h.below v hv)
  have hle := (h.simple.subperm hsub).length_le
  rwa [List.length_range] at hle

/-- a trail leads from each of its vertices to its latest one -/
theorem Trail.reaches {count v : Nat} {path : List Nat} (h : Trail next count (v :: path))
    {u : Nat} (hu : u ∈ v :: path) : Relation.ReflTransGen (Edge next) u v := by
  have hchain : ∀ (l : List Nat) (v : Nat), (v :: l).IsChain (fun a b => Edge next b a) →
      u ∈ v :: l → Relation.ReflTransGen (Edge next) u v := by
    intro l
    induction l with
    | nil =>
      intro v _ hu
      rw [List.mem_singleton.1 hu]
    | cons x l ih =>
      intro v hc hu
      obtain ⟨hxv, hc⟩ := List.isChain_cons_cons.1 hc
      rcases List.mem_cons.1 hu with rfl | hu
      · exact Relation.ReflTransGen.refl
      · exact (ih x hc hu).tail hxv
  exact hchain path v h.chain hu

/-! ## depth -/

theorem shallow_of_trail (hac : Acyclic next) {count : Nat}
    (hbelow : ∀ v w, w ∈ next v → w < count) (depth : Nat) :
    ∀ (path : List Nat) (v : Nat), Trail next count (v :: path) →
      count ≤ depth + path.length → Shallow next depth v := by
  induction depth with
  | zero =>
    intro path v ht hd
    have hle := ht.length_le
    rw [List.length_cons] at hle
    omega
  | succ depth ih =>
    intro path v ht hd w hw
    have hnew : w ∉ v :: path := fun hmem =>
      hac w (Relation.TransGen.tail' (ht.reaches hmem) hw)
    refine ih (v :: path) w (ht.cons hw (hbelow v w hw) hnew) ?_
    rw [List.length_cons]
    omega

theorem shallow_of_acyclic (hac : Acyclic next) {count : Nat}
    (hbelow : ∀ v w, w ∈ next v → w < count) {v : Nat} (hv : v < count) :
    Shallow next count v :=
  shallow_of_trail hac hbelow count [] v (Trail.single hv) (by simp)

/-- a way from a shallow vertex has no more vertices than the depth allows -/
theorem Shallow.length_le {depth v : Nat} (h : Shallow next depth v) {l : List Nat}
    (hl : (v :: l).IsChain (Edge next)) : (v :: l).length ≤ depth := by
  induction l generalizing depth v with
  | nil =>
    cases depth with
    | zero => exact False.elim h
    | succ depth => simp
  | cons w l ih =>
    cases depth with
    | zero => exact False.elim h
    | succ depth =>
      obtain ⟨hvw, hl⟩ := List.isChain_cons_cons.1 hl
      have hle := ih (h w hvw) hl
      rw [List.length_cons]
      omega

end

end ResourceOrder
