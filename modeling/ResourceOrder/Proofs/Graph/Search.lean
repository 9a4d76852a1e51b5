import ResourceOrder.Graph.Cycle
import ResourceOrder.Proofs.Graph.Acyclic

/-!
# The search for a cycle

The depth-first search fails exactly if there is a cycle (`findCycle?_eq_none_iff`), and what it
fails with is one.

* `IsCycle`   a way back to its start on which no other vertex comes twice;
* `Explored`  what a search of some vertices may give: all of them settled, or a cycle.

The vertices that have been left form a settled list, and the vertices being searched a trail.
A trail has no vertex twice, so there is always depth left for one more.
-/

namespace ResourceOrder

/-- a way along the edges back to its start; no vertex comes twice but the start, which is
first and last -/
structure IsCycle (next : Nat → List Nat) (cycle : List Nat) : Prop where
  chain : cycle.IsChain (Edge next)
  closed : ∃ w rest, cycle = w :: (rest ++ [w]) ∧ (w :: rest).Nodup

/-- what a search of the vertices `ws` may give if `done` have been left before -/
def Explored (next : Nat → List Nat) (ws done : List Nat) :
    Except (List Nat) (List Nat) → Prop
  | .ok done' => Settled next done' ∧ (∀ v ∈ done, v ∈ done') ∧ ∀ w ∈ ws, w ∈ done'
  | .error cycle => IsCycle next cycle

section
variable {next : Nat → List Nat}

/-! ## cycles -/

/-- on a way that ends in `w`, one can go on from every vertex in front of `w` -/
theorem exists_edge_of_isChain {l : List Nat} {w : Nat} (h : (l ++ [w]).IsChain (Edge next))
    {v : Nat}
    (hv : v ∈ l) : ∃ u, Edge next v u := by
  induction l with
  | nil => exact absurd hv List.not_mem_nil
  | cons x l ih =>
    rcases List.mem_cons.1 hv with rfl | hv
    · cases l with
      | nil => exact ⟨w, (List.isChain_cons_cons.1 h).1⟩
      | cons y l => exact ⟨y, (List.isChain_cons_cons.1 h).1⟩
    · exact ih h.tail hv

theorem IsCycle.exists_edge {cycle : List Nat} (h : IsCycle next cycle) {v : Nat} (hv : v ∈ cycle) :
    ∃ u, Edge next v u := by
  obtain ⟨w, rest, rfl, _⟩ := h.closed
  refine exists_edge_of_isChain (l := w :: rest) h.chain ?_
  rw [← List.cons_append] at hv
  rcases List.mem_append.1 hv with hv | hv
  · exact hv
  · rw [List.mem_singleton.1 hv]
    exact List.mem_cons_self ..

theorem IsCycle.transGen {cycle : List Nat} (h : IsCycle next cycle) :
    ∃ w ∈ cycle, Relation.TransGen (Edge next) w w := by
  obtain ⟨w, rest, rfl, _⟩ := h.closed
  have hc := h.chain
  refine ⟨w, List.mem_cons_self .., ?_⟩
  cases rest with
  | nil => exact .single (List.isChain_cons_cons.1 hc).1
  | cons x rest =>
    obtain ⟨hwx, hc⟩ := List.isChain_cons_cons.1 hc
    have hxw := List.relationReflTransGen_of_exists_isChain_cons (rest ++ [w]) hc
      (List.getLast_append_singleton (x :: rest))
    exact .head' hwx hxw

theorem IsCycle.not_acyclic {cycle : List Nat} (h : IsCycle next cycle) : ¬ Acyclic next := by
  obtain ⟨w, _, hw⟩ := h.transGen
  exact fun hac => hac w hw

/-- what stands in front of the only `w` of a list -/
theorem takeWhile_ne_of_notMem {w : Nat} {front : List Nat} (h : w ∉ front) (back : List Nat) :
    (front ++ w :: back).takeWhile (· ≠ w) = front := by
  have hne : ∀ a ∈ front, decide (a ≠ w) = true := fun a ha =>
    decide_eq_true fun he => h (he ▸ ha)
  rw [List.takeWhile_append_of_pos hne, List.takeWhile_cons_of_neg (by simp), List.append_nil]

/-- an edge from the latest vertex of a trail back to the trail closes a cycle -/
theorem Trail.isCycle {count v w : Nat} {path : List Nat} (h : Trail next count (v :: path))
    (hvw : Edge next v w) (hw : w ∈ v :: path) : IsCycle next (cycleAt w (v :: path)) := by
  obtain ⟨front, back, hsplit⟩ := List.append_of_mem hw
  have hnd : (front ++ w :: back).Nodup := hsplit ▸ h.simple
  have hfront : w ∉ front := fun hm => (List.nodup_append.1 hnd).2.2 w hm w (by simp) rfl
  have htake : (v :: path).takeWhile (· ≠ w) = front := by
    rw [hsplit, takeWhile_ne_of_notMem hfront]
  have hcycle : cycleAt w (v :: path) = (front ++ [w]).reverse ++ [w] := by
    rw [cycleAt, htake]
    simp
  have hpath : (v :: path) = (front ++ [w]) ++ back := by rw [hsplit]; simp
  refine ⟨?_, w, front.reverse, by rw [hcycle]; simp, ?_⟩
  · rw [hcycle]
    refine List.isChain_append.2 ⟨?_, by simp, ?_⟩
    · have hch := h.chain
      rw [hpath] at hch
      exact List.isChain_reverse.2 (List.isChain_append.1 hch).1
    · intro x hx y hy
      have hxv : x = v := by
        have hhead : (v :: path).head? = (front ++ [w]).head? := by
          rw [hpath, List.head?_append]
          simp
        rw [List.getLast?_reverse, ← hhead] at hx
        exact (Option.mem_some_iff.1 hx).symm
      have hyw : y = w := (Option.mem_some_iff.1 hy).symm
      rw [hxv, hyw]
      exact hvw
  · refine List.nodup_cons.2 ⟨fun hm => hfront (List.mem_reverse.1 hm), ?_⟩
    exact List.nodup_reverse.2 (List.nodup_append.1 hnd).1

/-! ## the search -/

theorem explored_of_mem {done : List Nat} (hd : Settled next done) {w : Nat} (hw : w ∈ done) :
    Explored next [w] done (.ok done) :=
  ⟨hd, fun _ hv => hv, fun u hu => by rw [List.mem_singleton.1 hu]; exact hw⟩

theorem explored_foldlM {f : List Nat → Nat → Except (List Nat) (List Nat)} {ws : List Nat}
    (hf : ∀ w ∈ ws, ∀ done, Settled next done → Explored next [w] done (f done w)) :
    ∀ done, Settled next done → Explored next ws done (ws.foldlM f done) := by
  induction ws with
  | nil => exact fun done hd => ⟨hd, fun _ hv => hv, by simp⟩
  | cons w ws ih =>
    intro done hd
    have hw := hf w (List.mem_cons_self ..) done hd
    rw [List.foldlM_cons]
    cases hr : f done w with
    | error cycle =>
      rw [hr] at hw
      exact hw
    | ok done₁ =>
      rw [hr] at hw
      obtain ⟨hs, hkeep, hnew⟩ := hw
      have hrest := ih (fun u hu => hf u (List.mem_cons_of_mem _ hu)) done₁ hs
      show Explored next (w :: ws) done (ws.foldlM f done₁)
      cases hr' : ws.foldlM f done₁ with
      | error cycle =>
        rw [hr'] at hrest
        exact hrest
      | ok done₂ =>
        rw [hr'] at hrest
        obtain ⟨hs', hkeep', hnew'⟩ := hrest
        refine ⟨hs', fun v hv => hkeep' v (hkeep v hv), fun u hu => ?_⟩
        rcases List.mem_cons.1 hu with rfl | hu
        · exact hkeep' _ (hnew _ (List.mem_singleton_self _))
        · exact hnew' u hu

theorem Explored.leave {v : Nat} {done : List Nat} {r : Except (List Nat) (List Nat)}
    (h : Explored next (next v) done r) : Explored next [v] done (r.map (v :: ·)) := by
  cases r with
  | error cycle => exact h
  | ok done' =>
    obtain ⟨hs, hkeep, hnext⟩ := h
    exact ⟨⟨hnext, hs⟩, fun u hu => List.mem_cons_of_mem _ (hkeep u hu),
      fun u hu => List.mem_singleton.1 hu ▸ List.mem_cons_self ..⟩

/-- how the search goes on to a vertex that has an edge from the latest one of the path -/
def proceed (next : Nat → List Nat) (depth : Nat) (path done : List Nat) (w : Nat) :
    Except (List Nat) (List Nat) :=
  if w ∈ path then .error (cycleAt w path)
  else if w ∈ done then .ok done
  else search next depth path done w

theorem search_succ (depth : Nat) (path done : List Nat) (v : Nat) :
    search next (depth + 1) path done v =
      ((next v).foldlM (proceed next depth (v :: path)) done).map (v :: ·) := rfl

theorem explored_search {count : Nat} (hbelow : ∀ v w, w ∈ next v → w < count) (depth : Nat) :
    ∀ (path done : List Nat) (v : Nat), Trail next count (v :: path) →
      count ≤ depth + path.length → Settled next done →
      Explored next [v] done (search next depth path done v) := by
  induction depth with
  | zero =>
    intro path done v ht hd
    have hle := ht.length_le
    rw [List.length_cons] at hle
    omega
  | succ depth ih =>
    intro path done v ht hd hs
    rw [search_succ]
    refine (explored_foldlM (fun w hw done hs => ?_) done hs).leave
    unfold proceed
    by_cases hback : w ∈ v :: path
    · rw [if_pos hback]
      exact ht.isCycle hw hback
    · rw [if_neg hback]
      by_cases hdone : w ∈ done
      · rw [if_pos hdone]
        exact explored_of_mem hs hdone
      · rw [if_neg hdone]
        refine ih (v :: path) done w (ht.cons hw (hbelow v w hw) hback) ?_ hs
        rw [List.length_cons]
        omega

/-- how the search begins at a vertex from which it has not come yet -/
def searchFrom (next : Nat → List Nat) (count : Nat) (done : List Nat) (v : Nat) :
    Except (List Nat) (List Nat) :=
  if v ∈ done then .ok done else search next count [] done v

theorem searchAll_eq (count : Nat) :
    searchAll next count = (List.range count).foldlM (searchFrom next count) [] := rfl

theorem explored_searchFrom {count : Nat} (hbelow : ∀ v w, w ∈ next v → w < count) {v : Nat}
    (hv : v < count) {done : List Nat} (hs : Settled next done) :
    Explored next [v] done (searchFrom next count done v) := by
  unfold searchFrom
  by_cases hdone : v ∈ done
  · rw [if_pos hdone]
    exact explored_of_mem hs hdone
  · rw [if_neg hdone]
    exact explored_search hbelow count [] done v (Trail.single hv) (by simp) hs

theorem explored_searchAll {count : Nat} (hbelow : ∀ v w, w ∈ next v → w < count) :
    Explored next (List.range count) [] (searchAll next count) := by
  rw [searchAll_eq]
  exact explored_foldlM (fun v hv _ hs => explored_searchFrom hbelow (List.mem_range.1 hv) hs) []
    settled_nil

theorem findCycle?_eq_none_iff {count : Nat} (hbelow : ∀ v w, w ∈ next v → v < count ∧ w < count) :
    findCycle? next count = none ↔ Acyclic next := by
  have hall : Explored next (List.range count) [] (searchAll next count) :=
    explored_searchAll fun v w hw => (hbelow v w hw).2
  rw [findCycle?]
  cases hr : searchAll next count with
  | error cycle =>
    rw [hr] at hall
    simp [hall.not_acyclic]
  | ok done =>
    rw [hr] at hall
    obtain ⟨hs, _, hdone⟩ := hall
    refine iff_of_true rfl fun v hv => ?_
    obtain ⟨w, hvw, _⟩ := Relation.TransGen.head'_iff.1 hv
    exact hs.ne_of_transGen (hdone v (List.mem_range.2 (hbelow v w hvw).1)) hv rfl

theorem isCycle_of_findCycle? {count : Nat} (hbelow : ∀ v w, w ∈ next v → w < count)
    {cycle : List Nat} (h : findCycle? next count = some cycle) : IsCycle next cycle := by
  have hall := explored_searchAll hbelow
  rw [findCycle?] at h
  cases hr : searchAll next count with
  | ok done => simp [hr] at h
  | error cycle' =>
    rw [hr] at h hall
    cases h
    exact hall

end

end ResourceOrder
