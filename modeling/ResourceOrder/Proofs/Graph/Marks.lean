import ResourceOrder.Graph.Cycle
import ResourceOrder.Proofs.Graph.Search

/-!
# The search with marks

The search for a cycle may keep a mark for each vertex instead of two lists, and a stack on which
it looks for the vertex that closes a cycle.

* `Marking`        the marks, and the stack with its earliest vertex first;
* `closing`        the cycle that an edge from the top of the stack to a vertex closes; if the
                   vertex were not on the stack, the cycle would begin at the place `fallback`;
* `searchMarked`   the search below a vertex, and `findMarked?` the one below every vertex;
* `Marking.Shows`  the marks and the stack show a path and the vertices that have been left.

**The search with marks finds the same cycle, whatever the fallback is** (`findMarked?_eq`): a
vertex that is marked as being searched is always on the stack.
-/

namespace ResourceOrder

/-! ## marks -/

inductive Mark where
  | unvisited
  | inProgress
  | done
deriving DecidableEq

structure Marking where
  mark : Nat → Mark
  /-- the vertices that have been entered and not left, the earliest first -/
  stack : List Nat

namespace Marking

def start : Marking := ⟨fun _ => .unvisited, []⟩

def enter (m : Marking) (v : Nat) : Marking :=
  ⟨Function.update m.mark v .inProgress, m.stack ++ [v]⟩

def leave (m : Marking) (v : Nat) : Marking :=
  ⟨Function.update m.mark v .done, m.stack.dropLast⟩

/-- the marking of a search along `path`, which has its latest vertex first, that has left the
vertices `done` -/
structure Shows (m : Marking) (path done : List Nat) : Prop where
  stack : m.stack = path.reverse
  simple : path.Nodup
  inProgress : ∀ v, m.mark v = .inProgress ↔ v ∈ path
  done : ∀ v, m.mark v = .done ↔ v ∈ done

end Marking

/-- the stack from the vertex `w` on, and `w` again -/
def closing (fallback w : Nat) (stack : List Nat) : List Nat :=
  stack.drop ((stack.idxOf? w).getD fallback) ++ [w]

/-! ## the search -/

def searchMarked (next : Nat → List Nat) (fallback : Nat) :
    Nat → Marking → Nat → Except (List Nat) Marking
  | 0, m, _ => .ok m
  | depth + 1, m, v => do
    let m ← (next v).foldlM (fun m w =>
      match m.mark w with
      | .unvisited => searchMarked next fallback depth m w
      | .inProgress => .error (closing fallback w m.stack)
      | .done => .ok m) (m.enter v)
    return m.leave v

def searchAllMarked (next : Nat → List Nat) (fallback count : Nat) :
    Except (List Nat) Marking :=
  (List.range count).foldlM (fun m v =>
    if m.mark v = .unvisited then searchMarked next fallback count m v else .ok m) .start

/-- the first cycle that the search with marks meets -/
def findMarked? (next : Nat → List Nat) (fallback count : Nat) : Option (List Nat) :=
  match searchAllMarked next fallback count with
  | .ok _ => none
  | .error cycle => some cycle

/-- what the two searches give: the same cycle, or marks that show what has been left -/
inductive Parallel (path : List Nat) :
    Except (List Nat) (List Nat) → Except (List Nat) Marking → Prop
  | found (cycle) : Parallel path (.error cycle) (.error cycle)
  | left {done m} : m.Shows path done → Parallel path (.ok done) (.ok m)

namespace Marking
variable {m : Marking} {path done : List Nat} {v w : Nat}

theorem shows_start : start.Shows [] [] where
  stack := rfl
  simple := List.nodup_nil
  inProgress _ := iff_of_false nofun List.not_mem_nil
  done _ := iff_of_false nofun List.not_mem_nil

theorem Shows.unvisited_iff (h : m.Shows path done) :
    m.mark v = .unvisited ↔ v ∉ path ∧ v ∉ done := by
  rw [← h.inProgress, ← h.done]
  cases m.mark v <;> simp

theorem Shows.enter (h : m.Shows path done) (hv : m.mark v = .unvisited) :
    (m.enter v).Shows (v :: path) done := by
  obtain ⟨hpath, hdone⟩ := h.unvisited_iff.1 hv
  refine ⟨?_, List.nodup_cons.2 ⟨hpath, h.simple⟩, fun u => ?_, fun u => ?_⟩
  · rw [List.reverse_cons, ← h.stack]
    rfl
  · show Function.update m.mark v .inProgress u = _ ↔ _
    by_cases hu : u = v
    · subst hu
      rw [Function.update_self]
      exact iff_of_true rfl (List.mem_cons_self ..)
    · rw [Function.update_of_ne hu, h.inProgress, List.mem_cons]
      exact (or_iff_right hu).symm
  · show Function.update m.mark v .inProgress u = _ ↔ _
    by_cases hu : u = v
    · subst hu
      rw [Function.update_self]
      exact iff_of_false nofun hdone
    · rw [Function.update_of_ne hu, h.done]

theorem Shows.leave (h : m.Shows (v :: path) done) : (m.leave v).Shows path (v :: done) := by
  obtain ⟨hpath, hsimple⟩ := List.nodup_cons.1 h.simple
  refine ⟨?_, hsimple, fun u => ?_, fun u => ?_⟩
  · show m.stack.dropLast = _
    rw [h.stack, List.reverse_cons, List.dropLast_concat]
  · show Function.update m.mark v .done u = _ ↔ _
    by_cases hu : u = v
    · subst hu
      rw [Function.update_self]
      exact iff_of_false nofun hpath
    · rw [Function.update_of_ne hu, h.inProgress, List.mem_cons]
      exact or_iff_right hu
  · show Function.update m.mark v .done u = _ ↔ _
    by_cases hu : u = v
    · subst hu
      rw [Function.update_self]
      exact iff_of_true rfl (List.mem_cons_self ..)
    · rw [Function.update_of_ne hu, h.done, List.mem_cons]
      exact (or_iff_right hu).symm

/-- a vertex that is being searched is on the stack, so the fallback does not count -/
theorem Shows.closing_eq (h : m.Shows path done) (hw : m.mark w = .inProgress) (fallback : Nat) :
    closing fallback w m.stack = cycleAt w path := by
  obtain ⟨front, back, rfl⟩ := List.append_of_mem ((h.inProgress w).1 hw)
  have hsimple := h.simple
  have hfront : w ∉ front := fun hm =>
    (List.nodup_append.1 hsimple).2.2 w hm w (List.mem_cons_self ..) rfl
  have hback : w ∉ back := (List.nodup_cons.1 (List.nodup_append.1 hsimple).2.1).1
  have hstack : m.stack = back.reverse ++ w :: front.reverse := by
    rw [h.stack]
    simp
  have hplace : m.stack.idxOf? w = some back.length := by
    rw [hstack]
    refine List.findIdx?_eq_some_iff_getElem.2 ⟨by simp, by simp, fun k hk => ?_⟩
    have hk' : k < back.reverse.length := by rwa [List.length_reverse]
    rw [List.getElem_append_left hk', Bool.not_eq_true, beq_eq_false_iff_ne]
    exact fun he => hback (List.mem_reverse.1 (he ▸ List.getElem_mem hk'))
  rw [closing, hplace, hstack, Option.getD_some, cycleAt, takeWhile_ne_of_notMem hfront,
    List.drop_left' (List.length_reverse ..)]
  rfl

end Marking

section
variable {next : Nat → List Nat}

theorem parallel_foldlM {path : List Nat} {f : List Nat → Nat → Except (List Nat) (List Nat)}
    {f' : Marking → Nat → Except (List Nat) Marking}
    (hf : ∀ w done m, m.Shows path done → Parallel path (f done w) (f' m w)) (ws : List Nat) :
    ∀ done m, m.Shows path done → Parallel path (ws.foldlM f done) (ws.foldlM f' m) := by
  induction ws with
  | nil => exact fun _ _ h => .left h
  | cons w ws ih =>
    intro done m h
    have hw := hf w done m h
    rw [List.foldlM_cons, List.foldlM_cons]
    generalize f done w = r at hw ⊢
    generalize f' m w = r' at hw ⊢
    cases hw with
    | found cycle => exact .found cycle
    | left h => exact ih _ _ h

theorem Parallel.leave {v : Nat} {path : List Nat} {r : Except (List Nat) (List Nat)}
    {r' : Except (List Nat) Marking} (h : Parallel (v :: path) r r') :
    Parallel path (r.map (v :: ·)) (r'.map (Marking.leave · v)) := by
  cases h with
  | found cycle => exact .found cycle
  | left h => exact .left h.leave

/-- the searches below a vertex that neither of them has entered yet -/
theorem parallel_search (fallback depth : Nat) : ∀ (path done : List Nat) (m : Marking) (v : Nat),
    m.Shows path done → m.mark v = .unvisited →
      Parallel path (search next depth path done v) (searchMarked next fallback depth m v) := by
  induction depth with
  | zero => exact fun _ _ _ _ h _ => .left h
  | succ depth ih =>
    intro path done m v h hv
    rw [search_succ]
    refine Parallel.leave (parallel_foldlM (fun w done m h => ?_) (next v) done _ (h.enter hv))
    unfold proceed
    cases hw : m.mark w with
    | unvisited =>
      obtain ⟨hpath, hdone⟩ := h.unvisited_iff.1 hw
      rw [if_neg hpath, if_neg hdone]
      exact ih (v :: path) done m w h hw
    | inProgress =>
      rw [if_pos ((h.inProgress w).1 hw)]
      show Parallel _ _ (.error (closing fallback w m.stack))
      rw [h.closing_eq hw]
      exact .found _
    | done =>
      have hdone := (h.done w).1 hw
      have hpath : w ∉ v :: path := fun hp => by
        rw [(h.inProgress w).2 hp] at hw
        cases hw
      rw [if_neg hpath, if_pos hdone]
      exact .left h

theorem parallel_searchAll (fallback count : Nat) :
    Parallel [] (searchAll next count) (searchAllMarked next fallback count) := by
  rw [searchAll_eq]
  refine parallel_foldlM (fun v done m h => ?_) _ [] .start Marking.shows_start
  unfold searchFrom
  by_cases hv : m.mark v = .unvisited
  · rw [if_pos hv, if_neg (h.unvisited_iff.1 hv).2]
    exact parallel_search fallback count [] done m v h hv
  · have hdone : v ∈ done := by
      by_contra hdone
      exact hv (h.unvisited_iff.2 ⟨List.not_mem_nil, hdone⟩)
    rw [if_neg hv, if_pos hdone]
    exact .left h

/-- **The search with marks finds the cycle that the search with lists finds.** -/
theorem findMarked?_eq (next : Nat → List Nat) (fallback count : Nat) :
    findMarked? next fallback count = findCycle? next count := by
  have h : Parallel [] (searchAll next count) (searchAllMarked next fallback count) :=
    parallel_searchAll fallback count
  unfold findMarked? findCycle?
  generalize searchAll next count = r at h ⊢
  generalize searchAllMarked next fallback count = r' at h ⊢
  cases h with
  | found cycle => rfl
  | left h => rfl

end

end ResourceOrder
