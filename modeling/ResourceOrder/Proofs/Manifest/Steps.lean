import ResourceOrder.Proofs.Manifest.Cursor
import ResourceOrder.Proofs.Manifest.Reading

/-!
# Steps of a cursor

What is done with a cursor answers as a reader does that is given the lexemes behind the cursor:
both refuse the text for the same reason, or both read the same, and the cursor ends up in front of
the lexemes that the reader leaves.

* `ended`    the row of some lexemes;
* `before`   the cursor in front of the last lexemes of a row;
* `shown`    what stands there;
* `answer`   how the answer of a reader shows at a cursor;
* `Answers`  this is so at one place, and the lexemes that are left are the last ones there, and
             fewer than a given number;
* `Follows`  this is so at each place of a row, and at least one lexeme is read.

It is so for single tokens, and for what is done one after the other if it is so for the parts
(`Answers.bind`).  What is done deeper leaves the depth as it was, and is not done at the limit
(`Answers.nested`, `answers_nested_limit`).
-/

namespace ResourceOrder.Manifest.Cursor

open ResourceOrder.Manifest.Parser (Rest Reader Inner next inner nestingLimit
  length_tail_of_next)

/-- the row of these lexemes, with the end of the text behind them -/
def ended (ts : List Lexeme) (stop : Span) : Stream :=
  ts.map (fun t => (some t.token, t.span)) ++ [(none, stop)]

/-- the cursor in front of the last lexemes, which are left -/
def before (ts : Rest) (depth : Nat) (s : Rest) : Cursor := ⟨ts.length - s.length, depth⟩

/-- what stands at the cursor in front of these lexemes -/
def shown (stop : Span) : Rest → Option Token × Span
  | [] => (none, stop)
  | t :: _ => (some t.token, t.span)

/-- how a reader's answer shows at a cursor -/
def answer {α : Type} (ts : Rest) (depth : Nat) :
    Parser.Outcome (α × Rest) → Except Halt (α × Cursor)
  | .ok (a, rest) => .ok (a, before ts depth rest)
  | .error r => .error (.refused r)

/-- in front of the lexemes `s` this answers as a reader does that is given `s` and gives `y`; fewer
than `n` lexemes are left -/
structure Answers {α : Type} (ts : Rest) (depth : Nat) (s : Rest) (n : Nat) (walk : Walk α)
    (y : Parser.Outcome (α × Rest)) : Prop where
  run : walk (before ts depth s) = answer ts depth y
  ends : ∀ a rest, y = .ok (a, rest) → rest <:+ s ∧ rest.length < n

/-- at each place of the row this answers as the reader does, and goes on -/
def Follows {α : Type} (ts : Rest) (depth : Nat) (walk : Walk α) (read : Reader α) : Prop :=
  ∀ s, s <:+ ts → Answers ts depth s s.length walk (read s)

section
variable {α β : Type} {ts s rest : Rest} {stop : Span} {depth n k : Nat}

theorem Answers.mono {walk : Walk α} {y : Parser.Outcome (α × Rest)}
    (h : Answers ts depth s n walk y) (hn : n ≤ k) : Answers ts depth s k walk y :=
  ⟨h.run, fun a rest hy => ⟨(h.ends a rest hy).1, Nat.lt_of_lt_of_le (h.ends a rest hy).2 hn⟩⟩

theorem Answers.of_ok {walk : Walk α} {a : α}
    (hrun : walk (before ts depth s) = .ok (a, before ts depth rest)) (hrest : rest <:+ s)
    (hlt : rest.length < n) : Answers ts depth s n walk (.ok (a, rest)) := by
  refine ⟨hrun, fun _ _ hy => ?_⟩
  cases hy
  exact ⟨hrest, hlt⟩

theorem Answers.of_error {walk : Walk α} {r : Parser.Refusal}
    (hrun : walk (before ts depth s) = .error (.refused r)) :
    Answers ts depth s n walk (.error r) :=
  ⟨hrun, fun _ _ hy => nomatch hy⟩

theorem answers_pure (a : α) (hn : s.length < n) :
    Answers ts depth s n (pure a) (.ok (a, s)) :=
  .of_ok rfl (List.suffix_refl s) hn

/-! ## one after the other -/

theorem Answers.step {x : Walk α} {a : α} {f : α → Walk β} {y : Parser.Outcome (β × Rest)}
    (hx : Answers ts depth s k x (.ok (a, rest))) (hf : Answers ts depth rest n (f a) y) :
    Answers ts depth s n (x >>= f) y := by
  refine ⟨?_, fun b rest' hy => ?_⟩
  · show (x (before ts depth s) >>= fun found => f found.1 found.2) = _
    rw [hx.run]
    exact hf.run
  · obtain ⟨hrest', hlt⟩ := hf.ends b rest' hy
    exact ⟨hrest'.trans (hx.ends a rest rfl).1, hlt⟩

theorem Answers.bind {x : Walk α} {y : Parser.Outcome (α × Rest)} {f : α → Walk β}
    {g : α × Rest → Parser.Outcome (β × Rest)} (hx : Answers ts depth s k x y)
    (hf : ∀ a rest, rest <:+ s → rest.length < k → Answers ts depth rest n (f a) (g (a, rest))) :
    Answers ts depth s n (x >>= f) (y >>= g) := by
  cases y with
  | error r =>
    refine .of_error ?_
    show (x (before ts depth s) >>= fun found => f found.1 found.2) = _
    rw [hx.run]
    rfl
  | ok found =>
    obtain ⟨a, rest⟩ := found
    obtain ⟨hrest, hlt⟩ := hx.ends a rest rfl
    exact hx.step (hf a rest hrest hlt)

/-- behind a reader that gives back nothing but what is left -/
theorem Answers.seq {x : Walk Unit} {y : Parser.Outcome Rest} {f : Unit → Walk β}
    {g : Rest → Parser.Outcome (β × Rest)} (hx : Answers ts depth s k x (Prod.mk () <$> y))
    (hf : ∀ rest, rest <:+ s → rest.length < k → Answers ts depth rest n (f ()) (g rest)) :
    Answers ts depth s n (x >>= f) (y >>= g) := by
  have hbind := hx.bind (g := fun found => g found.2) fun _ rest hrest hlt => hf rest hrest hlt
  cases y <;> exact hbind

/-! ## single tokens -/

theorem shown_fst (stop : Span) (s : Rest) : (shown stop s).1 = next s := by
  cases s <;> rfl

theorem getElem?_ended (hs : s <:+ ts) :
    (ended ts stop)[ts.length - s.length]? = some (shown stop s) := by
  obtain ⟨front, rfl⟩ := hs
  rw [ended, List.map_append, List.append_assoc, List.length_append, Nat.add_sub_cancel,
    List.getElem?_append_right (Nat.le_of_eq (List.length_map _)), List.length_map, Nat.sub_self]
  cases s <;> rfl

theorem length_ended (ts : List Lexeme) (stop : Span) : (ended ts stop).length = ts.length + 1 := by
  rw [ended, List.length_append, List.length_map]
  rfl

section
variable (hs : s <:+ ts)
include hs

theorem run_entry : entry (ended ts stop) (ts.length - s.length) = pure (shown stop s) := by
  unfold entry
  rw [getElem?_ended hs]

theorem answers_current :
    Answers ts depth s (s.length + 1) (current (ended ts stop)) (.ok (shown stop s, s)) := by
  refine .of_ok ?_ (List.suffix_refl s) (Nat.lt_succ_self _)
  show entry (ended ts stop) (ts.length - s.length) (before ts depth s) = _
  rw [run_entry hs]
  rfl

theorem answers_token :
    Answers ts depth s (s.length + 1) (token (ended ts stop)) (.ok (next s, s)) := by
  rw [← shown_fst stop s]
  exact (answers_current hs).step (answers_pure _ (Nat.lt_succ_self _))

/-- with no lexeme left, the cursor stays where it is -/
theorem answers_advance :
    Answers ts depth s (s.length + 1) (advance (ended ts stop)) (.ok ((), s.tail)) := by
  refine (answers_current hs).step (.of_ok ?_ (List.tail_suffix s) ?_)
  · have hle := hs.length_le
    show Except.ok ((), if ts.length - s.length < (ended ts stop).length - 1 then _ else _) =
      Except.ok ((), before ts depth s.tail)
    rw [length_ended, Nat.add_sub_cancel]
    cases s with
    | nil => rw [if_neg (by rw [List.length_nil]; omega)]; rfl
    | cons t s =>
      rw [List.length_cons] at hle
      have hpos : ts.length - (s.length + 1) + 1 = ts.length - s.length := by omega
      rw [if_pos (by rw [List.length_cons]; omega)]
      show Except.ok ((), Cursor.mk (ts.length - (s.length + 1) + 1) depth) = _
      rw [hpos]
      rfl
  · exact Nat.lt_succ_of_le (List.tail_suffix s).length_le

theorem answers_peek {t : Token} (hn : next s = some t) :
    Answers ts depth s (s.length + 1) (peek (ended ts stop)) (.ok (some (next s.tail), s)) := by
  refine .of_ok ?_ (List.suffix_refl s) (Nat.lt_succ_self _)
  have hlen := length_tail_of_next hn
  have hle := hs.length_le
  have hpos : ts.length - s.length + 1 = ts.length - s.tail.length := by omega
  show Except.ok ((ended ts stop)[ts.length - s.length + 1]?.map Prod.fst, _) = _
  rw [hpos, getElem?_ended ((List.tail_suffix s).trans hs), Option.map_some, shown_fst]

theorem answers_refuse (c : Complaint) :
    Answers ts depth s n (refuse (α := α) (ended ts stop) c) (Parser.refuse c s) := by
  refine (answers_current hs).step (.of_error ?_)
  cases s <;> rfl

theorem answers_unexpected (what : Expectation) :
    Answers ts depth s n (unexpected (α := α) (ended ts stop) what) (Parser.missing what s) :=
  (answers_token hs).step (answers_refuse hs _)

theorem answers_eat_of_eq {m : Mark} (hn : next s = some (.mark m)) :
    Answers ts depth s (s.length + 1) (eat (ended ts stop) m) (.ok (true, s.tail)) := by
  refine (answers_token hs).step ?_
  rw [if_pos hn]
  exact (answers_advance hs).step
    (answers_pure true (Nat.lt_succ_of_le (List.tail_suffix s).length_le))

theorem answers_eat_of_ne {m : Mark} (hn : next s ≠ some (.mark m)) :
    Answers ts depth s (s.length + 1) (eat (ended ts stop) m) (.ok (false, s)) := by
  refine (answers_token hs).step ?_
  rw [if_neg hn]
  exact answers_pure false (Nat.lt_succ_self _)

theorem Answers.eat {m : Mark} {x z : Walk α} {y : Parser.Outcome (α × Rest)}
    (hpos : next s = some (.mark m) → Answers ts depth s.tail n x y)
    (hneg : next s ≠ some (.mark m) → Answers ts depth s n z y) :
    Answers ts depth s n
      (Cursor.eat (ended ts stop) m >>= fun eaten => if eaten = true then x else z) y := by
  by_cases hn : next s = some (.mark m)
  · exact (answers_eat_of_eq hs hn).step (hpos hn)
  · exact (answers_eat_of_ne hs hn).step (hneg hn)

theorem answers_expect (m : Mark) :
    Answers ts depth s s.length (expect (ended ts stop) m)
      (Prod.mk () <$> Parser.expect m s) := by
  unfold Parser.expect
  refine Answers.eat hs (fun hn => ?_) fun hn => ?_
  · have hlen := length_tail_of_next hn
    rw [if_pos hn]
    exact answers_pure () (by omega)
  · rw [if_neg hn]
    exact answers_unexpected hs _

end

theorem follows_name : Follows ts depth (name (ended ts stop)) Parser.name := by
  intro s hs
  refine (answers_token hs).step ?_
  unfold Parser.name
  cases hn : next s with
  | none => exact answers_unexpected hs _
  | some t =>
    have hlen := length_tail_of_next hn
    cases t with
    | name text => exact (answers_advance hs).step (answers_pure text (by omega))
    | _ => exact answers_unexpected hs _

/-! ## depth -/

theorem run_nested (stream : Stream) (x : Walk α) (c : Cursor) :
    Cursor.nested stream x c = (do
      let (_, c) ← enter stream c
      let (a, c) ← x c
      let (_, c) ← leave c
      .ok (a, c)) := rfl

theorem Answers.nested {x : Walk α} {y : Parser.Outcome (α × Rest)} (hd : depth < nestingLimit)
    (h : Answers ts (depth + 1) s n x y) :
    Answers ts depth s n (Cursor.nested (ended ts stop) x) y := by
  have henter : enter (ended ts stop) (before ts depth s) = .ok ((), before ts (depth + 1) s) := by
    show (if nestingLimit + 1 < depth + 1 then crash Crash.depth
      else if nestingLimit < depth + 1 then refuse (ended ts stop) .nestedTooDeep
      else (return () : Walk Unit)) (before ts (depth + 1) s) = _
    rw [if_neg (by omega), if_neg (by omega)]
    rfl
  refine ⟨?_, h.ends⟩
  rw [run_nested, henter]
  show (x (before ts (depth + 1) s) >>= _) = _
  rw [h.run]
  cases y <;> rfl

theorem answers_nested_limit (hs : s <:+ ts) (x : Walk α) :
    Answers ts nestingLimit s n (Cursor.nested (ended ts stop) x)
      (Parser.refuse .nestedTooDeep s) := by
  have hrefuse : Answers ts (nestingLimit + 1) s n
      (refuse (α := Unit) (ended ts stop) .nestedTooDeep) (Parser.refuse .nestedTooDeep s) :=
    answers_refuse hs _
  have henter : enter (ended ts stop) (before ts nestingLimit s) =
      .error (.refused ⟨.nestedTooDeep, s.head?⟩) := hrefuse.run
  refine .of_error ?_
  rw [run_nested, henter]
  rfl

end

end ResourceOrder.Manifest.Cursor
