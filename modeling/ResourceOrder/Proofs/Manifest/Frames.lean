import ResourceOrder.Proofs.Manifest.Covering
import ResourceOrder.Proofs.Manifest.Parsing
import ResourceOrder.Proofs.Manifest.Walking

/-!
# What a reading with a cursor needs

* `statementIn`  a statement, with the readers of the values and tables in it given;
* `whole`        a statement with its stretch of text;
* `Suffices`     so many calls inside one another are enough for the values and tables at a depth;
* `Proceeds`     from each place of a row a procedure gives the answer of a reader, does not crash
                 the machine, and if it does not refuse the text, it goes on and leaves the depth
                 as it was;
* `frameBound`   a number of calls inside one another that is enough for every text.

Between a value or a table and the next deeper one there are at most five calls, so what is needed
depends on the limit of the depth alone (`suffices_inner`).  **So from each place of a row, and at
each depth up to the limit, the procedures proceed, and a whole text is read, with so many calls
inside one another and as many rounds as there are tokens** (`procedures_proceed`,
`parse_of_tokenize`).
-/

namespace ResourceOrder.Manifest.Cursor

open ResourceOrder.Manifest.Parser (Rest Reader Inner next inner nestingLimit
  length_tail_of_next)

section
variable {α : Type} {ts s : Rest} {stop : Span} {depth rounds m n : Nat} {p : Procedures}
  {i : Inner}

/-! ## statements -/

section
variable (i : Inner)

/-- the variables and values of a declaration of local variables; its first word is read already -/
def localVarsIn (ts : Rest) : Parser.Outcome Rest :=
  match next ts with
  | some (.reserved word) => Parser.refuse (.unsupportedLocal word) ts
  | _ => do
    let (_, ts) ← Parser.items Parser.name ts
    if next ts = some (.mark .equal) then do
      let (_, ts) ← Parser.items i.value ts.tail
      return ts
    else return ts

/-- a call or an assignment -/
def effectIn (start : Rest) : Parser.Outcome (StatementKind × Rest) := do
  let (first, ts) ← Parser.suffixed i start
  if next ts = some (.mark .equal) ∨ next ts = some (.mark .comma) then do
    let (more, ts) ← Parser.moreItems (Parser.suffixed i) ts.length ts
    if (first :: more).all Parser.Suffixed.assignable then do
      let ts ← Parser.expect .equal ts
      let (_, ts) ← Parser.items i.value ts
      return (.other, ts)
    else Parser.refuse .unassignable start
  else if first.ending = .call then return (first.kind, ts)
  else Parser.refuse .withoutEffect start

/-- a statement, with the readers of the values and tables in it given -/
def statementIn (ts : Rest) : Parser.Outcome (StatementKind × Rest) :=
  match next ts with
  | some (.keyword .localVar) => do
    let ts ← localVarsIn i ts.tail
    return (.other, ts)
  | some (.reserved word) => Parser.refuse (.unsupported word) ts
  | _ => effectIn i ts

/-- a statement with the stretch from its first lexeme to its last one -/
def whole : Reader Statement
  | [] => Parser.missing .expression []
  | first :: ts => do
    let (kind, rest) ← statementIn i (first :: ts)
    return (⟨kind, Parser.extent first (Parser.used (first :: ts) rest)⟩, rest)

end

/-- outside of values and tables these are the statements of a manifest -/
theorem statementIn_top : statementIn Parser.top = Parser.statement := rfl

theorem answers_refuseAt (c : Complaint) {rest : Rest} {n : Nat} :
    Answers ts depth rest n (refuseAt (α := α) (shown stop s) c) (Parser.refuse c s) :=
  .of_error (by cases s <;> rfl)

theorem answers_localVars (hvalues : Follows ts depth p.values (Parser.items i.value))
    (hrounds : ts.length < rounds) (hs : s <:+ ts) {t : Token} (hn : next s = some t) :
    Answers ts depth s s.length (p.readLocalVars (ended ts stop) rounds) (do
      let ts ← localVarsIn i s.tail
      return (.other, ts)) := by
  have htail := (List.tail_suffix s).trans hs
  have hlen := length_tail_of_next hn
  refine (answers_advance hs).step ((answers_token htail).step ?_)
  rw [bind_pure_comp]
  unfold localVarsIn
  have hnames : Answers ts depth s.tail s.length (do
      let _ ← items (ended ts stop) rounds (name (ended ts stop))
      if ← eat (ended ts stop) .equal then do
        let _ ← p.values
        return StatementKind.other
      else return .other) (Prod.mk .other <$> do
      let (_, ts) ← Parser.items Parser.name s.tail
      if next ts = some (.mark .equal) then do
        let (_, ts) ← Parser.items i.value ts.tail
        return ts
      else return ts) := by
    rw [map_bind]
    refine (follows_items follows_name hrounds s.tail htail).bind fun _ rest hrest hlt => ?_
    have hrest := hrest.trans htail
    dsimp only
    refine Answers.eat hrest (fun hequal => ?_) fun hequal => ?_
    · have hlen' := length_tail_of_next hequal
      rw [if_pos hequal, map_bind]
      refine (hvalues rest.tail ((List.tail_suffix rest).trans hrest)).bind fun _ _ _ hlt' => ?_
      exact answers_pure StatementKind.other (by omega)
    · rw [if_neg hequal]
      exact answers_pure StatementKind.other (by omega)
  cases next s.tail with
  | none => exact hnames
  | some t =>
    cases t with
    | reserved word => exact answers_refuse htail _
    | _ => exact hnames

theorem answers_effect (hsuffixed : Follows ts depth p.suffixed (Parser.suffixed i))
    (hvalues : Follows ts depth p.values (Parser.items i.value)) (hrounds : ts.length < rounds)
    (hs : s <:+ ts) : Answers ts depth s s.length
      (p.readEffect (ended ts stop) rounds (shown stop s)) (effectIn i s) := by
  refine (hsuffixed s hs).bind fun first rest hrest hlt => ?_
  have hrest := hrest.trans hs
  have hle := hrest.length_le
  refine (answers_token hrest).step ?_
  dsimp only
  by_cases hnext : next rest = some (.mark .equal) ∨ next rest = some (.mark .comma)
  · rw [if_pos hnext, if_pos hnext]
    refine Answers.bind (answers_moreItems hsuffixed hrest (Nat.le_refl _) (by omega))
      fun more rest' hrest' hlt' => ?_
    have hrest' := hrest'.trans hrest
    dsimp only
    by_cases hall : (first :: more).all Parser.Suffixed.assignable = true
    · rw [if_pos hall, if_pos hall]
      refine (answers_expect hrest' _).seq fun rest'' hrest'' hlt'' => ?_
      refine (hvalues rest'' (hrest''.trans hrest')).bind fun _ _ _ hlt3 => ?_
      exact answers_pure StatementKind.other (by omega)
    · rw [if_neg hall, if_neg hall]
      exact answers_refuseAt _
  · rw [if_neg hnext, if_neg hnext]
    by_cases hcall : first.ending = .call
    · rw [if_pos hcall, if_pos hcall]
      exact answers_pure first.kind hlt
    · rw [if_neg hcall, if_neg hcall]
      exact answers_refuseAt _

theorem answers_previous {first : Lexeme} {us rest : Rest} (hs : first :: us <:+ ts)
    (hrest : rest <:+ first :: us) (hlt : rest.length < (first :: us).length) :
    Answers ts depth rest (rest.length + 1) (previous (ended ts stop))
      (.ok (((Parser.used (first :: us) rest).getLast?.getD first).span, rest)) := by
  obtain ⟨read, hread⟩ := hrest
  rcases List.eq_nil_or_concat' read with rfl | ⟨init, last, rfl⟩
  · rw [← hread] at hlt
    exact absurd hlt (Nat.lt_irrefl _)
  have hlast : last :: rest <:+ ts := by
    refine List.IsSuffix.trans ⟨init, ?_⟩ hs
    rw [← hread, List.append_assoc]
    rfl
  have hentry : entry (ended ts stop) (ts.length - (last :: rest).length) =
      pure (shown stop (last :: rest)) := run_entry hlast
  rw [List.length_cons, ← Nat.sub_sub] at hentry
  refine .of_ok ?_ (List.suffix_refl rest) (Nat.lt_succ_self _)
  rw [← hread, Parser.used_append, List.getLast?_concat, Option.getD_some]
  show (entry (ended ts stop) (ts.length - rest.length - 1) >>= fun e => pure e.2) _ = _
  rw [hentry]
  rfl

theorem follows_statement
    (hlocal : ∀ s, s <:+ ts → ∀ t, next s = some t → Answers ts depth s s.length p.localVars (do
      let ts ← localVarsIn i s.tail
      return (.other, ts)))
    (heffect : ∀ s, s <:+ ts →
      Answers ts depth s s.length (p.effect (shown stop s)) (effectIn i s)) :
    Follows ts depth (p.readStatement (ended ts stop)) (whole i) := by
  intro s hs
  have hkind : Answers ts depth s s.length (p.readKind (shown stop s)) (statementIn i s) := by
    unfold Procedures.readKind statementIn
    rw [shown_fst]
    cases hn : next s with
    | none => exact heffect s hs
    | some t =>
      cases t with
      | reserved word => exact answers_refuseAt _
      | keyword k =>
        cases k with
        | localVar => exact hlocal s hs _ hn
        | _ => exact heffect s hs
      | _ => exact heffect s hs
  refine (answers_current hs).step ?_
  cases s with
  | nil =>
    -- no statement ends where it begins
    have hnone : whole i [] = statementIn i [] >>= fun _ => Parser.missing .expression [] := rfl
    rw [hnone]
    exact hkind.bind fun _ _ _ hlt => absurd hlt (Nat.not_lt_zero _)
  | cons first us =>
    refine hkind.bind fun kind rest hrest hlt => ?_
    exact (answers_previous hs hrest hlt).step (answers_pure _ hlt)

theorem statements_cons (m : Nat) (first : Lexeme) (us : Rest) :
    Parser.statements (m + 1) (first :: us) =
      if first.token = .mark .semicolon then Parser.statements m us
      else do
        let (s, rest) ← whole Parser.top (first :: us)
        let more ← Parser.statements m rest
        return s :: more := by
  rw [Parser.statements, whole, statementIn_top]
  split
  · rfl
  · cases Parser.statement (first :: us) <;> rfl

theorem answers_chunk {walk : Walk Statement} (h : Follows ts depth walk (whole Parser.top))
    (hs : s <:+ ts) (hm : s.length ≤ m) (hn : s.length < n) :
    Answers ts depth s (s.length + 1) (chunk (ended ts stop) walk n)
      ((fun ss => (ss, [])) <$> Parser.statements m s) := by
  refine rounds_induction m s n hs hm hn (fun n => ?_) fun m s n hs ih => ?_
  · exact (answers_token List.nil_suffix).step (answers_pure [] (Nat.lt_succ_self _))
  refine (answers_token hs).step ?_
  cases s with
  | nil => exact answers_pure [] (Nat.lt_succ_self _)
  | cons first us =>
    have hnext : next (first :: us) ≠ none := Option.some_ne_none _
    rw [if_neg hnext, statements_cons]
    refine Answers.eat hs (fun hsemicolon => ?_) fun hsemicolon => ?_
    · have hus := (List.suffix_cons first us).trans hs
      rw [if_pos (Option.some.inj hsemicolon)]
      exact (ih us hus (Nat.lt_succ_self _)).mono (Nat.le_succ _)
    · rw [if_neg fun he => hsemicolon (congrArg some he), map_bind]
      refine (h _ hs).bind fun s rest hrest hlt => ?_
      have hmore := (ih rest (hrest.trans hs) hlt).bind
        (g := fun found => .ok (s :: found.1, found.2)) fun more _ _ hlt' =>
          answers_pure (s :: more) hlt'
      dsimp only
      generalize Parser.statements m rest = y at hmore ⊢
      cases y <;> exact hmore.mono (by omega)

/-! ## frames -/

/-- with so many calls inside one another, or more, values and tables at this depth are read as
these readers do -/
structure Suffices (ts : Rest) (stop : Span) (rounds depth frames : Nat) (i : Inner) : Prop where
  value : ∀ n, frames ≤ n → Follows ts depth (procedures (ended ts stop) rounds n).value i.value
  table : ∀ n, frames ≤ n → Follows ts depth (procedures (ended ts stop) rounds n).table i.table

section
variable {frames : Nat} (h : Suffices ts stop rounds depth frames i) (hrounds : ts.length < rounds)
  (hn : frames ≤ n)
include h hrounds hn

theorem Suffices.values :
    Follows ts depth (procedures (ended ts stop) rounds (n + 1)).values (Parser.items i.value) :=
  follows_items (h.value n hn) hrounds

theorem Suffices.callArguments :
    Follows ts depth (procedures (ended ts stop) rounds (n + 2)).callArguments
      (Parser.callArguments i) :=
  follows_callArguments (h.table (n + 1) (by omega)) (h.values hrounds hn)

theorem Suffices.suffixed :
    Follows ts depth (procedures (ended ts stop) rounds (n + 3)).suffixed (Parser.suffixed i) :=
  follows_suffixed (h.value (n + 2) (by omega)) (h.callArguments hrounds hn) hrounds

theorem Suffices.operand :
    Follows ts depth (procedures (ended ts stop) rounds (n + 4)).operand (Parser.operand i) :=
  follows_operand (h.table (n + 3) (by omega)) (h.suffixed hrounds hn)

theorem Suffices.statement :
    Follows ts depth (procedures (ended ts stop) rounds (n + 5)).statement (whole i) := by
  have hvalues : Follows ts depth (procedures (ended ts stop) rounds (n + 3)).values _ :=
    h.values hrounds (Nat.le_add_right_of_le hn)
  exact follows_statement (fun s hs t ht => answers_localVars hvalues hrounds hs ht)
    fun s hs => answers_effect (h.suffixed hrounds hn) hvalues hrounds hs

end

theorem suffices_inner (hrounds : ts.length < rounds) (r : Nat) : ∀ {depth},
    depth + r = nestingLimit → Suffices ts stop rounds depth (5 * r + 1) (inner r) := by
  induction r with
  | zero =>
    intro depth hd
    obtain rfl : depth = nestingLimit := hd
    -- at the limit nothing is read
    refine ⟨fun n hn s hs => ?_, fun n hn s hs => ?_⟩ <;>
      obtain ⟨n, rfl⟩ := Nat.exists_eq_add_of_le' hn <;> exact answers_nested_limit hs _
  | succ r ih =>
    intro depth hd
    have hlimit : depth < nestingLimit := by omega
    have hdeep : Suffices ts stop rounds (depth + 1) (5 * r + 1) (inner r) := ih (by omega)
    refine ⟨fun n hn s hs => ?_, fun n hn s hs => ?_⟩
    · -- from a value on the way may lead through an operand, a name and its arguments to a value
      obtain ⟨n, rfl⟩ : ∃ m, n = m + 5 := ⟨n - 5, by omega⟩
      have hle := hs.length_le
      have hoperators : Answers ts (depth + 1) s s.length
          ((procedures (ended ts stop) rounds (n + 4)).operators (ended ts stop) rounds rounds 0)
          (behindOperands 0 <$> Parser.operators (inner r) s.length s) :=
        answers_operators (hdeep.operand hrounds (by omega)) hrounds hs (Nat.le_refl _)
          (by omega) 0
      rw [behindOperands_zero] at hoperators
      exact hoperators.nested hlimit
    · obtain ⟨n, rfl⟩ : ∃ m, n = m + 1 := ⟨n - 1, by omega⟩
      exact (answers_tableBody (hdeep.value n (by omega)) hrounds hs).nested hlimit

/-! ## all places of a row -/

/-- from each place of the row, at this depth: the answer is that of the reader, the machine does
not crash, and if the text is not refused, the cursor has gone on, not beyond the end of the text,
and is as deep as before -/
structure Proceeds {α : Type} (ts : Rest) (depth : Nat) (walk : Walk α) (read : Reader α) :
    Prop where
  answers : ∀ pos ≤ ts.length, walk ⟨pos, depth⟩ = answer ts depth (read (ts.drop pos))
  safe : ∀ pos ≤ ts.length, ∀ crash, walk ⟨pos, depth⟩ ≠ .error (.crashed crash)
  progress : ∀ pos ≤ ts.length, ∀ a c, walk ⟨pos, depth⟩ = .ok (a, c) →
    pos < c.pos ∧ c.pos ≤ ts.length ∧ c.depth = depth

theorem before_drop {pos : Nat} (hpos : pos ≤ ts.length) :
    before ts depth (ts.drop pos) = ⟨pos, depth⟩ := by
  rw [before, List.length_drop, Nat.sub_sub_self hpos]

theorem answer_ne_crashed (y : Parser.Outcome (α × Rest)) (c : Crash) :
    answer ts depth y ≠ .error (.crashed c) := by
  cases y <;> exact nofun

theorem Follows.proceeds {walk : Walk α} {read : Reader α} (h : Follows ts depth walk read) :
    Proceeds ts depth walk read := by
  have hrun : ∀ pos ≤ ts.length, walk ⟨pos, depth⟩ = answer ts depth (read (ts.drop pos)) := by
    intro pos hpos
    rw [← before_drop hpos]
    exact (h _ (List.drop_suffix pos ts)).run
  refine ⟨hrun, fun pos hpos c => ?_, fun pos hpos a c hc => ?_⟩
  · rw [hrun pos hpos]
    exact answer_ne_crashed _ c
  · rw [hrun pos hpos] at hc
    cases hread : read (ts.drop pos) with
    | error r =>
      rw [hread] at hc
      cases hc
    | ok found =>
      obtain ⟨b, rest⟩ := found
      rw [hread] at hc
      cases hc
      have hlt := ((h _ (List.drop_suffix pos ts)).ends _ rest hread).2
      rw [List.length_drop] at hlt
      refine ⟨?_, Nat.sub_le .., rfl⟩
      show pos < ts.length - rest.length
      omega

/-- so many calls inside one another are enough for every text -/
def frameBound : Nat := 5 * nestingLimit + 6

theorem exists_of_frameBound_le {frames : Nat} (h : frameBound ≤ frames) :
    ∃ n, frames = n + 5 ∧ 5 * nestingLimit + 1 ≤ n := by
  unfold frameBound at h
  exact ⟨frames - 5, by omega, by omega⟩

theorem suffices_frameBound (hrounds : ts.length < rounds) (stop : Span)
    (hd : depth ≤ nestingLimit) :
    Suffices ts stop rounds depth (5 * nestingLimit + 1) (inner (nestingLimit - depth)) := by
  have h : Suffices ts stop rounds depth _ (inner (nestingLimit - depth)) :=
    suffices_inner hrounds _ (Nat.add_sub_cancel' hd)
  exact ⟨fun n hn => h.value n (by omega), fun n hn => h.table n (by omega)⟩

theorem run_chunk {frames : Nat} (hrounds : ts.length < rounds) (hframes : frameBound ≤ frames)
    (stop : Span) :
    chunk (ended ts stop) (procedures (ended ts stop) rounds frames).statement rounds ⟨0, 0⟩ =
      match Parser.statements ts.length ts with
      | .ok ss => .ok (ss, ⟨ts.length, 0⟩)
      | .error r => .error (.refused r) := by
  obtain ⟨n, rfl, hn⟩ := exists_of_frameBound_le hframes
  have hstatement := (suffices_frameBound hrounds stop (Nat.zero_le _)).statement hrounds hn
  have hchunk : Answers ts 0 ts (ts.length + 1) (chunk (ended ts stop) _ rounds) _ :=
    answers_chunk hstatement (List.suffix_refl ts) (Nat.le_refl _) hrounds
  have hrun := hchunk.run
  rw [before, Nat.sub_self] at hrun
  rw [hrun]
  cases Parser.statements ts.length ts <;> rfl

/-- **From each place of a row, and at each depth up to the limit, each procedure gives the answer
of its reader, and the machine does not crash, with a number of calls inside one another that does
not depend on the row; at the limit nothing is read.  And so is a whole text.** -/
theorem procedures_proceed (ts : List Lexeme) (stop : Span) {rounds frames : Nat}
    (hrounds : ts.length < rounds) (hframes : frameBound ≤ frames) :
    let p := procedures (ended ts stop) rounds frames
    (∀ depth ≤ nestingLimit,
      let i := inner (nestingLimit - depth)
      Proceeds ts depth p.statement (whole i) ∧
      Proceeds ts depth p.suffixed (Parser.suffixed i) ∧
      Proceeds ts depth p.callArguments (Parser.callArguments i) ∧
      Proceeds ts depth p.table i.table ∧
      Proceeds ts depth p.value i.value ∧
      Proceeds ts depth p.operand (Parser.operand i)) ∧
    (∀ pos ≤ ts.length,
      p.table ⟨pos, nestingLimit⟩ = .error (.refused ⟨.nestedTooDeep, ts[pos]?⟩) ∧
      p.value ⟨pos, nestingLimit⟩ = .error (.refused ⟨.nestedTooDeep, ts[pos]?⟩)) ∧
    chunk (ended ts stop) p.statement rounds ⟨0, 0⟩ =
      match Parser.statements ts.length ts with
      | .ok ss => .ok (ss, ⟨ts.length, 0⟩)
      | .error r => .error (.refused r) := by
  intro p
  have hchunk := run_chunk hrounds hframes stop
  obtain ⟨n, rfl, hn⟩ := exists_of_frameBound_le hframes
  refine ⟨fun depth hd => ?_, fun pos hpos => ?_, hchunk⟩
  · have h := suffices_frameBound hrounds stop hd
    exact ⟨(h.statement hrounds hn).proceeds,
      (h.suffixed hrounds (n := n + 2) (by omega)).proceeds,
      (h.callArguments hrounds (n := n + 3) (by omega)).proceeds,
      (h.table (n + 5) (by omega)).proceeds,
      (h.value (n + 5) (by omega)).proceeds,
      (h.operand hrounds (n := n + 1) (by omega)).proceeds⟩
  · have h := suffices_frameBound hrounds stop (Nat.le_refl nestingLimit)
    have htable := (h.table (n + 5) (by omega)).proceeds.answers pos hpos
    have hvalue := (h.value (n + 5) (by omega)).proceeds.answers pos hpos
    rw [Nat.sub_self] at htable hvalue
    rw [← List.head?_drop]
    exact ⟨htable, hvalue⟩

/-- the lexemes of a name with a table behind it -/
def tableCall : List Lexeme :=
  [⟨.name "x", ⟨0, 1, 1, 1⟩⟩, ⟨.mark .leftBrace, ⟨1, 2, 1, 2⟩⟩, ⟨.string "a", ⟨2, 5, 1, 3⟩⟩,
    ⟨.mark .rightBrace, ⟨5, 6, 1, 6⟩⟩]

theorem procedures_proceed_tableCall :
    tableCall.length < 5 ∧ frameBound ≤ 1006 ∧
    (let stream := ended tableCall ⟨6, 6, 1, 7⟩
     let p := procedures stream 5 1006
     chunk stream p.statement 5 ⟨0, 0⟩ =
        .ok ([⟨.declaration "x" [.table [.text "a"]], ⟨0, 6, 1, 1⟩⟩], ⟨4, 0⟩) ∧
      p.table ⟨1, 198⟩ = .ok ([.text "a"], ⟨4, 198⟩) ∧
      p.table ⟨1, 199⟩ = .error (.refused ⟨.nestedTooDeep, tableCall[2]?⟩) ∧
      p.table ⟨1, 200⟩ = .error (.refused ⟨.nestedTooDeep, tableCall[1]?⟩)) := by
  have hrounds : tableCall.length < 5 := by decide
  have hframes : frameBound ≤ 1006 := by decide
  obtain ⟨hdepths, hlimit, hchunk⟩ :=
    procedures_proceed tableCall ⟨6, 6, 1, 7⟩ hrounds hframes
  refine ⟨hrounds, hframes, hchunk.trans rfl, ?_, ?_, ?_⟩
  · exact ((hdepths 198 (by decide)).2.2.2.1.answers 1 (by decide)).trans rfl
  · exact ((hdepths 199 (by decide)).2.2.2.1.answers 1 (by decide)).trans rfl
  · exact (hlimit 1 (by decide)).1

end

/-! ## sources -/

/-- **Every source with tokens is read with a cursor, with a fixed number of calls inside one
another, and its statements, or the reason why it has none, are the same.** -/
theorem parse_of_tokenize {source : String} {ts : Lexemes} (h : tokenize source.toList = .ok ts) :
    let rounds := ts.list.length + 1
    let run := chunk ts.withEnd (procedures ts.withEnd rounds frameBound).statement rounds ⟨0, 0⟩
    (∃ ss, run = .ok (ss, ⟨ts.list.length, 0⟩) ∧ parse source = .ok ss) ∨
      ∃ r, run = .error (.refused r) ∧ parse source = .error (.ofRefusal source ts.stop r) := by
  intro rounds run
  have hrun : run = _ := run_chunk (Nat.lt_succ_self ts.list.length) (Nat.le_refl frameBound)
    (.point ts.stop)
  rw [hrun, parse, h]
  dsimp only
  cases Parser.statements ts.list.length ts.list with
  | ok ss => exact .inl ⟨ss, rfl, rfl⟩
  | error r => exact .inr ⟨r, rfl, rfl⟩

end ResourceOrder.Manifest.Cursor
