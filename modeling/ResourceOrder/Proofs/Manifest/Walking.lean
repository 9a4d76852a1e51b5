import ResourceOrder.Proofs.Manifest.Steps

/-!
# Loops and expressions with a cursor

A round of a loop reads at least one lexeme.  So no loop makes more rounds than there are lexemes
and one more, and neither the loops here nor those of the readers run out of rounds
(`rounds_induction`).

Each procedure answers as the reader of the same part of a text does, if the procedures that it
calls do (`follows_items`, `answers_operators`, `answers_tableBody`, `follows_callArguments`,
`follows_suffixed`, `follows_operand`).
-/

namespace ResourceOrder.Manifest.Cursor

open ResourceOrder.Manifest.Parser (Rest Reader Inner next isUnary isBinary
  length_tail_of_next)

section
variable {α : Type} {ts s : Rest} {stop : Span} {depth rounds m n : Nat} {p : Procedures}
  {i : Inner}

/-! ## loops -/

/-- a loop of a reader and a loop with a cursor, with `m` and with `n` rounds left: it is enough to
look at the end of the text, where the reader may have none left, and at one round of both, behind
which fewer lexemes are left -/
@[elab_as_elim]
theorem rounds_induction {P : Nat → Rest → Nat → Prop} (m : Nat) (s : Rest) (n : Nat)
    (hs : s <:+ ts) (hm : s.length ≤ m) (hn : s.length < n) (hnil : ∀ n, P 0 [] (n + 1))
    (hround : ∀ m s n, s <:+ ts → (∀ rest, rest <:+ ts → rest.length < s.length → P m rest n) →
      P (m + 1) s (n + 1)) : P m s n := by
  induction m generalizing s n with
  | zero =>
    obtain ⟨n, rfl⟩ := Nat.exists_eq_add_one_of_ne_zero (Nat.ne_zero_of_lt hn)
    obtain rfl := List.length_eq_zero_iff.1 (Nat.le_zero.1 hm)
    exact hnil n
  | succ m ih =>
    obtain ⟨n, rfl⟩ := Nat.exists_eq_add_one_of_ne_zero (Nat.ne_zero_of_lt hn)
    exact hround m s n hs fun rest hrest hlt => ih rest n hrest (by omega) (by omega)

theorem answers_moreItems {item : Walk α} {read : Reader α} (h : Follows ts depth item read)
    (hs : s <:+ ts) (hm : s.length ≤ m) (hn : s.length < n) :
    Answers ts depth s (s.length + 1) (moreItems (ended ts stop) item n)
      (Parser.moreItems read m s) := by
  refine rounds_induction m s n hs hm hn (fun n => ?_) fun m s n hs ih => ?_
  · exact Answers.eat List.nil_suffix (fun hcomma => nomatch hcomma) fun _ =>
      answers_pure [] (Nat.lt_succ_self _)
  unfold Parser.moreItems
  refine Answers.eat hs (fun hcomma => ?_) fun hcomma => ?_
  · have htail := (List.tail_suffix s).trans hs
    have hlen := length_tail_of_next hcomma
    rw [if_pos hcomma]
    refine (h s.tail htail).bind fun a rest hrest hlt => ?_
    refine (ih rest (hrest.trans htail) (by omega)).bind fun as rest' _ hlt' => ?_
    exact answers_pure (a :: as) (by omega)
  · rw [if_neg hcomma]
    exact answers_pure [] (Nat.lt_succ_self _)

theorem follows_items {item : Walk α} {read : Reader α} (h : Follows ts depth item read)
    (hrounds : ts.length < rounds) :
    Follows ts depth (items (ended ts stop) rounds item) (Parser.items read) := by
  intro s hs
  refine (h s hs).bind fun a rest hrest hlt => ?_
  have hle := (hrest.trans hs).length_le
  refine Answers.bind (answers_moreItems h (hrest.trans hs) (Nat.le_refl _) (by omega))
    fun as rest' _ hlt' => ?_
  exact answers_pure (a :: as) (by omega)

theorem answers_skipUnary (n : Nat) : ∀ s prefixed, s <:+ ts → s.length < n →
    Answers ts depth s (s.length + 1) (skipUnary (ended ts stop) n prefixed)
      (.ok (prefixed || (next s).any isUnary, Parser.skipUnary s)) := by
  induction n with
  | zero => exact fun _ _ _ hn => absurd hn (Nat.not_lt_zero _)
  | succ n ih =>
    intro s prefixed hs hn
    refine (answers_token hs).step ?_
    cases s with
    | nil =>
      show Answers ts depth [] _ (pure prefixed) (.ok (prefixed || false, []))
      rw [Bool.or_false]
      exact answers_pure prefixed (Nat.lt_succ_self _)
    | cons t s =>
      have htail := (List.suffix_cons t s).trans hs
      show Answers ts depth (t :: s) _ (if isUnary t.token = true then _ else _)
        (.ok (prefixed || isUnary t.token, _))
      cases hu : isUnary t.token with
      | true =>
        have hskip : Parser.skipUnary (t :: s) = Parser.skipUnary s := List.dropWhile_cons_of_pos hu
        rw [if_pos rfl, hskip, Bool.or_true]
        have hmore := ih s true htail (Nat.lt_of_succ_lt_succ hn)
        rw [Bool.true_or] at hmore
        exact (answers_advance hs).step (hmore.mono (Nat.le_succ _))
      | false =>
        have hskip : Parser.skipUnary (t :: s) = t :: s :=
          List.dropWhile_cons_of_neg (by rw [hu]; exact Bool.false_ne_true)
        rw [if_neg Bool.false_ne_true, hskip, Bool.or_false]
        exact answers_pure prefixed (Nat.lt_succ_self _)

/-! ## values -/

/-- what is found behind so many operands is a string only if there are none -/
def behindOperands (k : Nat) (found : Value × Rest) : Value × Rest :=
  (if k = 0 then found.1 else .other, found.2)

theorem behindOperands_zero (y : Parser.Outcome (Value × Rest)) : behindOperands 0 <$> y = y :=
  id_map y

theorem behindOperands_succ (k : Nat) (y : Parser.Outcome (Value × Rest)) :
    (behindOperands k <$> do
      let (_, ts) ← y
      return (.other, ts)) = behindOperands (k + 1) <$> y := by
  cases y with
  | error r => rfl
  | ok found =>
    show Except.ok (ite (k = 0) Value.other .other, found.2) = Except.ok (Value.other, found.2)
    rw [ite_self]

theorem answers_operators (h : Follows ts depth p.operand (Parser.operand i))
    (hrounds : ts.length < rounds) (hs : s <:+ ts) (hm : s.length ≤ m) (hn : s.length < n) :
    ∀ k, Answers ts depth s s.length (p.operators (ended ts stop) rounds n k)
      (behindOperands k <$> Parser.operators i m s) := by
  refine rounds_induction m s n hs hm hn (fun n k => ?_) fun m s n hs ih k => ?_
  · have hpos := Nat.lt_of_le_of_lt (Nat.zero_le _) hrounds
    refine (answers_skipUnary rounds [] false List.nil_suffix hpos).step ?_
    -- no operand ends where it begins
    rw [Parser.operators, ← bind_pure_comp]
    exact (h [] List.nil_suffix).bind fun _ _ _ hlt => absurd hlt (Nat.not_lt_zero _)
  have hskip : Parser.skipUnary s <:+ s := List.dropWhile_suffix _
  have hle := hs.length_le
  have hle' := hskip.length_le
  refine (answers_skipUnary rounds s false hs (by omega)).step ?_
  rw [Parser.operators, map_bind]
  refine (h _ (hskip.trans hs)).bind fun v rest hrest hlt => ?_
  have hrest := hrest.trans (hskip.trans hs)
  refine (answers_token hrest).step ?_
  dsimp only
  by_cases hb : (next rest).any isBinary = true
  · obtain ⟨t, ht, _⟩ := (Option.any_eq_true _ _).1 hb
    have hlen := length_tail_of_next ht
    have hmore := ih rest.tail ((List.tail_suffix rest).trans hrest) (by omega) (k + 1)
    rw [if_pos hb, if_pos hb, behindOperands_succ]
    exact (answers_advance hrest).step (hmore.mono (by omega))
  · have hv : (if k = 0 ∧ (false || (next s).any isUnary) = false then v else .other) =
        (behindOperands k (if !(next s).any isUnary then v else .other, rest)).1 := by
      unfold behindOperands
      cases (next s).any isUnary <;> simp
    rw [if_neg hb, if_neg hb, hv]
    exact answers_pure _ (by omega)

/-! ## tables -/

theorem answers_fieldKey (h : Follows ts depth p.value i.value) (hs : s <:+ ts) :
    Answers ts depth s (s.length + 1) (p.fieldKey (ended ts stop))
      (Prod.mk () <$> Parser.fieldKey i.value s) := by
  have htail := (List.tail_suffix s).trans hs
  refine (answers_token hs).step ?_
  unfold Parser.fieldKey
  cases hn : next s with
  | none => exact answers_pure () (Nat.lt_succ_self _)
  | some t =>
    have hlen := length_tail_of_next hn
    cases t with
    | name text =>
      refine (answers_peek hs hn).step ?_
      dsimp only
      by_cases he : next s.tail = some (.mark .equal)
      · have hlen' := length_tail_of_next he
        rw [if_pos (congrArg some he), if_pos he]
        exact (answers_advance hs).step ((answers_advance htail).mono (by omega))
      · rw [if_neg fun hp => he (Option.some.inj hp), if_neg he]
        exact answers_pure () (Nat.lt_succ_self _)
    | mark m =>
      cases m with
      | leftBracket =>
        dsimp only
        rw [map_bind]
        refine (answers_advance hs).step ((h s.tail htail).bind fun _ rest hrest hlt => ?_)
        have hrest := hrest.trans htail
        dsimp only
        rw [map_bind]
        refine (answers_expect hrest _).seq fun rest' hrest' hlt' => ?_
        exact (answers_expect (hrest'.trans hrest) _).mono (by omega)
      | _ => exact answers_pure () (Nat.lt_succ_self _)
    | _ => exact answers_pure () (Nat.lt_succ_self _)

theorem answers_eatSeparator (hs : s <:+ ts) :
    Answers ts depth s (s.length + 1) (Procedures.eatSeparator (ended ts stop))
      (.ok (Parser.atSeparator s, if Parser.atSeparator s then s.tail else s)) := by
  unfold Procedures.eatSeparator Parser.atSeparator
  refine Answers.eat hs (fun hcomma => ?_) fun hcomma => ?_
  · rw [decide_eq_true hcomma]
    exact answers_pure true (Nat.lt_succ_of_le (List.tail_suffix s).length_le)
  · rw [decide_eq_false hcomma, Bool.false_or]
    by_cases hsemicolon : next s = some (.mark .semicolon)
    · rw [decide_eq_true hsemicolon]
      exact answers_eat_of_eq hs hsemicolon
    · rw [decide_eq_false hsemicolon]
      exact answers_eat_of_ne hs hsemicolon

theorem answers_fields (h : Follows ts depth p.value i.value) (hs : s <:+ ts)
    (hm : s.length ≤ m) (hn : s.length < n) :
    Answers ts depth s (s.length + 1) (p.fields (ended ts stop) n)
      (Parser.tableFields i.value m s) := by
  refine rounds_induction m s n hs hm hn (fun n => ?_) fun m s n hs ih => ?_
  · have hs := List.nil_suffix (l := ts)
    refine (answers_token hs).step ((answers_fieldKey h hs).step ?_)
    exact (h [] hs).bind fun _ _ _ hlt => absurd hlt (Nat.not_lt_zero _)
  refine (answers_token hs).step ?_
  unfold Parser.tableFields
  by_cases hbrace : next s = some (.mark .rightBrace)
  · rw [if_pos hbrace, if_pos hbrace]
    exact answers_pure [] (Nat.lt_succ_self _)
  rw [if_neg hbrace, if_neg hbrace]
  refine (answers_fieldKey h hs).seq fun rest hrest hlt => ?_
  have hrest := hrest.trans hs
  refine (h rest hrest).bind fun v rest' hrest' hlt' => ?_
  have hrest' := hrest'.trans hrest
  refine (answers_eatSeparator hrest').step ?_
  dsimp only
  cases Parser.atSeparator rest' with
  | true =>
    have htail := List.tail_suffix rest'
    have hle := htail.length_le
    rw [if_pos rfl, if_pos rfl, if_pos rfl]
    refine (ih rest'.tail (htail.trans hrest') (by omega)).bind fun vs _ _ hlt'' => ?_
    exact answers_pure (v :: vs) (by omega)
  | false =>
    rw [if_neg Bool.false_ne_true, if_neg Bool.false_ne_true, if_neg Bool.false_ne_true]
    exact answers_pure [v] (by omega)

theorem answers_tableBody (h : Follows ts depth p.value i.value) (hrounds : ts.length < rounds)
    (hs : s <:+ ts) : Answers ts depth s s.length (do
      expect (ended ts stop) .leftBrace
      let vs ← p.fields (ended ts stop) rounds
      expect (ended ts stop) .rightBrace
      return vs) (Parser.tableBody i.value s) := by
  refine (answers_expect hs _).seq fun rest hrest hlt => ?_
  have hrest := hrest.trans hs
  have hle := hrest.length_le
  refine Answers.bind (answers_fields h hrest (Nat.le_refl _) (by omega))
    fun vs rest' hrest' hlt' => ?_
  refine (answers_expect (hrest'.trans hrest) _).seq fun rest'' _ hlt'' => ?_
  exact answers_pure vs (by omega)

/-! ## calls and suffixes -/

theorem follows_callArguments (htable : Follows ts depth p.table i.table)
    (hvalues : Follows ts depth p.values (Parser.items i.value)) :
    Follows ts depth (p.readCallArguments (ended ts stop)) (Parser.callArguments i) := by
  intro s hs
  have htail := (List.tail_suffix s).trans hs
  refine (answers_token hs).step ?_
  unfold Parser.callArguments
  cases hn : next s with
  | none => exact answers_unexpected hs _
  | some t =>
    have hlen := length_tail_of_next hn
    cases t with
    | string text => exact (answers_advance hs).step (answers_pure _ (by omega))
    | mark m =>
      cases m with
      | leftBrace => exact (htable s hs).bind fun values _ _ hlt => answers_pure _ hlt
      | leftParen =>
        refine (answers_advance hs).step ?_
        dsimp only
        refine Answers.eat htail (fun hparen => ?_) fun hparen => ?_
        · have hlen' := length_tail_of_next hparen
          rw [if_pos hparen]
          exact answers_pure none (by omega)
        · rw [if_neg hparen]
          refine (hvalues s.tail htail).bind fun _ rest hrest hlt => ?_
          refine (answers_expect (hrest.trans htail) _).seq fun rest' _ hlt' => ?_
          exact answers_pure none (by omega)
      | _ => exact answers_unexpected hs _
    | _ => exact answers_unexpected hs _

section
variable (hvalue : Follows ts depth p.value i.value)
  (hcall : Follows ts depth p.callArguments (Parser.callArguments i))
include hvalue hcall

theorem answers_suffixes (hs : s <:+ ts) (hm : s.length ≤ m) (hn : s.length < n) :
    ∀ x, Answers ts depth s (s.length + 1) (p.suffixes (ended ts stop) n x)
      (Parser.suffixes i m x s) := by
  refine rounds_induction m s n hs hm hn (fun n x => ?_) fun m s n hs ih x => ?_
  · exact (answers_token List.nil_suffix).step (answers_pure x (Nat.lt_succ_self _))
  have htail := (List.tail_suffix s).trans hs
  have hmore : ∀ {rest}, rest <:+ ts → rest.length < s.length → ∀ x,
      Answers ts depth rest (s.length + 1) (p.suffixes (ended ts stop) n x)
        (Parser.suffixes i m x rest) := fun hrest hlt x =>
    (ih _ hrest hlt x).mono (by omega)
  refine (answers_token hs).step ?_
  unfold Parser.suffixes
  cases hn : next s with
  | none => exact answers_pure x (Nat.lt_succ_self _)
  | some t =>
    have hlen := length_tail_of_next hn
    have hcalled : Answers ts depth s (s.length + 1) (do
        let argument ← p.callArguments
        p.suffixes (ended ts stop) n (x.call argument)) (do
        let found ← Parser.callArguments i s
        Parser.suffixes i m (x.call found.1) found.2) :=
      (hcall s hs).bind fun argument rest hrest hlt => hmore (hrest.trans hs) hlt _
    cases t with
    | string text => exact hcalled
    | mark m =>
      cases m with
      | leftBrace => exact hcalled
      | leftParen => exact hcalled
      | dot =>
        refine (answers_advance hs).step ?_
        refine (follows_name s.tail htail).bind fun _ rest hrest hlt => ?_
        exact hmore (hrest.trans htail) (by omega) _
      | leftBracket =>
        refine (answers_advance hs).step ((hvalue s.tail htail).bind fun _ rest hrest hlt => ?_)
        have hrest := hrest.trans htail
        refine (answers_expect hrest _).seq fun rest' hrest' hlt' => ?_
        exact hmore (hrest'.trans hrest) (by omega) _
      | colon =>
        refine (answers_advance hs).step ?_
        refine (follows_name s.tail htail).bind fun _ rest hrest hlt => ?_
        have hrest := hrest.trans htail
        refine (hcall rest hrest).bind fun _ rest' hrest' hlt' => ?_
        exact hmore (hrest'.trans hrest) (by omega) _
      | _ => exact answers_pure x (Nat.lt_succ_self _)
    | _ => exact answers_pure x (Nat.lt_succ_self _)

theorem follows_suffixed (hrounds : ts.length < rounds) :
    Follows ts depth (p.readSuffixed (ended ts stop) rounds) (Parser.suffixed i) := by
  intro s hs
  have htail := (List.tail_suffix s).trans hs
  have hsuffixes : ∀ {rest}, rest <:+ ts → rest.length < s.length → ∀ x,
      Answers ts depth rest s.length (p.suffixes (ended ts stop) rounds x)
        (Parser.suffixes i rest.length x rest) := fun hrest hlt x =>
    (answers_suffixes hvalue hcall hrest (Nat.le_refl _)
      (Nat.lt_of_le_of_lt hrest.length_le hrounds) x).mono hlt
  refine (answers_token hs).step ?_
  unfold Parser.suffixed
  cases hn : next s with
  | none => exact answers_unexpected hs _
  | some t =>
    have hlen := length_tail_of_next hn
    cases t with
    | name text => exact (answers_advance hs).step (hsuffixes htail (by omega) _)
    | mark m =>
      cases m with
      | leftParen =>
        refine (answers_advance hs).step ((hvalue s.tail htail).bind fun _ rest hrest hlt => ?_)
        have hrest := hrest.trans htail
        refine (answers_expect hrest _).seq fun rest' hrest' hlt' => ?_
        exact hsuffixes (hrest'.trans hrest) (by omega) _
      | _ => exact answers_unexpected hs _
    | _ => exact answers_unexpected hs _

end

/-! ## operands -/

theorem follows_operand (htable : Follows ts depth p.table i.table)
    (hsuffixed : Follows ts depth p.suffixed (Parser.suffixed i)) :
    Follows ts depth (p.readOperand (ended ts stop)) (Parser.operand i) := by
  intro s hs
  have hother : Answers ts depth s s.length (do
      let _ ← p.suffixed
      return Value.other) (do
      let found ← Parser.suffixed i s
      return (Value.other, found.2)) :=
    (hsuffixed s hs).bind fun _ _ _ hlt => answers_pure Value.other hlt
  refine (answers_token hs).step ?_
  unfold Parser.operand
  cases hn : next s with
  | none => exact hother
  | some t =>
    have hlen := length_tail_of_next hn
    have hconstant (v : Value) : Answers ts depth s s.length (do
        advance (ended ts stop)
        return v) (.ok (v, s.tail)) :=
      (answers_advance hs).step (answers_pure v (by omega))
    cases t with
    | string text => exact hconstant (.text text)
    | number text => exact hconstant .other
    | reserved word => exact answers_refuse hs _
    | name text => exact hother
    | keyword k =>
      cases k with
      | nil => exact hconstant .other
      | true => exact hconstant .other
      | false => exact hconstant .other
      | _ => exact hother
    | mark m =>
      cases m with
      | ellipsis => exact hconstant .other
      | leftBrace => exact (htable s hs).bind fun _ _ _ hlt => answers_pure Value.other hlt
      | _ => exact hother

end

end ResourceOrder.Manifest.Cursor
