import ResourceOrder.Proofs.Manifest.Suffixes

/-!
# Reading expressions and tables

Operands, operators and fields are read as they are derived from the expressions and tables inside
them (`reads_operand`, `operators_sound`, `operators_complete`, `tableFields_sound`,
`tableFields_complete`, `reads_tableBody`).

**The readers at every depth read the expressions and tables of that depth** (`agrees_inner`).
-/

namespace ResourceOrder.Manifest.Parser

open Grammar

section
variable {i : Inner} {p : Inside} {ts rest : Rest}

/-! ## operands -/

theorem operand_of_suffixed {t : Token} (hn : next ts = some t)
    (ht : (∃ name, t = .name name) ∨ t = .mark .leftParen) :
    operand i ts = suffixed i ts >>= fun (_, ts) => .ok (.other, ts) := by
  rw [operand, hn]
  rcases ht with ⟨name, rfl⟩ | rfl <;> rfl

theorem operand_of_constant {t : Token} (hn : next ts = some t) (ht : t ∈ constants) :
    operand i ts = .ok (.other, ts.tail) := by
  rw [operand, hn]
  simp only [constants, List.mem_cons, List.not_mem_nil, or_false] at ht
  rcases ht with rfl | rfl | rfl | rfl <;> rfl

theorem reads_operand (h : i.Agrees p) : Reads (operand i) (Operand p) := by
  intro ts v rest
  constructor
  · intro hr
    unfold operand at hr
    split at hr
    · next s hn =>
      cases hr
      exact ⟨_, takes_one.2 ⟨hn, rfl⟩, .string s⟩
    · next s hn =>
      cases hr
      exact ⟨_, takes_one.2 ⟨hn, rfl⟩, .number s⟩
    · next hn =>
      cases hr
      exact ⟨_, takes_one.2 ⟨hn, rfl⟩, .constant (by decide)⟩
    · next hn =>
      cases hr
      exact ⟨_, takes_one.2 ⟨hn, rfl⟩, .constant (by decide)⟩
    · next hn =>
      cases hr
      exact ⟨_, takes_one.2 ⟨hn, rfl⟩, .constant (by decide)⟩
    · next hn =>
      cases hr
      exact ⟨_, takes_one.2 ⟨hn, rfl⟩, .constant (by decide)⟩
    · obtain ⟨vs, mid, hv, hr⟩ := bind_pair_eq_ok_iff.1 hr
      cases hr
      obtain ⟨us, ht, hp⟩ := h.table.sound hv
      exact ⟨us, ht, .table hp⟩
    · cases hr
    · obtain ⟨x, mid, hx, hr⟩ := bind_pair_eq_ok_iff.1 hr
      cases hr
      obtain ⟨us, ht, s, hs, _⟩ := (reads_suffixed h).sound hx
      exact ⟨us, ht, .suffixed hs⟩
  · intro h
    obtain ⟨us, ht, hv⟩ := h
    cases hv with
    | string s =>
      obtain ⟨hn, rfl⟩ := takes_one.1 ht
      rw [operand, hn]
    | number s =>
      obtain ⟨hn, rfl⟩ := takes_one.1 ht
      rw [operand, hn]
    | constant hc =>
      obtain ⟨hn, rfl⟩ := takes_one.1 ht
      exact operand_of_constant hn hc
    | table hp =>
      obtain ⟨us', rfl⟩ := h.lawful.table _ _ hp
      rw [operand, ht.1]
      exact bind_pair_eq_ok_iff.2 ⟨_, rest, h.table.complete ht rfl hp, rfl⟩
    | suffixed hs =>
      obtain ⟨t, us', rfl, hopen⟩ := hs.opens
      rw [operand_of_suffixed ht.1 hopen]
      exact bind_pair_eq_ok_iff.2 ⟨_, rest, (reads_suffixed h).complete ht rfl ⟨_, hs, rfl⟩, rfl⟩

/-! ## operators -/

theorem isUnary_iff {t : Token} : isUnary t = true ↔ t ∈ unaryOperators := by
  unfold isUnary unaryOperators
  split <;> simp_all

theorem isBinary_iff {t : Token} : isBinary t = true ↔ t ∈ binaryOperators := by
  unfold isBinary binaryOperators
  split <;> simp_all

theorem any_isBinary :
    (next ts).any isBinary = true ↔ ∃ b, next ts = some b ∧ b ∈ binaryOperators := by
  rw [Option.any_eq_true]
  simp only [isBinary_iff]

theorem skipUnary_of_unary {u : Token} (hn : next ts = some u) (hu : u ∈ unaryOperators) :
    skipUnary ts = skipUnary ts.tail := by
  cases ts with
  | nil => cases hn
  | cons t ts =>
    obtain rfl := Option.some.inj hn
    exact List.dropWhile_cons_of_pos (isUnary_iff.2 hu)

theorem skipUnary_of_opensOperand {t : Token} (hn : next ts = some t)
    (ht : opensOperand t = true) : skipUnary ts = ts ∧ (next ts).any isUnary = false := by
  have hu : isUnary t = false := by
    rw [Bool.eq_false_iff]
    intro hu
    rw [opensOperand_of_mem_unary (isUnary_iff.1 hu)] at ht
    exact Bool.false_ne_true ht
  refine ⟨?_, by rw [hn]; exact hu⟩
  cases ts with
  | nil => cases hn
  | cons x ts =>
    obtain rfl := Option.some.inj hn
    exact List.dropWhile_cons_of_neg (by rw [hu]; exact Bool.false_ne_true)

theorem takes_skipUnary (ts : Rest) :
    ∃ us, Takes ts us (skipUnary ts) ∧ (∀ u ∈ us, u ∈ unaryOperators) ∧
      (us = [] ↔ (next ts).any isUnary = false) := by
  induction ts with
  | nil => exact ⟨[], rfl, nofun, iff_of_true rfl rfl⟩
  | cons t ts ih =>
    cases hu : isUnary t.token with
    | true =>
      obtain ⟨us, ht, hus, _⟩ := ih
      have hmem := isUnary_iff.1 hu
      refine ⟨t.token :: us, ⟨rfl, ?_⟩, ?_, iff_of_false (List.cons_ne_nil _ _) ?_⟩
      · rw [skipUnary_of_unary rfl hmem]
        exact ht
      · exact List.forall_mem_cons.2 ⟨hmem, hus⟩
      · show isUnary t.token ≠ false
        rw [hu]
        exact Bool.noConfusion
    | false =>
      refine ⟨[], ?_, nofun, iff_of_true rfl hu⟩
      exact (List.dropWhile_cons_of_neg (by rw [hu]; exact Bool.false_ne_true)).symm

theorem expr_unaries {behind : Option Token} {us vs : List Token} {v : Value}
    (hu : ∀ u ∈ us, u ∈ unaryOperators) (h : Expr p behind vs v) :
    Expr p behind (us ++ vs) (if us = [] then v else .other) := by
  induction us with
  | nil => exact h
  | cons u us ih =>
    rw [if_neg (List.cons_ne_nil u us)]
    obtain ⟨hu, hus⟩ := List.forall_mem_cons.1 hu
    exact .unary hu (ih hus)

theorem operators_succ {n : Nat} {v : Value} :
    operators i (n + 1) ts = .ok (v, rest) ↔
      (∃ w mid b x, operand i (skipUnary ts) = .ok (w, mid) ∧ next mid = some b ∧
        b ∈ binaryOperators ∧ operators i n mid.tail = .ok (x, rest) ∧ v = .other) ∨
      (∃ w, operand i (skipUnary ts) = .ok (w, rest) ∧
        (∀ b, next rest = some b → b ∉ binaryOperators) ∧
        v = if (next ts).any isUnary = false then w else .other) := by
  rw [operators]
  simp only [bind_pair_eq_ok_iff]
  constructor
  · intro h
    obtain ⟨w, mid, hw, hr⟩ := h
    split at hr
    · next hany =>
      obtain ⟨b, hb, hmem⟩ := any_isBinary.1 hany
      obtain ⟨x, mid', hx, hr⟩ := bind_pair_eq_ok_iff.1 hr
      cases hr
      exact .inl ⟨w, mid, b, x, hw, hb, hmem, hx, rfl⟩
    · next hany =>
      cases hr
      refine .inr ⟨w, hw, fun b hb hmem => hany (any_isBinary.2 ⟨b, hb, hmem⟩), ?_⟩
      cases (next ts).any isUnary <;> rfl
  · intro h
    rcases h with ⟨w, mid, b, x, hw, hb, hmem, hx, rfl⟩ | ⟨w, hw, hstop, rfl⟩
    · refine ⟨w, mid, hw, ?_⟩
      rw [if_pos (any_isBinary.2 ⟨b, hb, hmem⟩)]
      exact bind_pair_eq_ok_iff.2 ⟨x, rest, hx, rfl⟩
    · refine ⟨w, rest, hw, ?_⟩
      rw [if_neg fun hany => by
        obtain ⟨b, hb, hmem⟩ := any_isBinary.1 hany
        exact hstop b hb hmem]
      cases (next ts).any isUnary <;> rfl

theorem operators_sound (h : i.Agrees p) (n : Nat) : ∀ {ts v}, ts.length ≤ n →
    operators i n ts = .ok (v, rest) → ∃ us, Takes ts us rest ∧ Expr p (next rest) us v := by
  induction n with
  | zero =>
    intro ts v hn hr
    obtain ⟨us, ht, hv⟩ := (reads_operand h).sound hr
    obtain ⟨t, us', rfl, _⟩ := hv.opens h.lawful
    have hlen := ht.length
    rw [List.length_cons] at hlen
    omega
  | succ n ih =>
    intro ts v hn hr
    obtain ⟨us, ht, hus, hnil⟩ := takes_skipUnary ts
    rcases operators_succ.1 hr with ⟨w, mid, b, x, hw, hb, hmem, hx, rfl⟩ | ⟨w, hw, hstop, rfl⟩
    · obtain ⟨vs, ht', hv⟩ := (reads_operand h).sound hw
      have hlen := ht.length
      have hlen' := ht'.length
      have htail := length_tail_of_next hb
      obtain ⟨xs, htx, hx⟩ := ih (by omega) hx
      rw [hb] at hv
      have he := expr_unaries hus (.binary hmem hv hx)
      rw [ite_self] at he
      exact ⟨_, ht.append (ht'.append (takes_cons.2 ⟨hb, htx⟩)), he⟩
    · obtain ⟨vs, ht', hv⟩ := (reads_operand h).sound hw
      have he := expr_unaries hus (.operand hv hstop)
      simp only [hnil] at he
      exact ⟨_, ht.append ht', he⟩

theorem operators_complete (h : i.Agrees p) {behind : Option Token} {us : List Token} {v : Value}
    (hv : Expr p behind us v) : ∀ {ts n}, Takes ts us rest → next rest = behind →
      ts.length ≤ n → operators i n ts = .ok (v, rest) := by
  induction hv with
  | operand hv hstop =>
    intro ts n ht hb hn
    obtain ⟨t, us', rfl, hopen⟩ := hv.opens h.lawful
    obtain ⟨m, rfl, _⟩ := ht.round hn
    obtain ⟨hskip, hany⟩ := skipUnary_of_opensOperand ht.1 hopen
    refine operators_succ.2 (.inr ⟨_, ?_, by rw [hb]; exact hstop, (if_pos hany).symm⟩)
    rw [hskip]
    exact (reads_operand h).complete ht hb hv
  | @unary behind u us v hu _ ih =>
    intro ts n ht hb hn
    obtain ⟨m, rfl, hm⟩ := ht.round hn
    -- the same round reads the operand behind all unary operators, whether this one is skipped
    -- already or not
    have hany : (next ts).any isUnary ≠ false := by
      rw [ht.1]
      exact fun he => Bool.false_ne_true (he.symm.trans (isUnary_iff.2 hu))
    have hr := ih ht.2 hb (Nat.le_succ_of_le hm)
    rw [operators_succ, ← skipUnary_of_unary ht.1 hu] at hr
    rw [operators_succ]
    rcases hr with ⟨w, mid, b, x, hw, hb, hmem, hx, _⟩ | ⟨w, hw, hstop, _⟩
    · exact .inl ⟨w, mid, b, x, hw, hb, hmem, hx, rfl⟩
    · exact .inr ⟨w, hw, hstop, (if_neg hany).symm⟩
  | @binary behind b us vs v w hmem hv _ ih =>
    intro ts n ht hb hn
    obtain ⟨mid, ht, hbin⟩ := takes_append.1 ht
    obtain ⟨t, us', rfl, hopen⟩ := hv.opens h.lawful
    obtain ⟨m, rfl, hm⟩ := ht.round hn
    obtain ⟨hskip, _⟩ := skipUnary_of_opensOperand ht.1 hopen
    have hlen := ht.length
    have htail := length_tail_of_next hbin.1
    rw [List.length_cons] at hlen
    refine operators_succ.2 (.inl ⟨v, mid, b, w, ?_, hbin.1, hmem, ?_, rfl⟩)
    · rw [hskip]
      exact (reads_operand h).complete ht hbin.1 hv
    · exact ih hbin.2 hb (by omega)

end

/-! ## tables -/

section
variable {value : Reader Value} {p : Inside} {ts rest : Rest} {behind : Option Token}
  {us : List Token} {v : Value}

/-- without a key, a field begins with its value -/
theorem fieldKey_plain (hb : next ts ≠ some (.mark .leftBracket))
    (hn : ∀ name, next ts = some (.name name) → next ts.tail ≠ some (.mark .equal)) :
    fieldKey value ts = .ok ts := by
  unfold fieldKey
  split
  · next h => exact absurd h hb
  · next name h => exact if_neg (hn name h)
  · rfl

theorem field_sound (hr : Reads value p.value) {mid : Rest} (hk : fieldKey value ts = .ok mid)
    (hv : value mid = .ok (v, rest)) : ∃ us, Takes ts us rest ∧ Field p (next rest) us v := by
  obtain ⟨us, ht, hp⟩ := hr.sound hv
  unfold fieldKey at hk
  split at hk
  · next hn =>
    obtain ⟨w, m, hw, hk⟩ := bind_pair_eq_ok_iff.1 hk
    obtain ⟨m', he, hk⟩ := bind_eq_ok_iff.1 hk
    obtain ⟨vs, htw, hpw⟩ := hr.sound_mark hw he
    have hkey := htw.append ((expect_eq_ok_iff.1 hk).append ht)
    rw [List.append_assoc] at hkey
    exact ⟨_, takes_cons.2 ⟨hn, hkey⟩, .element hpw hp⟩
  · next name hn =>
    split at hk
    · next he =>
      cases hk
      exact ⟨_, takes_cons.2 ⟨hn, takes_cons.2 ⟨he, ht⟩⟩, .named name hp⟩
    · cases hk
      exact ⟨us, ht, .plain hp⟩
  · cases hk
    exact ⟨us, ht, .plain hp⟩

theorem field_complete (hr : Reads value p.value) (hl : p.Lawful) (hf : Field p behind us v)
    (ht : Takes ts us rest) (hb : next rest = behind) (hne : behind ≠ some (.mark .equal)) :
    ∃ mid, fieldKey value ts = .ok mid ∧ value mid = .ok (v, rest) := by
  cases hf with
  | @element _ us w vs _ hw hv =>
    obtain ⟨hn, ht⟩ := takes_cons.1 ht
    obtain ⟨mid, mid', hkey, he, hequal, ht⟩ := hr.complete_mark ht hw
    refine ⟨mid'.tail, ?_, hr.complete ht hb hv⟩
    rw [fieldKey, hn]
    refine bind_pair_eq_ok_iff.2 ⟨w, mid, hkey, bind_eq_ok_iff.2 ⟨mid', he, ?_⟩⟩
    exact expect_eq_ok_iff.2 (takes_one.2 ⟨hequal, rfl⟩)
  | named name hv =>
    obtain ⟨hn, hequal, ht⟩ := ht
    refine ⟨ts.tail.tail, ?_, hr.complete ht hb hv⟩
    rw [fieldKey, hn]
    exact if_pos hequal
  | plain hv =>
    refine ⟨ts, fieldKey_plain ?_ ?_, hr.complete ht hb hv⟩
    · exact ht.next_ne ⟨hl.value_ne_nil hv, hl.value_ne hv rfl (by decide)⟩
    · intro name hn
      obtain ⟨t, us', rfl, _⟩ := hl.value _ _ _ hv
      obtain rfl : t = .name name := Option.some.inj (ht.1.symm.trans hn)
      have hkey := hl.key _ _ _ _ hv
      -- an equality sign behind the name would be part of the value, or stand behind it
      rw [ht.2.next]
      cases us' with
      | nil => rw [hb]; exact hne
      | cons u us' => exact hkey

theorem atSeparator_iff :
    atSeparator ts = true ↔
      ∃ s, (s = .mark .comma ∨ s = .mark .semicolon) ∧ next ts = some s := by
  unfold atSeparator
  rw [Bool.or_eq_true, decide_eq_true_iff, decide_eq_true_iff]
  constructor
  · intro h
    rcases h with h | h
    · exact ⟨_, .inl rfl, h⟩
    · exact ⟨_, .inr rfl, h⟩
  · intro h
    obtain ⟨s, rfl | rfl, h⟩ := h
    · exact .inl h
    · exact .inr h

theorem tableFields_succ (hne : next ts ≠ some (.mark .rightBrace)) {n : Nat} {vs : List Value} :
    tableFields value (n + 1) ts = .ok (vs, rest) ↔
      ∃ mid v mid', fieldKey value ts = .ok mid ∧ value mid = .ok (v, mid') ∧
        ((∃ s vs', (s = .mark .comma ∨ s = .mark .semicolon) ∧ next mid' = some s ∧
          tableFields value n mid'.tail = .ok (vs', rest) ∧ vs = v :: vs') ∨
        (¬ atSeparator mid' ∧ mid' = rest ∧ vs = [v])) := by
  rw [tableFields, if_neg hne]
  constructor
  · intro h
    obtain ⟨mid, hk, h⟩ := bind_eq_ok_iff.1 h
    obtain ⟨v, mid', hv, h⟩ := bind_pair_eq_ok_iff.1 h
    refine ⟨mid, v, mid', hk, hv, ?_⟩
    dsimp only at h
    split at h
    · next hsep =>
      obtain ⟨s, hs, hn⟩ := atSeparator_iff.1 hsep
      obtain ⟨vs', _, hvs, h⟩ := bind_pair_eq_ok_iff.1 h
      cases h
      exact .inl ⟨s, vs', hs, hn, hvs, rfl⟩
    · next hsep =>
      cases h
      exact .inr ⟨hsep, rfl, rfl⟩
  · intro h
    obtain ⟨mid, v, mid', hk, hv, h⟩ := h
    refine bind_eq_ok_iff.2 ⟨mid, hk, bind_pair_eq_ok_iff.2 ⟨v, mid', hv, ?_⟩⟩
    dsimp only
    rcases h with ⟨s, vs', hs, hn, hvs, rfl⟩ | ⟨hsep, rfl, rfl⟩
    · rw [if_pos (atSeparator_iff.2 ⟨s, hs, hn⟩)]
      exact bind_pair_eq_ok_iff.2 ⟨vs', rest, hvs, rfl⟩
    · exact if_neg hsep

theorem tableFields_sound (hr : Reads value p.value) (hl : p.Lawful) (n : Nat) : ∀ {ts vs},
    ts.length ≤ n → tableFields value n ts = .ok (vs, rest) →
      next rest = some (.mark .rightBrace) → ∃ us, Takes ts us rest ∧ Fields p us vs := by
  induction n with
  | zero =>
    intro ts vs hn ht _
    obtain ⟨v, mid, hv, _⟩ := bind_pair_eq_ok_iff.1 ht
    obtain ⟨us, ht, hp⟩ := hr.sound hv
    have hlen := ht.length
    have hpos := List.length_pos_iff.2 (hl.value_ne_nil hp)
    omega
  | succ n ih =>
    intro ts vs hn ht hb
    by_cases hne : next ts = some (.mark .rightBrace)
    · rw [tableFields, if_pos hne] at ht
      cases ht
      exact ⟨[], rfl, .nil⟩
    · obtain ⟨mid, v, mid', hk, hv, ht⟩ := (tableFields_succ hne).1 ht
      obtain ⟨us, ht', hf⟩ := field_sound hr hk hv
      rcases ht with ⟨s, vs', hs, hn', hvs, rfl⟩ | ⟨_, rfl, rfl⟩
      · have hlen := ht'.length
        have htail := length_tail_of_next hn'
        obtain ⟨ws, htw, hfs⟩ := ih (by omega) hvs hb
        rw [hn'] at hf
        exact ⟨_, ht'.append (takes_cons.2 ⟨hn', htw⟩), .more hs hf hfs⟩
      · rw [hb] at hf
        exact ⟨us, ht', .last hf⟩

theorem tableFields_complete (hr : Reads value p.value) (hl : p.Lawful) {vs : List Value}
    (hf : Fields p us vs) : ∀ {ts n}, Takes ts us rest → next rest = some (.mark .rightBrace) →
      ts.length ≤ n → tableFields value n ts = .ok (vs, rest) := by
  induction hf with
  | nil =>
    intro ts n ht hb hn
    cases ht
    obtain ⟨m, rfl, _⟩ := (takes_one.2 ⟨hb, rfl⟩).round hn
    exact if_pos hb
  | @last us v hf =>
    intro ts n ht hb hn
    have hne := hf.head_ne hl
    obtain ⟨t, us', rfl⟩ := List.exists_cons_of_ne_nil hne.1
    obtain ⟨m, rfl, _⟩ := ht.round hn
    obtain ⟨mid, hk, hv⟩ := field_complete hr hl hf ht hb nofun
    refine (tableFields_succ (ht.next_ne hne)).2 ⟨mid, v, rest, hk, hv, .inr ⟨?_, rfl, rfl⟩⟩
    unfold atSeparator
    rw [hb]
    exact nofun
  | @more s us v vs ws hs hf _ ih =>
    intro ts n ht hb hn
    have hne := hf.head_ne hl
    obtain ⟨t, us', rfl⟩ := List.exists_cons_of_ne_nil hne.1
    obtain ⟨mid', ht, hsep⟩ := takes_append.1 ht
    obtain ⟨m, rfl, hm⟩ := ht.round hn
    have hlen := ht.length
    have htail := length_tail_of_next hsep.1
    rw [List.length_cons] at hlen
    have hse : some s ≠ some (Token.mark .equal) := by
      rcases hs with rfl | rfl <;> exact nofun
    obtain ⟨mid, hk, hv⟩ := field_complete hr hl hf ht hsep.1 hse
    refine (tableFields_succ (ht.next_ne hne)).2 ⟨mid, v, mid', hk, hv, .inl ?_⟩
    exact ⟨s, ws, hs, hsep.1, ih hsep.2 hb (by omega), rfl⟩

theorem reads_tableBody (hr : Reads value p.value) (hl : p.Lawful) :
    Reads (tableBody value) fun _ => Table p := by
  intro ts vs rest
  unfold tableBody
  constructor
  · intro h
    obtain ⟨mid, hleft, h⟩ := bind_eq_ok_iff.1 h
    obtain ⟨ws, mid', hfs, h⟩ := bind_pair_eq_ok_iff.1 h
    obtain ⟨mid'', hright, h⟩ := bind_eq_ok_iff.1 h
    cases h
    have hleft := expect_eq_ok_iff.1 hleft
    have hright := expect_eq_ok_iff.1 hright
    obtain ⟨us, ht, hf⟩ := tableFields_sound hr hl _ (Nat.le_refl _) hfs (takes_one.1 hright).1
    exact ⟨_, (hleft.append ht).append hright, .braces hf⟩
  · intro h
    obtain ⟨us, ht, ⟨hf⟩⟩ := h
    obtain ⟨hleft, ht⟩ := takes_cons.1 ht
    obtain ⟨mid, ht, hright⟩ := takes_append.1 ht
    refine bind_eq_ok_iff.2 ⟨ts.tail, expect_eq_ok_iff.2 (takes_one.2 ⟨hleft, rfl⟩), ?_⟩
    refine bind_pair_eq_ok_iff.2 ⟨vs, mid, ?_, ?_⟩
    · exact tableFields_complete hr hl hf ht (takes_one.1 hright).1 (Nat.le_refl _)
    · exact bind_eq_ok_iff.2 ⟨rest, expect_eq_ok_iff.2 hright, rfl⟩

end

/-! ## all depths -/

theorem agrees_inner (depth : Nat) : (inner depth).Agrees (phrases depth) := by
  induction depth with
  | zero =>
    refine ⟨fun ts v rest => ?_, fun ts vs rest => ?_, lawful_phrases 0⟩
    · exact iff_of_false error_ne_ok fun ⟨_, _, h⟩ => h
    · exact iff_of_false error_ne_ok fun ⟨_, _, h⟩ => h
  | succ depth ih =>
    refine ⟨fun ts v rest => ⟨fun h => ?_, ?_⟩, ?_, lawful_phrases (depth + 1)⟩
    · exact operators_sound ih _ (Nat.le_refl _) h
    · intro h
      obtain ⟨us, ht, hv⟩ := h
      exact operators_complete ih hv ht rfl (Nat.le_refl _)
    · exact reads_tableBody ih.value ih.lawful

end ResourceOrder.Manifest.Parser
