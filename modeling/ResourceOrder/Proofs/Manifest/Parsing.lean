import ResourceOrder.Proofs.Manifest.Expressions

/-!
# Reading statements and manifests

A statement is read as it is derived (`statement_sound`), and whatever is derived is read as long
as it is not followed by an equality sign or a comma (`statement_complete`).  No statement begins
with one of these, so inside a manifest this is always so (`Chunk.next_ne`).

**A text is read exactly if it has lexemes and they make a manifest, and then its statements are
the statements of the manifest** (`parse_eq_ok_iff`).
-/

namespace ResourceOrder.Manifest

open Grammar

namespace Parser

section
variable {ts rest : Rest} {kind : StatementKind}

theorem agrees_top : top.Agrees outer := agrees_inner nestingLimit

/-! ## statements -/

theorem localVars_sound (h : localVars ts = .ok rest) :
    ∃ us, Takes ts us rest ∧ Stmt (next rest) (.keyword .localVar :: us) .other := by
  unfold localVars at h
  split at h
  · cases h
  · obtain ⟨names, mid, hnames, h⟩ := bind_pair_eq_ok_iff.1 h
    obtain ⟨us, ht, hl⟩ := (reads_items reads_name).sound hnames
    dsimp only at h
    split at h
    · next hn =>
      obtain ⟨vs, mid', hvs, h⟩ := bind_pair_eq_ok_iff.1 h
      cases h
      obtain ⟨us', ht', hl'⟩ := (reads_items agrees_top.value).sound hvs
      rw [hn] at hl
      exact ⟨_, ht.append (takes_cons.2 ⟨hn, ht'⟩), .declareWith hl hl'⟩
    · cases h
      exact ⟨us, ht, .declare hl⟩

theorem effect_sound (h : effect ts = .ok (kind, rest)) :
    ∃ us, Takes ts us rest ∧ Stmt (next rest) us kind := by
  unfold effect at h
  obtain ⟨first, mid, hfirst, h⟩ := bind_pair_eq_ok_iff.1 h
  obtain ⟨us, ht, s, hs, rfl⟩ := (reads_suffixed agrees_top).sound hfirst
  dsimp only at h
  split at h
  · obtain ⟨more, mid', hmore, h⟩ := bind_pair_eq_ok_iff.1 h
    obtain ⟨vs, ht', hl⟩ :=
      listed_of_moreItems (reads_suffixed agrees_top) _ ht ⟨s, hs, rfl⟩ (Nat.le_refl _) hmore
    dsimp only at h
    split at h
    · next hall =>
      obtain ⟨mid'', he, h⟩ := bind_eq_ok_iff.1 h
      obtain ⟨values, mid3, hvalues, h⟩ := bind_pair_eq_ok_iff.1 h
      cases h
      obtain ⟨ws, ht3, hl3⟩ := (reads_items agrees_top.value).sound hvalues
      obtain ⟨targets, htargets, hmap⟩ := listed_summarized.1 hl
      obtain ⟨hequal, rfl⟩ := takes_one.1 (expect_eq_ok_iff.1 he)
      rw [← hmap] at hall
      rw [hequal] at htargets
      exact ⟨_, ht'.append (takes_cons.2 ⟨hequal, ht3⟩),
        .assign htargets (all_assignable.1 hall) hl3⟩
    · cases h
  · split at h
    · next hcall =>
      cases h
      rw [summary_kind]
      exact ⟨us, ht, .call hs ((summary_ending s).1 hcall)⟩
    · cases h

theorem statement_sound (h : statement ts = .ok (kind, rest)) :
    ∃ us, Takes ts us rest ∧ Stmt (next rest) us kind := by
  unfold statement at h
  split at h
  · next hn =>
    obtain ⟨mid, hvars, h⟩ := bind_eq_ok_iff.1 h
    cases h
    obtain ⟨us, ht, hs⟩ := localVars_sound hvars
    exact ⟨_, takes_cons.2 ⟨hn, ht⟩, hs⟩
  · cases h
  · exact effect_sound h

theorem localVars_complete {behind : Option Token} {us : List Token} {names : List String}
    (hl : Listed NamePhrase behind us names) {mid : Rest} (ht : Takes ts us mid)
    (hb : next mid = behind)
    (hv : next mid = some (.mark .equal) ∧ (∃ vs, items top.value mid.tail = .ok (vs, rest)) ∨
      next mid ≠ some (.mark .equal) ∧ mid = rest) : localVars ts = .ok rest := by
  have hnames := (reads_items reads_name).complete ht hb hl
  have hopen : ∃ t us', us = t :: us' ∧ ∃ s, t = .name s :=
    hl.opens fun _ _ s h => ⟨.name s, [], h, s, rfl⟩
  obtain ⟨_, us', rfl, s, rfl⟩ := hopen
  rw [localVars, ht.1]
  refine bind_pair_eq_ok_iff.2 ⟨names, mid, hnames, ?_⟩
  rcases hv with ⟨hequal, vs, hvs⟩ | ⟨hne, rfl⟩
  · refine (if_pos hequal).trans ?_
    exact bind_pair_eq_ok_iff.2 ⟨vs, rest, hvs, rfl⟩
  · exact if_neg hne

theorem statement_of_suffixed {t : Token} (hn : next ts = some t)
    (ht : (∃ name, t = .name name) ∨ t = .mark .leftParen) : statement ts = effect ts := by
  rw [statement, hn]
  rcases ht with ⟨name, rfl⟩ | rfl <;> rfl

theorem effect_of_assign {us vs : List Token} {targets : List Shape} {values : List Value}
    {mid : Rest} (hl : Listed (Grammar.Suffixed outer) (some (.mark .equal)) us targets)
    (htargets : ∀ s ∈ targets, s.IsTarget) (ht : Takes ts us mid)
    (hequal : next mid = some (.mark .equal)) (hvs : Listed outer.value (next rest) vs values)
    (htv : Takes mid.tail vs rest) : effect ts = .ok (.other, rest) := by
  have hsummed := listed_summarized.2 ⟨targets, hl, rfl⟩
  obtain ⟨first, m, more, hmap, hfirst, _, hmore⟩ :=
    moreItems_of_listed (reads_suffixed agrees_top) hsummed ht hequal
  have hmore := hmore m.length (Nat.le_refl _)
  -- a target without a comma behind it is the last one, in front of the equality sign
  have hnext : next m = some (.mark .equal) ∨ next m = some (.mark .comma) := by
    by_cases hc : next m = some (.mark .comma)
    · exact .inr hc
    · rw [moreItems_stop hc] at hmore
      cases hmore
      exact .inl hequal
  have hall : (first :: more).all Parser.Suffixed.assignable = true := by
    rw [← hmap]
    exact all_assignable.2 htargets
  have hvalues := (reads_items agrees_top.value).complete htv rfl hvs
  unfold effect
  refine bind_pair_eq_ok_iff.2 ⟨first, m, hfirst, (if_pos hnext).trans ?_⟩
  refine bind_pair_eq_ok_iff.2 ⟨more, mid, hmore, (if_pos hall).trans ?_⟩
  refine bind_eq_ok_iff.2 ⟨mid.tail, expect_eq_ok_iff.2 (takes_one.2 ⟨hequal, rfl⟩), ?_⟩
  exact bind_pair_eq_ok_iff.2 ⟨values, rest, hvalues, rfl⟩

theorem effect_of_call {us : List Token} {s : Shape}
    (hs : Grammar.Suffixed outer (next rest) us s) (hcall : s.IsCall) (ht : Takes ts us rest)
    (hequal : next rest ≠ some (.mark .equal)) (hcomma : next rest ≠ some (.mark .comma)) :
    effect ts = .ok (s.kind, rest) := by
  have hread := (reads_suffixed agrees_top).complete ht rfl ⟨s, hs, rfl⟩
  unfold effect
  refine bind_pair_eq_ok_iff.2 ⟨summary s, rest, hread, ?_⟩
  refine (if_neg (not_or.2 ⟨hequal, hcomma⟩)).trans ((if_pos ((summary_ending s).2 hcall)).trans ?_)
  rw [summary_kind]
  rfl

theorem statement_complete {us : List Token} (hs : Stmt (next rest) us kind)
    (ht : Takes ts us rest) (hequal : next rest ≠ some (.mark .equal))
    (hcomma : next rest ≠ some (.mark .comma)) : statement ts = .ok (kind, rest) := by
  cases hs with
  | declare hl =>
    have hvars := localVars_complete hl ht.2 rfl (.inr ⟨hequal, rfl⟩)
    rw [statement, ht.1]
    exact bind_eq_ok_iff.2 ⟨rest, hvars, rfl⟩
  | declareWith hl hvs =>
    obtain ⟨hn, ht⟩ := takes_cons.1 ht
    obtain ⟨mid, ht, ht'⟩ := takes_append.1 ht
    have hvalues := (reads_items agrees_top.value).complete ht'.2 rfl hvs
    have hvars := localVars_complete hl ht ht'.1 (.inl ⟨ht'.1, _, hvalues⟩)
    rw [statement, hn]
    exact bind_eq_ok_iff.2 ⟨rest, hvars, rfl⟩
  | assign hl htargets hvs =>
    obtain ⟨t, us', hus, hopen⟩ := hl.opens fun _ _ _ h => h.opens
    obtain ⟨mid, ht, ht'⟩ := takes_append.1 ht
    have hn : next ts = some t := by
      rw [hus] at ht
      exact ht.1
    rw [statement_of_suffixed hn hopen]
    exact effect_of_assign hl htargets ht ht'.1 hvs ht'.2
  | call hs hcall =>
    obtain ⟨t, us', rfl, hopen⟩ := hs.opens
    rw [statement_of_suffixed ht.1 hopen]
    exact effect_of_call hs hcall ht hequal hcomma

/-! ## chunks -/

theorem used_append (us rest : List Lexeme) : used (us ++ rest) rest = us := by
  unfold used
  rw [List.length_append, Nat.add_sub_cancel]
  exact List.take_left

theorem extent_eq {us : List Lexeme} {first last : Lexeme} (hl : us.getLast? = some last) :
    extent first us = first.span.merge last.span := by
  unfold extent
  rw [hl, Option.getD_some]

theorem statements_succ {n : Nat} {first : Lexeme} (hs : first.token ≠ .mark .semicolon)
    {ss : List Statement} :
    statements (n + 1) (first :: ts) = .ok ss ↔
      ∃ kind rest more, statement (first :: ts) = .ok (kind, rest) ∧
        statements n rest = .ok more ∧
        ss = ⟨kind, extent first (used (first :: ts) rest)⟩ :: more := by
  rw [statements, if_neg hs]
  constructor
  · intro h
    obtain ⟨kind, rest, hk, h⟩ := bind_pair_eq_ok_iff.1 h
    obtain ⟨more, hmore, h⟩ := bind_eq_ok_iff.1 h
    cases h
    exact ⟨kind, rest, more, hk, hmore, rfl⟩
  · intro h
    obtain ⟨kind, rest, more, hk, hmore, rfl⟩ := h
    exact bind_pair_eq_ok_iff.2 ⟨kind, rest, hk, bind_eq_ok_iff.2 ⟨more, hmore, rfl⟩⟩

theorem statements_sound (n : Nat) : ∀ {ts ss}, ts.length ≤ n → statements n ts = .ok ss →
    Chunk ts ss := by
  induction n with
  | zero =>
    intro ts ss hn h
    obtain rfl : ts = [] := List.length_eq_zero_iff.1 (Nat.le_zero.1 hn)
    cases h
    exact .nil
  | succ n ih =>
    intro ts ss hn h
    cases ts with
    | nil =>
      cases h
      exact .nil
    | cons first ts =>
      by_cases hs : first.token = .mark .semicolon
      · rw [statements, if_pos hs] at h
        exact .semicolon hs (ih (Nat.le_of_succ_le_succ hn) h)
      · obtain ⟨kind, rest, more, hk, hmore, rfl⟩ := (statements_succ hs).1 h
        obtain ⟨us, ht, hstmt⟩ := statement_sound hk
        have hlen := ht.length
        obtain ⟨t, us', rfl, _⟩ := hstmt.opens
        obtain ⟨front, hfront, hmap⟩ := takes_iff.1 ht
        obtain ⟨x, front, rfl, _, _⟩ := List.map_eq_cons_iff.1 hmap
        obtain rfl : first = x := List.head_eq_of_cons_eq hfront
        have hrest : rest.length ≤ n := by
          rw [hlen, List.length_cons] at hn
          omega
        rw [hfront, used_append]
        rw [← hmap] at hstmt
        have hlast := List.getLast?_eq_some_getLast (List.cons_ne_nil first front)
        rw [extent_eq hlast]
        exact .statement hstmt rfl hlast (ih hrest hmore)

theorem statements_complete {ss : List Statement} (h : Chunk ts ss) : ∀ {n}, ts.length ≤ n →
    statements n ts = .ok ss := by
  induction h with
  | nil =>
    intro n _
    cases n <;> rfl
  | @semicolon t ts ss ht _ ih =>
    intro n hn
    obtain ⟨n, rfl⟩ := Nat.exists_eq_add_one_of_ne_zero (n := n) (by rintro rfl; cases hn)
    rw [statements, if_pos ht]
    exact ih (Nat.le_of_succ_le_succ hn)
  | @statement first last us rest kind ss hs hf hlast hrest ih =>
    intro n hn
    obtain ⟨us', rfl⟩ := List.head?_eq_some_iff.1 hf
    obtain ⟨n, rfl⟩ := Nat.exists_eq_add_one_of_ne_zero (n := n) (by rintro rfl; cases hn)
    have hne : first.token ≠ .mark .semicolon := by
      obtain ⟨t, ts, hts, hopen⟩ := hs.opens
      obtain rfl : first.token = t := List.head_eq_of_cons_eq hts
      rcases hopen with he | ⟨name, he⟩ | he <;> rw [he] <;> exact nofun
    have ht : Takes (first :: us' ++ rest) ((first :: us').map Lexeme.token) rest :=
      takes_iff.2 ⟨first :: us', rfl, rfl⟩
    have hk := statement_complete hs ht hrest.next_ne.1 hrest.next_ne.2
    have hmore := ih (n := n) (by rw [List.length_append, List.length_cons] at hn; omega)
    refine (statements_succ hne).2 ⟨kind, rest, ss, hk, hmore, ?_⟩
    have hused : used (first :: us' ++ rest) rest = first :: us' := used_append _ _
    show _ = ⟨kind, extent first (used (first :: us' ++ rest) rest)⟩ :: ss
    rw [hused, extent_eq hlast]

end

end Parser

theorem parse_eq_ok_iff (source : String) (statements : List Statement) :
    parse source = .ok statements ↔
      ∃ ts, tokenize source.toList = .ok ts ∧ Chunk ts.list statements := by
  unfold parse
  cases tokenize source.toList with
  | error faults => exact iff_of_false error_ne_ok fun ⟨_, h, _⟩ => error_ne_ok h
  | ok ts =>
    constructor
    · intro h
      refine ⟨ts, rfl, Parser.statements_sound _ (Nat.le_refl _) ?_⟩
      dsimp only at h
      split at h
      · cases h
      · next hs =>
        cases h
        exact hs
    · intro h
      obtain ⟨ts', ht, h⟩ := h
      cases ht
      dsimp only
      rw [Parser.statements_complete h (Nat.le_refl _)]

end ResourceOrder.Manifest
