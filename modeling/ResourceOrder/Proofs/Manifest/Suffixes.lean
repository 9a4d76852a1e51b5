import ResourceOrder.Proofs.Manifest.Reading

/-!
# Reading suffixed expressions

While suffixes are read, only a summary of them is kept.

* `Suffixed.extend`   the summary with one more suffix;
* `summary`           the summary of a whole suffixed expression;
* `Summarized`        suffixed expressions of which the summary is kept.

The summary tells the targets (`summary_assignable`) and the calls (`summary_ending`) apart, and
what statement a call is (`summary_kind`).  Arguments, suffixes and suffixed expressions are read
as they are derived (`reads_callArguments`, `suffixes_sound`, `suffixes_complete`,
`reads_suffixed`).
-/

namespace ResourceOrder.Manifest.Parser

open Grammar

/-! ## summaries -/

def Suffixed.extend (s : Suffixed) : Suffix → Suffixed
  | .access => ⟨none, .access⟩
  | .method => ⟨none, .call⟩
  | .call argument => s.call argument

/-- the summary of how a suffixed expression begins -/
def start : Option String → Suffixed
  | some name => ⟨some (name, []), .name⟩
  | none => ⟨none, .group⟩

def summary (s : Shape) : Suffixed := s.suffixes.foldl Suffixed.extend (start s.head)

theorem call_ending (s : Suffixed) (argument : Option Argument) :
    (s.call argument).ending = .call := by
  unfold Suffixed.call
  split <;> rfl

theorem extend_ending (s : Suffixed) (x : Suffix) :
    (s.extend x).ending = if x = .access then .access else .call := by
  cases x with
  | access => rfl
  | method => rfl
  | call argument => exact call_ending s argument

theorem summary_concat (head : Option String) (ss : List Suffix) (x : Suffix) :
    summary ⟨head, ss ++ [x]⟩ = (summary ⟨head, ss⟩).extend x := by
  unfold summary
  rw [List.foldl_append, List.foldl_cons, List.foldl_nil]

theorem summary_ending (s : Shape) : (summary s).ending = .call ↔ s.IsCall := by
  obtain ⟨head, ss⟩ := s
  rcases List.eq_nil_or_concat ss with rfl | ⟨ss, x, rfl⟩
  · refine iff_of_false ?_ (by rintro ⟨x, h, _⟩; cases h)
    cases head <;> exact nofun
  · rw [List.concat_eq_append, summary_concat, extend_ending]
    unfold Shape.IsCall
    rw [List.getLast?_concat]
    by_cases hx : x = .access
    · rw [if_pos hx]
      refine iff_of_false nofun ?_
      intro h
      obtain ⟨y, hy, hne⟩ := h
      cases hy
      exact hne hx
    · rw [if_neg hx]
      exact iff_of_true rfl ⟨x, rfl, hx⟩

theorem summary_assignable (s : Shape) : (summary s).assignable = true ↔ s.IsTarget := by
  obtain ⟨head, ss⟩ := s
  rcases List.eq_nil_or_concat ss with rfl | ⟨ss, x, rfl⟩
  · cases head with
    | none => exact iff_of_false nofun (by rintro (⟨name, h⟩ | h) <;> cases h)
    | some name => exact iff_of_true rfl (.inl ⟨name, rfl⟩)
  · rw [List.concat_eq_append, summary_concat]
    unfold Suffixed.assignable Shape.IsTarget
    rw [extend_ending, List.getLast?_concat]
    by_cases hx : x = .access
    · rw [if_pos hx]
      exact iff_of_true rfl (.inr (congrArg _ hx))
    · rw [if_neg hx]
      refine iff_of_false nofun ?_
      intro h
      rcases h with ⟨name, h⟩ | h
      · exact absurd (Shape.mk.inj h).2
          (List.append_ne_nil_of_right_ne_nil ss (List.cons_ne_nil x []))
      · exact hx (Option.some.inj h)

/-- suffixes keep a declaration going only as long as they are calls with literal arguments -/
theorem extend_declaration (ss : List Suffix) : ∀ s : Suffixed,
    (ss.foldl Suffixed.extend s).declaration =
      s.declaration.bind fun d => (ss.mapM Suffix.literal?).map fun more => (d.1, d.2 ++ more) := by
  induction ss with
  | nil =>
    intro s
    obtain ⟨_ | ⟨name, arguments⟩, ending⟩ := s
    · rfl
    · rw [List.foldl_nil, List.mapM_nil]
      exact congrArg (fun l => some (name, l)) (List.append_nil arguments).symm
  | cons x ss ih =>
    intro s
    rw [List.foldl_cons, ih, List.mapM_cons]
    obtain ⟨_ | ⟨name, arguments⟩, ending⟩ := s
    · rcases x with _ | _ | argument <;> rfl
    · rcases x with _ | _ | _ | a
      · rfl
      · rfl
      · rfl
      · show ((ss.mapM Suffix.literal?).map fun more => (name, arguments ++ [a] ++ more)) = _
        cases ss.mapM Suffix.literal? with
        | none => rfl
        | some more =>
          exact congrArg (fun l => some (name, l)) (List.append_assoc arguments [a] more)

theorem summary_kind (s : Shape) : (summary s).kind = s.kind := by
  obtain ⟨head, ss⟩ := s
  unfold Suffixed.kind Shape.kind summary
  rw [extend_declaration]
  cases head with
  | none => rfl
  | some name => cases ss.mapM Suffix.literal? <;> rfl

def Summarized (p : Inside) : Phrase Suffixed :=
  fun behind us x => ∃ s, Grammar.Suffixed p behind us s ∧ summary s = x

theorem listed_summarized {p : Inside} {behind : Option Token} {us : List Token}
    {xs : List Suffixed} :
    Listed (Summarized p) behind us xs ↔
      ∃ ss, Listed (Grammar.Suffixed p) behind us ss ∧ ss.map summary = xs := by
  constructor
  · intro h
    induction h with
    | last h hne =>
      obtain ⟨s, hs, rfl⟩ := h
      exact ⟨[s], .last hs hne, rfl⟩
    | more h _ ih =>
      obtain ⟨s, hs, rfl⟩ := h
      obtain ⟨ss, hss, rfl⟩ := ih
      exact ⟨s :: ss, .more hs hss, rfl⟩
  · intro h
    obtain ⟨ss, h, rfl⟩ := h
    induction h with
    | last h hne => exact .last ⟨_, h, rfl⟩ hne
    | more h _ ih => exact .more ⟨_, h, rfl⟩ ih

theorem all_assignable {ss : List Shape} :
    (ss.map summary).all Suffixed.assignable = true ↔ ∀ s ∈ ss, s.IsTarget := by
  rw [List.all_map, List.all_eq_true]
  exact forall₂_congr fun s _ => summary_assignable s

/-! ## arguments -/

section
variable {i : Inner} {p : Inside} {ts rest : Rest}

theorem reads_callArguments (h : i.Agrees p) :
    Reads (callArguments i) fun _ => Arguments p := by
  intro ts a rest
  constructor
  · intro hr
    unfold callArguments at hr
    split at hr
    · next s hn =>
      cases hr
      exact ⟨_, takes_one.2 ⟨hn, rfl⟩, .string s⟩
    · obtain ⟨vs, mid, hv, hr⟩ := bind_pair_eq_ok_iff.1 hr
      cases hr
      obtain ⟨us, ht, hp⟩ := h.table.sound hv
      exact ⟨us, ht, .table hp⟩
    · next hn =>
      split at hr
      · next hn' =>
        cases hr
        exact ⟨_, takes_cons.2 ⟨hn, takes_one.2 ⟨hn', rfl⟩⟩, .none⟩
      · obtain ⟨vs, mid, hv, hr⟩ := bind_pair_eq_ok_iff.1 hr
        obtain ⟨mid', he, hr⟩ := bind_eq_ok_iff.1 hr
        cases hr
        obtain ⟨us, ht, hp⟩ := (reads_items h.value).sound_mark hv he
        exact ⟨_, takes_cons.2 ⟨hn, ht⟩, .values hp⟩
    · cases hr
  · intro h
    obtain ⟨us, ht, ha⟩ := h
    cases ha with
    | string s =>
      obtain ⟨hn, rfl⟩ := takes_one.1 ht
      rw [callArguments, hn]
    | table hp =>
      obtain ⟨us', rfl⟩ := h.lawful.table _ _ hp
      rw [callArguments, ht.1]
      exact bind_pair_eq_ok_iff.2 ⟨_, rest, h.table.complete ht rfl hp, rfl⟩
    | none =>
      obtain ⟨hn, ht⟩ := takes_cons.1 ht
      obtain ⟨hn', rfl⟩ := takes_one.1 ht
      rw [callArguments, hn]
      exact if_pos hn'
    | values hp =>
      obtain ⟨hn, ht⟩ := takes_cons.1 ht
      obtain ⟨mid, _, hvs, he, rfl⟩ := (reads_items h.value).complete_mark ht hp
      -- no value begins with the parenthesis that would end an empty list
      obtain ⟨t, us', rfl, hopen⟩ := hp.opens h.lawful.value
      have hne : next ts.tail ≠ some (.mark .rightParen) := by
        rw [ht.1]
        intro ht
        obtain rfl := Option.some.inj ht
        exact absurd hopen (by decide)
      rw [callArguments, hn]
      refine (if_neg hne).trans (bind_pair_eq_ok_iff.2 ⟨_, mid, hvs, ?_⟩)
      exact bind_eq_ok_iff.2 ⟨_, he, rfl⟩

/-! ## suffixes -/

theorem suffixes_stop (h : ∀ t, next ts = some t → opensSuffix t = false) (n : Nat)
    (s : Suffixed) : suffixes i n s ts = .ok (s, ts) := by
  cases n with
  | zero => rfl
  | succ n =>
    rw [suffixes]
    split
    case h_7 => rfl
    all_goals
      have hopen := h _ (by assumption)
      exact Bool.noConfusion hopen

/-- a round reads a suffix if there is one -/
theorem suffixes_round (h : i.Agrees p) {n : Nat} {s s' : Suffixed}
    (hr : suffixes i (n + 1) s ts = .ok (s', rest)) :
    (∃ x us mid, Takes ts us mid ∧ SuffixPhrase p us x ∧
      suffixes i n (s.extend x) mid = .ok (s', rest)) ∨
    ((∀ t, next ts = some t → opensSuffix t = false) ∧ s' = s ∧ ts = rest) := by
  have hcall : ∀ {ts}, (callArguments i ts >>= fun x => suffixes i n (s.call x.1) x.2) =
      .ok (s', rest) → ∃ x us mid, Takes ts us mid ∧ SuffixPhrase p us x ∧
        suffixes i n (s.extend x) mid = .ok (s', rest) := by
    intro ts hr
    obtain ⟨a, mid, ha, hr⟩ := bind_pair_eq_ok_iff.1 hr
    obtain ⟨us, ht, hp⟩ := (reads_callArguments h).sound ha
    exact ⟨_, us, mid, ht, .call hp, hr⟩
  rw [suffixes] at hr
  split at hr
  · next hn =>
    obtain ⟨x, mid, hx, hr⟩ := bind_pair_eq_ok_iff.1 hr
    obtain ⟨_, ht, rfl⟩ := reads_name.sound hx
    exact .inl ⟨_, _, mid, takes_cons.2 ⟨hn, ht⟩, .field x, hr⟩
  · next hn =>
    obtain ⟨v, mid, hv, hr⟩ := bind_pair_eq_ok_iff.1 hr
    obtain ⟨mid', he, hr⟩ := bind_eq_ok_iff.1 hr
    obtain ⟨us, ht, hp⟩ := h.value.sound_mark hv he
    exact .inl ⟨_, _, mid', takes_cons.2 ⟨hn, ht⟩, .element hp, hr⟩
  · next hn =>
    obtain ⟨x, mid, hx, hr⟩ := bind_pair_eq_ok_iff.1 hr
    obtain ⟨a, mid', ha, hr⟩ := bind_pair_eq_ok_iff.1 hr
    obtain ⟨_, ht, rfl⟩ := reads_name.sound hx
    obtain ⟨us, ht', hp⟩ := (reads_callArguments h).sound ha
    exact .inl ⟨_, _, mid', takes_cons.2 ⟨hn, ht.append ht'⟩, .method x hp, hr⟩
  · exact .inl (hcall hr)
  · exact .inl (hcall hr)
  · exact .inl (hcall hr)
  · next h₁ h₂ h₃ h₄ h₅ h₆ =>
    cases hr
    refine .inr ⟨fun t hn => ?_, rfl, rfl⟩
    unfold opensSuffix
    split
    · exact absurd hn h₁
    · exact absurd hn h₂
    · exact absurd hn h₃
    · exact absurd hn (h₄ _)
    · exact absurd hn h₅
    · exact absurd hn h₆
    · rfl

theorem suffixes_of_suffixPhrase (h : i.Agrees p) {us : List Token} {x : Suffix} {mid : Rest}
    (ht : Takes ts us mid) (hx : SuffixPhrase p us x) (n : Nat) (s : Suffixed) :
    suffixes i (n + 1) s ts = suffixes i n (s.extend x) mid := by
  cases hx with
  | field name =>
    obtain ⟨hn, ht⟩ := takes_cons.1 ht
    have hname : Parser.name ts.tail = .ok (name, mid) := reads_name.complete ht rfl rfl
    rw [suffixes, hn]
    show (Parser.name ts.tail >>= _) = _
    rw [hname]
    rfl
  | @element us v hp =>
    obtain ⟨hn, ht⟩ := takes_cons.1 ht
    obtain ⟨mid', _, hv, he, rfl⟩ := h.value.complete_mark ht hp
    rw [suffixes, hn]
    show (i.value ts.tail >>= _) = _
    rw [hv]
    show (expect .rightBracket mid' >>= _) = _
    rw [he]
    rfl
  | @method us a name ha =>
    obtain ⟨hn, ht⟩ := takes_cons.1 ht
    obtain ⟨hname, ht⟩ := takes_cons.1 ht
    have hname : Parser.name ts.tail = .ok (name, ts.tail.tail) :=
      reads_name.complete (takes_one.2 ⟨hname, rfl⟩) rfl rfl
    have ha : callArguments i ts.tail.tail = .ok (a, mid) :=
      (reads_callArguments h).complete ht rfl ha
    rw [suffixes, hn]
    show (Parser.name ts.tail >>= _) = _
    rw [hname]
    show (callArguments i ts.tail.tail >>= _) = _
    rw [ha]
    rfl
  | @call us a ha =>
    obtain ⟨t, us', rfl, hopen⟩ := ha.opens h.lawful
    have ha : callArguments i ts = .ok (a, mid) := (reads_callArguments h).complete ht rfl ha
    have hround : suffixes i (n + 1) s ts =
        (callArguments i ts >>= fun x => suffixes i n (s.call x.1) x.2) := by
      rw [suffixes, ht.1]
      rcases hopen with ⟨s, rfl⟩ | rfl | rfl <;> rfl
    rw [hround, ha]
    rfl

theorem suffixes_sound (h : i.Agrees p) (n : Nat) : ∀ {ts s s'}, ts.length ≤ n →
    suffixes i n s ts = .ok (s', rest) →
      ∃ us ss, Takes ts us rest ∧ Suffixes p (next rest) us ss ∧
        ss.foldl Suffixed.extend s = s' := by
  induction n with
  | zero =>
    intro ts s s' hn hr
    cases hr
    obtain rfl : rest = [] := List.length_eq_zero_iff.1 (Nat.le_zero.1 hn)
    exact ⟨[], [], rfl, .nil nofun, rfl⟩
  | succ n ih =>
    intro ts s s' hn hr
    rcases suffixes_round h hr with ⟨x, us, mid, ht, hx, hr⟩ | ⟨hstop, rfl, rfl⟩
    · obtain ⟨t, us', rfl, _⟩ := hx.opens h.lawful
      have hlen := ht.length
      rw [List.length_cons] at hlen
      obtain ⟨vs, ss, ht', hss, hfold⟩ := ih (by omega) hr
      exact ⟨_, x :: ss, ht.append ht', .cons hx hss, hfold⟩
    · exact ⟨[], [], rfl, .nil hstop, rfl⟩

theorem suffixes_complete (h : i.Agrees p) {behind : Option Token} {us : List Token}
    {ss : List Suffix} (hs : Suffixes p behind us ss) : ∀ {ts n s}, Takes ts us rest →
      next rest = behind → ts.length ≤ n →
      suffixes i n s ts = .ok (ss.foldl Suffixed.extend s, rest) := by
  induction hs with
  | nil hstop =>
    intro ts n s ht hb hn
    cases ht
    exact suffixes_stop (by rw [hb]; exact hstop) n s
  | cons hx _ ih =>
    intro ts n s ht hb hn
    obtain ⟨mid, ht, ht'⟩ := takes_append.1 ht
    obtain ⟨t, us', rfl, _⟩ := hx.opens h.lawful
    have hlen := ht.length
    rw [List.length_cons] at hlen
    obtain ⟨m, rfl, _⟩ := ht.round hn
    rw [suffixes_of_suffixPhrase h ht hx]
    exact ih ht' hb (by omega)

/-! ## suffixed expressions -/

theorem reads_suffixed (h : i.Agrees p) : Reads (suffixed i) (Summarized p) := by
  intro ts x rest
  constructor
  · intro hr
    unfold suffixed at hr
    split at hr
    · next name hn =>
      obtain ⟨us, ss, ht, hss, hfold⟩ := suffixes_sound h _ (Nat.le_refl _) hr
      exact ⟨_, takes_cons.2 ⟨hn, ht⟩, ⟨some name, ss⟩, .name name hss, hfold⟩
    · next hn =>
      obtain ⟨v, mid, hv, hr⟩ := bind_pair_eq_ok_iff.1 hr
      obtain ⟨mid', he, hr⟩ := bind_eq_ok_iff.1 hr
      obtain ⟨us, ht, hp⟩ := h.value.sound_mark hv he
      obtain ⟨vs, ss, ht', hss, hfold⟩ := suffixes_sound h _ (Nat.le_refl _) hr
      have ht := ht.append ht'
      rw [List.append_assoc] at ht
      exact ⟨_, takes_cons.2 ⟨hn, ht⟩, ⟨none, ss⟩, .group hp hss, hfold⟩
    · cases hr
  · intro h
    obtain ⟨us, ht, s, hs, rfl⟩ := h
    cases hs with
    | name name hss =>
      rw [suffixed, ht.1]
      exact suffixes_complete h hss ht.2 rfl (Nat.le_refl _)
    | group hp hss =>
      obtain ⟨hn, ht⟩ := takes_cons.1 ht
      obtain ⟨mid, mid', hv, he, ht⟩ := h.value.complete_mark ht hp
      rw [suffixed, hn]
      refine bind_pair_eq_ok_iff.2 ⟨_, mid, hv, bind_eq_ok_iff.2 ⟨mid', he, ?_⟩⟩
      exact suffixes_complete h hss ht rfl (Nat.le_refl _)

end

end ResourceOrder.Manifest.Parser
