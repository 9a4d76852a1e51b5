import ResourceOrder.Proofs.Manifest.Declaring
import ResourceOrder.Proofs.Manifest.Edges

/-!
# Every statement counts once

* `tokensWithin`   the tokens of a source that lie in a stretch of it;
* `shortened`      a text of more than eighty characters cut off, with three dots behind it;
* `Outcome`        a property that is written, or a report;
* `AccountedFor`   what comes of a statement: what its tokens declare is written, and if they
                   declare nothing, the statement is reported.

A statement is what its tokens in the source are (`Chunk.stmt_within`), and its text needs no
trimming.  Whether a text is cut off is seen from its bytes as from its characters
(`excerpt_eq_bytes`).  **Interpreting a source writes or reports each statement once, in order; the
reports are the diagnostics, and of the writes of a property the last one counts**
(`interpret_accounts`).
-/

namespace ResourceOrder.Manifest

/-- the tokens of the lexemes that lie in the stretch -/
def tokensWithin (ts : List Lexeme) (s : Span) : List Token :=
  (ts.filter fun t => s.start ≤ t.span.start ∧ t.span.stop ≤ s.stop).map Lexeme.token

/-- the text as a report shows it: whole up to eighty characters, else the first eighty and three
dots -/
def shortened (text : List Char) : String :=
  if text.length ≤ 80 then String.ofList text else String.ofList (text.take 80 ++ ['.', '.', '.'])

inductive Outcome where
  | write (key : String) (value : PropertyValue)
  | report (d : Diagnostic)

namespace Outcome

def write? : Outcome → Option (String × PropertyValue)
  | .write key value => some (key, value)
  | .report _ => none

def report? : Outcome → Option Diagnostic
  | .write _ _ => none
  | .report d => some d

end Outcome

/-- what comes of a statement of the source with these lexemes -/
inductive AccountedFor (source : List Char) (ts : List Lexeme) : Statement → Outcome → Prop
  | write {s : Statement} {key : String} {value : PropertyValue} :
      Grammar.Declares (tokensWithin ts s.span) (key, value) →
      AccountedFor source ts s (.write key value)
  | report {s : Statement} : (∀ w, ¬ Grammar.Declares (tokensWithin ts s.span) w) →
      AccountedFor source ts s (.report ⟨none, .unrecognizedStatement s.span.line s.span.column
        (shortened (s.span.slice source))⟩)

/-! ## the tokens of a statement -/

theorem filter_within {ts us front back : List Lexeme} {first last : Lexeme} {s : Span}
    (ha : Apart ts) (hsplit : ts = front ++ (us ++ back)) (hf : us.head? = some first)
    (hl : us.getLast? = some last) (hs : s = first.span.merge last.span) :
    (ts.filter fun t => s.start ≤ t.span.start ∧ t.span.stop ≤ s.stop) = us := by
  subst hsplit
  obtain ⟨hfront, hrest, hbefore⟩ := ha.append
  obtain ⟨hus, hback, hbehind⟩ := hrest.append
  rw [hus.merge hf hl] at hs
  subst hs
  dsimp only
  rw [List.filter_append, List.filter_append]
  have hnone : front.filter (fun t => decide (first.span.start ≤ t.span.start ∧
      t.span.stop ≤ last.span.stop)) = [] := by
    rw [List.filter_eq_nil_iff]
    intro t ht hwithin
    have hle := hbefore t ht first (List.mem_append_left _ (List.mem_of_head? hf))
    have hlt := hfront.nonempty t ht
    have hle' := (of_decide_eq_true hwithin).1
    omega
  have hnone' : back.filter (fun t => decide (first.span.start ≤ t.span.start ∧
      t.span.stop ≤ last.span.stop)) = [] := by
    rw [List.filter_eq_nil_iff]
    intro t ht hwithin
    have hle := hbehind last (List.mem_of_getLast? hl) t ht
    have hlt := hback.nonempty t ht
    have hle' := (of_decide_eq_true hwithin).2
    omega
  have hall : us.filter (fun t => decide (first.span.start ≤ t.span.start ∧
      t.span.stop ≤ last.span.stop)) = us := by
    rw [List.filter_eq_self]
    exact fun t ht => decide_eq_true (hus.within hf hl ht)
  rw [hnone, hnone', hall, List.nil_append, List.append_nil]

/-- a statement is what its tokens are -/
theorem Grammar.Chunk.stmt_within {ts : List Lexeme} {ss : List Statement} (h : Chunk ts ss)
    (ha : Apart ts) {s : Statement} (hs : s ∈ ss) : Stmt none (tokensWithin ts s.span) s.kind := by
  obtain ⟨front, us, back, first, last, hsplit, hstmt, hf, hl, hspan⟩ := h.exists_of_mem hs
  rw [tokensWithin, filter_within ha hsplit hf hl hspan]
  exact hstmt.before ends_none

/-! ## the text of a report -/

theorem excerpt_eq_shortened (text : List Char) : excerpt text = shortened text := by
  have hlen : (text.take excerptLimit).length = min 80 text.length := List.length_take
  unfold excerpt shortened
  dsimp only
  by_cases h : text.length ≤ 80
  · have hwhole : text.take excerptLimit = text := List.take_of_length_le h
    rw [if_neg (by omega), if_pos h, hwhole]
  · rw [if_pos (by omega), if_neg h]
    rfl

theorem byteCount_take_lt_iff (n : Nat) (text : List Char) :
    byteCount (text.take n) < byteCount text ↔ n < text.length := by
  have hsplit := congrArg byteCount (List.take_append_drop n text)
  rw [byteCount_append] at hsplit
  by_cases h : n < text.length
  · have hpos := byteCount_pos fun he => Nat.not_le.2 h (List.drop_eq_nil_iff.1 he)
    exact iff_of_true (by omega) h
  · rw [List.drop_eq_nil_of_le (Nat.le_of_not_lt h), byteCount_nil] at hsplit
    exact iff_of_false (by omega) h

/-- a text is cut off after so many characters, and whether it is cut off is seen from its bytes
as well -/
theorem excerpt_eq_bytes (text : List Char) :
    excerpt text = String.ofList
      (if byteCount (text.take excerptLimit) < byteCount text then
        text.take excerptLimit ++ ['.', '.', '.'] else text.take excerptLimit) := by
  have hlen : (text.take excerptLimit).length < text.length ↔ excerptLimit < text.length := by
    rw [List.length_take]
    omega
  unfold excerpt
  simp only [byteCount_take_lt_iff, hlen]

/-! ## writes and reports -/

/-- what comes of a statement by its kind -/
def outcome (source : List Char) (s : Statement) : Outcome :=
  match declared? s.kind with
  | some (key, value) => .write key value
  | none => .report (unrecognized source s)

theorem write?_outcome (source : List Char) (s : Statement) :
    (outcome source s).write? = declared? s.kind := by
  unfold outcome
  split
  · next h => exact h.symm
  · next h => exact h.symm

theorem reports_outcomes (source : List Char) (ss : List Statement) :
    ss.filterMap (fun s => (outcome source s).report?) =
      (ss.filter fun s => (declared? s.kind).isNone).map (unrecognized source) := by
  induction ss with
  | nil => rfl
  | cons s ss ih =>
    rw [List.filterMap_cons, List.filter_cons, ih]
    unfold outcome
    cases declared? s.kind <;> rfl

/-- of the values that are written for a property the last one is found -/
theorem get?_ofList_eq_some_iff {writes : List (String × PropertyValue)} {key : String}
    {value : PropertyValue} : (Properties.ofList writes).get? key = some value ↔
      ∃ front back, writes = front ++ (key, value) :: back ∧ ∀ w ∈ back, w.1 ≠ key := by
  rw [Properties.get?_ofList, List.lookup_eq_some_iff]
  constructor
  · intro h
    obtain ⟨back, front, hsplit, hback⟩ := h
    refine ⟨front.reverse, back.reverse, ?_, fun w hw => ?_⟩
    · rw [← List.reverse_reverse writes, hsplit]
      simp
    · have hne := hback w (List.mem_reverse.1 hw)
      exact fun he => by simp [he] at hne
  · intro h
    obtain ⟨front, back, rfl, hback⟩ := h
    refine ⟨back.reverse, front.reverse, by simp, fun w hw => ?_⟩
    have hne := hback w (List.mem_reverse.1 hw)
    simpa using Ne.symm hne

/-- **Interpreting a source accounts for each of its statements once.**  The tokens of a statement
write a property or the statement is reported, one after the other as they stand in the source; of
a property the last write counts, and there is no property that is not written. -/
theorem interpret_accounts {source : String} {ss : List Statement} (h : parse source = .ok ss) :
    ∃ ts i outcomes, tokenize source.toList = .ok ts ∧ interpret source = .ok i ∧
      ss.Pairwise (fun s s' => s.span.stop ≤ s'.span.start) ∧
      List.Forall₂ (AccountedFor source.toList ts.list) ss outcomes ∧
      i.diagnostics = outcomes.filterMap Outcome.report? ∧
      ∀ key value, i.properties.get? key = some value ↔
        ∃ front back, outcomes.filterMap Outcome.write? = front ++ (key, value) :: back ∧
          ∀ w ∈ back, w.1 ≠ key := by
  obtain ⟨hfaultless, hchunk⟩ := parse_eq_ok.1 h
  have hapart := apart_lexemesAt hfaultless .start
  refine ⟨_, .ofStatements source.toList ss, ss.map (outcome source.toList),
    tokenize_eq_ok_iff.2 ⟨hfaultless, rfl⟩,
    interpret_eq_ok_iff.2 ⟨hfaultless, ss, hchunk, rfl⟩, hchunk.pairwise hapart, ?_, ?_,
    fun key value => ?_⟩
  · rw [List.forall₂_map_right_iff, List.forall₂_same]
    intro s hs
    have hstmt := hchunk.stmt_within hapart hs
    unfold outcome
    split
    · next key value hdeclared =>
      exact .write ((Grammar.declared?_eq_some_iff hstmt).1 hdeclared)
    · next hdeclared =>
      obtain ⟨-, hframed, -⟩ := slice_of_mem h hs
      have htext : excerpt (trimText (s.span.slice source.toList)) =
          shortened (s.span.slice source.toList) := by
        rw [hframed.trimmed.trimText_eq, excerpt_eq_shortened]
      unfold unrecognized
      rw [htext]
      refine .report fun w hw => ?_
      rw [(Grammar.declared?_eq_some_iff hstmt).2 hw] at hdeclared
      cases hdeclared
  · rw [List.filterMap_map]
    exact (reports_outcomes source.toList ss).symm
  · rw [List.filterMap_map]
    have hwrites : ss.filterMap (Outcome.write? ∘ outcome source.toList) =
        ss.filterMap fun s => declared? s.kind :=
      List.filterMap_congr fun s _ => write?_outcome source.toList s
    rw [hwrites]
    exact get?_ofList_eq_some_iff

/-- a property that is written twice, in two shapes, and a statement that is no declaration -/
theorem interpret_accounts_mixed :
    ∃ ts i outcomes, tokenize "name 'a' x = 1 name \x7b 'b', c = 'd', 2 \x7d".toList = .ok ts ∧
      interpret "name 'a' x = 1 name \x7b 'b', c = 'd', 2 \x7d" = .ok i ∧
      List.Forall₂ (AccountedFor "name 'a' x = 1 name \x7b 'b', c = 'd', 2 \x7d".toList ts.list)
        [⟨.declaration "name" [.text "a"], ⟨0, 8, 1, 1⟩⟩, ⟨.other, ⟨9, 14, 1, 10⟩⟩,
          ⟨.declaration "name" [.table [.text "b", .text "d", .other]], ⟨15, 39, 1, 16⟩⟩]
        outcomes ∧
      outcomes.filterMap Outcome.report? = [⟨none, .unrecognizedStatement 1 10 "x = 1"⟩] ∧
      ∃ front back, outcomes.filterMap Outcome.write? =
        front ++ ("name", .list ["b", "d"]) :: back ∧ ∀ w ∈ back, w.1 ≠ "name" := by
  have hparse : parse "name 'a' x = 1 name \x7b 'b', c = 'd', 2 \x7d" = .ok
      [⟨.declaration "name" [.text "a"], ⟨0, 8, 1, 1⟩⟩, ⟨.other, ⟨9, 14, 1, 10⟩⟩,
        ⟨.declaration "name" [.table [.text "b", .text "d", .other]], ⟨15, 39, 1, 16⟩⟩] := by
    decide +kernel
  have hread : interpret "name 'a' x = 1 name \x7b 'b', c = 'd', 2 \x7d" = .ok
      ⟨.ofList [("name", .list ["b", "d"])], [⟨none, .unrecognizedStatement 1 10 "x = 1"⟩]⟩ := by
    decide +kernel
  obtain ⟨ts, i, outcomes, hts, hi, -, hall, hreports, hwrites⟩ := interpret_accounts hparse
  obtain rfl := Except.ok.inj (hread.symm.trans hi)
  refine ⟨ts, _, outcomes, hts, hi, hall, hreports.symm, (hwrites "name" _).1 ?_⟩
  decide +kernel

end ResourceOrder.Manifest
