import ResourceOrder.Manifest.Parser
import ResourceOrder.Proofs.Outcome
import ResourceOrder.Proofs.Manifest.Lookahead

/-!
# Readers and phrases

* `Takes ts us rest`   the lexemes `ts` begin with the tokens `us`, and `rest` is left;
* `Reads read p`       the reader gives back something exactly if the lexemes begin with a phrase
                       of that kind, and then what is kept of the phrase, and the rest;
* `Inner.Agrees i p`   the readers of expressions and tables read the expressions and tables `p`.

What is followed by a certain mark is read together with the mark (`Reads.sound_mark`,
`Reads.complete_mark`), and a reader of items makes one of lists (`reads_items`).
-/

namespace ResourceOrder.Manifest.Parser

open Grammar

/-! ## the tokens that are read -/

def Takes : Rest → List Token → Rest → Prop
  | ts, [], rest => ts = rest
  | ts, t :: us, rest => next ts = some t ∧ Takes ts.tail us rest

section
variable {ts mid rest : Rest} {t : Token} {us vs : List Token}

theorem takes_nil : Takes ts [] rest ↔ ts = rest := Iff.rfl

theorem takes_cons : Takes ts (t :: us) rest ↔ next ts = some t ∧ Takes ts.tail us rest := Iff.rfl

theorem takes_one : Takes ts [t] rest ↔ next ts = some t ∧ ts.tail = rest := Iff.rfl

theorem takes_append :
    Takes ts (us ++ vs) rest ↔ ∃ mid, Takes ts us mid ∧ Takes mid vs rest := by
  induction us generalizing ts with
  | nil => exact ⟨fun h => ⟨ts, rfl, h⟩, fun ⟨_, h, h'⟩ => by cases h; exact h'⟩
  | cons u us ih =>
    rw [List.cons_append, takes_cons, ih]
    constructor
    · intro h
      obtain ⟨hn, mid, h, h'⟩ := h
      exact ⟨mid, ⟨hn, h⟩, h'⟩
    · intro h
      obtain ⟨mid, ⟨hn, h⟩, h'⟩ := h
      exact ⟨hn, mid, h, h'⟩

theorem Takes.append (h : Takes ts us mid) (h' : Takes mid vs rest) : Takes ts (us ++ vs) rest :=
  takes_append.2 ⟨mid, h, h'⟩

theorem length_tail_of_next (h : next ts = some t) : ts.tail.length + 1 = ts.length := by
  cases ts with
  | nil => cases h
  | cons t ts => rfl

theorem Takes.length (h : Takes ts us rest) : ts.length = us.length + rest.length := by
  induction us generalizing ts with
  | nil =>
    rw [takes_nil] at h
    rw [h, List.length_nil, Nat.zero_add]
  | cons u us ih =>
    rw [← length_tail_of_next h.1, ih h.2, List.length_cons]
    omega

theorem Takes.next (h : Takes ts us rest) : next ts = us.head?.or (next rest) := by
  cases us with
  | nil =>
    rw [takes_nil] at h
    rw [h, List.head?_nil, Option.none_or]
  | cons u us => exact h.1

theorem Takes.next_ne (h : Takes ts us rest) (hu : us ≠ [] ∧ us.head? ≠ some t) :
    Parser.next ts ≠ some t := by
  rw [h.next]
  cases us with
  | nil => exact absurd rfl hu.1
  | cons u us => exact hu.2

theorem takes_iff :
    Takes ts us rest ↔ ∃ front : List Lexeme, ts = front ++ rest ∧ front.map Lexeme.token = us := by
  induction us generalizing ts with
  | nil =>
    rw [takes_nil]
    constructor
    · intro h
      exact ⟨[], h, rfl⟩
    · intro h
      obtain ⟨front, rfl, h⟩ := h
      rw [List.map_eq_nil_iff.1 h, List.nil_append]
  | cons u us ih =>
    rw [takes_cons, ih]
    constructor
    · intro h
      obtain ⟨hn, front, htail, hmap⟩ := h
      cases ts with
      | nil => cases hn
      | cons t ts =>
        refine ⟨t :: front, congrArg (t :: ·) htail, ?_⟩
        rw [List.map_cons, hmap, Option.some.inj hn]
    · intro h
      obtain ⟨front, rfl, hmap⟩ := h
      obtain ⟨t, front', rfl, rfl, rfl⟩ := List.map_eq_cons_iff.1 hmap
      exact ⟨rfl, front', rfl, rfl⟩

/-- a loop with a round for every lexeme has a round left when a token is taken -/
theorem Takes.round (h : Takes ts (t :: us) rest) {n : Nat} (hn : ts.length ≤ n) :
    ∃ m, n = m + 1 ∧ ts.tail.length ≤ m := by
  have hlen := length_tail_of_next h.1
  exact ⟨n - 1, by omega, by omega⟩

end

/-! ## readers -/

def Reads {α : Type} (read : Reader α) (p : Phrase α) : Prop :=
  ∀ ts a rest, read ts = .ok (a, rest) ↔ ∃ us, Takes ts us rest ∧ p (next rest) us a

section
variable {α : Type} {read : Reader α} {p : Phrase α} {ts mid rest : Rest} {us vs : List Token}
  {a : α}

theorem Reads.sound (h : Reads read p) (hr : read ts = .ok (a, rest)) :
    ∃ us, Takes ts us rest ∧ p (next rest) us a :=
  (h ts a rest).1 hr

theorem Reads.complete (h : Reads read p) (ht : Takes ts us rest) {behind : Option Token}
    (hb : next rest = behind) (hp : p behind us a) : read ts = .ok (a, rest) :=
  (h ts a rest).2 ⟨us, ht, by rw [hb]; exact hp⟩

theorem expect_eq_ok_iff {m : Mark} : expect m ts = .ok rest ↔ Takes ts [.mark m] rest := by
  rw [takes_one]
  unfold expect
  split
  · next h => exact ⟨fun e => ⟨h, Except.ok.inj e⟩, fun e => congrArg _ e.2⟩
  · next h => exact iff_of_false error_ne_ok fun e => h e.1

theorem Reads.sound_mark (h : Reads read p) {m : Mark} (hr : read ts = .ok (a, mid))
    (he : expect m mid = .ok rest) :
    ∃ us, Takes ts (us ++ [.mark m]) rest ∧ p (some (.mark m)) us a := by
  obtain ⟨us, ht, hp⟩ := h.sound hr
  have hm := expect_eq_ok_iff.1 he
  rw [(takes_one.1 hm).1] at hp
  exact ⟨us, ht.append hm, hp⟩

theorem Reads.complete_mark (h : Reads read p) {m : Mark}
    (ht : Takes ts (us ++ .mark m :: vs) rest) (hp : p (some (.mark m)) us a) :
    ∃ mid mid', read ts = .ok (a, mid) ∧ expect m mid = .ok mid' ∧ Takes mid' vs rest := by
  obtain ⟨mid, ht, hm, htail⟩ := takes_append.1 ht
  have he : expect m mid = .ok mid.tail := expect_eq_ok_iff.2 (takes_one.2 ⟨hm, rfl⟩)
  exact ⟨mid, mid.tail, h.complete ht hm hp, he, htail⟩

theorem reads_name : Reads name NamePhrase := by
  intro ts s rest
  unfold name NamePhrase
  constructor
  · intro h
    split at h
    · next hn =>
      cases h
      exact ⟨_, takes_one.2 ⟨hn, rfl⟩, rfl⟩
    · cases h
  · intro h
    obtain ⟨us, ht, rfl⟩ := h
    obtain ⟨hn, rfl⟩ := takes_one.1 ht
    rw [hn]

end

structure Inner.Agrees (i : Inner) (p : Inside) : Prop where
  value : Reads i.value p.value
  table : Reads i.table fun _ => p.table
  lawful : p.Lawful

/-! ## lists -/

section
variable {α : Type} {item : Reader α} {p : Phrase α} {ts rest : Rest} {as : List α}

theorem moreItems_stop (h : next ts ≠ some (.mark .comma)) (n : Nat) :
    moreItems item n ts = .ok ([], ts) := by
  cases n with
  | zero => rfl
  | succ n => exact if_neg h

theorem moreItems_comma (h : next ts = some (.mark .comma)) (n : Nat) :
    moreItems item (n + 1) ts = .ok (as, rest) ↔
      ∃ a mid as', item ts.tail = .ok (a, mid) ∧ moreItems item n mid = .ok (as', rest) ∧
        as = a :: as' := by
  rw [moreItems, if_pos h]
  simp only [bind_pair_eq_ok_iff]
  constructor
  · intro h
    obtain ⟨a, mid, ha, as', _, has, h⟩ := h
    cases h
    exact ⟨a, mid, as', ha, has, rfl⟩
  · intro h
    obtain ⟨a, mid, as', ha, has, rfl⟩ := h
    exact ⟨a, mid, ha, as', rest, has, rfl⟩

theorem items_eq_ok_iff :
    items item ts = .ok (as, rest) ↔
      ∃ a mid as', item ts = .ok (a, mid) ∧ moreItems item mid.length mid = .ok (as', rest) ∧
        as = a :: as' := by
  unfold items
  simp only [bind_pair_eq_ok_iff]
  constructor
  · intro h
    obtain ⟨a, mid, ha, as', _, has, h⟩ := h
    cases h
    exact ⟨a, mid, as', ha, has, rfl⟩
  · intro h
    obtain ⟨a, mid, as', ha, has, rfl⟩ := h
    exact ⟨a, mid, ha, as', rest, has, rfl⟩

/-- what is read behind an item makes a list together with the item -/
theorem listed_of_moreItems (h : Reads item p) (n : Nat) : ∀ {ts mid us a as},
    Takes ts us mid → p (next mid) us a → mid.length ≤ n → moreItems item n mid = .ok (as, rest) →
      ∃ vs, Takes ts vs rest ∧ Listed p (next rest) vs (a :: as) := by
  induction n with
  | zero =>
    intro ts mid us a as ht hp hn hm
    cases hm
    obtain rfl : rest = [] := List.length_eq_zero_iff.1 (Nat.le_zero.1 hn)
    exact ⟨us, ht, .last hp nofun⟩
  | succ n ih =>
    intro ts mid us a as ht hp hn hm
    by_cases hc : next mid = some (.mark .comma)
    · obtain ⟨b, mid', as', hb, hmore, rfl⟩ := (moreItems_comma hc n).1 hm
      obtain ⟨us', ht', hp'⟩ := h.sound hb
      have hlen := ht'.length
      have htail := length_tail_of_next hc
      obtain ⟨vs, hvs, hl⟩ := ih ht' hp' (by omega) hmore
      rw [hc] at hp
      exact ⟨_, ht.append (takes_cons.2 ⟨hc, hvs⟩), .more hp hl⟩
    · rw [moreItems_stop hc] at hm
      cases hm
      exact ⟨us, ht, .last hp hc⟩

theorem moreItems_of_listed (h : Reads item p) {behind : Option Token} {us : List Token}
    (hl : Listed p behind us as) : ∀ {ts}, Takes ts us rest → next rest = behind →
      ∃ a mid as', as = a :: as' ∧ item ts = .ok (a, mid) ∧ mid.length ≤ ts.length ∧
        ∀ n, mid.length ≤ n → moreItems item n mid = .ok (as', rest) := by
  induction hl with
  | last hp hne =>
    intro ts ht hb
    have hlen := ht.length
    refine ⟨_, rest, [], rfl, h.complete ht hb hp, by omega, fun n _ => ?_⟩
    exact moreItems_stop (by rw [hb]; exact hne) n
  | more hp _ ih =>
    intro ts ht hb
    obtain ⟨mid, ht, ht'⟩ := takes_append.1 ht
    obtain ⟨b, mid', as', rfl, hb', hlen', hmore⟩ := ih ht'.2 hb
    have hlen := ht.length
    refine ⟨_, mid, _, rfl, h.complete ht ht'.1 hp, by omega, fun n hn => ?_⟩
    obtain ⟨m, rfl, hm⟩ := ht'.round hn
    exact (moreItems_comma ht'.1 m).2 ⟨b, mid', as', hb', hmore m (by omega), rfl⟩

theorem reads_items (h : Reads item p) : Reads (items item) (Listed p) := by
  intro ts as rest
  rw [items_eq_ok_iff]
  constructor
  · intro h
    obtain ⟨a, mid, as', ha, hmore, rfl⟩ := h
    obtain ⟨us, ht, hp⟩ := h.sound ha
    exact listed_of_moreItems h _ ht hp (Nat.le_refl _) hmore
  · intro h
    obtain ⟨us, ht, hl⟩ := h
    obtain ⟨a, mid, as', rfl, ha, _, hmore⟩ := moreItems_of_listed h hl ht rfl
    exact ⟨a, mid, as', ha, hmore _ (Nat.le_refl _), rfl⟩

end

end ResourceOrder.Manifest.Parser
