import Mathlib.Algebra.Group.Nat.Defs
import ResourceOrder.Proofs.Manifest.Extents

/-!
# The room of a statement

A name with nothing but a string behind it is a declaration.  So a statement that is reported has
three tokens at least, or begins with a keyword (`Grammar.Stmt.three_le`).  Lexemes are not empty and
lie one behind the other, so **it takes up three bytes at least** (`room_of_report`).  In front of it
there are three bytes less than in the whole text, and as many newlines at most.  **Hence the line of
a report is below the number of bytes, by two or more** (`line_of_report`).
-/

namespace ResourceOrder.Manifest

/-! ## tokens -/

namespace Grammar

section
variable {inside : Inside} {behind : Option Token} {us : List Token}

theorem Suffixes.eq_nil (hl : inside.Lawful) {ss : List Suffix}
    (h : Suffixes inside behind [] ss) : ss = [] := by
  generalize hus : ([] : List Token) = us at h
  cases h with
  | nil _ => rfl
  | cons h _ =>
    obtain ⟨t, ts, rfl, -⟩ := h.opens hl
    cases hus

/-- a call has a suffix -/
theorem Shape.IsCall.suffixes_ne_nil {s : Shape} (h : s.IsCall) : s.suffixes ≠ [] := by
  obtain ⟨x, hx, -⟩ := h
  intro he
  rw [he] at hx
  cases hx

end

theorem two_le_of_table {depth : Nat} {us : List Token} {vs : List Value}
    (h : (phrases depth).table us vs) : 2 ≤ us.length := by
  cases depth with
  | zero => exact h.elim
  | succ depth =>
    cases h with
    | braces _ => simp

/-- of the suffixes only a string as an argument has a single token -/
theorem SuffixPhrase.two_le {us : List Token} {s : Suffix} (h : SuffixPhrase outer us s) :
    2 ≤ us.length ∨ ∃ text, us = [.string text] ∧ s = .call (some (.text text)) := by
  have harguments : ∀ {us a}, Arguments outer us a →
      2 ≤ us.length ∨ ∃ text, us = [.string text] ∧ a = some (.text text) := by
    intro us a h
    cases h with
    | string text => exact .inr ⟨text, rfl, rfl⟩
    | table h => exact .inl (two_le_of_table h)
    | none => exact .inl (Nat.le_refl 2)
    | values _ => exact .inl (by simp)
  cases h with
  | field _ => exact .inl (Nat.le_refl 2)
  | element _ => exact .inl (by simp)
  | method _ _ => exact .inl (by simp)
  | call h =>
    rcases harguments h with h | ⟨text, rfl, rfl⟩
    · exact .inl h
    · exact .inr ⟨text, rfl, rfl⟩

/-- a statement that declares nothing has three tokens at least, or begins with a keyword -/
theorem Stmt.three_le {behind : Option Token} {ts : List Token} {kind : StatementKind}
    (h : Stmt behind ts kind) (hreport : declared? kind = none) :
    3 ≤ ts.length ∨ ts.head? = some (.keyword .localVar) := by
  have hlawful : outer.Lawful := lawful_phrases nestingBound
  cases h with
  | declare _ => exact .inr rfl
  | declareWith _ _ => exact .inr rfl
  | assign htargets _ hvalues =>
    obtain ⟨t, us, rfl, -⟩ := htargets.opens fun _ _ _ h => h.opens
    obtain ⟨u, vs, rfl, -⟩ := hvalues.opens fun _ _ _ h => hlawful.value _ _ _ h
    refine .inl ?_
    simp only [List.length_append, List.length_cons]
    omega
  | call hsuffixed hcall =>
    have hne := hcall.suffixes_ne_nil
    refine .inl ?_
    cases hsuffixed with
    | name name hsuffixes =>
      cases hsuffixes with
      | nil _ => exact absurd rfl hne
      | @cons _ us s vs ss hs hrest =>
        rw [List.length_cons, List.length_append]
        rcases hs.two_le with hs | ⟨text, rfl, rfl⟩
        · omega
        · cases vs with
          | nil =>
            obtain rfl := hrest.eq_nil hlawful
            cases hreport
          | cons v vs =>
            simp only [List.length_cons]
            omega
    | @group _ us _ vs _ _ hsuffixes =>
      cases vs with
      | nil => exact absurd (hsuffixes.eq_nil hlawful) hne
      | cons v vs =>
        simp only [List.length_append, List.length_cons]
        omega

end Grammar

/-! ## bytes -/

/-- each of the lexemes takes up a byte at least -/
theorem Apart.length_le {ts : List Lexeme} {first last : Lexeme} (h : Apart ts)
    (hf : ts.head? = some first) (hl : ts.getLast? = some last) :
    first.span.start + ts.length ≤ last.span.stop := by
  induction ts generalizing first with
  | nil => cases hf
  | cons t ts ih =>
    obtain rfl : t = first := Option.some.inj hf
    have hpos := h.nonempty t (List.mem_cons_self ..)
    cases ts with
    | nil =>
      obtain rfl : t = last := Option.some.inj hl
      exact hpos
    | cons u us =>
      have hle := (List.pairwise_cons.1 h.ordered).1 u (List.mem_cons_self ..)
      have hrest := ih h.tail rfl (by rwa [List.getLast?_cons_cons] at hl)
      rw [List.length_cons]
      omega

section
variable {text : List Char}

/-- a token that is no string takes up the bytes of its text -/
theorem byteCount_text {t : Lexeme} (hf : Faultless text) (ht : t ∈ lexemesAt .start text)
    (hstring : ∀ value, t.token ≠ .string value) :
    t.span.start + byteCount t.token.text.toList = t.span.stop := by
  obtain ⟨front, word, back, -, hword, hspan⟩ := (covered_lexemesAt hf .start).exists_of_mem ht
  rw [hword.text_eq hstring, hspan]
  exact (Position.advance_offset _ word).symm

variable {ss : List Statement} {s : Statement}
  (hf : Faultless text) (h : Grammar.Chunk (lexemesAt .start text) ss) (hs : s ∈ ss)
  (hreport : declared? s.kind = none)
include hf h hs hreport

/-- **a statement that is reported takes up three bytes at least** -/
theorem room_of_report : s.span.start + 3 ≤ s.span.stop := by
  obtain ⟨front, us, back, first, last, hsplit, hstmt, hfirst, hlast, hspan⟩ := h.exists_of_mem hs
  have hapart := (hsplit ▸ apart_lexemesAt hf .start).append.2.1.append.1
  rw [hspan, hapart.merge hfirst hlast]
  show first.span.start + 3 ≤ last.span.stop
  rcases hstmt.three_le hreport with hlen | hhead
  · have hroom := hapart.length_le hfirst hlast
    rw [List.length_map] at hlen
    omega
  · rw [List.head?_map, hfirst] at hhead
    have htoken : first.token = .keyword .localVar := Option.some.inj hhead
    have hmem : first ∈ lexemesAt .start text := by
      rw [hsplit]
      exact List.mem_append_right _ (List.mem_append_left _ (List.mem_of_head? hfirst))
    have hword := byteCount_text hf hmem fun value => by rw [htoken]; nofun
    have hfive : byteCount first.token.text.toList = 5 := by rw [htoken]; rfl
    have hstop := (hapart.within hfirst hlast (List.mem_of_head? hfirst)).2
    omega

/-- **the line of a report, and two more, are not above the number of bytes** -/
theorem line_of_report (hbound : byteCount text < 2 ^ 32) :
    s.span.line.toNat + 2 ≤ byteCount text := by
  obtain ⟨before, after, hsplit, hstart, hline, -⟩ :=
    (startsIn_of_mem_statements h s hs).trueIn hbound
  have hroom := room_of_report hf h hs hreport
  have hstop := (h.within (fun t ht => within_of_mem_lexemesAt ht) s hs).2
  have hcount := count_le_byteCount '\n' before
  have hfront : s.span.start = byteCount before := hstart
  have htrue : s.span.line.toNat = 1 + before.count '\n' := hline
  omega

end

end ResourceOrder.Manifest
