import ResourceOrder.Proofs.Manifest.Cutting

/-!
# Line breaks of two characters

* `crlf`, `withCrlf`           the text with a carriage return in front of each newline;
* `readBreaks`, `withNewlines` the way back (`readBreaks_crlf`);
* `Position.SameSpot`          the same line and column, at any byte.

What the scanner looks for in such a text is found where it is in the text itself: the end of a
long bracket (`indexOf?_closer_crlf`) and what the bracket holds (`longText_crlf`).  Quotes are
another matter: a backslash escapes the newline behind it, but not the two characters of such a
line break, so **a string that is not closed in its line ends there** (`runLength_line`).
-/

namespace ResourceOrder

/-! ## line breaks -/

/-- the text with a carriage return in front of each newline -/
def crlf (text : List Char) : List Char :=
  text.flatMap fun c => if c = '\n' then ['\r', '\n'] else [c]

/-- the text with a newline in place of each carriage return and newline -/
def readBreaks : List Char → List Char
  | '\r' :: '\n' :: cs => '\n' :: readBreaks cs
  | c :: cs => c :: readBreaks cs
  | [] => []

def withCrlf (s : String) : String := .ofList (crlf s.toList)

def withNewlines (s : String) : String := .ofList (readBreaks s.toList)

theorem crlf_nil : crlf [] = [] := rfl

theorem crlf_newline (cs : List Char) : crlf ('\n' :: cs) = '\r' :: '\n' :: crlf cs := rfl

theorem crlf_append (a b : List Char) : crlf (a ++ b) = crlf a ++ crlf b := List.flatMap_append

theorem crlf_cons {c : Char} (h : c ≠ '\n') (cs : List Char) : crlf (c :: cs) = c :: crlf cs := by
  unfold crlf
  rw [List.flatMap_cons, if_neg h, List.singleton_append]

theorem crlf_of_notMem {text : List Char} (h : '\n' ∉ text) : crlf text = text := by
  induction text with
  | nil => rfl
  | cons c cs ih =>
    obtain ⟨hc, hcs⟩ := List.ne_and_not_mem_of_not_mem_cons h
    rw [crlf_cons hc.symm, ih hcs]

theorem crlf_line {front : List Char} (hn : '\n' ∉ front) (tail : List Char) :
    crlf (front ++ tail) = front ++ crlf tail := by
  rw [crlf_append, crlf_of_notMem hn]

/-- a text up to its first newline, and the rest -/
theorem exists_line (text : List Char) :
    ∃ front tail, text = front ++ tail ∧ '\n' ∉ front ∧
      (tail = [] ∨ ∃ rest, tail = '\n' :: rest) := by
  by_cases h : '\n' ∈ text
  · obtain ⟨front, rest, rfl, hfront⟩ := List.eq_append_cons_of_mem h
    exact ⟨front, _, rfl, hfront, .inr ⟨rest, rfl⟩⟩
  · exact ⟨text, [], (List.append_nil text).symm, h, .inl rfl⟩

theorem readBreaks_cons {c : Char} (h : c ≠ '\r') (cs : List Char) :
    readBreaks (c :: cs) = c :: readBreaks cs := by
  rw [readBreaks]
  rintro _ rfl _
  exact h rfl

theorem readBreaks_of_notMem {text : List Char} (h : '\r' ∉ text) : readBreaks text = text := by
  induction text with
  | nil => rfl
  | cons c cs ih =>
    obtain ⟨hc, hcs⟩ := List.ne_and_not_mem_of_not_mem_cons h
    rw [readBreaks_cons hc.symm, ih hcs]

theorem readBreaks_crlf {text : List Char} (h : '\r' ∉ text) : readBreaks (crlf text) = text := by
  induction text with
  | nil => rfl
  | cons c cs ih =>
    obtain ⟨hc, hcs⟩ := List.ne_and_not_mem_of_not_mem_cons h
    by_cases hn : c = '\n'
    · subst hn
      show '\n' :: readBreaks (crlf cs) = _
      rw [ih hcs]
    · rw [crlf_cons hn, readBreaks_cons hc.symm, ih hcs]

/-- the second place is where the first one is, maybe behind more bytes -/
def Position.SameSpot (p q : Position) : Prop := q.line = p.line ∧ q.column = p.column

theorem Position.SameSpot.advance {p q : Position} (h : p.SameSpot q) (text : List Char) :
    (p.advance text).SameSpot (q.advance (crlf text)) := by
  induction text generalizing p q with
  | nil => exact h
  | cons c cs ih =>
    by_cases hc : c = '\n'
    · subst hc
      refine ih ⟨?_, rfl⟩
      show q.line + 1 = p.line + 1
      rw [h.1]
    · rw [crlf_cons hc, advance_cons, advance_cons]
      refine ih ?_
      unfold step SameSpot
      rw [if_neg hc, if_neg hc]
      exact ⟨h.1, congrArg (· + 1) h.2⟩

namespace Manifest

/-! ## long brackets -/

section
variable {mark : List Char} (hn : '\n' ∉ mark) (hr : '\r' ∉ mark)
include hn hr

/-- what has no line breaks begins the one text exactly if it begins the other -/
theorem isPrefixOf_crlf (text : List Char) :
    mark.isPrefixOf (crlf text) = mark.isPrefixOf text := by
  induction mark generalizing text with
  | nil => rw [List.isPrefixOf_nil_left, List.isPrefixOf_nil_left]
  | cons a as ih =>
    obtain ⟨han, hasn⟩ := List.ne_and_not_mem_of_not_mem_cons hn
    obtain ⟨har, hasr⟩ := List.ne_and_not_mem_of_not_mem_cons hr
    cases text with
    | nil => rfl
    | cons c cs =>
      by_cases hc : c = '\n'
      · subst hc
        rw [crlf_newline, List.isPrefixOf_cons_cons, List.isPrefixOf_cons_cons,
          beq_false_of_ne har.symm, beq_false_of_ne han.symm, Bool.false_and, Bool.false_and]
      · rw [crlf_cons hc, List.isPrefixOf_cons_cons, List.isPrefixOf_cons_cons, ih hasn hasr]

omit hn hr in
theorem indexOf?_cons_of_notMem {c : Char} (hne : mark ≠ []) (hc : c ∉ mark) (cs : List Char) :
    indexOf? mark (c :: cs) = (indexOf? mark cs).map (· + 1) := by
  rw [indexOf?]
  refine if_neg fun hp => ?_
  obtain ⟨a, as, rfl⟩ := List.exists_cons_of_ne_nil hne
  obtain ⟨hac, _⟩ := List.cons_prefix_cons.1 (List.isPrefixOf_iff_prefix.1 hp)
  exact hc (hac ▸ List.mem_cons_self ..)

/-- it is also found in the same place, told by the text in front of it -/
theorem indexOf?_crlf (hne : mark ≠ []) (text : List Char) :
    indexOf? mark (crlf text) =
      (indexOf? mark text).map fun n => (crlf (text.take n)).length := by
  induction text with
  | nil =>
    rw [crlf_nil, indexOf?, if_neg hne]
    rfl
  | cons c cs ih =>
    by_cases hc : c = '\n'
    · subst hc
      rw [crlf_newline, indexOf?_cons_of_notMem hne hr, indexOf?_cons_of_notMem hne hn,
        indexOf?_cons_of_notMem hne hn, ih]
      cases indexOf? mark cs <;> rfl
    · have hprefix := isPrefixOf_crlf hn hr (c :: cs)
      rw [crlf_cons hc] at hprefix
      rw [crlf_cons hc, indexOf?, indexOf?, hprefix, ih]
      split
      · rfl
      · cases indexOf? mark cs with
        | none => rfl
        | some n =>
          refine congrArg some ?_
          show (crlf (cs.take n)).length + 1 = (crlf (c :: cs.take n)).length
          rw [crlf_cons hc, List.length_cons]

omit hn hr in
theorem exists_of_indexOf? {n : Nat} {text : List Char} (h : indexOf? mark text = some n) :
    ∃ front rest, text = front ++ (mark ++ rest) ∧ front.length = n := by
  induction text generalizing n with
  | nil =>
    rw [indexOf?] at h
    split at h
    · next hm =>
      cases h
      exact ⟨[], [], by rw [hm]; rfl, rfl⟩
    · cases h
  | cons c cs ih =>
    rw [indexOf?] at h
    split at h
    · next hp =>
      cases h
      obtain ⟨rest, hrest⟩ := List.isPrefixOf_iff_prefix.1 hp
      exact ⟨[], rest, hrest.symm, rfl⟩
    · obtain ⟨m, hm, rfl⟩ := Option.map_eq_some_iff.1 h
      obtain ⟨front, rest, rfl, rfl⟩ := ih hm
      exact ⟨c :: front, rest, rfl, rfl⟩

end

theorem notMem_opener {c : Char} (hb : c ≠ '[') (he : c ≠ '=') (level : Nat) :
    c ∉ opener level := by
  simp [opener, hb, he, List.mem_replicate]

theorem notMem_closer {c : Char} (hb : c ≠ ']') (he : c ≠ '=') (level : Nat) :
    c ∉ closer level := by
  simp [closer, hb, he, List.mem_replicate]

theorem crlf_closer (level : Nat) : crlf (closer level) = closer level :=
  crlf_of_notMem (notMem_closer (by decide) (by decide) level)

/-- the end of a long bracket is found in both texts or in neither -/
theorem indexOf?_closer_crlf (level : Nat) (text : List Char) :
    indexOf? (closer level) (crlf text) =
      (indexOf? (closer level) text).map fun n => (crlf (text.take n)).length :=
  indexOf?_crlf (notMem_closer (by decide) (by decide) level)
    (notMem_closer (by decide) (by decide) level) (List.cons_ne_nil _ _) text

theorem longText_crlf {text : List Char} (h : '\r' ∉ text) :
    longText (crlf text) = crlf (longText text) := by
  cases text with
  | nil => rfl
  | cons c cs =>
    obtain ⟨hc, _⟩ := List.ne_and_not_mem_of_not_mem_cons h
    by_cases hn : c = '\n'
    · subst hn
      rfl
    · have hplain : ∀ ds, longText (c :: ds) = c :: ds := by
        intro ds
        unfold longText
        split
        · next heq => exact absurd (List.head_eq_of_cons_eq heq) hc.symm
        · next heq => exact absurd (List.head_eq_of_cons_eq heq) hn
        · rfl
      rw [crlf_cons hn, hplain, hplain, crlf_cons hn]

theorem notMem_longText {text : List Char} {c : Char} (h : c ∉ text) : c ∉ longText text := by
  unfold longText
  split
  · exact fun hmem => h (List.mem_cons_of_mem _ (List.mem_cons_of_mem _ hmem))
  · exact fun hmem => h (List.mem_cons_of_mem _ hmem)
  · exact h

/-! ## strings between quotes -/

/-- a string is closed in the first line, or its text ends with this line or goes on behind it; with
a carriage return in front of the newline it ends with the line -/
theorem runLength_line {quote : Char} {front : List Char} (hq : isQuote quote)
    (hn : '\n' ∉ front) (rest rest' : List Char) :
    (front.drop (runLength quote front)).head? = some quote ∨
      front.length ≤ runLength quote (front ++ '\n' :: rest) ∧
        runLength quote (front ++ '\r' :: '\n' :: rest') = front.length + 1 := by
  have hstop : ∀ cs, runLength quote ('\n' :: cs) = 0 := fun cs =>
    runLength_stop (by decide) (.inr rfl) cs
  have hreturn : ∀ cs, runLength quote ('\r' :: '\n' :: cs) = 1 := by
    intro cs
    rw [runLength_plain (by decide) (Piece.ne_of_isQuote hq (by decide)).symm (by decide), hstop]
  fun_induction runLength quote front with
  | case1 => exact .inr ⟨Nat.zero_le _, hreturn rest'⟩
  | case2 c hc =>
    rcases hc with rfl | rfl | rfl
    · exact .inl rfl
    · refine .inr ⟨?_, ?_⟩
      · show 1 ≤ runLength quote ('\\' :: '\n' :: rest)
        rw [runLength_escape]
        omega
      · show runLength quote ('\\' :: '\r' :: '\n' :: rest') = 2
        rw [runLength_escape, hstop]
    · exact absurd (List.mem_cons_self ..) hn
  | case3 c hc =>
    obtain ⟨hcq, hcb, hcn⟩ : c ≠ quote ∧ c ≠ '\\' ∧ c ≠ '\n' := by simpa only [not_or] using hc
    refine .inr ⟨?_, ?_⟩
    · show 1 ≤ runLength quote (c :: '\n' :: rest)
      rw [runLength_plain hcb hcq hcn]
      omega
    · show runLength quote (c :: '\r' :: '\n' :: rest') = 2
      rw [runLength_plain hcb hcq hcn, hreturn]
  | case4 d cs ih =>
    have hcs : '\n' ∉ cs := fun h => hn (List.mem_cons_of_mem _ (List.mem_cons_of_mem _ h))
    rcases ih hcs with hclosed | ⟨hle, hline⟩
    · rw [Nat.add_comm]
      exact .inl hclosed
    · simp only [List.cons_append, runLength_escape, hline, List.length_cons]
      exact .inr ⟨by omega, by omega⟩
  | case5 c d cs hc hend =>
    rcases hend with rfl | rfl
    · exact .inl rfl
    · exact absurd (List.mem_cons_self ..) hn
  | case6 c d cs hc hend ih =>
    obtain ⟨hcq, hcn⟩ : c ≠ quote ∧ c ≠ '\n' := by simpa only [not_or] using hend
    have hcs : '\n' ∉ d :: cs := fun h => hn (List.mem_cons_of_mem _ h)
    rcases ih hcs with hclosed | ⟨hle, hline⟩
    · rw [Nat.add_comm]
      exact .inl hclosed
    · refine .inr ?_
      show (d :: cs).length + 1 ≤ runLength quote (c :: (d :: cs ++ '\n' :: rest)) ∧
        runLength quote (c :: (d :: cs ++ '\r' :: '\n' :: rest')) = (d :: cs).length + 1 + 1
      rw [runLength_plain hc hcq hcn, runLength_plain hc hcq hcn, hline]
      exact ⟨by omega, by omega⟩

end Manifest

end ResourceOrder
