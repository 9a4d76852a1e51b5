import ResourceOrder.Proofs.Manifest.Denotation

/-!
# White space that a string skips

An escape is told by its own characters, as long as neither white space nor a digit follows, so
bodies are decoded one behind the other (`decode_append`), and `\z` with white space between them
adds nothing.  The scanner has a rule of its own: a newline ends a run of string characters
unless a backslash stands right in front of it.

**So white space behind `\z` is skipped if no newline is in it; at the first newline the string
is broken off** (`tokenize_skip`).
-/

namespace ResourceOrder.Manifest

namespace Escape

section
variable {x : Char} {cs rest body out value : List Char} (more : List Char)
  (hdigit : ¬ x.isDigit) (hblank : ¬ isBlank x)

include hdigit in
theorem EscapeFor.append {escape : List Char} {c : Char} (h : EscapeFor escape c rest) :
    EscapeFor escape c (rest ++ x :: more) := by
  cases h with
  | letter hmem => exact .letter hmem
  | byte hn => exact .byte hn
  | codePoint hcount hn => exact .codePoint hcount hn
  | decimal hempty hlen hn hle hgreedy =>
    refine .decimal hempty hlen hn hle (hgreedy.imp_right fun hrest d hd => ?_)
    cases rest with
    | nil =>
      obtain rfl := Option.some.inj hd
      exact hdigit
    | cons e es => exact hrest d hd

include hblank in
theorem dropWhile_isBlank_append (cs : List Char) :
    (cs ++ x :: more).dropWhile isBlank = cs.dropWhile isBlank ++ x :: more := by
  rw [List.dropWhile_append]
  split
  · next hempty =>
    rw [List.dropWhile_cons_of_neg hblank, List.isEmpty_iff.1 hempty, List.nil_append]
  · rfl

include hdigit hblank

/-- an escape is read as before if what follows it goes on with `x` -/
theorem unescape?_append (h : unescape? cs = some (out, rest)) :
    unescape? (cs ++ x :: more) = some (out, rest ++ x :: more) := by
  by_cases hz : cs.head? = some 'z'
  · obtain ⟨ds, rfl⟩ := List.head?_eq_some_iff.1 hz
    rw [unescape?_blanks] at h
    cases h
    rw [List.cons_append, unescape?_blanks, dropWhile_isBlank_append more hblank]
  · obtain ⟨escape, c, rfl, rfl, hescape⟩ := (unescape?_eq_some_iff hz).1 h
    rw [List.append_assoc]
    exact (hescape.append more hdigit).unescape?

theorem decode_append (h : decode body = some value) :
    decode (body ++ x :: more) = (decode (x :: more)).map (value ++ ·) := by
  fun_induction decode body generalizing value with
  | case1 =>
    cases h
    exact Option.map_id'.symm
  | case2 cs hread => cases h
  | case3 cs out rest hread ih =>
    obtain ⟨tail, htail, rfl⟩ := Option.map_eq_some_iff.1 h
    rw [List.cons_append, decode_escape (unescape?_append more hdigit hblank hread), ih htail,
      Option.map_map]
    congr 1
    funext text
    exact (List.append_assoc ..).symm
  | case4 c cs hc ih =>
    obtain ⟨tail, htail, rfl⟩ := Option.map_eq_some_iff.1 h
    rw [List.cons_append, decode_plain hc, ih htail, Option.map_map]
    rfl

end

/-- the escape and the white space behind it add nothing -/
theorem decode_skip {blanks body : List Char} (hblanks : ∀ c ∈ blanks, isBlank c)
    (hhead : ∀ c ∈ body.head?, ¬ isBlank c) :
    decode ('\\' :: 'z' :: (blanks ++ body)) = decode body := by
  have hbody : body.dropWhile isBlank = body := by
    cases body with
    | nil => rfl
    | cons c cs => exact List.dropWhile_cons_of_neg (hhead c rfl)
  have hread : unescape? ('z' :: (blanks ++ body)) = some ([], body) := by
    rw [unescape?_blanks, List.dropWhile_append_of_pos hblanks, hbody]
  rw [decode_escape hread]
  exact Option.map_id'

end Escape

/-! ## strings -/

/-- a faulty head of a text is the first fault that is reported -/
theorem first_of_scan {c : Char} {cs rest : List Char} {f : Fault}
    (hs : Piece.scan c (cs ++ rest) = (.fault f, (c :: cs).length)) :
    ∃ faults, tokenize (c :: (cs ++ rest)) = .error faults ∧
      faults.first = ⟨f, .between .start (Position.start.advance (c :: cs))⟩ := by
  have hpieces : pieces (c :: (cs ++ rest)) = ⟨.fault f, c :: cs⟩ :: pieces rest := by
    rw [pieces_cons, hs]
    dsimp only
    rw [← List.cons_append, List.take_left, List.drop_left]
  unfold tokenize placedPieces
  rw [hpieces, place_cons]
  exact ⟨_, rfl, rfl⟩

theorem ne_of_isBlank {c d : Char} (hc : isBlank c) (hd : isBlank d = false) : c ≠ d := by
  rintro rfl
  rw [hc] at hd
  cases hd

section
variable {quote : Char} {front back blanks : List Char} (hq : isQuote quote)
  (hblanks : ∀ c ∈ blanks, isBlank c)
include hq hblanks

theorem plain_of_isBlank (hline : '\n' ∉ blanks) :
    ∀ c ∈ blanks, c ≠ '\\' ∧ c ≠ quote ∧ c ≠ '\n' := by
  intro c hc
  refine ⟨ne_of_isBlank (hblanks c hc) rfl, ?_, fun he => hline (he ▸ hc)⟩
  rcases eq_of_isQuote hq with rfl | rfl
  · exact ne_of_isBlank (hblanks c hc) rfl
  · exact ne_of_isBlank (hblanks c hc) rfl

/-- a body with `\z` and white space behind it, which does not end with a quote -/
theorem isBody_skip (hfront : IsBody quote front) (hline : '\n' ∉ blanks) :
    IsBody quote (front ++ '\\' :: 'z' :: blanks) ∧
      (front ++ '\\' :: 'z' :: blanks).getLast? ≠ some quote := by
  have hplain := plain_of_isBlank hq hblanks hline
  refine ⟨hfront.append (.escape ?_), fun hlast => ?_⟩
  · rw [← List.append_nil blanks, isBody_append_plain hplain]
    exact .nil
  · rw [List.getLast?_append_of_ne_nil _ (List.cons_ne_nil _ _), List.getLast?_cons_cons] at hlast
    rcases List.mem_cons.1 (List.mem_of_getLast? hlast) with rfl | hmem
    · cases hq
    · exact (hplain quote hmem).2.1 rfl

end

/-- **A string goes on behind `\z` and the white space there if no newline is among it; it is
unterminated if there is one, and the fault ends in front of the first newline.** -/
theorem tokenize_skip {quote : Char} {front back blanks : List Char} {first second : String}
    (hq : isQuote quote) (hfront : IsLiteral (quote :: (front ++ [quote])) first)
    (hback : IsLiteral (quote :: (back ++ [quote])) second)
    (hhead : ∀ c ∈ back.head?, ¬ isBlank c) (hblanks : ∀ c ∈ blanks, isBlank c) :
    ('\n' ∉ blanks →
      IsLiteral (quote :: (front ++ '\\' :: 'z' :: (blanks ++ back) ++ [quote]))
        (first ++ second)) ∧
    ('\n' ∈ blanks →
      ∃ faults, tokenize (quote :: (front ++ '\\' :: 'z' :: (blanks ++ back) ++ [quote])) =
          .error faults ∧
        faults.first = ⟨.unterminatedString, ⟨0, byteCount (quote :: (front ++ '\\' :: 'z' ::
          blanks.takeWhile (· != '\n'))), 1, 1⟩⟩) := by
  obtain ⟨hbody, hdecode⟩ := (isLiteral_iff hq).1 hfront
  obtain ⟨hbody', hdecode'⟩ := (isLiteral_iff hq).1 hback
  constructor
  · intro hline
    refine (isLiteral_iff hq).2 ⟨hbody.append (.escape ?_), ?_⟩
    · exact (isBody_append_plain (plain_of_isBlank hq hblanks hline)).2 hbody'
    · rw [Escape.decode_append _ (by decide) (by decide) hdecode,
        Escape.decode_skip hblanks hhead, hdecode', Option.map_some, String.toList_append]
  · intro hline
    -- the run of string characters stops at the first newline
    obtain ⟨kept, after, rfl, hnone⟩ := List.eq_append_cons_of_mem hline
    obtain ⟨hkept, -⟩ := List.forall_mem_append.1 hblanks
    have htake : (kept ++ '\n' :: after).takeWhile (· != '\n') = kept := by
      have hother : ∀ c ∈ kept, (c != '\n') = true := by
        intro c hc
        rw [bne_iff_ne]
        rintro rfl
        exact hnone hc
      rw [List.takeWhile_append_of_pos hother, List.takeWhile_cons_of_neg (by decide),
        List.append_nil]
    have hsplit : front ++ '\\' :: 'z' :: (kept ++ '\n' :: after ++ back) ++ [quote] =
        front ++ '\\' :: 'z' :: kept ++ '\n' :: (after ++ back ++ [quote]) := by
      simp only [List.append_assoc, List.cons_append]
    have hquote : ('\n' :: (after ++ back ++ [quote])).head? ≠ some quote := fun he =>
      Piece.ne_of_isQuote hq rfl (Option.some.inj he).symm
    obtain ⟨hrun, hlast⟩ := isBody_skip hq hkept hbody hnone
    have hscan := Piece.scan_open hq hrun (.inr (.inr (.inr rfl))) hquote
    rw [if_neg hlast] at hscan
    obtain ⟨faults, hfaults, hfirst⟩ := first_of_scan hscan
    rw [span_whole] at hfirst
    rw [htake]
    exact ⟨faults, hsplit ▸ hfaults, hfirst⟩

/-- the tab is skipped; the string is broken off at the newline -/
theorem tokenize_skip_blanks :
    IsLiteral "'a'".toList "a" ∧ IsLiteral "'b'".toList "b" ∧
      IsLiteral "'a\\z \tb'".toList "ab" ∧
      ∃ faults, tokenize "'a\\z \n\tb'".toList = .error faults ∧
        faults.first = ⟨.unterminatedString, ⟨0, 5, 1, 1⟩⟩ := by
  have ha : IsLiteral ('\'' :: (['a'] ++ ['\''])) "a" := by decide +kernel
  have hb : IsLiteral ('\'' :: (['b'] ++ ['\''])) "b" := by decide +kernel
  have hhead : ∀ c ∈ (['b'] : List Char).head?, ¬ isBlank c := by
    rintro c ⟨⟩
    decide
  have hspace : ∀ c ∈ [' ', '\t'], isBlank c :=
    List.forall_mem_cons.2 ⟨rfl, List.forall_mem_singleton.2 rfl⟩
  have hnewline : ∀ c ∈ [' ', '\n', '\t'], isBlank c :=
    List.forall_mem_cons.2 ⟨rfl, List.forall_mem_cons.2 ⟨rfl, List.forall_mem_singleton.2 rfl⟩⟩
  exact ⟨ha, hb, (tokenize_skip rfl ha hb hhead hspace).1 (by decide),
    (tokenize_skip rfl ha hb hhead hnewline).2 (by decide)⟩

/-- **A string with `\z` in front of a line break is none**, although its two halves are strings
and `\z` skips the line break when the text is decoded. -/
theorem tokenize_skip_newline :
    IsLiteral "'a'".toList "a" ∧ IsLiteral "'b'".toList "b" ∧ isBlank '\n' ∧
      (Escape.decode "a\\z\nb".toList).map String.ofList = some "ab" ∧
      ¬ IsLiteral "'a\\z\nb'".toList "ab" := by
  decide +kernel

end ResourceOrder.Manifest
