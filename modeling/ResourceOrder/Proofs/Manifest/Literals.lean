import ResourceOrder.Proofs.Manifest.Heads
import ResourceOrder.Proofs.Manifest.Places

/-!
# Strings between quotes

* `IsBody`      what may stand between two quotes: characters and escaped characters;
* `Stops`       no string character stands at the head of the text;
* `IsLiteral`   the text is one string with the given value, from its first character to its last.

A text is a body as long as possible, and then it stops (`exists_run`): at a quote, and then the
string is told by its body (`Piece.scanQuoted_closed`), or elsewhere, and then it is faulty
(`Piece.scanQuoted_open`).  **So a text in quotes is a string exactly if what stands between them
is a body and its escapes are read** (`isLiteral_iff`).
-/

namespace ResourceOrder.Manifest

/-! ## bodies -/

/-- characters other than the quote, a backslash and a newline, and pairs of a backslash and any
character -/
inductive IsBody (quote : Char) : List Char → Prop
  | nil : IsBody quote []
  | plain {c : Char} {cs : List Char} :
      c ≠ '\\' → c ≠ quote → c ≠ '\n' → IsBody quote cs → IsBody quote (c :: cs)
  | escape {d : Char} {cs : List Char} : IsBody quote cs → IsBody quote ('\\' :: d :: cs)

/-- the text ends, if need be behind a lone backslash, or a quote or a newline follows -/
def Stops (quote : Char) (text : List Char) : Prop :=
  text = [] ∨ text = ['\\'] ∨ text.head? = some quote ∨ text.head? = some '\n'

section
variable {quote : Char} {body rest text : List Char}

theorem isBody_plain_iff {c : Char} (hslash : c ≠ '\\') (hquote : c ≠ quote) (hline : c ≠ '\n') :
    IsBody quote (c :: rest) ↔ IsBody quote rest := by
  constructor
  · intro h
    cases h with
    | plain _ _ _ hrest => exact hrest
    | escape _ => exact absurd rfl hslash
  · exact .plain hslash hquote hline

theorem isBody_append_plain {tail : List Char}
    (h : ∀ d ∈ tail, d ≠ '\\' ∧ d ≠ quote ∧ d ≠ '\n') :
    IsBody quote (tail ++ rest) ↔ IsBody quote rest := by
  induction tail with
  | nil => exact Iff.rfl
  | cons d ds ih =>
    obtain ⟨⟨hslash, hquote, hline⟩, hds⟩ := List.forall_mem_cons.1 h
    rw [List.cons_append, isBody_plain_iff hslash hquote hline, ih hds]

theorem IsBody.append (ha : IsBody quote body) (hb : IsBody quote rest) :
    IsBody quote (body ++ rest) := by
  induction ha with
  | nil => exact hb
  | plain hslash hquote hline _ ih => exact .plain hslash hquote hline ih
  | escape _ ih => exact .escape ih

theorem IsBody.runLength_append (h : IsBody quote body) (rest : List Char) :
    runLength quote (body ++ rest) = body.length + runLength quote rest := by
  induction h with
  | nil => exact (Nat.zero_add _).symm
  | plain hslash hquote hline _ ih =>
    rw [List.cons_append, runLength_plain hslash hquote hline, ih, List.length_cons]
    omega
  | escape _ ih =>
    rw [List.cons_append, List.cons_append, runLength_escape, ih, List.length_cons,
      List.length_cons]
    omega

theorem Stops.runLength (hq : quote ≠ '\\') (h : Stops quote text) :
    runLength quote text = 0 := by
  rcases h with rfl | rfl | hhead | hhead
  · rfl
  · exact if_pos (.inr (.inl rfl))
  · obtain ⟨cs, rfl⟩ := List.head?_eq_some_iff.1 hhead
    exact runLength_stop hq (.inl rfl) cs
  · obtain ⟨cs, rfl⟩ := List.head?_eq_some_iff.1 hhead
    exact runLength_stop (by decide) (.inr rfl) cs

/-- a text begins with the longest body that there is, and stops behind it -/
theorem exists_run (quote : Char) (text : List Char) :
    ∃ body rest, text = body ++ rest ∧ IsBody quote body ∧ Stops quote rest := by
  fun_induction runLength quote text with
  | case1 => exact ⟨[], [], rfl, .nil, .inl rfl⟩
  | case2 c hc =>
    refine ⟨[], [c], rfl, .nil, ?_⟩
    rcases hc with rfl | rfl | rfl
    · exact .inr (.inr (.inl rfl))
    · exact .inr (.inl rfl)
    · exact .inr (.inr (.inr rfl))
  | case3 c hc =>
    obtain ⟨hquote, hslash, hline⟩ := not_or.1 hc |>.imp_right not_or.1
    exact ⟨[c], [], rfl, .plain hslash hquote hline .nil, .inl rfl⟩
  | case4 d cs ih =>
    obtain ⟨body, rest, rfl, hbody, hstops⟩ := ih
    exact ⟨_, rest, rfl, .escape hbody, hstops⟩
  | case5 c d cs hslash hc =>
    refine ⟨[], c :: d :: cs, rfl, .nil, .inr (.inr ?_)⟩
    rcases hc with rfl | rfl
    · exact .inl rfl
    · exact .inr rfl
  | case6 c d cs hslash hc ih =>
    obtain ⟨hquote, hline⟩ := not_or.1 hc
    obtain ⟨body, rest, hsplit, hbody, hstops⟩ := ih
    exact ⟨c :: body, rest, by rw [hsplit, List.cons_append],
      .plain hslash hquote hline hbody, hstops⟩

/-- there is one place only where a body stops -/
theorem run_unique {body' rest' : List Char} (hq : quote ≠ '\\') (hbody : IsBody quote body)
    (hstops : Stops quote rest) (hbody' : IsBody quote body') (hstops' : Stops quote rest')
    (h : body ++ rest = body' ++ rest') : body = body' ∧ rest = rest' := by
  have hlen := congrArg (runLength quote) h
  rw [hbody.runLength_append, hbody'.runLength_append, hstops.runLength hq,
    hstops'.runLength hq] at hlen
  exact List.append_inj h hlen

/-! ## what a quote begins -/

theorem eq_of_isQuote (hq : isQuote quote) : quote = '"' ∨ quote = '\'' := by
  simpa only [isQuote, Bool.or_eq_true, beq_iff_eq] using hq

theorem ne_backslash_of_isQuote (hq : isQuote quote) : quote ≠ '\\' := Piece.ne_of_isQuote hq rfl

/-- the fault or the string that two quotes around the body make -/
def Piece.ofBody (quote : Char) (body : List Char) : Piece :=
  match Escape.decode body with
  | some value => .token (.string (String.ofList value))
  | none => .fault (.invalidEscape (String.ofList (quote :: (body ++ [quote]))))

theorem Piece.ofBody_of_some {value : List Char} (h : Escape.decode body = some value) :
    ofBody quote body = .token (.string (String.ofList value)) := by
  rw [ofBody, h]

theorem Piece.ofBody_of_none (h : Escape.decode body = none) :
    ofBody quote body = .fault (.invalidEscape (String.ofList (quote :: (body ++ [quote])))) := by
  rw [ofBody, h]

theorem Piece.scanQuoted_closed (hq : isQuote quote) (h : IsBody quote body) (rest : List Char) :
    scanQuoted quote (body ++ quote :: rest) = (ofBody quote body, body.length + 2) := by
  have hstops : Stops quote (quote :: rest) := .inr (.inr (.inl rfl))
  have hrun : runLength quote (body ++ quote :: rest) = body.length := by
    rw [h.runLength_append, hstops.runLength (ne_backslash_of_isQuote hq), Nat.add_zero]
  unfold scanQuoted ofBody
  dsimp only
  rw [hrun, List.drop_left, List.take_left, List.head?_cons, if_pos rfl]
  cases Escape.decode body <;> rfl

theorem Piece.scanQuoted_open (hq : isQuote quote) (h : IsBody quote body)
    (hstops : Stops quote rest) (hrest : rest.head? ≠ some quote) :
    scanQuoted quote (body ++ rest) =
      (.fault (if body.getLast? = some quote then .invalidEscape (String.ofList (quote :: body))
        else .unterminatedString), body.length + 1) := by
  have hrun : runLength quote (body ++ rest) = body.length := by
    rw [h.runLength_append, hstops.runLength (ne_backslash_of_isQuote hq), Nat.add_zero]
  unfold scanQuoted
  dsimp only
  rw [hrun, List.drop_left, List.take_left, if_neg hrest]
  split
  · rfl
  · rfl

/-- a string between quotes is read up to the quote that closes it -/
theorem Piece.scan_closed (hq : isQuote quote) (h : IsBody quote body) (rest : List Char) :
    scan quote (body ++ [quote] ++ rest) =
      (ofBody quote body, (quote :: (body ++ [quote])).length) := by
  rw [scan_of_isQuote hq, List.append_assoc, List.singleton_append, scanQuoted_closed hq h,
    List.length_cons, List.length_append, List.length_singleton]

theorem Piece.scan_open (hq : isQuote quote) (h : IsBody quote body)
    (hstops : Stops quote rest) (hrest : rest.head? ≠ some quote) :
    scan quote (body ++ rest) =
      (.fault (if body.getLast? = some quote then .invalidEscape (String.ofList (quote :: body))
        else .unterminatedString), (quote :: body).length) := by
  rw [scan_of_isQuote hq, scanQuoted_open hq h hstops hrest, List.length_cons]

end

/-! ## texts that are one string -/

/-- the text has one token, a string with this value, which covers the whole of it; the end of
the text is behind it -/
def IsLiteral (text : List Char) (value : String) : Prop :=
  tokenize text =
    .ok ⟨[⟨.string value, ⟨0, byteCount text, 1, 1⟩⟩], Position.start.advance text⟩

instance (text : List Char) (value : String) : Decidable (IsLiteral text value) :=
  inferInstanceAs (Decidable (_ = _))

theorem span_whole (text : List Char) :
    Span.between .start (Position.start.advance text) = ⟨0, byteCount text, 1, 1⟩ := by
  rw [Span.between, Position.start_advance_offset]
  rfl

section
variable {quote : Char} {body : List Char} {value : String}

theorem IsLiteral.of_body (hq : isQuote quote) (hbody : IsBody quote body)
    (hdecode : Escape.decode body = some value.toList) :
    IsLiteral (quote :: (body ++ [quote])) value := by
  have hscan := Piece.scan_closed hq hbody []
  rw [Piece.ofBody_of_some hdecode, String.ofList_toList] at hscan
  rw [IsLiteral, tokenize_eq_ok_iff, ← List.append_nil (body ++ [quote])]
  refine ⟨(forall_pieces_of_scan hscan).2 ⟨nofun, faultless_nil⟩, ?_⟩
  rw [lexemesAt_of_scan hscan, lexemesAt_nil, List.append_nil, span_whole]
  rfl

theorem IsLiteral.isBody (hq : isQuote quote) (h : IsLiteral (quote :: (body ++ [quote])) value) :
    IsBody quote body ∧ Escape.decode body = some value.toList := by
  obtain ⟨hfaultless, htokens⟩ := tokenize_eq_ok_iff.1 h
  obtain ⟨run, rest, hsplit, hrun, hstops⟩ := exists_run quote (body ++ [quote])
  by_cases hclosed : rest.head? = some quote
  · obtain ⟨after, rfl⟩ := List.head?_eq_some_iff.1 hclosed
    have hsplit' : body ++ [quote] = run ++ [quote] ++ after := by
      rw [hsplit, List.append_assoc, List.singleton_append]
    have hscan := Piece.scan_closed hq hrun after
    have htokens' := congrArg Lexemes.list htokens
    rw [hsplit'] at hfaultless
    dsimp only at htokens'
    rw [hsplit', lexemesAt_of_scan hscan] at htokens'
    have hfault := ((forall_pieces_of_scan hscan).1 hfaultless).1
    cases hdecode : Escape.decode run with
    | none => exact absurd (Piece.ofBody_of_none hdecode) (hfault _)
    | some decoded =>
      rw [Piece.ofBody_of_some hdecode] at htokens'
      obtain ⟨hfirst, -⟩ := List.cons.inj htokens'
      have hvalue : value = String.ofList decoded :=
        Token.string.inj (congrArg Lexeme.token hfirst)
      -- the string covers all bytes, so nothing is left behind it
      have hbytes : byteCount (quote :: (run ++ [quote] ++ after)) =
          byteCount (quote :: (run ++ [quote])) :=
        (congrArg (fun t : Lexeme => t.span.stop) hfirst).trans (Position.start_advance_offset _)
      have hafter : after = [] := by
        by_contra hne
        have hpos := byteCount_pos hne
        rw [byteCount_cons, byteCount_cons, byteCount_append] at hbytes
        omega
      rw [hafter, List.append_nil] at hsplit'
      have hrun' : body = run := List.append_cancel_right hsplit'
      rw [hrun', hvalue, String.toList_ofList]
      exact ⟨hrun, hdecode⟩
  · have hscan := Piece.scan_open hq hrun hstops hclosed
    rw [hsplit] at hfaultless
    exact absurd rfl (((forall_pieces_of_scan hscan).1 hfaultless).1 _)

/-- **Quotes around a body whose escapes are read make a string, and nothing else between quotes
makes one.** -/
theorem isLiteral_iff (hq : isQuote quote) :
    IsLiteral (quote :: (body ++ [quote])) value ↔
      IsBody quote body ∧ Escape.decode body = some value.toList :=
  ⟨IsLiteral.isBody hq, fun ⟨hbody, hdecode⟩ => .of_body hq hbody hdecode⟩

end

end ResourceOrder.Manifest
