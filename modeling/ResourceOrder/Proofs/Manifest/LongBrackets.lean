import ResourceOrder.Proofs.Manifest.Bytes
import ResourceOrder.Proofs.Manifest.LineBreaks

/-!
# Long brackets

A long string and a block comment end with the first closer of their level, wherever it stands.
The scanner looks for it among the characters; the definitions of this module look for it among the
bytes, each for itself, and check every count of bytes that they cut a text at.

* `longBracket`          an opener, a body and the closer of one level;
* `LineBreakDropped`     a text, and what is left without the line break at its head;
* `levelOfBytes?`        the level of the opener at the head of a text;
* `commentBytes?`        how far the comment behind two dashes reaches;
* `longStringBytes?`     the value of the long string behind an opener, and how far it reaches.

Both find what the scanner finds, in every text, and no cut is inside a character
(`commentBytes?_eq`, `longStringBytes?_opener`).  **So a long bracket is a string with its body as
the value, behind two dashes it is a comment, both end with the closer, and the text goes on
there** (`longBracket_is_piece`).
-/

namespace ResourceOrder.Manifest

/-- a long bracket of the level, with what is between opener and closer -/
def longBracket (level : Nat) (body : List Char) : List Char :=
  opener level ++ body ++ closer level

/-- the second text is the first one without a newline, or a carriage return and a newline, at its
head; if there is none, it is the same text -/
inductive LineBreakDropped : List Char → List Char → Prop
  | newline (cs : List Char) : LineBreakDropped ('\n' :: cs) cs
  | both (cs : List Char) : LineBreakDropped ('\r' :: '\n' :: cs) cs
  | plain {cs : List Char} : ¬ ['\n'] <+: cs → ¬ ['\r', '\n'] <+: cs → LineBreakDropped cs cs

theorem lineBreakDropped_longText (body : List Char) :
    LineBreakDropped body (longText body) := by
  unfold longText
  split
  · exact .both _
  · exact .newline _
  · next hboth hnewline =>
    refine .plain (fun h => ?_) fun h => ?_
    · obtain ⟨rest, rfl⟩ := h
      exact hnewline rest rfl
    · obtain ⟨rest, rfl⟩ := h
      exact hboth rest rfl

/-! ## by bytes -/

/-- the level of the opener at the head of a text -/
def levelOfBytes? : List Char → Option Nat
  | '[' :: cs =>
    let level := ((utf8 cs).takeWhile (· == 0x3d)).length
    if (utf8 cs)[level]? = some 0x5b then some level else none
  | _ => none

/-- how many bytes the comment behind two dashes takes up; nothing if it is a long bracket without
an end, and no answer if a count is not that of a boundary -/
def commentBytes? (text : List Char) : Option (Option Nat) :=
  match levelOfBytes? text with
  | some level =>
    (cutAt? (level + 2) text).bind fun (_, body) =>
      match firstIndex? (utf8 (closer level)) (utf8 body) with
      | some n =>
        let stop := level + 2 + n + (utf8 (closer level)).length
        (cutAt? stop text).map fun _ => some stop
      | none => some none
  | none =>
    let stop := (firstIndex? (utf8 ['\n']) (utf8 text)).getD (utf8 text).length
    (cutAt? stop text).map fun _ => some stop

/-- the value of the long string whose opener is `slice`, and how many bytes it takes up of the
text behind the opener; nothing if it has no end, and no answer if a count is not that of a
boundary, or the opener is too short -/
def longStringBytes? (slice text : List Char) : Option (Option (List Char × Nat)) :=
  if 2 ≤ (utf8 slice).length then
    let level := (utf8 slice).length - 2
    match firstIndex? (utf8 (closer level)) (utf8 text) with
    | some n =>
      let stop := n + (utf8 (closer level)).length
      (cutAt? stop text).bind fun _ =>
        (cutAt? n text).map fun (body, _) => some (longText body, stop)
    | none => some none
  else none

/-! ## what is searched for is ASCII -/

theorem isAscii_of_mem_closer {level : Nat} {c : Char} (h : c ∈ closer level) : IsAscii c := by
  rw [closer, List.mem_cons, List.mem_append, List.mem_replicate, List.mem_singleton] at h
  rcases h with rfl | ⟨_, rfl⟩ | rfl <;> decide

theorem isAscii_of_mem_opener {level : Nat} {c : Char} (h : c ∈ opener level) : IsAscii c := by
  rw [opener, List.mem_cons, List.mem_append, List.mem_replicate, List.mem_singleton] at h
  rcases h with rfl | ⟨_, rfl⟩ | rfl <;> decide

theorem byteCount_opener (level : Nat) : byteCount (opener level) = level + 2 := by
  rw [byteCount_of_isAscii fun _ => isAscii_of_mem_opener, opener_length]

theorem firstIndex?_closer (level : Nat) (text : List Char) :
    firstIndex? (utf8 (closer level)) (utf8 text) =
      (indexOf? (closer level) text).map fun n => byteCount (text.take n) :=
  firstIndex?_utf8 (fun _ => isAscii_of_mem_closer) (List.cons_ne_nil _ _) text

theorem take_of_closer {level n : Nat} {text : List Char}
    (h : indexOf? (closer level) text = some n) :
    text.take (n + (level + 2)) = text.take n ++ closer level := by
  obtain ⟨front, rest, rfl, rfl⟩ := exists_of_indexOf? h
  rw [List.take_left, ← closer_length level, ← List.length_append, ← List.append_assoc]
  exact List.take_left

/-! ## the level -/

section
variable {c : Char} (hc : IsAscii c)
include hc

theorem head?_utf8_iff (text : List Char) :
    (utf8 text).head? = some c.val.toUInt8 ↔ text.head? = some c := by
  have hmark : ∀ d ∈ [c], IsAscii d := fun d hd => List.mem_singleton.1 hd ▸ hc
  have hbegins : utf8 [c] <+: utf8 text ↔ [c] <+: text := utf8_prefix_iff hmark
  rw [utf8_cons, utf8_nil, List.append_nil, utf8EncodeChar_of_isAscii hc] at hbegins
  rw [List.head?_eq_some_iff, List.head?_eq_some_iff]
  exact ⟨fun h => (hbegins.1 (h.imp fun _ ht => ht.symm)).imp fun _ ht => ht.symm,
    fun h => (hbegins.2 (h.imp fun _ ht => ht.symm)).imp fun _ ht => ht.symm⟩

theorem takeWhile_utf8 (text : List Char) :
    (utf8 text).takeWhile (· == c.val.toUInt8) = utf8 (text.takeWhile (· == c)) := by
  induction text with
  | nil => rfl
  | cons d ds ih =>
    by_cases hd : d = c
    · subst hd
      rw [List.takeWhile_cons_of_pos (l := ds) (by simp), utf8_cons, utf8_cons,
        utf8EncodeChar_of_isAscii hc, List.singleton_append, List.singleton_append,
        List.takeWhile_cons_of_pos (by simp), ih]
    · have hhead : (utf8 (d :: ds)).head? ≠ some c.val.toUInt8 := by
        rw [Ne, head?_utf8_iff hc, List.head?_cons]
        exact fun h => hd (Option.some.inj h)
      rw [List.takeWhile_cons_of_neg (by rwa [beq_iff_eq]), utf8_nil]
      generalize utf8 (d :: ds) = bytes at hhead
      cases bytes with
      | nil => rfl
      | cons b bs =>
        refine List.takeWhile_cons_of_neg ?_
        rw [beq_iff_eq]
        exact fun h => hhead (congrArg some h)

end

theorem levelOfBytes?_of_ne {c : Char} (hc : c ≠ '[') (cs : List Char) :
    levelOfBytes? (c :: cs) = none := by
  unfold levelOfBytes?
  split
  · next h => exact absurd (List.cons.inj h).1 hc
  · rfl

theorem levelOfBytes?_eq (text : List Char) : levelOfBytes? text = level? text := by
  cases text with
  | nil => rfl
  | cons c cs =>
    by_cases hc : c = '['
    · subst hc
      have hequals : ((utf8 cs).takeWhile (· == 0x3d)) = utf8 (cs.takeWhile (· == '=')) :=
        takeWhile_utf8 (c := '=') (by decide) cs
      have hascii : ∀ c ∈ cs.takeWhile (· == '='), IsAscii c := by
        intro c hc
        have hequal := List.mem_takeWhile_imp (p := fun c => c == '=') hc
        rw [beq_iff_eq.1 hequal]
        decide
      have hlen : (utf8 (cs.takeWhile (· == '='))).length = (cs.takeWhile (· == '=')).length := by
        rw [length_utf8, byteCount_of_isAscii hascii]
      have hsplit : utf8 cs =
          utf8 (cs.takeWhile (· == '=')) ++ utf8 (cs.drop (cs.takeWhile (· == '=')).length) := by
        rw [drop_takeWhile_length, ← utf8_append, List.takeWhile_append_dropWhile]
      have hbracket : (utf8 cs)[(cs.takeWhile (· == '=')).length]? = some 0x5b ↔
          (cs.drop (cs.takeWhile (· == '=')).length).head? = some '[' := by
        rw [hsplit, ← hlen, List.getElem?_append_right (Nat.le_refl _), Nat.sub_self,
          ← List.head?_eq_getElem?, hlen]
        exact head?_utf8_iff (c := '[') (by decide) _
      simp only [levelOfBytes?, level?, hequals, hlen, hbracket]
    · rw [levelOfBytes?_of_ne hc, level?_of_ne hc]

/-! ## comments -/

theorem take_indexOf? (c : Char) (text : List Char) :
    text.take ((indexOf? [c] text).getD text.length) = text.takeWhile (· != c) := by
  induction text with
  | nil => rfl
  | cons d ds ih =>
    rw [indexOf?]
    by_cases hd : d = c
    · subst hd
      have hbegins : [d].isPrefixOf (d :: ds) := by simp
      rw [if_pos hbegins, List.takeWhile_cons_of_neg (by simp)]
      rfl
    · have hbegins : ¬ [c].isPrefixOf (d :: ds) := by simp [Ne.symm hd]
      rw [if_neg hbegins, List.takeWhile_cons_of_pos (by simpa using hd), ← ih, List.length_cons]
      cases indexOf? [c] ds <;> rfl

theorem cutAt?_take (n : Nat) (text : List Char) :
    cutAt? (byteCount (text.take n)) text = some (text.take n, text.drop n) := by
  have hcut := cutAt?_append (text.take n) (text.drop n)
  rwa [List.take_append_drop] at hcut

/-- the end of a line, by bytes -/
theorem lineBytes_eq (text : List Char) :
    (firstIndex? (utf8 ['\n']) (utf8 text)).getD (utf8 text).length =
      byteCount (text.takeWhile (· != '\n')) := by
  have hascii : ∀ c ∈ ['\n'], IsAscii c := List.forall_mem_singleton.2 (by decide)
  rw [← take_indexOf?, firstIndex?_utf8 hascii (List.cons_ne_nil _ _), length_utf8]
  cases indexOf? ['\n'] text with
  | none =>
    show byteCount text = byteCount (text.take text.length)
    rw [List.take_length]
  | some n => rfl

/-- **By bytes a comment reaches as far as by characters**, and every cut is at a boundary. -/
theorem commentBytes?_eq (text : List Char) :
    commentBytes? text = some (match Piece.scanComment text with
      | (.comment, n) => some (byteCount (text.take (n - 2)))
      | _ => none) := by
  unfold commentBytes? Piece.scanComment
  rw [levelOfBytes?_eq]
  cases hl : level? text with
  | none =>
    dsimp only
    rw [lineBytes_eq, Nat.add_sub_cancel_left, take_takeWhile_length, ← take_takeWhile_length,
      cutAt?_take]
    rfl
  | some level =>
    obtain ⟨body, rfl⟩ := level?_eq_some_iff.1 hl
    have hdrop : (opener level ++ body).drop (level + 2) = body :=
      List.drop_left' (opener_length level)
    have hcut : cutAt? (level + 2) (opener level ++ body) = some (opener level, body) := by
      rw [← byteCount_opener level]
      exact cutAt?_append ..
    dsimp only
    rw [hcut, hdrop, Option.bind_some]
    dsimp only
    rw [firstIndex?_closer]
    cases hi : indexOf? (closer level) body with
    | none => rfl
    | some n =>
      have hstop : (opener level ++ body).take (2 + (level + 2) + n + (level + 2) - 2) =
          opener level ++ (body.take n ++ closer level) := by
        have hlen : 2 + (level + 2) + n + (level + 2) - 2 =
            (opener level).length + (n + (level + 2)) := by
          rw [opener_length]
          omega
        rw [hlen, List.take_length_add_append, take_of_closer hi]
      have hcount : level + 2 + byteCount (body.take n) + (utf8 (closer level)).length =
          byteCount (opener level ++ (body.take n ++ closer level)) := by
        rw [length_utf8, byteCount_append, byteCount_append, byteCount_opener, Nat.add_assoc]
      rw [Option.map_some]
      dsimp only
      rw [hcount, ← hstop, cutAt?_take]
      rfl

/-! ## strings -/

/-- **By bytes a long string has the value and the end that it has by characters**, and every cut is
at a boundary. -/
theorem longStringBytes?_opener (level : Nat) (text : List Char) :
    longStringBytes? (opener level) text =
      some ((indexOf? (closer level) text).map fun n =>
        (longText (text.take n), byteCount (text.take (n + (level + 2))))) := by
  have hlen : (utf8 (opener level)).length = level + 2 := by rw [length_utf8, byteCount_opener]
  unfold longStringBytes?
  rw [hlen, if_pos (Nat.le_add_left 2 level), Nat.add_sub_cancel]
  dsimp only
  rw [firstIndex?_closer]
  cases hi : indexOf? (closer level) text with
  | none => rfl
  | some n =>
    have hcount : byteCount (text.take n) + (utf8 (closer level)).length =
        byteCount (text.take (n + (level + 2))) := by
      rw [take_of_closer hi, length_utf8, byteCount_append]
    rw [Option.map_some]
    dsimp only
    rw [hcount, cutAt?_take, Option.bind_some, cutAt?_take]
    rfl

/-! ## a long bracket and what follows -/

section
variable {level : Nat} {body : List Char}
  (h : ∀ front back, body ++ closer level = front ++ closer level ++ back → back = [])
include h

theorem indexOf?_longBracket (rest : List Char) :
    indexOf? (closer level) (body ++ (closer level ++ rest)) = some body.length := by
  rw [← List.append_assoc]
  exact indexOf?_of_first (List.cons_ne_nil _ _) h rest

theorem scan_longBracket (rest : List Char) :
    ∃ cs, longBracket level body = '[' :: cs ∧ Piece.scan '[' (cs ++ rest) =
      (.token (.string (String.ofList (longText body))), ('[' :: cs).length) := by
  refine ⟨_, rfl, ?_⟩
  rw [Piece.scan_bracket]
  have hopener := Piece.scanBracket_opener level (body ++ (closer level ++ rest))
  rw [indexOf?_longBracket h] at hopener
  dsimp only at hopener
  rw [List.take_left] at hopener
  have htext : opener level ++ (body ++ (closer level ++ rest)) =
      longBracket level body ++ rest := by
    simp only [longBracket, List.append_assoc]
  have hlen : level + 2 + body.length + (level + 2) = (longBracket level body).length := by
    simp only [longBracket, List.length_append, opener_length, closer_length]
  rw [htext, hlen] at hopener
  exact hopener

/-- **A long bracket is read up to its closer and no further.**  Without dashes it is a string whose
value is the body without a line break at its head, character by character; behind two dashes it is
a comment.  Either way the text goes on behind the closer, and all cuts by bytes are at
boundaries. -/
theorem longBracket_is_piece (rest : List Char) :
    ∃ value, LineBreakDropped body value ∧
      (pieces (longBracket level body ++ rest) =
          ⟨.token (.string (String.ofList value)), longBracket level body⟩ :: pieces rest ∧
        (∀ p, lexemesAt p (longBracket level body ++ rest) =
          ⟨.string (String.ofList value), .between p (p.advance (longBracket level body))⟩ ::
            lexemesAt (p.advance (longBracket level body)) rest) ∧
        longStringBytes? (opener level) (body ++ closer level ++ rest) =
          some (some (value, byteCount (body ++ closer level)))) ∧
      (pieces ('-' :: '-' :: longBracket level body ++ rest) =
          ⟨.comment, '-' :: '-' :: longBracket level body⟩ :: pieces rest ∧
        (∀ p, lexemesAt p ('-' :: '-' :: longBracket level body ++ rest) =
          lexemesAt (p.advance ('-' :: '-' :: longBracket level body)) rest) ∧
        commentBytes? (longBracket level body ++ rest) =
          some (some (byteCount (longBracket level body)))) := by
  refine ⟨longText body, lineBreakDropped_longText body, ?_, ?_⟩
  · obtain ⟨cs, htext, hs⟩ := scan_longBracket h rest
    rw [htext]
    refine ⟨pieces_of_scan hs, lexemesAt_of_scan hs, ?_⟩
    have hindex := indexOf?_longBracket h rest
    rw [longStringBytes?_opener, List.append_assoc, hindex, Option.map_some,
      take_of_closer hindex, List.take_left]
  · obtain ⟨cs, htext, hs⟩ := scan_block ⟨level, body, rfl, h⟩ rest
    have hbracket : '-' :: '-' :: longBracket level body = '-' :: cs := htext
    have hcs : cs = '-' :: longBracket level body := (List.cons.inj hbracket).2.symm
    subst hcs
    refine ⟨pieces_of_scan hs, fun p => lexemesAt_of_scan hs p, ?_⟩
    have hcomment : Piece.scanComment (longBracket level body ++ rest) =
        (.comment, ('-' :: '-' :: longBracket level body).length) := hs
    rw [commentBytes?_eq, hcomment]
    dsimp only
    show some (some (byteCount ((longBracket level body ++ rest).take
      (longBracket level body).length))) = _
    rw [List.take_left]

end

/-- a bracket of another level, a character of two bytes, a backslash and a quote in the body -/
theorem longBracket_is_piece_mixed :
    pieces (longBracket 1 "\r\n[[é]]\\n'".toList ++ "x".toList) =
        ⟨.token (.string "[[é]]\\n'"), longBracket 1 "\r\n[[é]]\\n'".toList⟩ ::
          pieces "x".toList ∧
      longStringBytes? (opener 1) ("\r\n[[é]]\\n'".toList ++ closer 1 ++ "x".toList) =
        some (some ("[[é]]\\n'".toList, 14)) ∧
      commentBytes? (longBracket 1 "\r\n[[é]]\\n'".toList ++ "x".toList) = some (some 17) := by
  have hfirst : indexOf? (closer 1) ("\r\n[[é]]\\n'".toList ++ (closer 1 ++ [])) =
      some "\r\n[[é]]\\n'".toList.length := by decide
  obtain ⟨value, hvalue, ⟨hpieces, _, hstring⟩, _, _, hcomment⟩ :=
    longBracket_is_piece (fun _ _ => first_of_indexOf? hfirst) "x".toList
  have hbody : "\r\n[[é]]\\n'".toList = '\r' :: '\n' :: "[[é]]\\n'".toList := by decide
  rw [hbody] at hvalue
  cases hvalue with
  | both =>
    rw [String.ofList_toList] at hpieces
    exact ⟨hpieces, hstring, hcomment⟩
  | plain _ hboth => exact absurd ⟨_, rfl⟩ hboth

end ResourceOrder.Manifest
