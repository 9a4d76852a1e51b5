import ResourceOrder.Proofs.Manifest.Tokens

/-!
# Writing manifests

Properties can be written as a manifest that says just what they are.  A line declares one of
them: its name, and behind it a string in quotes, or a table of such strings in braces.

* `escaped`    the text of a string between its quotes: a backslash, a double quote and a newline
               as escapes, and any other character as itself;
* `IsKey`      the names that can be declared: letters, digits and underscores, no digit first,
               and none of the words of the language;
* `lineText`   the line that declares a property;
* `written`    one such line after the other.

**What is written is read again, the last declaration of each name counts, and there is nothing
to report** (`interpret_written`).
-/

namespace ResourceOrder.Manifest

/-! ## texts -/

def escapedChar (c : Char) : List Char :=
  if c = '\\' then ['\\', '\\']
  else if c = '"' then ['\\', '"']
  else if c = '\n' then ['\\', 'n']
  else [c]

def escaped (cs : List Char) : List Char := cs.flatMap escapedChar

def quoted (s : String) : List Char := '"' :: (escaped s.toList ++ ['"'])

/-- a word of letters, digits and underscores, with no digit first, that is no keyword and not
reserved -/
structure IsKey (key : String) : Prop where
  word : ∃ c cs, key.toList = c :: cs ∧ (c.isAlpha ∨ c = '_') ∧
    ∀ d ∈ cs, d.isAlphanum ∨ d = '_'
  free : key ∉ Keyword.all.map Keyword.text ++ reservedWords

def valueText : PropertyValue → List Char
  | .scalar s => quoted s
  | .list items => '{' :: ' ' :: ([',', ' '].intercalate (items.map quoted) ++ [' ', '}'])

def lineText (d : String × PropertyValue) : List Char := d.1.toList ++ ' ' :: valueText d.2

/-- the declarations, one on each line; a newline may stand behind the last one or not -/
def written (newline : Bool) : List (String × PropertyValue) → List Char
  | [] => []
  | [d] => lineText d ++ if newline then ['\n'] else []
  | d :: e :: ds => lineText d ++ '\n' :: written newline (e :: ds)

/-! ## strings -/

/-- an escape, or a character that stands for itself -/
theorem escapedChar_cases (c : Char) :
    (∃ d, escapedChar c = ['\\', d] ∧
      ∀ rest, Escape.unescape? (d :: rest) = some ([c], rest)) ∨
    (escapedChar c = [c] ∧ c ≠ '\\' ∧ c ≠ '"' ∧ c ≠ '\n') := by
  unfold escapedChar
  split
  · next h => exact .inl ⟨'\\', rfl, fun rest => by rw [h]; rfl⟩
  split
  · next h => exact .inl ⟨'"', rfl, fun rest => by rw [h]; rfl⟩
  split
  · next h => exact .inl ⟨'n', rfl, fun rest => by rw [h]; rfl⟩
  · next hb hq hn => exact .inr ⟨rfl, hb, hq, hn⟩

theorem decode_escaped (cs : List Char) : Escape.decode (escaped cs) = some cs := by
  induction cs with
  | nil => exact Escape.decode_nil
  | cons c cs ih =>
    show Escape.decode (escapedChar c ++ escaped cs) = some (c :: cs)
    rcases escapedChar_cases c with ⟨d, heq, hread⟩ | ⟨heq, hb, _, _⟩
    · rw [heq]
      show Escape.decode ('\\' :: d :: escaped cs) = _
      rw [Escape.decode_escape (hread _), ih]
      rfl
    · rw [heq]
      show Escape.decode (c :: escaped cs) = _
      rw [Escape.decode_plain hb, ih]
      rfl

theorem runLength_escaped (cs rest : List Char) :
    runLength '"' (escaped cs ++ '"' :: rest) = (escaped cs).length := by
  induction cs with
  | nil => exact runLength_stop (by decide) (.inl rfl) rest
  | cons c cs ih =>
    show runLength '"' (escapedChar c ++ escaped cs ++ '"' :: rest) =
      (escapedChar c ++ escaped cs).length
    rw [List.append_assoc, List.length_append, ← ih]
    rcases escapedChar_cases c with ⟨d, heq, _⟩ | ⟨heq, hb, hq, hn⟩
    · rw [heq]
      exact runLength_escape '"' d _
    · rw [heq]
      exact runLength_plain hb hq hn _

theorem scan_quoted (s : String) (rest : List Char) :
    Piece.scan '"' (escaped s.toList ++ '"' :: rest) =
      (.token (.string s), (quoted s).length) := by
  show Piece.scanQuoted '"' (escaped s.toList ++ '"' :: rest) = _
  unfold Piece.scanQuoted
  dsimp only
  rw [runLength_escaped, List.drop_left, List.take_left, decode_escaped]
  show (Piece.token (.string (String.ofList s.toList)), (escaped s.toList).length + 2) = _
  rw [String.ofList_toList, quoted, List.length_cons, List.length_append]
  rfl

section
variable {rest : List Char} {ts : List Token}

theorem Lexes.quoted (s : String) (h : Lexes rest ts) :
    Lexes (quoted s ++ rest) (.string s :: ts) := by
  have hs := scan_quoted s rest
  have hsplit : Manifest.quoted s ++ rest = '"' :: (escaped s.toList ++ '"' :: rest) := by
    rw [Manifest.quoted, List.cons_append, List.append_assoc]
    rfl
  rw [hsplit]
  refine .token hs ?_
  rw [← hsplit, List.drop_left]
  exact h

/-! ## names -/

theorem IsKey.ofWord {key : String} (h : IsKey key) : Token.ofWord key = .name key := by
  obtain ⟨hkeyword, hreserved⟩ := not_or.1 fun hor => h.free (List.mem_append.2 hor)
  unfold Token.ofWord
  have hnone : Keyword.all.find? (fun k => k.text == key) = none := by
    rw [List.find?_eq_none]
    intro k hk he
    exact hkeyword (List.mem_map.2 ⟨k, hk, beq_iff_eq.1 he⟩)
  rw [hnone]
  exact if_neg fun hc => hreserved (List.contains_iff_mem.1 hc)

theorem isNameStart_iff {c : Char} : isNameStart c ↔ c.isAlpha ∨ c = '_' := by
  rw [isNameStart, Bool.or_eq_true, beq_iff_eq]

theorem isNamePart_iff {c : Char} : isNamePart c ↔ c.isAlphanum ∨ c = '_' := by
  rw [isNamePart, Bool.or_eq_true, beq_iff_eq]

theorem IsKey.scan {c x : Char} {cs : List Char} {key : String} (h : IsKey key)
    (hk : key.toList = c :: cs) (hx : isNamePart x = false) :
    Piece.scan c (cs ++ x :: rest) = (.token (.name key), (c :: cs).length) := by
  obtain ⟨c', cs', hk', hc, hcs⟩ := h.word
  obtain ⟨rfl, rfl⟩ := List.cons_eq_cons.1 (hk.symm.trans hk')
  have hstart : isNameStart c := isNameStart_iff.2 hc
  have hparts : ∀ d ∈ c :: cs, isNamePart d = true := by
    intro d hd
    rcases List.mem_cons.1 hd with rfl | hd
    · exact Piece.isNamePart_of_isNameStart hstart
    · exact isNamePart_iff.2 (hcs d hd)
  have hword : (c :: (cs ++ x :: rest)).takeWhile isNamePart = c :: cs := by
    rw [← List.cons_append, List.takeWhile_append_of_pos hparts,
      List.takeWhile_cons_of_neg (by rw [hx]; exact Bool.false_ne_true), List.append_nil]
  have hgap : ¬ isGap c := by
    intro hgap
    have := isNamePart_of_isGap hgap
    rw [hparts c (List.mem_cons_self ..)] at this
    cases this
  unfold Piece.scan
  dsimp only
  rw [if_neg hgap, if_pos hstart, hword, ← hk, String.ofList_toList, h.ofWord]

theorem Lexes.key {key : String} (hkey : IsKey key) (h : Lexes rest ts) :
    Lexes (key.toList ++ ' ' :: rest) (.name key :: ts) := by
  obtain ⟨c, cs, hk, _, _⟩ := hkey.word
  rw [hk]
  refine .token (hkey.scan hk (by decide)) ?_
  show Lexes ((c :: cs ++ ' ' :: rest).drop (c :: cs).length) ts
  rw [List.drop_left]
  exact h.gap (by decide)

/-! ## lines -/

theorem Lexes.mark {c : Char} {m : Mark} (hm : ∀ cs, Piece.scan c cs = (.token (.mark m), 1))
    (h : Lexes rest ts) : Lexes (c :: rest) (.mark m :: ts) :=
  .token (hm rest) h

def itemTokens (items : List String) : List Token :=
  (items.map Token.string).intersperse (.mark .comma)

def valueTokens : PropertyValue → List Token
  | .scalar s => [.string s]
  | .list items => .mark .leftBrace :: itemTokens items ++ [.mark .rightBrace]

def lineTokens (d : String × PropertyValue) : List Token := .name d.1 :: valueTokens d.2

theorem Lexes.items (items : List String) (h : Lexes rest ts) :
    Lexes ([',', ' '].intercalate (items.map Manifest.quoted) ++ rest)
      (itemTokens items ++ ts) := by
  match items with
  | [] => exact h
  | [v] =>
    rw [List.map_singleton, List.intercalate_singleton]
    exact h.quoted v
  | v :: w :: items =>
    rw [List.map_cons, List.map_cons, List.intercalate_cons_cons, List.append_assoc,
      List.append_assoc]
    exact (((Lexes.items (w :: items) h).gap (by decide)).mark fun _ => rfl).quoted v

theorem Lexes.value (value : PropertyValue) (h : Lexes rest ts) :
    Lexes (valueText value ++ rest) (valueTokens value ++ ts) := by
  cases value with
  | scalar s => exact h.quoted s
  | list items =>
    have hclose : Lexes (' ' :: '}' :: rest) (.mark .rightBrace :: ts) :=
      (h.mark fun _ => rfl).gap (by decide)
    have hbody := (hclose.items items).gap (c := ' ') (by decide)
    show Lexes ('{' :: ' ' :: (([',', ' '].intercalate (items.map Manifest.quoted) ++ [' ', '}']) ++
      rest)) (.mark .leftBrace :: (itemTokens items ++ [.mark .rightBrace] ++ ts))
    rw [List.append_assoc, List.append_assoc]
    exact hbody.mark fun _ => rfl

theorem Lexes.line {d : String × PropertyValue} (hkey : IsKey d.1) (h : Lexes rest ts) :
    Lexes (lineText d ++ rest) (lineTokens d ++ ts) := by
  rw [lineText, List.append_assoc]
  exact (h.value d.2).key hkey

end

theorem lexes_written (newline : Bool) {ds : List (String × PropertyValue)}
    (h : ∀ d ∈ ds, IsKey d.1) : Lexes (written newline ds) (ds.flatMap lineTokens) := by
  fun_induction written newline ds with
  | case1 => exact lexes_nil
  | case2 d =>
    have hend : Lexes (if newline then ['\n'] else []) [] := by
      split
      · exact lexes_nil.gap (by decide)
      · exact lexes_nil
    exact hend.line (h d (List.mem_cons_self ..))
  | case3 d e ds ih =>
    obtain ⟨hd, hds⟩ := List.forall_mem_cons.1 h
    exact ((ih hds).gap (by decide)).line hd

/-! ## statements -/

open Grammar

/-- the argument that a value is written as -/
def valueArgument : PropertyValue → Argument
  | .scalar s => .text s
  | .list items => .table (items.map Value.text)

theorem declared?_valueArgument (d : String × PropertyValue) :
    declared? (.declaration d.1 [valueArgument d.2]) = some d := by
  obtain ⟨key, value⟩ := d
  cases value with
  | scalar s => rfl
  | list items =>
    show some (key, PropertyValue.list ((items.map Value.text).filterMap Value.text?)) = _
    rw [List.filterMap_map]
    exact congrArg (fun l => some (key, PropertyValue.list l)) List.filterMap_some

theorem field_string (depth : Nat) (m : Mark) (hm : .mark m ∉ binaryOperators) (s : String) :
    Field (phrases (depth + 1)) (some (.mark m)) [.string s] (.text s) := by
  refine .plain (.operand (.string s) ?_)
  intro t ht
  cases ht
  exact hm

theorem fields_items (depth : Nat) (items : List String) :
    Fields (phrases (depth + 1)) (itemTokens items) (items.map Value.text) := by
  match items with
  | [] => exact .nil
  | [v] => exact .last (field_string depth .rightBrace (by decide) v)
  | v :: w :: items =>
    exact .more (.inl rfl) (field_string depth .comma (by decide) v)
      (fields_items depth (w :: items))

theorem arguments_value (value : PropertyValue) :
    Arguments outer (valueTokens value) (some (valueArgument value)) := by
  cases value with
  | scalar s => exact .string s
  | list items =>
    have htable : outer.table (valueTokens (.list items)) (items.map Value.text) :=
      .braces (fields_items _ items)
    exact .table htable

theorem stmt_line (d : String × PropertyValue) {behind : Option Token}
    (hb : ∀ t, behind = some t → opensSuffix t = false) :
    Stmt behind (lineTokens d) (.declaration d.1 [valueArgument d.2]) := by
  have hsuffixes := Suffixes.cons (.call (arguments_value d.2)) (.nil hb)
  rw [List.append_nil] at hsuffixes
  exact .call (.name d.1 hsuffixes) ⟨_, rfl, nofun⟩

/-- lexemes with the tokens of lines make up a manifest that declares what the lines say -/
theorem chunk_lines {ds : List (String × PropertyValue)} : ∀ {ls : List Lexeme},
    ls.map Lexeme.token = ds.flatMap lineTokens →
      ∃ ss, Chunk ls ss ∧ ss.map (fun s => declared? s.kind) = ds.map some := by
  induction ds with
  | nil =>
    intro ls h
    rw [List.map_eq_nil_iff.1 h]
    exact ⟨[], .nil, rfl⟩
  | cons d ds ih =>
    intro ls h
    rw [List.flatMap_cons] at h
    obtain ⟨us, rest, rfl, hus, hrest⟩ := List.map_eq_append_iff.1 h
    obtain ⟨ss, hss, hmap⟩ := ih hrest
    -- the next line begins with a name, which cannot go on with this statement
    have hbehind : ∀ t, rest.head?.map Lexeme.token = some t → opensSuffix t = false := by
      intro t ht
      rw [← List.head?_map, hrest] at ht
      cases ds with
      | nil => cases ht
      | cons e ds =>
        cases ht
        rfl
    have hstmt := stmt_line d hbehind
    rw [← hus] at hstmt
    obtain ⟨first, us, rfl, _, _⟩ := List.map_eq_cons_iff.1 hus
    have hlast := List.getLast?_eq_some_getLast (List.cons_ne_nil first us)
    refine ⟨_, .statement hstmt rfl hlast hss, ?_⟩
    rw [List.map_cons, List.map_cons, hmap, declared?_valueArgument]

/-! ## manifests -/

/-- statements that all declare something leave nothing to report -/
theorem ofStatements_eq {source : List Char} {ss : List Statement}
    {ds : List (String × PropertyValue)}
    (h : ss.map (fun s => declared? s.kind) = ds.map some) :
    Interpretation.ofStatements source ss = ⟨.ofList ds, []⟩ := by
  have hdeclared : ss.filterMap (fun s => declared? s.kind) = ds := by
    have hid := congrArg (List.filterMap id) h
    rw [List.filterMap_map, List.filterMap_map] at hid
    exact hid.trans List.filterMap_some
  have hnone : ss.filter (fun s => (declared? s.kind).isNone) = [] := by
    rw [List.filter_eq_nil_iff]
    intro s hs hn
    have hmem := List.mem_map_of_mem (f := fun s => declared? s.kind) hs
    rw [h] at hmem
    obtain ⟨d, _, hd⟩ := List.mem_map.1 hmem
    rw [← hd] at hn
    cases hn
  rw [Interpretation.ofStatements, hdeclared, hnone, List.map_nil]

/-- **What is written is read again**, and of a name that is declared several times the last
declaration counts. -/
theorem interpret_written (newline : Bool) (ds : List (String × PropertyValue))
    (h : ∀ d ∈ ds, IsKey d.1) :
    interpret (String.ofList (written newline ds)) = .ok ⟨.ofList ds, []⟩ ∧
      ∀ key, (Properties.ofList ds).get? key = ds.reverse.lookup key := by
  refine ⟨?_, Properties.get?_ofList ds⟩
  obtain ⟨hfaultless, htokens⟩ := lexes_written newline h
  obtain ⟨ss, hss, hmap⟩ := chunk_lines (htokens .start)
  rw [interpret_eq_ok_iff, String.toList_ofList]
  exact ⟨hfaultless, ss, hss, ofStatements_eq hmap⟩

/-- a name that is first a string with escapes and then a list -/
theorem interpret_written_icon :
    (∀ d ∈ [("icon", PropertyValue.scalar "\"\\\n\té"), ("icon", .list ["a", ""])], IsKey d.1) ∧
      ∃ p, interpret "icon \"\\\"\\\\\\n\té\"\nicon \x7b \"a\", \"\" \x7d\n" = .ok ⟨p, []⟩ ∧
        p.get? "icon" = some (.list ["a", ""]) := by
  have hkeys : ∀ d ∈ [("icon", PropertyValue.scalar "\"\\\n\té"), ("icon", .list ["a", ""])],
      IsKey d.1 := by
    have hparts : ∀ c ∈ ['c', 'o', 'n'], c.isAlphanum ∨ c = '_' := by
      simp only [List.forall_mem_cons]
      exact ⟨.inl rfl, .inl rfl, .inl rfl, nofun⟩
    have hicon : IsKey "icon" := ⟨⟨'i', ['c', 'o', 'n'], rfl, .inl rfl, hparts⟩, by decide⟩
    intro d hd
    simp only [List.mem_cons, List.not_mem_nil, or_false] at hd
    rcases hd with rfl | rfl
    · exact hicon
    · exact hicon
  obtain ⟨h, hget⟩ := interpret_written true _ hkeys
  exact ⟨hkeys, _, h, hget "icon"⟩

end ResourceOrder.Manifest
