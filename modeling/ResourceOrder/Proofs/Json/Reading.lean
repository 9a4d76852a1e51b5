import ResourceOrder.Json.Reader
import ResourceOrder.Proofs.Digits

/-!
# Reading what was written

* `Unit.ofChar`  what is read of a character in a string;
* `Textual`      values without numbers and without strings that have no text;
* `ReadsBack`    a value that is read from its text, whatever stands behind the text.

A string is read back character by character (`readUnits_writeChar`), and no control character that
is named by its number is half of a surrogate pair (`joinUnits_ofChar`).  Items and members read
back as soon as their values do (`readItems_writeItems`, `readMembers_writeMembers`); a step of the
reader for each character of the text is enough.  **So the text of a value without white space says
which value it is** (`parse?_compact`).
-/

namespace ResourceOrder

namespace Json

/-! ## characters -/

/-- what is read of a character in a string: its number if it is a control character for which no
letter stands, and else itself -/
def Unit.ofChar (c : Char) : Unit :=
  if c.toNat < 0x20 ∧ c ∉ ['\x08', '\x0c', '\n', '\r', '\t'] then .code c.toNat else .char c

theorem readUnits_letter {e c : Char} (he : e ≠ 'u') (h : escapeLetter? e = some c)
    (text : List Char) :
    readUnits ('\\' :: e :: text) = (readUnits text).map fun r => (.char c :: r.1, r.2) := by
  rw [readUnits]
  · rw [h]
    cases readUnits text <;> rfl
  · rintro _ _ _ _ _ rfl
    exact absurd rfl he

theorem readUnits_code {a b c d : Char} {n : Nat}
    (h : number? 16 hexValue? 0 [a, b, c, d] = some n) (text : List Char) :
    readUnits ('\\' :: 'u' :: a :: b :: c :: d :: text) =
      (readUnits text).map fun r => (.code n :: r.1, r.2) := by
  rw [readUnits, h]
  cases readUnits text <;> rfl

theorem readUnits_plain {c : Char} (hquote : c ≠ '"') (hback : c ≠ '\\') (hc : ¬ c.toNat < 0x20)
    (text : List Char) :
    readUnits (c :: text) = (readUnits text).map fun r => (.char c :: r.1, r.2) := by
  rw [readUnits, if_neg (by simp [hback, hc])]
  · cases readUnits text <;> rfl
  · rintro rfl
    exact hquote rfl
  · rintro _ _ _ _ _ rfl
    exact absurd rfl hback
  · rintro _ _ rfl
    exact absurd rfl hback

theorem hexDigits_of_lt : ∀ n < 0x10, hexDigits n = [Nat.digitChar n] ∧
    number? 16 hexValue? 0 ['0', '0', '0', Nat.digitChar n] = some n := by decide

theorem hexDigits_of_le : ∀ n < 0x20, 0x10 ≤ n → hexDigits n = ['1', Nat.digitChar (n - 0x10)] ∧
    number? 16 hexValue? 0 ['0', '0', '1', Nat.digitChar (n - 0x10)] = some n := by decide

/-- a character is read back, whichever way it was written -/
theorem readUnits_writeChar (c : Char) (text : List Char) :
    readUnits (writeChar c ++ text) = (readUnits text).map fun r => (.ofChar c :: r.1, r.2) := by
  unfold writeChar
  split
  · exact readUnits_letter (by decide) rfl text
  · exact readUnits_letter (by decide) rfl text
  · exact readUnits_letter (by decide) rfl text
  · exact readUnits_letter (by decide) rfl text
  · exact readUnits_letter (by decide) rfl text
  · exact readUnits_letter (by decide) rfl text
  · exact readUnits_letter (by decide) rfl text
  · rename_i hquote hback h1 h2 h3 h4 h5
    have hletter : c ∉ ['\x08', '\x0c', '\n', '\r', '\t'] := by
      simpa using ⟨h1, h2, h3, h4, h5⟩
    split
    · rename_i hlt
      obtain ⟨hdigits, hnumber⟩ := hexDigits_of_lt _ hlt
      rw [Unit.ofChar, if_pos ⟨by omega, hletter⟩, hdigits]
      exact readUnits_code hnumber text
    split
    · rename_i hle hlt
      obtain ⟨hdigits, hnumber⟩ := hexDigits_of_le _ hlt (by omega)
      rw [Unit.ofChar, if_pos ⟨hlt, hletter⟩, hdigits]
      exact readUnits_code hnumber text
    · rename_i hlt
      rw [Unit.ofChar, if_neg fun h => hlt h.1]
      exact readUnits_plain hquote hback hlt text

/-! ## strings -/

theorem readUnits_written (cs rest : List Char) :
    readUnits (cs.flatMap writeChar ++ '"' :: rest) = some (cs.map Unit.ofChar, rest) := by
  induction cs with
  | nil => rfl
  | cons c cs ih =>
    rw [List.flatMap_cons, List.append_assoc, readUnits_writeChar, ih]
    rfl

theorem joinUnits_code {n : Nat} (h : n < 0x20) (units : List Unit) :
    joinUnits (.code n :: units) =
      (character? n).bind fun c => (joinUnits units).bind fun cs => some (c :: cs) := by
  have hlead : isLead n = false := by
    simp only [isLead, Bool.and_eq_false_iff, decide_eq_false_iff_not]
    omega
  match units with
  | [] => rfl
  | .char _ :: _ => rfl
  | .code m :: _ =>
    show (if isLead n && isTrail m then _ else _) = _
    rw [hlead]
    rfl

theorem joinUnits_ofChar (cs : List Char) : joinUnits (cs.map Unit.ofChar) = some cs := by
  induction cs with
  | nil => rfl
  | cons c cs ih =>
    rw [List.map_cons, Unit.ofChar]
    split
    · rename_i h
      rw [joinUnits_code h.1, character?_toNat, ih]
      rfl
    · rw [joinUnits, ih]
      rfl

theorem readString_quoted (s : String) (rest : List Char) :
    readString (s.toList.flatMap writeChar ++ '"' :: rest) = some (some s, rest) := by
  rw [readString, readUnits_written]
  show some ((joinUnits (s.toList.map Unit.ofChar)).map String.ofList, rest) = _
  rw [joinUnits_ofChar, Option.map_some, String.ofList_toList]

theorem quoted_append (s : String) (rest : List Char) :
    quoted s ++ rest = '"' :: (s.toList.flatMap writeChar ++ '"' :: rest) := by
  simp [quoted]

/-! ## values -/

/-- a value in which there is no number, and no string without a text -/
inductive Textual : Json → Prop
  | null : Textual .null
  | bool (b : Bool) : Textual (.bool b)
  | string (s : String) : Textual (.string s)
  | array {items : List Json} : (∀ j ∈ items, Textual j) → Textual (.array items)
  | object {members : List (String × Json)} : (∀ m ∈ members, Textual m.2) →
      Textual (.object members)

/-- a value is read from its text, with a step for each character -/
def ReadsBack (j : Json) : Prop :=
  ∀ n rest, (writeCompact j).length ≤ n → readValue n (writeCompact j ++ rest) = some (j, rest)

theorem skipSpace_cons {c : Char} (h : isSpace c = false) (text : List Char) :
    skipSpace (c :: text) = c :: text := by
  rw [skipSpace, List.dropWhile_cons_of_neg (by simp [h])]

/-- the text of a value begins neither with white space nor with a bracket that closes another -/
theorem Textual.exists_cons {j : Json} (h : Textual j) :
    ∃ c text, writeCompact j = c :: text ∧ isSpace c = false ∧ c ≠ ']' ∧ c ≠ '}' := by
  cases h with
  | null => exact ⟨'n', _, rfl, by decide⟩
  | bool b =>
    cases b with
    | false => exact ⟨'f', _, rfl, by decide⟩
    | true => exact ⟨'t', _, rfl, by decide⟩
  | string s => exact ⟨'"', _, rfl, by decide⟩
  | @array items _ => exact ⟨'[', writeItems items, by rw [writeCompact], by decide⟩
  | @object members _ => exact ⟨'{', writeMembers members, by rw [writeCompact], by decide⟩

theorem writeCompact_string (s : String) : writeCompact (.string s) = quoted s := by
  rw [writeCompact]
  · rfl
  · rintro _ ⟨⟩
  · rintro _ ⟨⟩

theorem readsBack_string (s : String) : ReadsBack (.string s) := by
  intro n rest hn
  rw [writeCompact_string] at hn ⊢
  cases n with
  | zero => simp [quoted] at hn
  | succ n =>
    rw [quoted_append, readValue, skipSpace_cons (by decide)]
    simp only [readString_quoted]
    rfl

theorem readWord_append (word : String) (rest : List Char) :
    readWord word (word.toList ++ rest) = some rest := by
  rw [readWord, if_pos (List.isPrefixOf_iff_prefix.2 (List.prefix_append _ _))]
  rw [← String.length_toList, List.drop_left]

theorem readsBack_null : ReadsBack .null := by
  intro n rest hn
  cases n with
  | zero => exact absurd hn (by decide)
  | succ n =>
    show readValue (n + 1) ('n' :: ("ull".toList ++ rest)) = _
    rw [readValue, skipSpace_cons (by decide)]
    simp only [readWord_append]
    rfl

theorem readsBack_bool (b : Bool) : ReadsBack (.bool b) := by
  intro n rest hn
  cases n with
  | zero => cases b <;> exact absurd hn (by decide)
  | succ n =>
    cases b with
    | false =>
      show readValue (n + 1) ('f' :: ("alse".toList ++ rest)) = _
      rw [readValue, skipSpace_cons (by decide)]
      simp only [readWord_append]
      rfl
    | true =>
      show readValue (n + 1) ('t' :: ("rue".toList ++ rest)) = _
      rw [readValue, skipSpace_cons (by decide)]
      simp only [readWord_append]
      rfl

/-- items are read back up to the bracket behind them -/
theorem readItems_writeItems {items : List Json} (hne : items ≠ [])
    (h : ∀ j ∈ items, ReadsBack j) : ∀ n rest, (writeItems items).length ≤ n →
      readItems n (writeItems items ++ rest) = some (items, rest) := by
  induction items with
  | nil => exact absurd rfl hne
  | cons j js ih =>
    intro n rest hn
    have hj := h j (List.mem_cons_self ..)
    cases n with
    | zero => cases js <;> simp [writeItems] at hn
    | succ n =>
      cases js with
      | nil =>
        rw [writeItems, List.length_append, List.length_singleton] at hn
        rw [readItems, writeItems, List.append_assoc, hj n _ (by omega)]
        rfl
      | cons k ks =>
        have hjs := ih (List.cons_ne_nil _ _) fun x hx => h x (List.mem_cons_of_mem _ hx)
        rw [writeItems, List.length_append, List.length_cons] at hn
        · rw [readItems, writeItems, List.append_assoc, hj n _ (by omega)]
          · show (readItems n (writeItems (k :: ks) ++ rest)).bind _ = _
            rw [hjs n rest (by omega)]
            rfl
          · nofun
        · nofun

theorem exists_writeItems_cons (j : Json) (js : List Json) :
    ∃ more, writeItems (j :: js) = writeCompact j ++ more := by
  cases js with
  | nil => exact ⟨_, by rw [writeItems]⟩
  | cons k ks => exact ⟨',' :: writeItems (k :: ks), by rw [writeItems]; nofun⟩

theorem readValue_bracket {c : Char} (hspace : isSpace c = false) (hc : c ≠ ']') (n : Nat)
    (text : List Char) :
    readValue (n + 1) ('[' :: c :: text) =
      (readItems n (c :: text)).map fun r => (.array r.1, r.2) := by
  rw [readValue, skipSpace_cons (by decide)]
  simp only [skipSpace_cons hspace]
  split
  · rename_i heq
    exact absurd (List.cons.inj heq).1 hc
  · rfl

theorem readsBack_array {items : List Json} (ht : ∀ j ∈ items, Textual j)
    (h : ∀ j ∈ items, ReadsBack j) : ReadsBack (.array items) := by
  intro n rest hn
  rw [writeCompact] at hn ⊢
  cases n with
  | zero => simp at hn
  | succ n =>
    cases items with
    | nil =>
      rw [writeItems, List.cons_append, readValue, skipSpace_cons (by decide)]
      rfl
    | cons j js =>
      have hread := readItems_writeItems (List.cons_ne_nil j js) h n rest (by simpa using hn)
      obtain ⟨c, text, hc, hspace, hbracket, _⟩ := (ht j (List.mem_cons_self ..)).exists_cons
      obtain ⟨more, hmore⟩ := exists_writeItems_cons j js
      rw [hmore, hc, List.cons_append, List.cons_append] at hread
      rw [hmore, hc, List.cons_append, List.cons_append, List.cons_append,
        readValue_bracket hspace hbracket, hread]
      rfl

/-! ## objects -/

theorem ofMembers_named (members : List (String × Json)) :
    ofMembers (members.map fun m => (some m.1, m.2)) = .object members := by
  have h : (members.map fun m => (some m.1, m.2)).mapM
      (fun m : Option String × Json => m.1.map (·, m.2)) = some members := by
    induction members with
    | nil => rfl
    | cons m ms ih =>
      rw [List.map_cons, List.mapM_cons, ih]
      rfl
  rw [ofMembers, h]

/-- a member is read back, and then what stands behind it is looked at -/
theorem readMembers_member {j : Json} (hj : ReadsBack j) {n : Nat}
    (hn : (writeCompact j).length ≤ n) (key : String) (more : List Char) :
    readMembers (n + 1) (quoted key ++ ':' :: (writeCompact j ++ more)) =
      match skipSpace more with
      | '}' :: rest => some ([(some key, j)], rest)
      | ',' :: rest => (readMembers n rest).bind fun r => some ((some key, j) :: r.1, r.2)
      | _ => none := by
  rw [quoted_append, readMembers, skipSpace_cons (by decide)]
  simp only [readString_quoted, Option.bind_eq_bind, Option.bind_some,
    skipSpace_cons (show isSpace ':' = false by decide), hj n more hn]
  rfl

theorem writeMembers_single (key : String) (j : Json) (rest : List Char) :
    writeMembers [(key, j)] ++ rest = quoted key ++ ':' :: (writeCompact j ++ '}' :: rest) := by
  simp [writeMembers]

theorem writeMembers_cons {ms : List (String × Json)} (hne : ms ≠ []) (key : String) (j : Json)
    (rest : List Char) :
    writeMembers ((key, j) :: ms) ++ rest =
      quoted key ++ ':' :: (writeCompact j ++ ',' :: (writeMembers ms ++ rest)) := by
  rw [writeMembers]
  · simp
  · rintro rfl
    exact hne rfl

/-- members are read back up to the brace behind them -/
theorem readMembers_writeMembers {members : List (String × Json)} (hne : members ≠ [])
    (h : ∀ m ∈ members, ReadsBack m.2) : ∀ n rest, (writeMembers members).length ≤ n →
      readMembers n (writeMembers members ++ rest) =
        some (members.map fun m => (some m.1, m.2), rest) := by
  induction members with
  | nil => exact absurd rfl hne
  | cons m ms ih =>
    obtain ⟨key, j⟩ := m
    intro n rest hn
    have hj : ReadsBack j := h (key, j) (List.mem_cons_self ..)
    cases n with
    | zero => cases ms <;> simp [writeMembers] at hn
    | succ n =>
      cases ms with
      | nil =>
        have hlen := congrArg List.length (writeMembers_single key j [])
        simp only [List.append_nil, List.length_append, List.length_cons] at hlen
        rw [writeMembers_single, readMembers_member hj (by omega)]
        rfl
      | cons m ms =>
        have hne := List.cons_ne_nil m ms
        have hlen := congrArg List.length (writeMembers_cons hne key j [])
        simp only [List.append_nil, List.length_append, List.length_cons] at hlen
        have hms := ih hne (fun x hx => h x (List.mem_cons_of_mem _ hx)) n rest (by omega)
        rw [writeMembers_cons hne, readMembers_member hj (by omega), skipSpace_cons (by decide)]
        show (readMembers n (writeMembers (m :: ms) ++ rest)).bind _ = _
        rw [hms]
        rfl

theorem readValue_brace (n : Nat) (key : String) (text : List Char) :
    readValue (n + 1) ('{' :: (quoted key ++ text)) =
      (readMembers n (quoted key ++ text)).map fun r => (ofMembers r.1, r.2) := by
  rw [quoted_append, readValue, skipSpace_cons (by decide)]
  rfl

theorem exists_writeMembers_cons (m : String × Json) (ms : List (String × Json)) :
    ∃ more, writeMembers (m :: ms) = quoted m.1 ++ more := by
  obtain ⟨key, j⟩ := m
  cases ms with
  | nil => exact ⟨_, by rw [writeMembers]⟩
  | cons m ms =>
    exact ⟨':' :: (writeCompact j ++ ',' :: writeMembers (m :: ms)), by rw [writeMembers]; nofun⟩

theorem readsBack_object {members : List (String × Json)} (h : ∀ m ∈ members, ReadsBack m.2) :
    ReadsBack (.object members) := by
  intro n rest hn
  rw [writeCompact] at hn ⊢
  cases n with
  | zero => simp at hn
  | succ n =>
    cases members with
    | nil =>
      rw [writeMembers, List.cons_append, readValue, skipSpace_cons (by decide)]
      rfl
    | cons m ms =>
      have hread := readMembers_writeMembers (List.cons_ne_nil m ms) h n rest (by simpa using hn)
      obtain ⟨more, hmore⟩ := exists_writeMembers_cons m ms
      rw [hmore, List.append_assoc] at hread
      rw [hmore, List.cons_append, List.append_assoc, readValue_brace, hread]
      rw [Option.map_some, ofMembers_named]

/-! ## whole texts -/

theorem Textual.readsBack {j : Json} (h : Textual j) : ReadsBack j := by
  induction h with
  | null => exact readsBack_null
  | bool b => exact readsBack_bool b
  | string s => exact readsBack_string s
  | array ht ih => exact readsBack_array ht ih
  | object _ ih => exact readsBack_object ih

/-- the text of a value without white space is read as this value -/
theorem parse?_compact {j : Json} (h : Textual j) : parse? j.compact.toList = some j := by
  have hread := h.readsBack ((writeCompact j).length + 1) [] (Nat.le_succ _)
  rw [List.append_nil] at hread
  rw [compact, String.toList_ofList, parse?]
  show (readValue _ _).bind _ = _
  rw [hread]
  rfl

end Json

end ResourceOrder
