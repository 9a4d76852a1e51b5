import ResourceOrder.Proofs.Manifest.Room

/-!
# One manifest behind another

Two manifests are put together with a semicolon on a line of its own between them.

* `Grammar.Separable`  a kind of phrase that a semicolon may follow wherever the text may end;
* `Diagnostic.lower`   a report with its line further down.

Statements are separable (`Grammar.stmt_separable`), so the manifests of two token sequences are
one manifest with a semicolon between (`Grammar.Chunk.append`).  **Interpreting both texts
together is interpreting each of them: what the second says of a property counts before what the
first says, and the reports of the second come behind those of the first, with their lines
further down** (`interpret_append`).  Lines are words, but no line of a report runs over if the texts
have fewer than `2 ^ 32` bytes, because each report is about three bytes at least
(`line_of_report`).
-/

namespace ResourceOrder

namespace Manifest

/-! ## in front of a semicolon -/

namespace Grammar

/-- what is such a phrase at the end of a text is one in front of a semicolon, too -/
def Separable {α : Type} (p : Phrase α) : Prop :=
  ∀ us a, p none us a → p (some (.mark .semicolon)) us a

theorem stmt_separable : Separable Stmt := fun _ _ h => h.before ends_semicolon

theorem Chunk.append {ts us : List Lexeme} {ss vs : List Statement} {t : Lexeme}
    (hts : Chunk ts ss) (ht : t.token = .mark .semicolon) (hus : Chunk us vs) :
    Chunk (ts ++ t :: us) (ss ++ vs) := by
  induction hts with
  | nil => exact .semicolon ht hus
  | semicolon hs _ ih => exact .semicolon hs ih
  | @statement first last us' rest kind ss hs hf hl _ ih =>
    rw [List.append_assoc, List.cons_append]
    refine .statement ?_ hf hl ih
    cases rest with
    | nil =>
      rw [List.nil_append, List.head?_cons, Option.map_some, ht]
      exact stmt_separable _ _ hs
    | cons r rest => exact hs

end Grammar

end Manifest

/-! ## reports -/

/-- the report, `lines` lines further down -/
def Diagnostic.lower (lines : Nat) (d : Diagnostic) : Diagnostic :=
  match d.finding with
  | .unrecognizedStatement line column text =>
    ⟨d.resource, .unrecognizedStatement (line + .ofNat lines) column text⟩
  | _ => d

namespace Manifest

/-! ## texts with a semicolon between -/

def separator : List Char := ['\n', ';', '\n']

theorem lexemesAt_semicolon (p : Position) (text : List Char) :
    lexemesAt p (';' :: text) =
      ⟨.mark .semicolon, .between p (p.step ';')⟩ :: lexemesAt (p.step ';') text :=
  lexemesAt_cons p ';' text

theorem faultless_semicolon (text : List Char) : Faultless (';' :: text) ↔ Faultless text := by
  rw [faultless_cons]
  exact and_iff_right nofun

section
variable {text : List Char} (h : Faultless text) (rest : List Char)
include h

theorem faultless_separated : Faultless (text ++ separator ++ rest) ↔ Faultless rest := by
  rw [List.append_assoc]
  show Faultless (text ++ '\n' :: ';' :: '\n' :: rest) ↔ _
  rw [faultless_append h, faultless_semicolon, faultless_gap (by decide)]

theorem lexemesAt_separated : ∃ t : Lexeme, t.token = .mark .semicolon ∧
    lexemesAt .start (text ++ separator ++ rest) = lexemesAt .start text ++ t ::
      (lexemesAt .start rest).map
        (Lexeme.shift (byteCount (text ++ separator)) (text.count '\n' + 2)) := by
  have hstop : (((Position.start.advance text).step '\n').step ';').step '\n' =
      Position.start.shift (byteCount (text ++ separator)) (text.count '\n' + 2) := by
    have hplace := Position.step_newline (text ++ ['\n', ';'])
    rw [Position.advance_append, List.append_assoc, List.count_append] at hplace
    exact hplace
  have hsplit : text ++ separator ++ rest = text ++ '\n' :: ';' :: '\n' :: rest :=
    List.append_assoc ..
  rw [hsplit, lexemesAt_append h, lexemesAt_semicolon, lexemesAt_gap (by decide), hstop,
    lexemesAt_shift]
  exact ⟨_, rfl, rfl⟩

end

/-! ## interpretations -/

theorem unrecognized_append {source : List Char} {s : Statement} (h : s.span.Within source)
    (rest : List Char) : unrecognized (source ++ rest) s = unrecognized source s := by
  unfold unrecognized
  rw [h.slice_append]

theorem unrecognized_shift (before source : List Char) (lines : Nat) (s : Statement) :
    unrecognized (before ++ source) (s.shift (byteCount before) lines) =
      (unrecognized source s).lower lines := by
  unfold unrecognized
  rw [Statement.shift, Span.slice_shift]
  rfl

section
variable {source : List Char} {ss : List Statement}

/-- what is declared does not depend on where the statements stand -/
theorem get?_append {a b : List Char} {vs : List Statement} {bytes lines : Nat} (key : String) :
    (Interpretation.ofStatements source
        (ss ++ vs.map (Statement.shift bytes lines))).properties.get? key =
      ((Interpretation.ofStatements b vs).properties.get? key).or
        ((Interpretation.ofStatements a ss).properties.get? key) := by
  unfold Interpretation.ofStatements
  dsimp only
  rw [Properties.get?_ofList, Properties.get?_ofList, Properties.get?_ofList,
    List.filterMap_append, List.reverse_append, List.lookup_append, List.filterMap_map]
  rfl

theorem diagnostics_append (vs : List Statement) :
    (Interpretation.ofStatements source (ss ++ vs)).diagnostics =
      (Interpretation.ofStatements source ss).diagnostics ++
        (Interpretation.ofStatements source vs).diagnostics := by
  unfold Interpretation.ofStatements
  rw [List.filter_append, List.map_append]

theorem diagnostics_in_front (h : ∀ s ∈ ss, s.span.Within source) (rest : List Char) :
    (Interpretation.ofStatements (source ++ rest) ss).diagnostics =
      (Interpretation.ofStatements source ss).diagnostics := by
  refine List.map_congr_left fun s hs => ?_
  exact unrecognized_append (h s (List.mem_of_mem_filter hs)) rest

theorem diagnostics_behind (before : List Char) (lines : Nat) :
    (Interpretation.ofStatements (before ++ source)
        (ss.map (Statement.shift (byteCount before) lines))).diagnostics =
      (Interpretation.ofStatements source ss).diagnostics.map (Diagnostic.lower lines) := by
  unfold Interpretation.ofStatements
  dsimp only
  rw [List.filter_map, List.map_map, List.map_map]
  exact List.map_congr_left fun s _ => unrecognized_shift before source lines s

end

/-- the line of each report can be lowered by as many lines as there are bytes in front, and two
more -/
theorem line_add_lt {text : List Char} {ss : List Statement} (hf : Faultless text)
    (h : Grammar.Chunk (lexemesAt .start text) ss) {d : Diagnostic}
    (hd : d ∈ (Interpretation.ofStatements text ss).diagnostics) {lines : Nat}
    (hbound : lines + byteCount text < 2 ^ 32) :
    ∃ line column excerpt, d = ⟨none, .unrecognizedStatement line column excerpt⟩ ∧
      line.toNat + (lines + 2) < 2 ^ 32 := by
  obtain ⟨s, hs, rfl⟩ := List.mem_map.1 hd
  obtain ⟨hs, hreport⟩ := List.mem_filter.1 hs
  have hline := line_of_report hf h hs (Option.isNone_iff_eq_none.1 hreport) (by omega)
  exact ⟨_, _, _, rfl, by omega⟩

/-- **Two manifests with a semicolon between are interpreted one after the other.**  The lines of
the second one's reports are words that are added to; if both texts together have fewer than
`2 ^ 32` bytes, the sums are words, too. -/
theorem interpret_append {a b : String} {ia ib : Interpretation} (ha : interpret a = .ok ia)
    (hb : interpret b = .ok ib) :
    ∃ i, interpret (a ++ "\n;\n" ++ b) = .ok i ∧
      (∀ key, i.properties.get? key =
        (ib.properties.get? key).or (ia.properties.get? key)) ∧
      i.diagnostics = ia.diagnostics ++
        ib.diagnostics.map (Diagnostic.lower (a.toList.count '\n' + 2)) ∧
      (byteCount a.toList + byteCount b.toList < 2 ^ 32 → ∀ d ∈ ib.diagnostics,
        ∃ line column text, d = ⟨none, .unrecognizedStatement line column text⟩ ∧
          line.toNat + (a.toList.count '\n' + 2) < 2 ^ 32) := by
  obtain ⟨hfa, ss, hss, rfl⟩ := interpret_eq_ok_iff.1 ha
  obtain ⟨hfb, vs, hvs, rfl⟩ := interpret_eq_ok_iff.1 hb
  have hsource : (a ++ "\n;\n" ++ b).toList = a.toList ++ separator ++ b.toList := by
    rw [String.toList_append, String.toList_append]
    rfl
  obtain ⟨t, ht, hlexemes⟩ := lexemesAt_separated hfa b.toList
  have hchunk := hss.append ht (hvs.shift (byteCount (a.toList ++ separator))
    (a.toList.count '\n' + 2))
  have hread : interpret (a ++ "\n;\n" ++ b) = .ok (.ofStatements
      (a.toList ++ separator ++ b.toList) (ss ++ vs.map (Statement.shift
        (byteCount (a.toList ++ separator)) (a.toList.count '\n' + 2)))) := by
    rw [interpret_eq_ok_iff, hsource, hlexemes]
    exact ⟨(faultless_separated hfa b.toList).2 hfb, _, hchunk, rfl⟩
  refine ⟨_, hread, fun key => get?_append key, ?_, fun hbound d hd => ?_⟩
  · have hwithin := hss.within fun t ht => within_of_mem_lexemesAt ht
    rw [diagnostics_append, diagnostics_behind, List.append_assoc, diagnostics_in_front hwithin]
  · have hcount := count_le_byteCount '\n' a.toList
    exact line_add_lt hfb hvs hd (by omega)

/-- a comment at the end of the first text, and a property that both declare -/
theorem interpret_append_name :
    interpret "name 'one'\nx = 1 -- one" =
        .ok ⟨.ofList [("name", .scalar "one")], [⟨none, .unrecognizedStatement 2 1 "x = 1"⟩]⟩ ∧
      interpret "name \x7b 'two' \x7d  y = 2" =
        .ok ⟨.ofList [("name", .list ["two"])], [⟨none, .unrecognizedStatement 1 17 "y = 2"⟩]⟩ ∧
      ∃ i, interpret ("name 'one'\nx = 1 -- one" ++ "\n;\n" ++ "name \x7b 'two' \x7d  y = 2") =
          .ok i ∧
        i.properties.get? "name" = some (.list ["two"]) ∧
        i.diagnostics = [⟨none, .unrecognizedStatement 2 1 "x = 1"⟩,
          ⟨none, .unrecognizedStatement 4 17 "y = 2"⟩] := by
  have ha : interpret "name 'one'\nx = 1 -- one" = .ok ⟨.ofList [("name", .scalar "one")],
      [⟨none, .unrecognizedStatement 2 1 "x = 1"⟩]⟩ := by
    decide +kernel
  have hb : interpret "name \x7b 'two' \x7d  y = 2" = .ok ⟨.ofList [("name", .list ["two"])],
      [⟨none, .unrecognizedStatement 1 17 "y = 2"⟩]⟩ := by
    decide +kernel
  obtain ⟨i, hi, hget, hdiagnostics, -⟩ := interpret_append ha hb
  exact ⟨ha, hb, i, hi, hget "name", hdiagnostics⟩

end Manifest

end ResourceOrder
