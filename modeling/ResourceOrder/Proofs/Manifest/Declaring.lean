import ResourceOrder.Proofs.Manifest.Parsing
import ResourceOrder.Manifest.Interpretation

/-!
# Statements that declare a property, by their tokens

* `loneString?`   the string, if the tokens are a single one;
* `FieldValue`    the tokens of a field of a table, and of its value alone;
* `FieldValues`   the tokens of the fields of a table, and of the value of each;
* `TableValues`   the same for the tokens of the table with its braces;
* `Declares`      the tokens of a name and of a string, a table, or both, and what they declare.

An expression is kept as a string exactly if it is a lone one (`text?_of_value`), so the strings
among the values of a table are the lone ones (`table_iff`).  Tokens are one statement only
(`Stmt.kind_unique`), and **a statement declares a property exactly if its tokens do**
(`declared?_eq_some_iff`).
-/

namespace ResourceOrder.Manifest

namespace Grammar

/-- the string, if it stands alone -/
def loneString? : List Token → Option String
  | [.string s] => some s
  | _ => none

section
variable (inside : Inside)

/-- a field with a key, with a name or with neither; its value is what stands behind these -/
inductive FieldValue : Phrase (List Token)
  | element {behind ts v us w} : inside.value (some (.mark .rightBracket)) ts v →
      inside.value behind us w →
      FieldValue behind (.mark .leftBracket :: ts ++ .mark .rightBracket :: .mark .equal :: us) us
  | named {behind us w} (name) : inside.value behind us w →
      FieldValue behind (.name name :: .mark .equal :: us) us
  | plain {behind us w} : inside.value behind us w → FieldValue behind us us

/-- fields with commas and semicolons between them, and one behind the last of them if need be -/
inductive FieldValues : List Token → List (List Token) → Prop
  | nil : FieldValues [] []
  | last {ts us} : FieldValue inside (some (.mark .rightBrace)) ts us → FieldValues ts [us]
  | more {s ts us rest values} : s = .mark .comma ∨ s = .mark .semicolon →
      FieldValue inside (some s) ts us → FieldValues rest values →
      FieldValues (ts ++ s :: rest) (us :: values)

inductive TableValues : List Token → List (List Token) → Prop
  | braces {ts values} : FieldValues inside ts values →
      TableValues (.mark .leftBrace :: ts ++ [.mark .rightBrace]) values

end

/-- what may stand inside a table that is inside nothing else -/
def insideTable : Inside := phrases (nestingBound - 1)

/-- a name with a string, with a table, or with a string and a table behind it; of a table the
values that are lone strings count -/
inductive Declares : List Token → String × PropertyValue → Prop
  | text (name s : String) : Declares [.name name, .string s] (name, .scalar s)
  | table {ts : List Token} {values : List (List Token)} (name : String) :
      TableValues insideTable ts values →
      Declares (.name name :: ts) (name, .list (values.filterMap loneString?))
  | both {ts : List Token} {values : List (List Token)} (name s : String) :
      TableValues insideTable ts values →
      Declares (.name name :: .string s :: ts) (name, .list (values.filterMap loneString?))

/-! ## lone strings -/

theorem loneString?_cons_cons (t u : Token) (us : List Token) :
    loneString? (t :: u :: us) = none := by
  cases t <;> rfl

theorem loneString?_of_ne {t : Token} (h : ∀ s, t ≠ .string s) (us : List Token) :
    loneString? (t :: us) = none := by
  cases us with
  | nil =>
    cases t with
    | string s => exact absurd rfl (h s)
    | _ => rfl
  | cons u us => exact loneString?_cons_cons t u us

section
variable {inside : Inside} {behind : Option Token} {us : List Token}

theorem Operand.text?_eq (hl : inside.Lawful) {v : Value} (h : Operand inside behind us v) :
    v.text? = loneString? us := by
  cases h with
  | string s => rfl
  | number s => rfl
  | constant ht =>
    rw [loneString?_of_ne]
    · rfl
    · rintro s rfl
      exact absurd ht (by simp [constants])
  | table ht =>
    obtain ⟨ts, rfl⟩ := hl.table _ _ ht
    refine (loneString?_of_ne ?_ ts).symm
    intro s hs
    cases hs
  | suffixed hs =>
    obtain ⟨t, ts, rfl, ht⟩ := hs.opens
    refine (loneString?_of_ne ?_ ts).symm
    rintro s rfl
    rcases ht with ⟨name, hname⟩ | hparen
    · cases hname
    · cases hparen

theorem Expr.text?_eq (hl : inside.Lawful) {v : Value} (h : Expr inside behind us v) :
    v.text? = loneString? us := by
  cases h with
  | operand ho _ => exact ho.text?_eq hl
  | unary hu _ =>
    rw [loneString?_of_ne]
    · rfl
    · rintro s rfl
      exact absurd hu (by simp [unaryOperators])
  | @binary _ b ts us _ _ _ ho _ =>
    obtain ⟨t, ts, rfl, _⟩ := ho.opens hl
    rw [List.cons_append]
    cases ts with
    | nil => exact (loneString?_cons_cons t b us).symm
    | cons u ts => exact (loneString?_cons_cons t u _).symm

/-- an expression is kept as a string exactly if it is a lone one -/
theorem text?_of_value {depth : Nat} {v : Value} (h : (phrases depth).value behind us v) :
    v.text? = loneString? us := by
  cases depth with
  | zero => exact h.elim
  | succ depth => exact Expr.text?_eq (lawful_phrases depth) h

/-! ## tables -/

variable {depth : Nat}

theorem field_iff {s : Option String} :
    (∃ v, Field (phrases depth) behind us v ∧ v.text? = s) ↔
      ∃ ts, FieldValue (phrases depth) behind us ts ∧ loneString? ts = s := by
  constructor
  · intro h
    obtain ⟨v, hv, rfl⟩ := h
    cases hv with
    | element hkey hv => exact ⟨_, .element hkey hv, (text?_of_value hv).symm⟩
    | named name hv => exact ⟨_, .named name hv, (text?_of_value hv).symm⟩
    | plain hv => exact ⟨_, .plain hv, (text?_of_value hv).symm⟩
  · intro h
    obtain ⟨ts, hts, rfl⟩ := h
    cases hts with
    | element hkey hv => exact ⟨_, .element hkey hv, text?_of_value hv⟩
    | named name hv => exact ⟨_, .named name hv, text?_of_value hv⟩
    | plain hv => exact ⟨_, .plain hv, text?_of_value hv⟩

theorem fields_iff {strings : List (Option String)} :
    (∃ vs, Fields (phrases depth) us vs ∧ vs.map Value.text? = strings) ↔
      ∃ values, FieldValues (phrases depth) us values ∧ values.map loneString? = strings := by
  constructor
  · intro h
    obtain ⟨vs, hvs, rfl⟩ := h
    induction hvs with
    | nil => exact ⟨[], .nil, rfl⟩
    | last hf =>
      obtain ⟨ts, hts, hs⟩ := field_iff.1 ⟨_, hf, rfl⟩
      exact ⟨[ts], .last hts, congrArg ([·]) hs⟩
    | more hsep hf _ ih =>
      obtain ⟨ts, hts, hs⟩ := field_iff.1 ⟨_, hf, rfl⟩
      obtain ⟨values, hvalues, hstrings⟩ := ih
      exact ⟨ts :: values, .more hsep hts hvalues, congrArg₂ List.cons hs hstrings⟩
  · intro h
    obtain ⟨values, hvalues, rfl⟩ := h
    induction hvalues with
    | nil => exact ⟨[], .nil, rfl⟩
    | last hf =>
      obtain ⟨v, hv, hs⟩ := field_iff.2 ⟨_, hf, rfl⟩
      exact ⟨[v], .last hv, congrArg ([·]) hs⟩
    | more hsep hf _ ih =>
      obtain ⟨v, hv, hs⟩ := field_iff.2 ⟨_, hf, rfl⟩
      obtain ⟨vs, hvs, hstrings⟩ := ih
      exact ⟨v :: vs, .more hsep hv hvs, congrArg₂ List.cons hs hstrings⟩

/-- the strings that are kept of a table are the values that are lone strings, in order -/
theorem table_iff {value : PropertyValue} :
    (∃ vs, outer.table us vs ∧ tableValue vs = value) ↔
      ∃ values, TableValues insideTable us values ∧
        PropertyValue.list (values.filterMap loneString?) = value := by
  have hmap : ∀ {α : Type} (f : α → Option String) (l : List α),
      l.filterMap f = (l.map f).filterMap id := by
    intro α f l
    rw [List.filterMap_map]
    rfl
  constructor
  · intro h
    obtain ⟨vs, ⟨hvs⟩, rfl⟩ := h
    obtain ⟨values, hvalues, hstrings⟩ := fields_iff.1 ⟨vs, hvs, rfl⟩
    refine ⟨values, .braces hvalues, ?_⟩
    rw [tableValue, hmap, hmap Value.text?, hstrings]
  · intro h
    obtain ⟨values, ⟨hvalues⟩, rfl⟩ := h
    obtain ⟨vs, hvs, hstrings⟩ := fields_iff.2 ⟨values, hvalues, rfl⟩
    refine ⟨vs, .braces hvs, ?_⟩
    rw [tableValue, hmap, hmap loneString?, hstrings]

/-! ## statements -/

/-- tokens with nothing behind them are one statement only -/
theorem Stmt.kind_unique {kind kind' : StatementKind} (h : Stmt none us kind)
    (h' : Stmt none us kind') : kind = kind' := by
  have htakes : Parser.Takes (us.map fun t => ⟨t, .point .start⟩) us [] := by
    refine Parser.takes_iff.2 ⟨_, (List.append_nil _).symm, ?_⟩
    rw [List.map_map]
    exact List.map_id us
  have hread : ∀ {kind : StatementKind}, Stmt none us kind →
      Parser.statement _ = .ok (kind, []) := fun h =>
    Parser.statement_complete h htakes nofun nofun
  have hsame := (hread h).symm.trans (hread h')
  cases hsame
  rfl

/-! ## arguments behind a name -/

theorem arguments_text_iff {s : String} :
    Arguments inside us (some (.text s)) ↔ us = [.string s] := by
  constructor
  · intro h
    cases h
    rfl
  · rintro rfl
    exact .string s

theorem arguments_table_iff {vs : List Value} :
    Arguments inside us (some (.table vs)) ↔ inside.table us vs := by
  constructor
  · intro h
    cases h with
    | table h => exact h
  · exact .table

theorem suffixes_nil_iff : Suffixes inside none us [] ↔ us = [] := by
  constructor
  · intro h
    cases h
    rfl
  · rintro rfl
    exact .nil nofun

theorem suffixes_call_iff {a : Argument} {ss : List Suffix} :
    Suffixes inside none us (.call (some a) :: ss) ↔
      ∃ ts rest, us = ts ++ rest ∧ Arguments inside ts (some a) ∧ Suffixes inside none rest ss := by
  constructor
  · intro h
    cases h with
    | cons hs hss =>
      cases hs with
      | call ha => exact ⟨_, _, rfl, ha, hss⟩
  · intro h
    obtain ⟨ts, rest, rfl, ha, hss⟩ := h
    exact .cons (.call ha) hss

theorem mapM_literal?_iff {ss : List Suffix} {arguments : List Argument} :
    ss.mapM Suffix.literal? = some arguments ↔
      ss = arguments.map fun a => .call (some a) := by
  induction ss generalizing arguments with
  | nil =>
    rw [List.mapM_nil]
    cases arguments with
    | nil => exact iff_of_true rfl rfl
    | cons a as => exact iff_of_false nofun nofun
  | cons x ss ih =>
    rw [List.mapM_cons, Option.bind_eq_bind, Option.bind_eq_some_iff]
    constructor
    · intro h
      obtain ⟨a, ha, h⟩ := h
      obtain ⟨as, has, h⟩ := Option.bind_eq_some_iff.1 h
      cases h
      rw [List.map_cons, ← ih.1 has]
      cases x with
      | call argument =>
        cases ha
        rfl
      | access => cases ha
      | method => cases ha
    · intro h
      cases arguments with
      | nil => cases h
      | cons a as =>
        obtain ⟨rfl, hss⟩ := List.cons.inj h
        exact ⟨a, rfl, Option.bind_eq_some_iff.2 ⟨as, ih.2 hss, rfl⟩⟩

/-- a declaration is a name with one argument or more behind it -/
theorem stmt_declaration_iff {name : String} {arguments : List Argument} :
    Stmt none us (.declaration name arguments) ↔ arguments ≠ [] ∧ ∃ ts, us = .name name :: ts ∧
      Suffixes outer none ts (arguments.map fun a => .call (some a)) := by
  constructor
  · intro h
    generalize hkind : StatementKind.declaration name arguments = kind at h
    cases h with
    | declare _ => cases hkind
    | declareWith _ _ => cases hkind
    | assign _ _ _ => cases hkind
    | call hs hcall =>
      unfold Shape.kind at hkind
      split at hkind
      · next hname harguments =>
        cases hkind
        cases hs with
        | name name' hss =>
          cases hname
          have hshape := mapM_literal?_iff.1 harguments
          dsimp only at hshape
          subst hshape
          refine ⟨?_, _, rfl, hss⟩
          rintro rfl
          obtain ⟨x, hx, -⟩ := hcall
          cases hx
        | group _ _ => cases hname
      · cases hkind
  · intro h
    obtain ⟨hne, ts, rfl, hss⟩ := h
    have hkind : Shape.kind ⟨some name, arguments.map fun a => .call (some a)⟩ =
        .declaration name arguments := by
      unfold Shape.kind
      dsimp only
      rw [mapM_literal?_iff.2 rfl]
    rw [← hkind]
    refine .call (.name name hss) ⟨.call (some (arguments.getLast hne)), ?_, nofun⟩
    rw [List.getLast?_map, List.getLast?_eq_some_getLast hne, Option.map_some]

theorem stmt_text_iff {name s : String} :
    Stmt none us (.declaration name [.text s]) ↔ us = [.name name, .string s] := by
  rw [stmt_declaration_iff, and_iff_right (List.cons_ne_nil _ _)]
  simp only [List.map_cons, List.map_nil, suffixes_call_iff, suffixes_nil_iff, arguments_text_iff]
  constructor
  · rintro ⟨_, rfl, _, _, rfl, rfl, rfl⟩
    rfl
  · rintro rfl
    exact ⟨_, rfl, _, _, rfl, rfl, rfl⟩

theorem stmt_table_iff {name : String} {vs : List Value} :
    Stmt none us (.declaration name [.table vs]) ↔
      ∃ ts, us = .name name :: ts ∧ outer.table ts vs := by
  rw [stmt_declaration_iff, and_iff_right (List.cons_ne_nil _ _)]
  simp only [List.map_cons, List.map_nil, suffixes_call_iff, suffixes_nil_iff, arguments_table_iff]
  constructor
  · rintro ⟨_, rfl, ts, _, rfl, hts, rfl⟩
    exact ⟨ts, by rw [List.append_nil], hts⟩
  · rintro ⟨ts, rfl, hts⟩
    exact ⟨ts, rfl, ts, [], (List.append_nil ts).symm, hts, rfl⟩

theorem stmt_both_iff {name s : String} {vs : List Value} :
    Stmt none us (.declaration name [.text s, .table vs]) ↔
      ∃ ts, us = .name name :: .string s :: ts ∧ outer.table ts vs := by
  rw [stmt_declaration_iff, and_iff_right (List.cons_ne_nil _ _)]
  simp only [List.map_cons, List.map_nil, suffixes_call_iff, suffixes_nil_iff, arguments_text_iff,
    arguments_table_iff]
  constructor
  · rintro ⟨_, rfl, _, _, rfl, rfl, ts, _, rfl, hts, rfl⟩
    exact ⟨ts, by rw [List.append_nil]; rfl, hts⟩
  · rintro ⟨ts, rfl, hts⟩
    exact ⟨_, rfl, [.string s], ts, rfl, rfl, ts, [], (List.append_nil ts).symm, hts, rfl⟩

/-! ## declarations -/

/-- **A statement declares a property exactly if its tokens do**, and then the same one. -/
theorem declared?_eq_some_iff {kind : StatementKind} (h : Stmt none us kind)
    {w : String × PropertyValue} : declared? kind = some w ↔ Declares us w := by
  constructor
  · intro hw
    cases kind with
    | other => cases hw
    | declaration name arguments =>
      obtain ⟨value, hvalue, rfl⟩ := Option.map_eq_some_iff.1 hw
      unfold argumentValue? at hvalue
      split at hvalue
      · cases hvalue
        obtain rfl := stmt_text_iff.1 h
        exact .text ..
      · obtain ⟨ts, rfl, hts⟩ := stmt_table_iff.1 h
        obtain ⟨values, hvalues, rfl⟩ := table_iff.1 ⟨_, hts, Option.some.inj hvalue⟩
        exact .table name hvalues
      · obtain ⟨ts, rfl, hts⟩ := stmt_both_iff.1 h
        obtain ⟨values, hvalues, rfl⟩ := table_iff.1 ⟨_, hts, Option.some.inj hvalue⟩
        exact .both name _ hvalues
      · cases hvalue
  · intro hw
    cases hw with
    | text name s =>
      obtain rfl := h.kind_unique (stmt_text_iff.2 rfl)
      rfl
    | table name hvalues =>
      obtain ⟨vs, hvs, hvalue⟩ := table_iff.2 ⟨_, hvalues, rfl⟩
      obtain rfl := h.kind_unique (stmt_table_iff.2 ⟨_, rfl, hvs⟩)
      rw [← hvalue]
      rfl
    | both name s hvalues =>
      obtain ⟨vs, hvs, hvalue⟩ := table_iff.2 ⟨_, hvalues, rfl⟩
      obtain rfl := h.kind_unique (stmt_both_iff.2 ⟨_, rfl, hvs⟩)
      rw [← hvalue]
      rfl

end

end Grammar

end ResourceOrder.Manifest
