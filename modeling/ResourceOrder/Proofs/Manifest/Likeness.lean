import ResourceOrder.Proofs.Manifest.Retelling

/-!
# Manifests that look the same

* `Diagnostic.SamePlace`   reports of statements that stand at the same line and column;
* `Interpretation.Like f`  the same names with values of the same shapes, equal up to `f` in their
                           strings, and as many reports, each in its place.

What a statement declares depends on what is seen of it, so **texts without faults whose lexemes
look the same are interpreted alike** (`interpret_of_seen`).
-/

namespace ResourceOrder

/-- reports of statements with the same line and column -/
def Diagnostic.SamePlace (d d' : Diagnostic) : Prop :=
  ∃ line column text text', d = ⟨none, .unrecognizedStatement line column text⟩ ∧
    d' = ⟨none, .unrecognizedStatement line column text'⟩

namespace Manifest

def PropertyValue.mapText (f : String → String) : PropertyValue → PropertyValue
  | .scalar s => .scalar (f s)
  | .list items => .list (items.map f)

structure Interpretation.Like (f : String → String) (i i' : Interpretation) : Prop where
  properties : ∀ key, (i'.properties.get? key).map (PropertyValue.mapText f) =
    (i.properties.get? key).map (PropertyValue.mapText f)
  reports : List.Forall₂ Diagnostic.SamePlace i.diagnostics i'.diagnostics

section
variable {f : String → String}

/-! ## statements -/

theorem tableValue_mapText (values : List Value) :
    tableValue (values.map (Value.mapText f)) = (tableValue values).mapText f := by
  have htext : ∀ v : Value, (v.mapText f).text? = v.text?.map f := fun v => by cases v <;> rfl
  show PropertyValue.list ((values.map (Value.mapText f)).filterMap Value.text?) =
    .list ((values.filterMap Value.text?).map f)
  rw [List.filterMap_map, List.map_filterMap]
  exact congrArg _ (List.filterMap_congr fun v _ => htext v)

theorem argumentValue?_mapText (arguments : List Argument) :
    argumentValue? (arguments.map (Argument.mapText f)) =
      (argumentValue? arguments).map (PropertyValue.mapText f) := by
  match arguments with
  | [] => rfl
  | [.text s] => rfl
  | [.table values] => exact congrArg some (tableValue_mapText values)
  | [.text s, .text s'] => rfl
  | [.text s, .table values] => exact congrArg some (tableValue_mapText values)
  | .table values :: a :: rest => rfl
  | .text s :: a :: b :: rest => cases a <;> rfl

theorem declared?_mapText (kind : StatementKind) :
    declared? (kind.mapText f) = (declared? kind).map (Prod.map id (PropertyValue.mapText f)) := by
  cases kind with
  | other => rfl
  | declaration name arguments =>
    show (argumentValue? (arguments.map (Argument.mapText f))).map (name, ·) =
      ((argumentValue? arguments).map (name, ·)).map (Prod.map id (PropertyValue.mapText f))
    rw [argumentValue?_mapText]
    cases argumentValue? arguments <;> rfl

theorem lookup_map {α : Type} (g : α → α) (key : String) (writes : List (String × α)) :
    (writes.map (Prod.map id g)).lookup key = (writes.lookup key).map g := by
  induction writes with
  | nil => rfl
  | cons w writes ih =>
    obtain ⟨k, v⟩ := w
    show List.lookup key ((k, g v) :: writes.map (Prod.map id g)) = _
    rw [List.lookup_cons, List.lookup_cons, ih]
    cases key == k <;> rfl

section
variable {ss ss' : List Statement} (h : ss'.map (Statement.seen f) = ss.map (Statement.seen f))
include h

/-- statements that look the same declare the same, up to `f` -/
theorem get?_of_seen (source source' : List Char) (key : String) :
    ((Interpretation.ofStatements source' ss').properties.get? key).map (PropertyValue.mapText f) =
      ((Interpretation.ofStatements source ss).properties.get? key).map
        (PropertyValue.mapText f) := by
  have hwrites : ∀ ss : List Statement,
      (ss.filterMap fun s => declared? s.kind).map (Prod.map id (PropertyValue.mapText f)) =
        (ss.map (Statement.seen f)).filterMap fun x => declared? x.1 := by
    intro ss
    rw [List.filterMap_map, List.map_filterMap]
    exact List.filterMap_congr fun s _ => (declared?_mapText s.kind).symm
  unfold Interpretation.ofStatements
  dsimp only
  rw [Properties.get?_ofList, Properties.get?_ofList, ← lookup_map, ← lookup_map, List.map_reverse,
    List.map_reverse, hwrites, hwrites, h]

theorem samePlaces_of_seen (source source' : List Char) :
    List.Forall₂ Diagnostic.SamePlace (Interpretation.ofStatements source ss).diagnostics
      (Interpretation.ofStatements source' ss').diagnostics := by
  unfold Interpretation.ofStatements
  dsimp only
  induction ss generalizing ss' with
  | nil =>
    rw [List.map_eq_nil_iff.1 h]
    exact .nil
  | cons s ss ih =>
    obtain ⟨s', ss', rfl, hs, hrest⟩ := List.map_eq_cons_iff.1 h
    have hnone : (declared? s'.kind).isNone = (declared? s.kind).isNone := by
      have hdeclared := congrArg (fun x => (declared? x.1).isNone) hs
      dsimp only [Statement.seen] at hdeclared
      rwa [declared?_mapText, declared?_mapText, Option.isNone_map, Option.isNone_map] at hdeclared
    rw [List.filter_cons, List.filter_cons, hnone]
    split
    · refine .cons ?_ (ih hrest)
      have hline : s'.span.line = s.span.line := congrArg (fun x => x.2.1) hs
      have hcolumn : s'.span.column = s.span.column := congrArg (fun x => x.2.2) hs
      have hreport : unrecognized source' s' = ⟨none, .unrecognizedStatement s.span.line
          s.span.column (excerpt (trimText (s'.span.slice source')))⟩ := by
        rw [unrecognized, hline, hcolumn]
      exact ⟨_, _, _, _, rfl, hreport⟩
    · exact ih hrest

end

/-! ## sources -/

theorem interpret_of_seen {source source' : String} (hf : Faultless source.toList)
    (hf' : Faultless source'.toList)
    (hseen : (lexemesAt .start source'.toList).map (Lexeme.seen f) =
      (lexemesAt .start source.toList).map (Lexeme.seen f)) :
    ((∃ i', interpret source' = .ok i') ↔ ∃ i, interpret source = .ok i) ∧
      ∀ i i', interpret source = .ok i → interpret source' = .ok i' → i.Like f i' := by
  have horder := inOrder_lexemesAt .start source.toList
  have horder' := inOrder_lexemesAt .start source'.toList
  simp only [interpret_eq_ok_iff, and_iff_right hf, and_iff_right hf']
  constructor
  · constructor
    · intro h
      obtain ⟨_, ss', hss', _⟩ := h
      obtain ⟨ss, hss, _⟩ := hss'.exists_of_seen horder' horder hseen.symm
      exact ⟨_, ss, hss, rfl⟩
    · intro h
      obtain ⟨_, ss, hss, _⟩ := h
      obtain ⟨ss', hss', _⟩ := hss.exists_of_seen horder horder' hseen
      exact ⟨_, ss', hss', rfl⟩
  · intro i i' h h'
    obtain ⟨ss, hss, rfl⟩ := h
    obtain ⟨ss', hss', rfl⟩ := h'
    obtain ⟨vs, hvs, hview⟩ := hss.exists_of_seen horder horder' hseen
    rw [hvs.unique hss'] at hview
    exact ⟨get?_of_seen hview _ _, samePlaces_of_seen hview _ _⟩

end

end Manifest

end ResourceOrder
