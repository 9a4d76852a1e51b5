import ResourceOrder.Proofs.Manifest.Places

/-!
# Other texts in the strings

Which phrases the tokens of a manifest make does not depend on the texts in its strings.

* `mapText f`        a token, a value, an argument, a kind of statement with `f` applied to the text
                     of each of its strings;
* `Grammar.Blind`    a kind of phrase that tokens make whatever texts their strings have, where what
                     is kept of the phrase has other texts only;
* `Lexeme.seen f`    the token of a lexeme, up to `f` in its string, with the line and column;
* `Statement.seen f` the same of a statement.

Every kind of phrase is blind as soon as the expressions and tables inside it are.  **Two manifests
that are seen with the same lexemes are seen with the same statements**
(`Grammar.Chunk.exists_of_seen`).
-/

namespace ResourceOrder.Manifest

/-! ## other texts -/

def Token.isString : Token → Bool
  | .string _ => true
  | _ => false

section
variable (f : String → String)

def Token.mapText : Token → Token
  | .string value => .string (f value)
  | t => t

def Value.mapText : Value → Value
  | .text s => .text (f s)
  | .other => .other

def Argument.mapText : Argument → Argument
  | .text s => .text (f s)
  | .table values => .table (values.map (Value.mapText f))

def StatementKind.mapText : StatementKind → StatementKind
  | .declaration name arguments => .declaration name (arguments.map (Argument.mapText f))
  | .other => .other

def Lexeme.seen (t : Lexeme) : Token × UInt32 × UInt32 :=
  (t.token.mapText f, t.span.line, t.span.column)

def Statement.seen (s : Statement) : StatementKind × UInt32 × UInt32 :=
  (s.kind.mapText f, s.span.line, s.span.column)

namespace Grammar

def Suffix.mapText : Suffix → Suffix
  | .call argument => .call (argument.map (Argument.mapText f))
  | .access => .access
  | .method => .method

def Shape.mapText (s : Shape) : Shape := ⟨s.head, s.suffixes.map (Suffix.mapText f)⟩

/-- what other texts in the strings of the tokens do not change, but for the texts that are kept -/
def Blind {α : Type} (view : α → α) (p : Phrase α) : Prop :=
  ∀ {behind behind' : Option Token} {ts ts' : List Token} {a : α}, p behind ts a →
    behind'.map (Token.mapText f) = behind.map (Token.mapText f) →
    ts'.map (Token.mapText f) = ts.map (Token.mapText f) → ∃ a', p behind' ts' a' ∧ view a' = view a

end Grammar

end

section
variable {f : String → String}

/-! ## tokens -/

theorem Token.mapText_eq_iff {t t' : Token} (ht : t.isString = false) :
    t'.mapText f = t ↔ t' = t := by
  cases t' with
  | string s => exact iff_of_false (fun h => by cases h; cases ht) fun h => by cases h; cases ht
  | keyword k => exact Iff.rfl
  | reserved word => exact Iff.rfl
  | name text => exact Iff.rfl
  | number text => exact Iff.rfl
  | mark m => exact Iff.rfl

theorem Token.exists_of_mapText {t' : Token} {s : String}
    (h : t'.mapText f = (Token.string s).mapText f) : ∃ s', t' = .string s' ∧ f s' = f s := by
  cases t' with
  | string s' => exact ⟨s', rfl, Token.string.inj h⟩
  | keyword k => cases h
  | reserved word => cases h
  | name text => cases h
  | number text => cases h
  | mark m => cases h

section
variable {ts us vs : List Token} {t : Token}

theorem exists_of_map_append (h : ts.map (Token.mapText f) = (us ++ vs).map (Token.mapText f)) :
    ∃ us' vs', ts = us' ++ vs' ∧ us'.map (Token.mapText f) = us.map (Token.mapText f) ∧
      vs'.map (Token.mapText f) = vs.map (Token.mapText f) := by
  rw [List.map_append] at h
  exact List.map_eq_append_iff.1 h

section
variable (ht : t.isString = false)
include ht

/-- a token without a text stays as it is -/
theorem exists_of_map_cons (h : ts.map (Token.mapText f) = (t :: us).map (Token.mapText f)) :
    ∃ us', ts = t :: us' ∧ us'.map (Token.mapText f) = us.map (Token.mapText f) := by
  obtain ⟨t', us', rfl, htoken, hus⟩ := List.map_eq_cons_iff.1 h
  rw [(Token.mapText_eq_iff ht).2 rfl, Token.mapText_eq_iff ht] at htoken
  rw [htoken]
  exact ⟨us', rfl, hus⟩

theorem eq_singleton_of_map (h : ts.map (Token.mapText f) = [t].map (Token.mapText f)) :
    ts = [t] := by
  obtain ⟨us', rfl, hus⟩ := exists_of_map_cons ht h
  rw [List.map_eq_nil_iff.1 hus]

theorem map_behind_eq_iff {behind : Option Token} :
    behind.map (Token.mapText f) = some t ↔ behind = some t := by
  cases behind with
  | none => exact iff_of_false nofun nofun
  | some t' =>
    rw [Option.map_some, Option.some_inj, Option.some_inj]
    exact Token.mapText_eq_iff ht

end

/-- tokens in front of a mark and behind it -/
theorem exists_of_map_mark {m : Mark}
    (h : ts.map (Token.mapText f) = (us ++ .mark m :: vs).map (Token.mapText f)) :
    ∃ us' vs', ts = us' ++ .mark m :: vs' ∧
      us'.map (Token.mapText f) = us.map (Token.mapText f) ∧
      vs'.map (Token.mapText f) = vs.map (Token.mapText f) := by
  obtain ⟨us', rest, rfl, hus, hrest⟩ := exists_of_map_append h
  obtain ⟨vs', rfl, hvs⟩ := exists_of_map_cons rfl hrest
  exact ⟨us', vs', rfl, hus, hvs⟩

end

namespace Grammar

theorem opensSuffix_mapText (t : Token) : opensSuffix (t.mapText f) = opensSuffix t := by
  cases t <;> rfl

theorem isString_of_mem_constants : ∀ t ∈ constants, t.isString = false := by decide

theorem isString_of_mem_unary : ∀ t ∈ unaryOperators, t.isString = false := by decide

theorem isString_of_mem_binary : ∀ t ∈ binaryOperators, t.isString = false := by decide

/-! ## lists -/

theorem Blind.listed {α : Type} {view : α → α} {item : Phrase α} (hi : Blind f view item) :
    Blind f (List.map view) (Listed item) := by
  intro behind behind' ts ts' as h hbehind hts
  induction h generalizing behind' ts' with
  | last ha hne =>
    obtain ⟨a', ha', hview⟩ := hi ha hbehind hts
    refine ⟨[a'], .last ha' ?_, by rw [List.map_singleton, List.map_singleton, hview]⟩
    rw [ne_eq, ← map_behind_eq_iff rfl] at hne ⊢
    rwa [hbehind]
  | more ha _ ih =>
    obtain ⟨us', vs', rfl, hus, hvs⟩ := exists_of_map_mark hts
    obtain ⟨a', ha', hview⟩ := hi ha rfl hus
    obtain ⟨as', has', hviews⟩ := ih hbehind hvs
    exact ⟨a' :: as', .more ha' has', by rw [List.map_cons, List.map_cons, hview, hviews]⟩

theorem blind_name : Blind f id NamePhrase := by
  intro behind behind' ts ts' name h _ hts
  rw [h] at hts
  exact ⟨name, eq_singleton_of_map rfl hts, rfl⟩

/-! ## suffixed expressions -/

/-- the expressions and tables inside a phrase are blind -/
structure Inside.Blind (f : String → String) (inside : Inside) : Prop where
  value : Grammar.Blind f (Value.mapText f) inside.value
  table : Grammar.Blind f (List.map (Value.mapText f)) fun _ => inside.table

section
variable {inside : Inside} (hi : inside.Blind f)
include hi

theorem blind_arguments :
    Blind f (Option.map (Argument.mapText f)) fun _ => Arguments inside := by
  intro behind behind' ts ts' a h hbehind hts
  cases h with
  | string s =>
    obtain ⟨t', us', rfl, htoken, hus⟩ := List.map_eq_cons_iff.1 hts
    obtain ⟨s', rfl, hs⟩ := Token.exists_of_mapText htoken
    rw [List.map_eq_nil_iff.1 hus]
    exact ⟨_, .string s', congrArg (fun s => some (Argument.text s)) hs⟩
  | table ht =>
    obtain ⟨vs', ht', hview⟩ := hi.table ht hbehind hts
    exact ⟨_, .table ht', congrArg (fun vs => some (Argument.table vs)) hview⟩
  | none =>
    obtain ⟨us', rfl, hus⟩ := exists_of_map_cons rfl hts
    rw [eq_singleton_of_map rfl hus]
    exact ⟨_, .none, rfl⟩
  | values hl =>
    rw [List.cons_append] at hts
    obtain ⟨rest, rfl, hrest⟩ := exists_of_map_cons rfl hts
    obtain ⟨us', vs', rfl, hus, hvs⟩ := exists_of_map_mark hrest
    rw [List.map_eq_nil_iff.1 hvs]
    obtain ⟨_, hl', _⟩ := Blind.listed hi.value hl rfl hus
    exact ⟨_, .values hl', rfl⟩

theorem blind_suffixPhrase : Blind f (Suffix.mapText f) fun _ => SuffixPhrase inside := by
  intro behind behind' ts ts' s h hbehind hts
  cases h with
  | field name =>
    obtain ⟨us', rfl, hus⟩ := exists_of_map_cons rfl hts
    rw [eq_singleton_of_map rfl hus]
    exact ⟨_, .field name, rfl⟩
  | element hv =>
    rw [List.cons_append] at hts
    obtain ⟨rest, rfl, hrest⟩ := exists_of_map_cons rfl hts
    obtain ⟨us', vs', rfl, hus, hvs⟩ := exists_of_map_mark hrest
    rw [List.map_eq_nil_iff.1 hvs]
    obtain ⟨_, hv', _⟩ := hi.value hv rfl hus
    exact ⟨_, .element hv', rfl⟩
  | method name ha =>
    obtain ⟨rest, rfl, hrest⟩ := exists_of_map_cons rfl hts
    obtain ⟨us', rfl, hus⟩ := exists_of_map_cons rfl hrest
    obtain ⟨_, ha', _⟩ := blind_arguments hi ha hbehind hus
    exact ⟨_, .method name ha', rfl⟩
  | call ha =>
    obtain ⟨_, ha', hview⟩ := blind_arguments hi ha hbehind hts
    exact ⟨_, .call ha', congrArg Suffix.call hview⟩

theorem blind_suffixes : Blind f (List.map (Suffix.mapText f)) (Suffixes inside) := by
  intro behind behind' ts ts' ss h hbehind hts
  induction h generalizing behind' ts' with
  | nil hstop =>
    rw [List.map_eq_nil_iff.1 hts]
    refine ⟨[], .nil fun t ht => ?_, rfl⟩
    subst ht
    obtain ⟨t', rfl, htoken⟩ := Option.map_eq_some_iff.1 hbehind.symm
    rw [← opensSuffix_mapText, ← htoken, opensSuffix_mapText]
    exact hstop t' rfl
  | cons hs _ ih =>
    obtain ⟨us', vs', rfl, hus, hvs⟩ := exists_of_map_append hts
    obtain ⟨s', hs', hview⟩ := blind_suffixPhrase hi hs hbehind hus
    obtain ⟨ss', hss', hviews⟩ := ih hbehind hvs
    exact ⟨s' :: ss', .cons hs' hss', by rw [List.map_cons, List.map_cons, hview, hviews]⟩

theorem blind_suffixed : Blind f (Shape.mapText f) (Suffixed inside) := by
  intro behind behind' ts ts' s h hbehind hts
  cases h with
  | name name hs =>
    obtain ⟨us', rfl, hus⟩ := exists_of_map_cons rfl hts
    obtain ⟨ss', hss', hview⟩ := blind_suffixes hi hs hbehind hus
    exact ⟨_, .name name hss', congrArg (Shape.mk _) hview⟩
  | group hv hs =>
    rw [List.cons_append] at hts
    obtain ⟨rest, rfl, hrest⟩ := exists_of_map_cons rfl hts
    obtain ⟨us', vs', rfl, hus, hvs⟩ := exists_of_map_mark hrest
    obtain ⟨_, hv', _⟩ := hi.value hv rfl hus
    obtain ⟨ss', hss', hview⟩ := blind_suffixes hi hs hbehind hvs
    exact ⟨_, .group hv' hss', congrArg (Shape.mk _) hview⟩

/-! ## expressions and tables -/

theorem blind_operand : Blind f (Value.mapText f) (Operand inside) := by
  intro behind behind' ts ts' v h hbehind hts
  cases h with
  | string s =>
    obtain ⟨t', us', rfl, htoken, hus⟩ := List.map_eq_cons_iff.1 hts
    obtain ⟨s', rfl, hs⟩ := Token.exists_of_mapText htoken
    rw [List.map_eq_nil_iff.1 hus]
    exact ⟨_, .string s', congrArg Value.text hs⟩
  | number s =>
    rw [eq_singleton_of_map rfl hts]
    exact ⟨_, .number s, rfl⟩
  | constant ht =>
    rw [eq_singleton_of_map (isString_of_mem_constants _ ht) hts]
    exact ⟨_, .constant ht, rfl⟩
  | table ht =>
    obtain ⟨_, ht', _⟩ := hi.table ht hbehind hts
    exact ⟨_, .table ht', rfl⟩
  | suffixed hs =>
    obtain ⟨_, hs', _⟩ := blind_suffixed hi hs hbehind hts
    exact ⟨_, .suffixed hs', rfl⟩

theorem blind_expr : Blind f (Value.mapText f) (Expr inside) := by
  intro behind behind' ts ts' v h hbehind hts
  induction h generalizing behind' ts' with
  | operand ho hstop =>
    obtain ⟨v', ho', hview⟩ := blind_operand hi ho hbehind hts
    refine ⟨v', .operand ho' fun t ht hmem => ?_, hview⟩
    have hplain := isString_of_mem_binary t hmem
    rw [← map_behind_eq_iff hplain, hbehind, map_behind_eq_iff hplain] at ht
    exact hstop t ht hmem
  | unary hu _ ih =>
    obtain ⟨us', rfl, hus⟩ := exists_of_map_cons (isString_of_mem_unary _ hu) hts
    obtain ⟨_, he, _⟩ := ih hbehind hus
    exact ⟨_, .unary hu he, rfl⟩
  | binary hb ho _ ih =>
    obtain ⟨us', rest, rfl, hus, hrest⟩ := exists_of_map_append hts
    obtain ⟨vs', rfl, hvs⟩ := exists_of_map_cons (isString_of_mem_binary _ hb) hrest
    obtain ⟨_, ho', _⟩ := blind_operand hi ho rfl hus
    obtain ⟨_, he, _⟩ := ih hbehind hvs
    exact ⟨_, .binary hb ho' he, rfl⟩

theorem blind_field : Blind f (Value.mapText f) (Field inside) := by
  intro behind behind' ts ts' v h hbehind hts
  cases h with
  | element hk hv =>
    rw [List.cons_append] at hts
    obtain ⟨rest, rfl, hrest⟩ := exists_of_map_cons rfl hts
    obtain ⟨us', rest', rfl, hus, hrest'⟩ := exists_of_map_mark hrest
    obtain ⟨vs', rfl, hvs⟩ := exists_of_map_cons rfl hrest'
    obtain ⟨_, hk', _⟩ := hi.value hk rfl hus
    obtain ⟨v', hv', hview⟩ := hi.value hv hbehind hvs
    exact ⟨v', .element hk' hv', hview⟩
  | named name hv =>
    obtain ⟨rest, rfl, hrest⟩ := exists_of_map_cons rfl hts
    obtain ⟨vs', rfl, hvs⟩ := exists_of_map_cons rfl hrest
    obtain ⟨v', hv', hview⟩ := hi.value hv hbehind hvs
    exact ⟨v', .named name hv', hview⟩
  | plain hv =>
    obtain ⟨v', hv', hview⟩ := hi.value hv hbehind hts
    exact ⟨v', .plain hv', hview⟩

theorem blind_fields : Blind f (List.map (Value.mapText f)) fun _ => Fields inside := by
  intro behind behind' ts ts' vs h hbehind hts
  induction h generalizing ts' with
  | nil =>
    rw [List.map_eq_nil_iff.1 hts]
    exact ⟨[], .nil, rfl⟩
  | last hv =>
    obtain ⟨v', hv', hview⟩ := blind_field hi hv rfl hts
    exact ⟨[v'], .last hv', by rw [List.map_singleton, List.map_singleton, hview]⟩
  | more hs hv _ ih =>
    obtain ⟨us', rest, rfl, hus, hrest⟩ := exists_of_map_append hts
    obtain ⟨ws', rfl, hws⟩ := exists_of_map_cons (by rcases hs with rfl | rfl <;> rfl) hrest
    obtain ⟨v', hv', hview⟩ := blind_field hi hv rfl hus
    obtain ⟨vs', hvs', hviews⟩ := ih hws
    exact ⟨v' :: vs', .more hs hv' hvs', by rw [List.map_cons, List.map_cons, hview, hviews]⟩

theorem blind_table : Blind f (List.map (Value.mapText f)) fun _ => Table inside := by
  intro behind behind' ts ts' vs h hbehind hts
  cases h with
  | braces hf =>
    rw [List.cons_append] at hts
    obtain ⟨rest, rfl, hrest⟩ := exists_of_map_cons rfl hts
    obtain ⟨us', ws', rfl, hus, hws⟩ := exists_of_map_mark hrest
    rw [List.map_eq_nil_iff.1 hws]
    obtain ⟨vs', hf', hviews⟩ := blind_fields hi hf hbehind hus
    exact ⟨vs', .braces hf', hviews⟩

end

theorem blind_phrases (depth : Nat) : (phrases depth).Blind f := by
  induction depth with
  | zero => exact ⟨fun h => h.elim, fun h => h.elim⟩
  | succ depth ih => exact ⟨blind_expr ih, blind_table ih⟩

/-! ## statements -/

theorem Suffix.mapText_eq_access_iff {s : Suffix} : s.mapText f = .access ↔ s = .access := by
  cases s with
  | access => exact Iff.rfl
  | method => exact iff_of_false nofun nofun
  | call argument => exact iff_of_false nofun nofun

theorem getLast?_mapText_iff {ss : List Suffix} :
    (ss.map (Suffix.mapText f)).getLast? = some .access ↔ ss.getLast? = some .access := by
  rw [List.getLast?_map, Option.map_eq_some_iff]
  simp only [Suffix.mapText_eq_access_iff, exists_eq_right]

theorem isTarget_mapText_iff {s : Shape} : (s.mapText f).IsTarget ↔ s.IsTarget := by
  obtain ⟨head, suffixes⟩ := s
  unfold Shape.IsTarget Shape.mapText
  rw [getLast?_mapText_iff]
  simp only [Shape.mk.injEq, List.map_eq_nil_iff]

theorem isCall_iff {s : Shape} :
    s.IsCall ↔ s.suffixes ≠ [] ∧ s.suffixes.getLast? ≠ some .access := by
  constructor
  · intro h
    obtain ⟨x, hlast, hx⟩ := h
    refine ⟨?_, ?_⟩
    · intro hnil
      rw [hnil] at hlast
      cases hlast
    · rw [hlast]
      exact fun he => hx (Option.some.inj he)
  · intro h
    have hlast := List.getLast?_eq_some_getLast h.1
    exact ⟨_, hlast, fun he => h.2 (by rw [hlast, he])⟩

theorem isCall_mapText_iff {s : Shape} : (s.mapText f).IsCall ↔ s.IsCall := by
  rw [isCall_iff, isCall_iff]
  show s.suffixes.map (Suffix.mapText f) ≠ [] ∧ (s.suffixes.map (Suffix.mapText f)).getLast? ≠ _ ↔ _
  rw [ne_eq, ne_eq, List.map_eq_nil_iff, getLast?_mapText_iff]

theorem mapM_literal?_mapText (ss : List Suffix) :
    (ss.map (Suffix.mapText f)).mapM Suffix.literal? =
      (ss.mapM Suffix.literal?).map (List.map (Argument.mapText f)) := by
  induction ss with
  | nil => rfl
  | cons s ss ih =>
    have hs : (s.mapText f).literal? = s.literal?.map (Argument.mapText f) := by
      cases s <;> rfl
    rw [List.map_cons, List.mapM_cons, List.mapM_cons, ih, hs]
    cases s.literal? with
    | none => rfl
    | some a => cases ss.mapM Suffix.literal? <;> rfl

theorem kind_mapText (s : Shape) : (s.mapText f).kind = s.kind.mapText f := by
  obtain ⟨head, suffixes⟩ := s
  unfold Shape.kind Shape.mapText
  dsimp only
  rw [mapM_literal?_mapText]
  cases head with
  | none => rfl
  | some name => cases suffixes.mapM Suffix.literal? <;> rfl

theorem isTarget_of_map_eq {targets targets' : List Shape}
    (h : targets'.map (Shape.mapText f) = targets.map (Shape.mapText f))
    (ht : ∀ s ∈ targets, s.IsTarget) : ∀ s ∈ targets', s.IsTarget := by
  intro s' hs'
  have hmem := List.mem_map_of_mem (f := Shape.mapText f) hs'
  rw [h] at hmem
  obtain ⟨s, hs, heq⟩ := List.mem_map.1 hmem
  rw [← isTarget_mapText_iff, ← heq, isTarget_mapText_iff]
  exact ht s hs

theorem blind_stmt : Blind f (StatementKind.mapText f) Stmt := by
  have houter : outer.Blind f := blind_phrases nestingBound
  intro behind behind' ts ts' kind h hbehind hts
  cases h with
  | declare hl =>
    obtain ⟨us', rfl, hus⟩ := exists_of_map_cons rfl hts
    obtain ⟨_, hl', _⟩ := Blind.listed blind_name hl hbehind hus
    exact ⟨_, .declare hl', rfl⟩
  | declareWith hl hv =>
    rw [List.cons_append] at hts
    obtain ⟨rest, rfl, hrest⟩ := exists_of_map_cons rfl hts
    obtain ⟨us', vs', rfl, hus, hvs⟩ := exists_of_map_mark hrest
    obtain ⟨_, hl', _⟩ := Blind.listed blind_name hl rfl hus
    obtain ⟨_, hv', _⟩ := Blind.listed houter.value hv hbehind hvs
    exact ⟨_, .declareWith hl' hv', rfl⟩
  | assign hl ht hv =>
    obtain ⟨us', vs', rfl, hus, hvs⟩ := exists_of_map_mark hts
    obtain ⟨targets', hl', hview⟩ := Blind.listed (blind_suffixed houter) hl rfl hus
    obtain ⟨_, hv', _⟩ := Blind.listed houter.value hv hbehind hvs
    exact ⟨_, .assign hl' (isTarget_of_map_eq hview ht) hv', rfl⟩
  | call hs hc =>
    obtain ⟨s', hs', hview⟩ := blind_suffixed houter hs hbehind hts
    refine ⟨_, .call hs' ?_, ?_⟩
    · rw [← isCall_mapText_iff, hview, isCall_mapText_iff]
      exact hc
    · rw [← kind_mapText, hview, kind_mapText]

/-! ## manifests -/

theorem map_token_of_map_seen {ts us : List Lexeme}
    (h : us.map (Lexeme.seen f) = ts.map (Lexeme.seen f)) :
    (us.map Lexeme.token).map (Token.mapText f) = (ts.map Lexeme.token).map (Token.mapText f) := by
  have htokens := congrArg (List.map Prod.fst) h
  rw [List.map_map, List.map_map] at htokens
  rw [List.map_map, List.map_map]
  exact htokens

theorem map_behind_of_map_seen {ts us : List Lexeme}
    (h : us.map (Lexeme.seen f) = ts.map (Lexeme.seen f)) :
    (us.head?.map Lexeme.token).map (Token.mapText f) =
      (ts.head?.map Lexeme.token).map (Token.mapText f) := by
  rw [← List.head?_map, ← List.head?_map, ← List.head?_map, ← List.head?_map,
    map_token_of_map_seen h]

/-- of lexemes in order the first one says where they stand together -/
theorem seen_merge {us : List Lexeme} {first last : Lexeme}
    (hus : InOrder us) (hf : us.head? = some first) (hl : us.getLast? = some last)
    (kind : StatementKind) :
    Statement.seen f ⟨kind, first.span.merge last.span⟩ =
      (kind.mapText f, (first.seen f).2) := by
  have hle : first.span.start ≤ last.span.start := by
    obtain ⟨rest, rfl⟩ := List.head?_eq_some_iff.1 hf
    rcases List.mem_cons.1 (List.mem_of_getLast? hl) with rfl | hmem
    · exact Nat.le_refl _
    · exact Nat.le_of_lt ((List.pairwise_cons.1 hus).1 last hmem)
  unfold Statement.seen Lexeme.seen Span.merge
  rw [if_pos hle]

/-- **Lexemes in order that look the same make statements that look the same.** -/
theorem Chunk.exists_of_seen {ts us : List Lexeme} {ss : List Statement} (h : Chunk ts ss)
    (hts : InOrder ts) (hus : InOrder us)
    (hseen : us.map (Lexeme.seen f) = ts.map (Lexeme.seen f)) :
    ∃ vs, Chunk us vs ∧ vs.map (Statement.seen f) = ss.map (Statement.seen f) := by
  induction h generalizing us with
  | nil =>
    rw [List.map_eq_nil_iff.1 hseen]
    exact ⟨[], .nil, rfl⟩
  | @semicolon t ts ss ht _ ih =>
    obtain ⟨u, us, rfl, hu, hrest⟩ := List.map_eq_cons_iff.1 hseen
    obtain ⟨vs, hvs, hview⟩ := ih (List.pairwise_cons.1 hts).2 (List.pairwise_cons.1 hus).2 hrest
    have htoken : u.token.mapText f = t.token.mapText f := congrArg Prod.fst hu
    rw [ht] at htoken
    exact ⟨vs, .semicolon ((Token.mapText_eq_iff rfl).1 htoken) hvs, hview⟩
  | statement hs hf hl _ ih =>
    rw [List.map_append] at hseen
    obtain ⟨front, rest, rfl, hfront, hrest⟩ := List.map_eq_append_iff.1 hseen
    obtain ⟨htsfront, htsrest, _⟩ := List.pairwise_append.1 hts
    obtain ⟨husfront, husrest, _⟩ := List.pairwise_append.1 hus
    obtain ⟨vs, hvs, hview⟩ := ih htsrest husrest hrest
    obtain ⟨kind', hs', hkind⟩ :=
      blind_stmt hs (map_behind_of_map_seen hrest) (map_token_of_map_seen hfront)
    have hhead := congrArg List.head? hfront
    rw [List.head?_map, List.head?_map, hf, Option.map_some, Option.map_eq_some_iff] at hhead
    obtain ⟨first', hf', hfirst⟩ := hhead
    have hne : front ≠ [] := by
      rintro rfl
      cases hf'
    have hl' := List.getLast?_eq_some_getLast hne
    refine ⟨_, .statement hs' hf' hl' hvs, ?_⟩
    rw [List.map_cons, List.map_cons, seen_merge husfront hf' hl', seen_merge htsfront hf hl,
      hkind, hfirst, hview]

theorem Chunk.unique {ts : List Lexeme} {ss ss' : List Statement} (h : Chunk ts ss)
    (h' : Chunk ts ss') : ss = ss' := by
  have hss := Parser.statements_complete h (Nat.le_refl _)
  rw [Parser.statements_complete h' (Nat.le_refl _)] at hss
  exact (Except.ok.inj hss).symm

end Grammar

end

end ResourceOrder.Manifest
