import ResourceOrder.Proofs.Manifest.Grammar

/-!
# How phrases begin, and what may stand behind them

What kind of phrase comes next is seen from its first token, and in a table from the first two.

* `opensOperand`   the tokens that an operand begins with;
* `Inside.Lawful`  what is known of the beginnings of the expressions and tables inside a phrase;
* `Ends`           the token, or the end of the text, goes on with no phrase.

The expressions and tables of every depth are lawful (`lawful_phrases`).  A phrase that reaches as
far as it can in front of one token does so in front of any that ends it, and **a statement is the
same statement whatever ends it** (`Stmt.before`).
-/

namespace ResourceOrder.Manifest.Grammar

def opensOperand : Token → Bool
  | .string _ => true
  | .number _ => true
  | .name _ => true
  | .keyword .nil => true
  | .keyword .true => true
  | .keyword .false => true
  | .mark .ellipsis => true
  | .mark .leftBrace => true
  | .mark .leftParen => true
  | _ => false

/-- how expressions and tables begin; a name that an expression begins with is not followed by
an equality sign inside the expression -/
structure Inside.Lawful (inside : Inside) : Prop where
  value : ∀ behind us v, inside.value behind us v →
    ∃ t ts, us = t :: ts ∧ (opensOperand t = true ∨ t ∈ unaryOperators)
  key : ∀ behind name us v, inside.value behind (.name name :: us) v →
    us.head? ≠ some (.mark .equal)
  table : ∀ us vs, inside.table us vs → ∃ ts, us = .mark .leftBrace :: ts

section
variable {inside : Inside} {behind : Option Token} {us : List Token}

/-! ## beginnings -/

theorem opensOperand_of_mem_unary {t : Token} (h : t ∈ unaryOperators) :
    opensOperand t = false := by
  simp only [unaryOperators, List.mem_cons, List.not_mem_nil, or_false] at h
  rcases h with rfl | rfl | rfl <;> rfl

theorem opensOperand_of_mem_constants {t : Token} (h : t ∈ constants) :
    opensOperand t = true := by
  simp only [constants, List.mem_cons, List.not_mem_nil, or_false] at h
  rcases h with rfl | rfl | rfl | rfl <;> rfl

theorem Inside.Lawful.value_ne (hl : inside.Lawful) {v : Value} (h : inside.value behind us v)
    {t : Token} (ht : opensOperand t = false) (hu : t ∉ unaryOperators) : us.head? ≠ some t := by
  obtain ⟨u, ts, rfl, hopen⟩ := hl.value _ _ _ h
  intro he
  have hut : u = t := Option.some.inj he
  subst hut
  rcases hopen with hopen | hopen
  · rw [ht] at hopen
    exact Bool.false_ne_true hopen
  · exact hu hopen

theorem Inside.Lawful.value_ne_nil (hl : inside.Lawful) {v : Value}
    (h : inside.value behind us v) : us ≠ [] := by
  obtain ⟨t, ts, rfl, _⟩ := hl.value _ _ _ h
  exact List.cons_ne_nil t ts

theorem Listed.opens {α : Type} {item : Phrase α} {as : List α} {first : Token → Prop}
    (hi : ∀ behind us a, item behind us a → ∃ t ts, us = t :: ts ∧ first t)
    (h : Listed item behind us as) : ∃ t ts, us = t :: ts ∧ first t := by
  cases h with
  | last h _ => exact hi _ _ _ h
  | more h _ =>
    obtain ⟨t, ts, rfl, ht⟩ := hi _ _ _ h
    exact ⟨t, _, rfl, ht⟩

theorem Arguments.opens (hl : inside.Lawful) {a : Option Argument} (h : Arguments inside us a) :
    ∃ t ts, us = t :: ts ∧
      ((∃ s, t = .string s) ∨ t = .mark .leftBrace ∨ t = .mark .leftParen) := by
  cases h with
  | string s => exact ⟨_, _, rfl, .inl ⟨s, rfl⟩⟩
  | table h =>
    obtain ⟨ts, rfl⟩ := hl.table _ _ h
    exact ⟨_, _, rfl, .inr (.inl rfl)⟩
  | none => exact ⟨_, _, rfl, .inr (.inr rfl)⟩
  | values h => exact ⟨_, _, rfl, .inr (.inr rfl)⟩

theorem SuffixPhrase.opens (hl : inside.Lawful) {s : Suffix} (h : SuffixPhrase inside us s) :
    ∃ t ts, us = t :: ts ∧ opensSuffix t = true := by
  cases h with
  | field _ => exact ⟨_, _, rfl, rfl⟩
  | element _ => exact ⟨_, _, rfl, rfl⟩
  | method _ _ => exact ⟨_, _, rfl, rfl⟩
  | call h =>
    obtain ⟨t, ts, rfl, ht⟩ := h.opens hl
    refine ⟨t, ts, rfl, ?_⟩
    rcases ht with ⟨s, rfl⟩ | rfl | rfl <;> rfl

theorem Suffixes.opens (hl : inside.Lawful) {ss : List Suffix} (h : Suffixes inside behind us ss) :
    us = [] ∨ ∃ t ts, us = t :: ts ∧ opensSuffix t = true := by
  cases h with
  | nil _ => exact .inl rfl
  | cons h _ =>
    obtain ⟨t, ts, rfl, ht⟩ := h.opens hl
    exact .inr ⟨t, _, rfl, ht⟩

theorem Suffixed.opens {s : Shape} (h : Suffixed inside behind us s) :
    ∃ t ts, us = t :: ts ∧ ((∃ name, t = .name name) ∨ t = .mark .leftParen) := by
  cases h with
  | name name _ => exact ⟨_, _, rfl, .inl ⟨name, rfl⟩⟩
  | group _ _ => exact ⟨_, _, rfl, .inr rfl⟩

theorem Operand.opens (hl : inside.Lawful) {v : Value} (h : Operand inside behind us v) :
    ∃ t ts, us = t :: ts ∧ opensOperand t = true := by
  cases h with
  | string _ => exact ⟨_, _, rfl, rfl⟩
  | number _ => exact ⟨_, _, rfl, rfl⟩
  | constant ht => exact ⟨_, _, rfl, opensOperand_of_mem_constants ht⟩
  | table h =>
    obtain ⟨ts, rfl⟩ := hl.table _ _ h
    exact ⟨_, _, rfl, rfl⟩
  | suffixed h =>
    obtain ⟨t, ts, rfl, ht⟩ := h.opens
    refine ⟨t, ts, rfl, ?_⟩
    rcases ht with ⟨name, rfl⟩ | rfl <;> rfl

theorem Expr.opens (hl : inside.Lawful) {v : Value} (h : Expr inside behind us v) :
    ∃ t ts, us = t :: ts ∧ (opensOperand t = true ∨ t ∈ unaryOperators) := by
  cases h with
  | operand h _ =>
    obtain ⟨t, ts, rfl, ht⟩ := h.opens hl
    exact ⟨t, ts, rfl, .inl ht⟩
  | unary hu _ => exact ⟨_, _, rfl, .inr hu⟩
  | binary _ h _ =>
    obtain ⟨t, ts, rfl, ht⟩ := h.opens hl
    exact ⟨t, _, rfl, .inl ht⟩

theorem Field.head_ne (hl : inside.Lawful) {v : Value} (h : Field inside behind us v) :
    us ≠ [] ∧ us.head? ≠ some (.mark .rightBrace) := by
  cases h with
  | element _ _ => exact ⟨List.cons_ne_nil _ _, by simp⟩
  | named _ _ => exact ⟨List.cons_ne_nil _ _, by simp⟩
  | plain h => exact ⟨hl.value_ne_nil h, hl.value_ne h rfl (by decide)⟩

/-! ## names in front of an equality sign -/

/-- behind a name, an operand goes on with a suffix if at all -/
theorem Operand.behind_name (hl : inside.Lawful) {name : String} {v : Value}
    (h : Operand inside behind (.name name :: us) v) :
    us = [] ∨ ∃ t ts, us = t :: ts ∧ opensSuffix t = true := by
  cases h with
  | constant ht => exact .inl rfl
  | table h =>
    obtain ⟨ts, hts⟩ := hl.table _ _ h
    exact absurd (List.head_eq_of_cons_eq hts) (by simp)
  | suffixed h =>
    cases h with
    | name _ h => exact h.opens hl

theorem head?_ne_equal_of_opensSuffix {ts : List Token} {t : Token} (h : opensSuffix t = true) :
    (t :: ts).head? ≠ some (.mark .equal) := by
  intro he
  have ht : t = .mark .equal := Option.some.inj he
  rw [ht] at h
  exact Bool.false_ne_true h

theorem Expr.behind_name (hl : inside.Lawful) {name : String} {v : Value}
    (h : Expr inside behind (.name name :: us) v) : us.head? ≠ some (.mark .equal) := by
  generalize hts : Token.name name :: us = ts at h
  cases h with
  | operand h _ =>
    subst hts
    rcases h.behind_name hl with rfl | ⟨t, ts, rfl, ht⟩
    · simp
    · exact head?_ne_equal_of_opensSuffix ht
  | unary hu _ =>
    obtain rfl := List.head_eq_of_cons_eq hts
    exact absurd hu (by simp [unaryOperators])
  | @binary _ b ts us' _ _ hb h _ =>
    obtain ⟨t, ts', rfl, _⟩ := h.opens hl
    rw [List.cons_append] at hts
    obtain rfl := List.head_eq_of_cons_eq hts
    obtain rfl := List.tail_eq_of_cons_eq hts
    rcases h.behind_name hl with rfl | ⟨t, ts, rfl, ht⟩
    · intro he
      have hbe : b = .mark .equal := Option.some.inj he
      rw [hbe] at hb
      exact absurd hb (by decide)
    · exact head?_ne_equal_of_opensSuffix ht

end

/-! ## all depths -/

theorem lawful_phrases (depth : Nat) : (phrases depth).Lawful := by
  induction depth with
  | zero => exact ⟨fun _ _ _ h => h.elim, fun _ _ _ _ h => h.elim, fun _ _ h => h.elim⟩
  | succ depth ih =>
    refine ⟨fun _ _ _ h => Expr.opens ih h, fun _ _ _ _ h => Expr.behind_name ih h,
      fun us vs h => ?_⟩
    cases h with
    | braces _ => exact ⟨_, rfl⟩

/-! ## ends -/

/-- no suffix, operator or list goes on with the token; the end of the text is no token -/
def Ends (behind : Option Token) : Prop :=
  ∀ t, behind = some t → opensSuffix t = false ∧ t ∉ binaryOperators ∧ t ≠ .mark .comma

theorem ends_none : Ends none := nofun

theorem ends_semicolon : Ends (some (.mark .semicolon)) := by
  intro t ht
  cases ht
  decide

section
variable {inside : Inside} {behind after : Option Token} {us : List Token} (ha : Ends after)
include ha

theorem Suffixes.before {ss : List Suffix} (h : Suffixes inside behind us ss) :
    Suffixes inside after us ss := by
  induction h with
  | nil _ => exact .nil fun t ht => (ha t ht).1
  | cons hs _ ih => exact .cons hs ih

theorem Suffixed.before {s : Shape} (h : Suffixed inside behind us s) :
    Suffixed inside after us s := by
  cases h with
  | name name hs => exact .name name (hs.before ha)
  | group hv hs => exact .group hv (hs.before ha)

theorem Operand.before {v : Value} (h : Operand inside behind us v) :
    Operand inside after us v := by
  cases h with
  | string s => exact .string s
  | number s => exact .number s
  | constant ht => exact .constant ht
  | table ht => exact .table ht
  | suffixed hs => exact .suffixed (hs.before ha)

theorem Expr.before {v : Value} (h : Expr inside behind us v) : Expr inside after us v := by
  induction h with
  | operand ho _ => exact .operand (ho.before ha) fun t ht => (ha t ht).2.1
  | unary hu _ ih => exact .unary hu ih
  | binary hb ho _ ih => exact .binary hb ho ih

theorem Listed.before {α : Type} {item : Phrase α} {as : List α}
    (hitem : ∀ behind us a, item behind us a → item after us a) (h : Listed item behind us as) :
    Listed item after us as := by
  induction h with
  | last hi _ => exact .last (hitem _ _ _ hi) fun hcomma => (ha _ hcomma).2.2 rfl
  | more hi _ ih => exact .more hi ih

theorem Stmt.before {kind : StatementKind} (h : Stmt behind us kind) : Stmt after us kind := by
  have hvalue : ∀ behind us v, outer.value behind us v → outer.value after us v :=
    fun _ _ _ h => Expr.before ha h
  cases h with
  | declare hl => exact .declare (hl.before ha fun _ _ _ h => h)
  | declareWith hl hv => exact .declareWith hl (hv.before ha hvalue)
  | assign hl ht hv => exact .assign hl ht (hv.before ha hvalue)
  | call hs hc => exact .call (hs.before ha) hc

end

/-! ## statements -/

theorem Stmt.opens {behind : Option Token} {us : List Token} {kind : StatementKind}
    (h : Stmt behind us kind) :
    ∃ t ts, us = t :: ts ∧
      (t = .keyword .localVar ∨ (∃ name, t = .name name) ∨ t = .mark .leftParen) := by
  cases h with
  | declare _ => exact ⟨_, _, rfl, .inl rfl⟩
  | declareWith _ _ => exact ⟨_, _, rfl, .inl rfl⟩
  | assign h _ _ =>
    obtain ⟨t, ts, rfl, ht⟩ := h.opens fun _ _ _ h => h.opens
    exact ⟨t, _, rfl, .inr ht⟩
  | call h _ =>
    obtain ⟨t, ts, rfl, ht⟩ := h.opens
    exact ⟨t, ts, rfl, .inr ht⟩

/-- the token behind a statement of a manifest -/
theorem Chunk.next_ne {ts : List Lexeme} {ss : List Statement} (h : Chunk ts ss) :
    ts.head?.map Lexeme.token ≠ some (.mark .equal) ∧
      ts.head?.map Lexeme.token ≠ some (.mark .comma) := by
  cases h with
  | nil => exact ⟨nofun, nofun⟩
  | semicolon ht _ =>
    rw [List.head?_cons, Option.map_some, ht]
    exact ⟨nofun, nofun⟩
  | @statement first last us rest kind ss hs hf _ _ =>
    obtain ⟨t, us', hus, ht⟩ := hs.opens
    have hhead : (us ++ rest).head?.map Lexeme.token = some t := by
      rw [List.head?_append, hf, Option.some_or, ← hf, ← List.head?_map, hus, List.head?_cons]
    rw [hhead]
    rcases ht with rfl | ⟨name, rfl⟩ | rfl <;> exact ⟨nofun, nofun⟩

end ResourceOrder.Manifest.Grammar
