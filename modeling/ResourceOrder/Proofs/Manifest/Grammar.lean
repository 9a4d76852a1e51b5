import ResourceOrder.Manifest.Statement

/-!
# The grammar of manifests

    chunk    := { ';' | stmt }
    stmt     := 'local' Name {',' Name} ['=' exprlist] | lhs {',' lhs} '=' exprlist | call
    suffixed := (Name | '(' expr ')') { '.' Name | '[' expr ']' | ':' Name args | args }
    args     := String | table | '(' [exprlist] ')'
    table    := '{' [field {(',' | ';') field} [',' | ';']] '}'
    field    := '[' expr ']' '=' expr | Name '=' expr | expr
    expr     := {unop} operand {binop {unop} operand}
    operand  := String | Number | nil | true | false | '...' | table | suffixed

A name and what ends in a field or an element is an `lhs`, and what ends in arguments a `call`.
Every suffixed expression, every expression and every list is as long as it can be: the token
behind it, which each kind of phrase is told, cannot go on with it.

* `Phrase`    the token sequences of one kind of phrase, and what is kept of each;
* `Inside`    the expressions and tables inside a phrase;
* `Listed`    phrases of one kind with commas between them;
* `Shape`     what is kept of a suffixed expression: how it begins, and each of its suffixes;
* `phrases`   the expressions and tables with at most so many of them inside one another,
              themselves counted;
* `Stmt`      statements;
* `Chunk`     whole manifests with their statements.
-/

namespace ResourceOrder.Manifest.Grammar

/-- the token sequences of a kind of phrase; the token behind the phrase comes first, what is
kept of the phrase last -/
abbrev Phrase (α : Type) := Option Token → List Token → α → Prop

structure Inside where
  value : Phrase Value
  table : List Token → List Value → Prop

inductive Listed {α : Type} (item : Phrase α) : Phrase (List α)
  | last {behind ts a} : item behind ts a → behind ≠ some (.mark .comma) →
      Listed item behind ts [a]
  | more {behind ts us a as} : item (some (.mark .comma)) ts a → Listed item behind us as →
      Listed item behind (ts ++ .mark .comma :: us) (a :: as)

/-! ## suffixed expressions -/

inductive Suffix where
  /-- a field or an element -/
  | access
  /-- a call of a method -/
  | method
  /-- a call, with its argument if this is a literal -/
  | call (argument : Option Argument)
deriving DecidableEq

/-- the literal argument of a call -/
def Suffix.literal? : Suffix → Option Argument
  | .call argument => argument
  | _ => none

/-- how a suffixed expression begins, with a name or else in parentheses, and its suffixes -/
structure Shape where
  head : Option String
  suffixes : List Suffix

/-- a bare name, or what ends in a field or an element -/
def Shape.IsTarget (s : Shape) : Prop :=
  (∃ name, s = ⟨some name, []⟩) ∨ s.suffixes.getLast? = some .access

def Shape.IsCall (s : Shape) : Prop :=
  ∃ x, s.suffixes.getLast? = some x ∧ x ≠ .access

/-- the statement that a call is: a declaration if only literal arguments follow a name -/
def Shape.kind (s : Shape) : StatementKind :=
  match s.head, s.suffixes.mapM Suffix.literal? with
  | some name, some arguments => .declaration name arguments
  | _, _ => .other

def opensSuffix : Token → Bool
  | .mark .dot => true
  | .mark .leftBracket => true
  | .mark .colon => true
  | .string _ => true
  | .mark .leftBrace => true
  | .mark .leftParen => true
  | _ => false

def constants : List Token :=
  [.keyword .nil, .keyword .true, .keyword .false, .mark .ellipsis]

def unaryOperators : List Token := [.mark .minus, .mark .hash, .keyword .not]

def binaryOperators : List Token :=
  [.keyword .or, .keyword .and, .mark .equalEqual, .mark .tildeEqual, .mark .less,
    .mark .lessEqual, .mark .greater, .mark .greaterEqual, .mark .dotDot, .mark .plus,
    .mark .minus, .mark .star, .mark .slash, .mark .slashSlash, .mark .percent, .mark .caret]

section
variable (inside : Inside)

inductive Arguments : List Token → Option Argument → Prop
  | string (s) : Arguments [.string s] (some (.text s))
  | table {ts vs} : inside.table ts vs → Arguments ts (some (.table vs))
  | none : Arguments [.mark .leftParen, .mark .rightParen] none
  | values {ts vs} : Listed inside.value (some (.mark .rightParen)) ts vs →
      Arguments (.mark .leftParen :: ts ++ [.mark .rightParen]) none

inductive SuffixPhrase : List Token → Suffix → Prop
  | field (name) : SuffixPhrase [.mark .dot, .name name] .access
  | element {ts v} : inside.value (some (.mark .rightBracket)) ts v →
      SuffixPhrase (.mark .leftBracket :: ts ++ [.mark .rightBracket]) .access
  | method {ts a} (name) : Arguments inside ts a →
      SuffixPhrase (.mark .colon :: .name name :: ts) .method
  | call {ts a} : Arguments inside ts a → SuffixPhrase ts (.call a)

/-- as many suffixes as there can be -/
inductive Suffixes : Phrase (List Suffix)
  | nil {behind} : (∀ t, behind = some t → opensSuffix t = false) → Suffixes behind [] []
  | cons {behind ts s us ss} : SuffixPhrase inside ts s → Suffixes behind us ss →
      Suffixes behind (ts ++ us) (s :: ss)

inductive Suffixed : Phrase Shape
  | name {behind ts ss} (name) : Suffixes inside behind ts ss →
      Suffixed behind (.name name :: ts) ⟨some name, ss⟩
  | group {behind ts v us ss} : inside.value (some (.mark .rightParen)) ts v →
      Suffixes inside behind us ss →
      Suffixed behind (.mark .leftParen :: ts ++ .mark .rightParen :: us) ⟨none, ss⟩

/-! ## expressions -/

/-- of an operand only a string is kept -/
inductive Operand : Phrase Value
  | string {behind} (s) : Operand behind [.string s] (.text s)
  | number {behind} (s) : Operand behind [.number s] .other
  | constant {behind t} : t ∈ constants → Operand behind [t] .other
  | table {behind ts vs} : inside.table ts vs → Operand behind ts .other
  | suffixed {behind ts s} : Suffixed inside behind ts s → Operand behind ts .other

/-- operands with operators; only of a lone operand anything is kept -/
inductive Expr : Phrase Value
  | operand {behind ts v} : Operand inside behind ts v →
      (∀ t, behind = some t → t ∉ binaryOperators) → Expr behind ts v
  | unary {behind u ts v} : u ∈ unaryOperators → Expr behind ts v → Expr behind (u :: ts) .other
  | binary {behind b ts us v w} : b ∈ binaryOperators → Operand inside (some b) ts v →
      Expr behind us w → Expr behind (ts ++ b :: us) .other

/-! ## tables -/

/-- of a field its value is kept -/
inductive Field : Phrase Value
  | element {behind ts v us w} : inside.value (some (.mark .rightBracket)) ts v →
      inside.value behind us w →
      Field behind (.mark .leftBracket :: ts ++ .mark .rightBracket :: .mark .equal :: us) w
  | named {behind us w} (name) : inside.value behind us w →
      Field behind (.name name :: .mark .equal :: us) w
  | plain {behind us w} : inside.value behind us w → Field behind us w

/-- the fields of a table, in front of its closing brace -/
inductive Fields : List Token → List Value → Prop
  | nil : Fields [] []
  | last {ts v} : Field inside (some (.mark .rightBrace)) ts v → Fields ts [v]
  | more {s ts v us vs} : s = .mark .comma ∨ s = .mark .semicolon →
      Field inside (some s) ts v → Fields us vs → Fields (ts ++ s :: us) (v :: vs)

inductive Table : List Token → List Value → Prop
  | braces {ts vs} : Fields inside ts vs →
      Table (.mark .leftBrace :: ts ++ [.mark .rightBrace]) vs

end

def phrases : Nat → Inside
  | 0 => ⟨fun _ _ _ => False, fun _ _ => False⟩
  | depth + 1 => ⟨Expr (phrases depth), Table (phrases depth)⟩

/-- how many expressions and tables may lie inside one another -/
def nestingBound : Nat := 200

def outer : Inside := phrases nestingBound

/-! ## statements -/

def NamePhrase : Phrase String := fun _ ts name => ts = [.name name]

inductive Stmt : Phrase StatementKind
  | declare {behind ts names} : Listed NamePhrase behind ts names →
      Stmt behind (.keyword .localVar :: ts) .other
  | declareWith {behind ts names us vs} : Listed NamePhrase (some (.mark .equal)) ts names →
      Listed outer.value behind us vs →
      Stmt behind (.keyword .localVar :: ts ++ .mark .equal :: us) .other
  | assign {behind ts targets us vs} :
      Listed (Suffixed outer) (some (.mark .equal)) ts targets → (∀ s ∈ targets, s.IsTarget) →
      Listed outer.value behind us vs → Stmt behind (ts ++ .mark .equal :: us) .other
  | call {behind ts s} : Suffixed outer behind ts s → s.IsCall → Stmt behind ts s.kind

/-- statements with semicolons anywhere between them; each takes up the text from its first
lexeme to its last one -/
inductive Chunk : List Lexeme → List Statement → Prop
  | nil : Chunk [] []
  | semicolon {t ts ss} : t.token = .mark .semicolon → Chunk ts ss → Chunk (t :: ts) ss
  | statement {first last us rest kind ss} :
      Stmt (rest.head?.map Lexeme.token) (us.map Lexeme.token) kind →
      us.head? = some first → us.getLast? = some last → Chunk rest ss →
      Chunk (us ++ rest) (⟨kind, first.span.merge last.span⟩ :: ss)

end ResourceOrder.Manifest.Grammar
