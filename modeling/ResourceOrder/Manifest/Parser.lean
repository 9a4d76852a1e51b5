import ResourceOrder.Manifest.Lexeme
import ResourceOrder.Manifest.Statement

/-!
# Reading statements

The reading functions take the lexemes that are left and give back what they read and the
lexemes behind it.

* `items`       what comes with commas between;
* `Inner`       the readers of a value and of a table inside the expression being read;
* `suffixed`    a name or a value in parentheses, with fields, indices and calls behind it;
* `operators`   operands joined by operators;
* `tableFields` the fields of a table;
* `inner`       the readers that are left at a given depth: values and tables may lie
                `nestingLimit` deep inside one another;
* `statement`   one statement;
* `parse`       a whole manifest.

Every loop takes the number of rounds it may still make, and is started with the number of
lexemes that are left.  A round reads at least one lexeme, so the rounds never run out before
the lexemes do, and what a loop does with no round left is what it does at the end of the text.
-/

namespace ResourceOrder.Manifest

namespace Parser

/-! ## the lexemes that are left -/

/-- why the text is no manifest, and the lexeme at which this shows; none at its end -/
structure Refusal where
  complaint : Complaint
  lexeme : Option Lexeme
deriving DecidableEq

/-- the lexemes that are left -/
abbrev Rest := List Lexeme

/-- a refusal, or what was read -/
abbrev Outcome := Except Refusal

/-- reads something at the head of the lexemes that are left -/
abbrev Reader (α : Type) := Rest → Outcome (α × Rest)

/-- the next token; none at the end of the text -/
def next (ts : Rest) : Option Token := ts.head?.map Lexeme.token

def refuse {α : Type} (c : Complaint) (ts : Rest) : Outcome α :=
  .error ⟨c, ts.head?⟩

/-- refuses because something else should stand here -/
def missing {α : Type} (what : Expectation) (ts : Rest) : Outcome α :=
  refuse (.expected what (next ts)) ts

def expect (m : Mark) (ts : Rest) : Outcome Rest :=
  if next ts = some (.mark m) then .ok ts.tail else missing (.mark m) ts

def name (ts : Rest) : Outcome (String × Rest) :=
  match next ts with
  | some (.name s) => .ok (s, ts.tail)
  | _ => missing .name ts

/-- the items that follow, each behind a comma -/
def moreItems {α : Type} (item : Reader α) : Nat → Reader (List α)
  | 0, ts => .ok ([], ts)
  | n + 1, ts =>
    if next ts = some (.mark .comma) then do
      let (a, ts) ← item ts.tail
      let (as, ts) ← moreItems item n ts
      return (a :: as, ts)
    else .ok ([], ts)

def items {α : Type} (item : Reader α) (ts : Rest) : Outcome (List α × Rest) := do
  let (a, ts) ← item ts
  let (as, ts) ← moreItems item ts.length ts
  return (a :: as, ts)

/-! ## operators -/

def isUnary : Token → Bool
  | .mark .minus => true
  | .mark .hash => true
  | .keyword .not => true
  | _ => false

def isBinary : Token → Bool
  | .keyword .or => true
  | .keyword .and => true
  | .mark m =>
    [.equalEqual, .tildeEqual, .less, .lessEqual, .greater, .greaterEqual, .dotDot, .plus,
      .minus, .star, .slash, .slashSlash, .percent, .caret].contains m
  | _ => false

/-! ## expressions -/

/-- the readers of a value and of a table inside what is being read -/
structure Inner where
  value : Reader Value
  table : Reader (List Value)

/-- what an expression with suffixes ends in -/
inductive Ending where
  | name
  | group
  | access
  | call
deriving DecidableEq

/-- what is known of an expression with suffixes: its name and arguments as long as it is a
bare name with literal arguments, and what it ends in -/
structure Suffixed where
  declaration : Option (String × List Argument)
  ending : Ending

/-- only names, fields and elements can be assigned to -/
def Suffixed.assignable (s : Suffixed) : Bool :=
  s.ending = .name || s.ending = .access

def Suffixed.kind (s : Suffixed) : StatementKind :=
  match s.declaration with
  | some (name, arguments) => .declaration name arguments
  | none => .other

/-- a declaration goes on only with a literal argument -/
def Suffixed.call (s : Suffixed) (argument : Option Argument) : Suffixed :=
  match s.declaration, argument with
  | some (name, arguments), some a => ⟨some (name, arguments ++ [a]), .call⟩
  | _, _ => ⟨none, .call⟩

/-- the arguments of one call: a string, a table, or values in parentheses, of which nothing
is kept -/
def callArguments (i : Inner) (ts : Rest) : Outcome (Option Argument × Rest) :=
  match next ts with
  | some (.string s) => .ok (some (.text s), ts.tail)
  | some (.mark .leftBrace) => do
    let (values, ts) ← i.table ts
    return (some (.table values), ts)
  | some (.mark .leftParen) =>
    if next ts.tail = some (.mark .rightParen) then .ok (none, ts.tail.tail)
    else do
      let (_, ts) ← items i.value ts.tail
      let ts ← expect .rightParen ts
      return (none, ts)
  | _ => missing .callArguments ts

/-- as many fields, indices and calls as there are -/
def suffixes (i : Inner) : Nat → Suffixed → Rest → Outcome (Suffixed × Rest)
  | 0, s, ts => .ok (s, ts)
  | n + 1, s, ts =>
    match next ts with
    | some (.mark .dot) => do
      let (_, ts) ← name ts.tail
      suffixes i n ⟨none, .access⟩ ts
    | some (.mark .leftBracket) => do
      let (_, ts) ← i.value ts.tail
      let ts ← expect .rightBracket ts
      suffixes i n ⟨none, .access⟩ ts
    | some (.mark .colon) => do
      let (_, ts) ← name ts.tail
      let (_, ts) ← callArguments i ts
      suffixes i n ⟨none, .call⟩ ts
    | some (.string _) | some (.mark .leftBrace) | some (.mark .leftParen) => do
      let (argument, ts) ← callArguments i ts
      suffixes i n (s.call argument) ts
    | _ => .ok (s, ts)

/-- a name or a value in parentheses, and its suffixes -/
def suffixed (i : Inner) (ts : Rest) : Outcome (Suffixed × Rest) :=
  match next ts with
  | some (.name s) => suffixes i ts.tail.length ⟨some (s, []), .name⟩ ts.tail
  | some (.mark .leftParen) => do
    let (_, ts) ← i.value ts.tail
    let ts ← expect .rightParen ts
    suffixes i ts.length ⟨none, .group⟩ ts
  | _ => missing .expression ts

/-- an operand; only a string is kept -/
def operand (i : Inner) (ts : Rest) : Outcome (Value × Rest) :=
  match next ts with
  | some (.string s) => .ok (.text s, ts.tail)
  | some (.number _) => .ok (.other, ts.tail)
  | some (.keyword .nil) => .ok (.other, ts.tail)
  | some (.keyword .true) => .ok (.other, ts.tail)
  | some (.keyword .false) => .ok (.other, ts.tail)
  | some (.mark .ellipsis) => .ok (.other, ts.tail)
  | some (.mark .leftBrace) => do
    let (_, ts) ← i.table ts
    return (.other, ts)
  | some (.reserved word) => refuse (.unsupported word) ts
  | _ => do
    let (_, ts) ← suffixed i ts
    return (.other, ts)

/-- the lexemes behind all unary operators that come next -/
def skipUnary (ts : Rest) : Rest := ts.dropWhile fun t => isUnary t.token

/-- operands with operators between them, unary operators in front of each; a string is kept
if it is the only operand and has no operator -/
def operators (i : Inner) : Nat → Rest → Outcome (Value × Rest)
  | 0, ts => operand i ts
  | n + 1, ts => do
    let bare := !(next ts).any isUnary
    let (v, ts) ← operand i (skipUnary ts)
    if (next ts).any isBinary then do
      let (_, ts) ← operators i n ts.tail
      return (.other, ts)
    else return (if bare then v else .other, ts)

/-- the key of a field with its equality sign, if the field has one -/
def fieldKey (value : Reader Value) (ts : Rest) : Outcome Rest :=
  match next ts with
  | some (.mark .leftBracket) => do
    let (_, ts) ← value ts.tail
    let ts ← expect .rightBracket ts
    expect .equal ts
  | some (.name _) => if next ts.tail = some (.mark .equal) then .ok ts.tail.tail else .ok ts
  | _ => .ok ts

def atSeparator (ts : Rest) : Bool :=
  next ts = some (.mark .comma) || next ts = some (.mark .semicolon)

/-- the values of the fields of a table, up to the brace that closes it -/
def tableFields (value : Reader Value) : Nat → Reader (List Value)
  | 0, ts => do
    let (v, ts) ← value ts
    return ([v], ts)
  | n + 1, ts =>
    if next ts = some (.mark .rightBrace) then .ok ([], ts)
    else do
      let ts ← fieldKey value ts
      let (v, ts) ← value ts
      if atSeparator ts then do
        let (vs, ts) ← tableFields value n ts.tail
        return (v :: vs, ts)
      else return ([v], ts)

def tableBody (value : Reader Value) (ts : Rest) :
    Outcome (List Value × Rest) := do
  let ts ← expect .leftBrace ts
  let (vs, ts) ← tableFields value ts.length ts
  let ts ← expect .rightBrace ts
  return (vs, ts)

/-- how deep values and tables may lie inside one another -/
def nestingLimit : Nat := 200

/-- the readers of values and tables that may hold values and tables `depth - 1` deep -/
def inner : Nat → Inner
  | 0 => ⟨refuse .nestedTooDeep, refuse .nestedTooDeep⟩
  | depth + 1 =>
    ⟨fun ts => operators (inner depth) ts.length ts,
     fun ts => tableBody (fun ts => (inner depth).value ts) ts⟩

def top : Inner := inner nestingLimit

/-! ## statements -/

def localVars (ts : Rest) : Outcome Rest :=
  match next ts with
  | some (.reserved word) => refuse (.unsupportedLocal word) ts
  | _ => do
    let (_, ts) ← items name ts
    if next ts = some (.mark .equal) then do
      let (_, ts) ← items top.value ts.tail
      return ts
    else return ts

def effect (start : Rest) : Outcome (StatementKind × Rest) := do
  let (first, ts) ← suffixed top start
  if next ts = some (.mark .equal) ∨ next ts = some (.mark .comma) then do
    let (more, ts) ← moreItems (suffixed top) ts.length ts
    if (first :: more).all Suffixed.assignable then do
      let ts ← expect .equal ts
      let (_, ts) ← items top.value ts
      return (.other, ts)
    else refuse .unassignable start
  else if first.ending = .call then return (first.kind, ts)
  else refuse .withoutEffect start

def statement (ts : Rest) : Outcome (StatementKind × Rest) :=
  match next ts with
  | some (.keyword .localVar) => do
    let ts ← localVars ts.tail
    return (.other, ts)
  | some (.reserved word) => refuse (.unsupported word) ts
  | _ => effect ts

/-- the lexemes of `ts` in front of `rest` -/
def used (ts rest : Rest) : List Lexeme := ts.take (ts.length - rest.length)

/-- the stretch of text from the lexeme `first` to the last one of the list -/
def extent (first : Lexeme) (ts : List Lexeme) : Span :=
  first.span.merge (ts.getLast?.getD first).span

/-- all statements; semicolons may stand between them -/
def statements : Nat → Rest → Outcome (List Statement)
  | 0, _ => .ok []
  | _, [] => .ok []
  | n + 1, first :: ts =>
    if first.token = .mark .semicolon then statements n ts
    else do
      let (kind, rest) ← statement (first :: ts)
      let more ← statements n rest
      return ⟨kind, extent first (used (first :: ts) rest)⟩ :: more

end Parser

/-! ## manifests -/

/-- the first fault of a text, as the reason why it is no manifest -/
def ManifestError.ofLexError (source : String) (e : LexError) : ManifestError :=
  ⟨.lexical e.fault, e.span.line, e.span.column, source⟩

/-- a refusal, as the reason why the text is no manifest; without a lexeme it shows at `stop`,
the end of the text -/
def ManifestError.ofRefusal (source : String) (stop : Position) (r : Parser.Refusal) :
    ManifestError :=
  let p := (r.lexeme.map fun t => t.span.position).getD stop
  ⟨r.complaint, p.line, p.column, source⟩

def parse (source : String) : Except ManifestError (List Statement) :=
  match tokenize source.toList with
  | .error faults => .error (.ofLexError source faults.first)
  | .ok ts =>
    match Parser.statements ts.list.length ts.list with
    | .error r => .error (.ofRefusal source ts.stop r)
    | .ok statements => .ok statements

end ResourceOrder.Manifest
