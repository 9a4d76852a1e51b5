import ResourceOrder.Manifest.Parser

/-!
# Statements read with a cursor

The readers of statements take the lexemes that are left and give back the lexemes behind what
they read.  A machine keeps all tokens in one row, and an index into it.  Here the statements are
read a second time in this way, and whatever would stop a machine is noticed.

* `Cursor`       the index of the token that comes next, and how many values and tables are open;
* `Crash`        a token that the row does not have, a count below zero, and too much of
                 something: of open values and tables, of calls inside one another, of rounds;
* `Halt`         why a reading stops: the text is refused, or the machine crashes;
* `Stream`       the tokens in a row, of which the last one is no token but the end of the text;
* `Walk`         what is done with a cursor;
* `Procedures`   the procedures that call one another, each for one part of a text;
* `procedures`   the procedures that are left with so many calls inside one another;
* `chunk`        all statements.

A loop stops the machine when it has made all the rounds that it may make.
-/

namespace ResourceOrder.Manifest

/-- the index of the token that comes next, and how many values and tables are open -/
structure Cursor where
  pos : Nat
  depth : Nat
deriving DecidableEq

namespace Cursor

open ResourceOrder.Manifest.Parser (Refusal Suffixed isUnary isBinary nestingLimit)

inductive Crash where
  /-- there is no token with this index -/
  | index
  /-- more values and tables are left than were entered -/
  | underflow
  /-- of the values and tables that are open, more than one lie too deep -/
  | depth
  /-- more calls inside one another than there may be -/
  | frames
  /-- a loop goes on after its last round -/
  | rounds
deriving DecidableEq

inductive Halt where
  | refused (r : Refusal)
  | crashed (c : Crash)
deriving DecidableEq

/-- tokens and their stretches of text; the end of the text stands in the row as no token -/
abbrev Stream := List (Option Token × Span)

abbrev Walk := StateT Cursor (Except Halt)

section
variable {α : Type}

def crash (c : Crash) : Walk α := fun _ => .error (.crashed c)

/-- refuses the text because of what is seen at an entry of the row -/
def refuseAt (e : Option Token × Span) (c : Complaint) : Walk α :=
  fun _ => .error (.refused ⟨c, e.1.map fun t => ⟨t, e.2⟩⟩)

end

section
variable {α : Type} (stream : Stream)

/-! ## single tokens -/

def entry (k : Nat) : Walk (Option Token × Span) :=
  match stream[k]? with
  | some e => return e
  | none => crash .index

def current : Walk (Option Token × Span) := do
  entry stream (← get).pos

def token : Walk (Option Token) := do
  return (← current stream).1

/-- what stands behind the next token, if anything does -/
def peek : Walk (Option (Option Token)) := do
  return stream[(← get).pos + 1]?.map Prod.fst

/-- where the token stands that was read last -/
def previous : Walk Span := do
  return (← entry stream ((← get).pos - 1)).2

/-- goes on by one token, but not beyond the last entry of the row -/
def advance : Walk Unit := do
  let _ ← current stream
  modify fun c => if c.pos < stream.length - 1 then { c with pos := c.pos + 1 } else c

def refuse (c : Complaint) : Walk α := do
  refuseAt (← current stream) c

def unexpected (what : Expectation) : Walk α := do
  refuse stream (.expected what (← token stream))

/-- goes on if the next token is this mark -/
def eat (m : Mark) : Walk Bool := do
  if (← token stream) = some (.mark m) then do
    advance stream
    return true
  else return false

def expect (m : Mark) : Walk Unit := do
  if ← eat stream m then return () else unexpected stream (.mark m)

def name : Walk String := do
  match ← token stream with
  | some (.name s) => do
    advance stream
    return s
  | _ => unexpected stream .name

/-! ## depth -/

def enter : Walk Unit := do
  modify fun c => { c with depth := c.depth + 1 }
  let depth := (← get).depth
  if nestingLimit + 1 < depth then crash .depth
  else if nestingLimit < depth then refuse stream .nestedTooDeep
  else return ()

def leave : Walk Unit := do
  let c ← get
  if c.depth = 0 then crash .underflow else set { c with depth := c.depth - 1 }

/-- does something one value or table deeper -/
def nested (walk : Walk α) : Walk α := do
  enter stream
  let a ← walk
  leave
  return a

/-! ## loops -/

/-- the items that follow, each behind a comma -/
def moreItems (item : Walk α) : Nat → Walk (List α)
  | 0 => crash .rounds
  | n + 1 => do
    if ← eat stream .comma then do
      let a ← item
      let as ← moreItems item n
      return a :: as
    else return []

/-- items with commas between -/
def items (rounds : Nat) (item : Walk α) : Walk (List α) := do
  let a ← item
  let as ← moreItems stream item rounds
  return a :: as

/-- goes on behind all unary operators that come next; whether there are any -/
def skipUnary : Nat → Bool → Walk Bool
  | 0, _ => crash .rounds
  | n + 1, prefixed => do
    if (← token stream).any isUnary then do
      advance stream
      skipUnary n true
    else return prefixed

end

/-! ## procedures -/

/-- the procedures that call one another, each for one part of a text -/
structure Procedures where
  statement : Walk Statement
  localVars : Walk StatementKind
  /-- a call or an assignment, of a statement that begins with this entry of the row -/
  effect : Option Token × Span → Walk StatementKind
  suffixed : Walk Suffixed
  callArguments : Walk (Option Argument)
  table : Walk (List Value)
  /-- values with commas between -/
  values : Walk (List Value)
  value : Walk Value
  operand : Walk Value

namespace Procedures

section
variable (stream : Stream) (rounds : Nat) (p : Procedures)

/-- operands with operators between them, behind so many others; a string is kept if it is the
only operand and has no operator -/
def operators : Nat → Nat → Walk Value
  | 0, _ => crash .rounds
  | n + 1, operands => do
    let prefixed ← skipUnary stream rounds false
    let operand ← p.operand
    if (← token stream).any isBinary then do
      advance stream
      operators n (operands + 1)
    else return (if operands = 0 ∧ prefixed = false then operand else .other)

def readValue : Walk Value := nested stream (p.operators stream rounds rounds 0)

def readValues : Walk (List Value) := items stream rounds p.value

/-- the key of a field with its equality sign, if the field has one -/
def fieldKey : Walk Unit := do
  match ← token stream with
  | some (.mark .leftBracket) => do
    advance stream
    let _ ← p.value
    expect stream .rightBracket
    expect stream .equal
  | some (.name _) => do
    if (← peek stream) = some (some (.mark .equal)) then do
      advance stream
      advance stream
    else return ()
  | _ => return ()

def eatSeparator : Walk Bool := do
  if ← eat stream .comma then return true else eat stream .semicolon

/-- the values of the fields of a table, up to the brace that closes it -/
def fields : Nat → Walk (List Value)
  | 0 => crash .rounds
  | n + 1 => do
    if (← token stream) = some (.mark .rightBrace) then return []
    else do
      p.fieldKey stream
      let v ← p.value
      if ← eatSeparator stream then do
        let vs ← fields n
        return v :: vs
      else return [v]

def readTable : Walk (List Value) := nested stream do
  expect stream .leftBrace
  let vs ← p.fields stream rounds
  expect stream .rightBrace
  return vs

def readCallArguments : Walk (Option Argument) := do
  match ← token stream with
  | some (.string s) => do
    advance stream
    return some (.text s)
  | some (.mark .leftBrace) => do
    let values ← p.table
    return some (.table values)
  | some (.mark .leftParen) => do
    advance stream
    if ← eat stream .rightParen then return none
    else do
      let _ ← p.values
      expect stream .rightParen
      return none
  | _ => unexpected stream .callArguments

/-- as many fields, indices and calls as there are -/
def suffixes : Nat → Suffixed → Walk Suffixed
  | 0, _ => crash .rounds
  | n + 1, s => do
    match ← token stream with
    | some (.mark .dot) => do
      advance stream
      let _ ← name stream
      suffixes n ⟨none, .access⟩
    | some (.mark .leftBracket) => do
      advance stream
      let _ ← p.value
      expect stream .rightBracket
      suffixes n ⟨none, .access⟩
    | some (.mark .colon) => do
      advance stream
      let _ ← name stream
      let _ ← p.callArguments
      suffixes n ⟨none, .call⟩
    | some (.string _) | some (.mark .leftBrace) | some (.mark .leftParen) => do
      let argument ← p.callArguments
      suffixes n (s.call argument)
    | _ => return s

def readSuffixed : Walk Suffixed := do
  match ← token stream with
  | some (.name s) => do
    advance stream
    p.suffixes stream rounds ⟨some (s, []), .name⟩
  | some (.mark .leftParen) => do
    advance stream
    let _ ← p.value
    expect stream .rightParen
    p.suffixes stream rounds ⟨none, .group⟩
  | _ => unexpected stream .expression

def readOperand : Walk Value := do
  match ← token stream with
  | some (.string s) => do
    advance stream
    return .text s
  | some (.number _) | some (.keyword .nil) | some (.keyword .true) | some (.keyword .false)
  | some (.mark .ellipsis) => do
    advance stream
    return .other
  | some (.mark .leftBrace) => do
    let _ ← p.table
    return .other
  | some (.reserved word) => refuse stream (.unsupported word)
  | _ => do
    let _ ← p.suffixed
    return .other

def readLocalVars : Walk StatementKind := do
  advance stream
  match ← token stream with
  | some (.reserved word) => refuse stream (.unsupportedLocal word)
  | _ => do
    let _ ← items stream rounds (name stream)
    if ← eat stream .equal then do
      let _ ← p.values
      return .other
    else return .other

def readEffect (start : Option Token × Span) : Walk StatementKind := do
  let first ← p.suffixed
  let t ← token stream
  if t = some (.mark .equal) ∨ t = some (.mark .comma) then do
    let more ← moreItems stream p.suffixed rounds
    if (first :: more).all Suffixed.assignable then do
      expect stream .equal
      let _ ← p.values
      return .other
    else refuseAt start .unassignable
  else if first.ending = .call then return first.kind
  else refuseAt start .withoutEffect

/-- what a statement does that begins with this entry of the row -/
def readKind (start : Option Token × Span) : Walk StatementKind :=
  match start.1 with
  | some (.keyword .localVar) => p.localVars
  | some (.reserved word) => refuseAt start (.unsupported word)
  | _ => p.effect start

def readStatement : Walk Statement := do
  let start ← current stream
  let kind ← p.readKind start
  return ⟨kind, start.2.merge (← previous stream)⟩

end

end Procedures

section
variable (stream : Stream) (rounds : Nat)

/-- the procedures that are left with so many calls inside one another, where each loop may make
so many rounds -/
def procedures : Nat → Procedures
  | 0 =>
    { statement := crash .frames
      localVars := crash .frames
      effect := fun _ => crash .frames
      suffixed := crash .frames
      callArguments := crash .frames
      table := crash .frames
      values := crash .frames
      value := crash .frames
      operand := crash .frames }
  | n + 1 =>
    let p := procedures n
    { statement := p.readStatement stream
      localVars := p.readLocalVars stream rounds
      effect := p.readEffect stream rounds
      suffixed := p.readSuffixed stream rounds
      callArguments := p.readCallArguments stream
      table := p.readTable stream rounds
      values := p.readValues stream rounds
      value := p.readValue stream rounds
      operand := p.readOperand stream }

/-- all statements; semicolons may stand between them -/
def chunk (statement : Walk Statement) : Nat → Walk (List Statement)
  | 0 => crash .rounds
  | n + 1 => do
    if (← token stream) = none then return []
    else if ← eat stream .semicolon then chunk statement n
    else do
      let s ← statement
      let more ← chunk statement n
      return s :: more

end

end Cursor

end ResourceOrder.Manifest
