import ResourceOrder.Manifest.Piece

/-!
# From pieces to tokens

The pieces of a text, put in their places, are its tokens if none of them is a fault.

* `place`     the pieces with their places, counted on from a given one;
* `Lexemes`   the tokens of a text in order, and the place where the text ends;
* `Faults`    the faults of a text in order;
* `tokenize`  the tokens of a source, or all its faults.
-/

namespace ResourceOrder.Manifest

/-- each piece with its place, where the first one stands at `p` -/
def place (p : Position) : List Scrap → List (Piece × Span)
  | [] => []
  | s :: rest =>
    let q := p.advance s.text
    (s.piece, Span.between p q) :: place q rest

theorem place_nil (p : Position) : place p [] = [] := rfl

theorem place_cons (p : Position) (s : Scrap) (rest : List Scrap) :
    place p (s :: rest) =
      (s.piece, Span.between p (p.advance s.text)) :: place (p.advance s.text) rest := rfl

theorem place_append (p : Position) (a b : List Scrap) :
    place p (a ++ b) = place p a ++ place (p.advance (a.flatMap Scrap.text)) b := by
  induction a generalizing p with
  | nil => rfl
  | cons s rest ih =>
    simp only [List.cons_append, place_cons, ih, List.flatMap_cons, Position.advance_append]

/-- the token at a place, if the piece there is one -/
def lexeme? : Piece × Span → Option Lexeme
  | (.token t, span) => some ⟨t, span⟩
  | _ => none

/-- the fault at a place, if the piece there is one -/
def lexError? : Piece × Span → Option LexError
  | (.fault f, span) => some ⟨f, span⟩
  | _ => none

/-- the tokens of a text, and the place behind its last character -/
structure Lexemes where
  list : List Lexeme
  stop : Position
deriving DecidableEq

/-- the faults of a text in order; there is at least one -/
structure Faults where
  first : LexError
  others : List LexError
deriving DecidableEq

def Faults.toList (f : Faults) : List LexError := f.first :: f.others

def placedPieces (source : List Char) : List (Piece × Span) := place .start (pieces source)

/-- the tokens of a source; if it has faults, all of them in order -/
def tokenize (source : List Char) : Except Faults Lexemes :=
  match (placedPieces source).filterMap lexError? with
  | [] => .ok ⟨(placedPieces source).filterMap lexeme?, Position.start.advance source⟩
  | first :: others => .error ⟨first, others⟩

end ResourceOrder.Manifest
