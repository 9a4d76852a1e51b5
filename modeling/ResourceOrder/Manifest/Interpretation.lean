import ResourceOrder.Diagnostic
import ResourceOrder.Manifest.Parser
import ResourceOrder.Manifest.Properties
import ResourceOrder.Text.Blank

/-!
# What a manifest says

A statement declares a property in one of three shapes: a name with a string, a name with a
table, or a name with a string and a table.  Of a table the strings among its values are kept,
and the string in front of a table is not.  Every other statement is reported and has no effect.

* `declared?`       the property that a statement declares;
* `excerpt`         the text of a statement as a report shows it;
* `Interpretation`  the properties and the reports of a manifest;
* `Interpreter`     anything that reads manifests; `interpret` is the one described here.
-/

namespace ResourceOrder.Manifest

def tableValue (values : List Value) : PropertyValue := .list (values.filterMap Value.text?)

/-- the value that the arguments of a declaration give, if they have one of the three shapes -/
def argumentValue? : List Argument → Option PropertyValue
  | [.text s] => some (.scalar s)
  | [.table values] => some (tableValue values)
  | [.text _, .table values] => some (tableValue values)
  | _ => none

def declared? : StatementKind → Option (String × PropertyValue)
  | .declaration name arguments => (argumentValue? arguments).map (name, ·)
  | .other => none

/-- the longest text of a statement that is shown whole -/
def excerptLimit : Nat := 80

/-- the text, cut off with three dots behind it if it is too long -/
def excerpt (text : List Char) : String :=
  let short := text.take excerptLimit
  String.ofList (if short.length < text.length then short ++ ['.', '.', '.'] else short)

/-- the report of a statement without effect -/
def unrecognized (source : List Char) (s : Statement) : Diagnostic :=
  ⟨none, .unrecognizedStatement s.span.line s.span.column
    (excerpt (trimText (s.span.slice source)))⟩

/-- the properties of a manifest, and what was found in reading it -/
structure Interpretation where
  properties : Properties
  diagnostics : List Diagnostic
deriving DecidableEq

def Interpretation.ofStatements (source : List Char) (statements : List Statement) :
    Interpretation where
  properties := .ofList (statements.filterMap fun s => declared? s.kind)
  diagnostics :=
    (statements.filter fun s => (declared? s.kind).isNone).map (unrecognized source)

abbrev Interpreter := String → Except ManifestError Interpretation

def interpret : Interpreter := fun source =>
  (parse source).map (Interpretation.ofStatements source.toList)

end ResourceOrder.Manifest
