import ResourceOrder.Manifest.Fault

/-!
# Diagnostics

What is worth telling although it stops nothing.

* `Finding`     what was found;
* `Diagnostic`  a finding, and the resource it is about as soon as that is known.
-/

namespace ResourceOrder

inductive Finding where
  /-- a statement that declares no property; its place and the text it begins with -/
  | unrecognizedStatement (line column : UInt32) (statement : String)
  /-- a property gives the resource another name to be required by -/
  | providesOverride (provides property : String)
  /-- names that are required and that nothing was found for -/
  | missingDependencies (names : List String)
deriving DecidableEq

structure Diagnostic where
  resource : Option String
  finding : Finding
deriving DecidableEq

namespace Diagnostic

def forResource (d : Diagnostic) (resource : String) : Diagnostic :=
  { d with resource := some resource }

/-- the resource in quotes, as a message shows it -/
def subject (d : Diagnostic) : String :=
  "Resource \"" ++ d.resource.getD "<manifest>" ++ "\""

def message (d : Diagnostic) : String :=
  d.subject ++ match d.finding with
    | .unrecognizedStatement line column statement =>
      ": ignoring statement at " ++ Manifest.placeText line column ++ ": " ++ statement
    | .providesOverride provides property =>
      " overrides its name as \"" ++ provides ++ "\" using the \"" ++ property ++
        "\" property in its manifest file"
    | .missingDependencies names => " has missing dependencies: " ++ ", ".intercalate names

end Diagnostic

end ResourceOrder
