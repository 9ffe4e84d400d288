import Concordance.Json.Decode

/-!
# Inspections

A read-only description of a match tree: an operation, its parameters sorted by name, and the
descriptions of its children.
-/

namespace Concordance

inductive Inspection where
  | node (operation : String) (parameters : List (String × String)) (children : List Inspection)
  deriving Inhabited, BEq

namespace Inspection

def operation : Inspection → String
  | node operation _ _ => operation

def parameters : Inspection → List (String × String)
  | node _ parameters _ => parameters

def children : Inspection → List Inspection
  | node _ _ children => children

def ofOperation (operation : String) : Inspection := node operation [] []

/-- Sorted parameters with one more; an older value of the same name is replaced. -/
def insertParameter (name value : String) : List (String × String) → List (String × String)
  | [] => [(name, value)]
  | (other, old) :: rest =>
      if name < other then (name, value) :: (other, old) :: rest
      else if name = other then (name, value) :: rest
      else (other, old) :: insertParameter name value rest

def withParameter (i : Inspection) (name value : String) : Inspection :=
  node i.operation (insertParameter name value i.parameters) i.children

def withChildren (i : Inspection) (more : List Inspection) : Inspection :=
  node i.operation i.parameters (i.children ++ more)

def parameter? (i : Inspection) (name : String) : Option String := i.parameters.lookup name

mutual

def nodeCount : Inspection → Nat
  | node _ _ children => 1 + nodeCounts children

def nodeCounts : List Inspection → Nat
  | [] => 0
  | child :: rest => nodeCount child + nodeCounts rest

end

def parametersText (parameters : List (String × String)) : String :=
  if parameters.isEmpty then ""
  else "[" ++ ", ".intercalate (parameters.map fun (name, value) => name ++ "=" ++ value) ++ "]"

def childrenText (children : List String) : String :=
  if children.isEmpty then "" else "(" ++ ", ".intercalate children ++ ")"

mutual

def display : Inspection → String
  | node operation parameters children =>
      operation ++ parametersText parameters ++ childrenText (displays children)

def displays : List Inspection → List String
  | [] => []
  | child :: rest => display child :: displays rest

end

/-! ### JSON -/

mutual

/-- The description as a record that leaves out what is empty. -/
def toJson : Inspection → Json
  | node operation parameters children =>
      .record (("operation", .text operation) ::
        (if parameters.isEmpty then []
          else [("parameters", .record (parameters.map fun (name, value) => (name, .text value)))]) ++
        (if children.isEmpty then [] else [("children", .array (toJsons children))]))

def toJsons : List Inspection → List Json
  | [] => []
  | child :: rest => toJson child :: toJsons rest

end

open Json (Decoder Fields)

/-- Parameters in the order given; the last of a name stays. -/
def parametersOfMembers (members : List (String × String)) : List (String × String) :=
  members.foldl (fun sorted (name, value) => insertParameter name value sorted) []

/-- Reads a description: a node opens one container, and a second one for its children. -/
def decoder : Decoder Inspection
  | 0, _ => none
  | levels + 1, json => do
      let fields ← Fields.ofJson? ["operation", "parameters", "children"] json
      let operation ← fields.required "operation" (Decoder.text levels)
      let members ← fields.withDefault "parameters" [] (Decoder.members Decoder.text levels)
      let children ← fields.withDefault "children" [] fun json =>
        match levels, json with
        | inner + 1, .array items => items.mapM (decoder inner)
        | _, _ => none
      pure (node operation (parametersOfMembers members) children)

end Inspection

end Concordance
