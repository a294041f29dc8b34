import Coverage.Syntax.NodeClass

/-!
# Syntax trees

A node has an identity, a class, a place and one field for each field of its class. Identities tell nodes
apart that are equal in every other respect, which is what a table of marked nodes needs; within a tree no
identity is used twice.
-/

namespace Coverage.Syntax

/-- Identity of a node. -/
abbrev NodeId := Nat

/-- The position of a node in its source: first line and column, last line and end column. Each number
can be missing. -/
structure Place where
  line : Option Int := none
  column : Option Int := none
  endLine : Option Int := none
  endColumn : Option Int := none
  deriving DecidableEq, Repr

namespace Place

/-- Missing numbers are taken from `outer`. -/
def fill (p outer : Place) : Place where
  line := p.line <|> outer.line
  column := p.column <|> outer.column
  endLine := p.endLine <|> outer.endLine
  endColumn := p.endColumn <|> outer.endColumn

/-- Where a tree starts that says nothing about its position. -/
def start : Place := ⟨some 1, some 0, some 1, some 0⟩

end Place

/-- The value of a constant expression. Numbers with a point and byte strings are only ever copied, so
they are kept as written. -/
inductive Constant where
  | none
  | bool (b : Bool)
  | int (n : Int)
  | float (text : String)
  | complex (text : String)
  | str (s : String)
  | bytes (hex : String)
  | ellipsis
  deriving DecidableEq, Repr

mutual
/-- A node of a syntax tree. `gap` stands in a list of nodes where there is none, as for a keyword-only
argument without a default. -/
inductive Node where
  | gap
  | mk (id : NodeId) (cls : NodeClass) (place : Place) (fields : List Field)

/-- The value of a field. -/
inductive Field where
  | none
  | text (s : String)
  | number (n : Int)
  | constant (c : Constant)
  | names (names : List String)
  | child (n : Node)
  | many (ns : List Node)
end

instance : Inhabited Node := ⟨.gap⟩
instance : Inhabited Field := ⟨.none⟩

namespace Node

def cls? : Node → Option NodeClass
  | gap => none
  | mk _ c _ _ => some c

/-- The place of a node; a gap has none. -/
def place : Node → Place
  | gap => {}
  | mk _ _ p _ => p

def isStatement (n : Node) : Bool := (n.cls?.map (·.isStatement)).getD false

end Node

mutual
/-- The identities in a tree, in preorder. -/
def Node.ids : Node → List NodeId
  | .gap => []
  | .mk i _ _ fs => i :: fieldsIds fs

def fieldsIds : List Field → List NodeId
  | [] => []
  | .child n :: fs => n.ids ++ fieldsIds fs
  | .many ns :: fs => nodesIds ns ++ fieldsIds fs
  | _ :: fs => fieldsIds fs

def nodesIds : List Node → List NodeId
  | [] => []
  | n :: ns => n.ids ++ nodesIds ns
end

/-- An identity that no node of a tree has, nor any greater one. -/
def Node.freshId (n : Node) : NodeId := n.ids.foldl (fun m i ↦ max m (i + 1)) 0

mutual
/-- Every node that can carry a place gets the numbers it lacks from the nearest node above it that has
them. -/
def Node.fillPlaces (outer : Place) : Node → Node
  | .gap => .gap
  | .mk i c p fs =>
    if c.role.placeable then
      let p' := p.fill outer
      .mk i c p' (fillFields p' fs)
    else .mk i c p (fillFields outer fs)

def fillFields (outer : Place) : List Field → List Field
  | [] => []
  | .child n :: fs => .child (n.fillPlaces outer) :: fillFields outer fs
  | .many ns :: fs => .many (fillNodes outer ns) :: fillFields outer fs
  | f :: fs => f :: fillFields outer fs

def fillNodes (outer : Place) : List Node → List Node
  | [] => []
  | n :: ns => n.fillPlaces outer :: fillNodes outer ns
end

/-- One step from a node towards one below it. -/
inductive Step where
  | field (name : String)
  | index (i : Nat)
  deriving DecidableEq, Repr

/-- A way from a node to a node below it. -/
abbrev Path := List Step

def Node.field? (n : Node) (name : String) : Option Field :=
  match n with
  | .gap => none
  | .mk _ c _ fs => c.fieldNames.idxOf? name >>= (fs[·]?)

/-- Changes the field called `name`. -/
def Node.modifyField (n : Node) (name : String) (f : Field → Field) : Node :=
  match n with
  | .gap => .gap
  | .mk i c p fs => .mk i c p (fs.mapIdx fun k v ↦ if c.fieldNames[k]? == some name then f v else v)

def Node.at? (n : Node) : Path → Option Node
  | [] => some n
  | .field name :: .index i :: path =>
    match n.field? name with
    | some (.many ns) => ns[i]? >>= (·.at? path)
    | _ => none
  | .field name :: path =>
    match n.field? name with
    | some (.child m) => m.at? path
    | _ => none
  | .index _ :: _ => none

/-- Changes the node at the end of a path; without such a node nothing changes. -/
def Node.modifyAt (f : Node → Node) (n : Node) : Path → Node
  | [] => f n
  | .field name :: .index i :: path =>
    n.modifyField name fun
      | .many ns => .many (ns.modify i (·.modifyAt f path))
      | v => v
  | .field name :: path =>
    n.modifyField name fun
      | .child m => .child (m.modifyAt f path)
      | v => v
  | .index _ :: _ => n

end Coverage.Syntax
