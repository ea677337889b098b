import TypeGuard.Ty.Identity

/-! Numbers for types. A table holds one layer of every type met so far, with numbers for the parts;
the same types get the same number. -/

namespace TypeGuard

/-- One layer of a type. -/
inductive Node where
  | primitive (name : String)
  | literal (value : Value)
  | boolean (value : Bool)
  | union (members : List Nat)
  | inter (members : List Nat)
  | object (kind : ObjectKind) (decl : DeclId) (elements : List Nat)
  | sequence (kind : SequenceKind) (elements : List Nat)
  | ref (target : Nat) (args : List Nat)
  | param (p : TypeParam)
  | keyOf (operand : Nat)
  | index (object key : Nat)
  | mapped (p : TypeParam) (constraint template : Nat) (params : List TypeParam)
  | name (name : String) (args : List Nat)
deriving DecidableEq

/-- The layers in the order of their numbers, each with the first type that has the number. -/
structure Numbering where
  entries : List (Node × Ty) := []

namespace Numbering

def size (table : Numbering) : Nat :=
  table.entries.length

def find? (table : Numbering) (node : Node) : Option Nat :=
  table.entries.findIdx? fun entry => entry.1 = node

/-- The number of a layer, which is new if the layer is. -/
def numberNode (node : Node) (t : Ty) (table : Numbering) : Nat × Numbering :=
  match table.find? node with
  | some n => (n, table)
  | none => (table.size, ⟨table.entries ++ [(node, t)]⟩)

mutual
/-- The number of a type. Its parts are numbered before it. -/
def number : Ty → Numbering → Nat × Numbering
  | .primitive s, table => table.numberNode (.primitive s) (.primitive s)
  | .literal v, table => table.numberNode (.literal v.literalKey) (.literal v)
  | .boolean b, table => table.numberNode (.boolean b) (.boolean b)
  | .union members, table =>
      let (ns, table) := numbers members table
      table.numberNode (.union ns) (.union members)
  | .inter members, table =>
      let (ns, table) := numbers members table
      table.numberNode (.inter ns) (.inter members)
  | .object kind decl elements, table =>
      let (ns, table) := numbers elements table
      table.numberNode (.object kind decl ns) (.object kind decl elements)
  | .sequence kind elements, table =>
      let (ns, table) := numbers elements table
      table.numberNode (.sequence kind ns) (.sequence kind elements)
  | .ref target args, table =>
      let (n, table) := number target table
      let (ns, table) := numbers args table
      table.numberNode (.ref n ns) (.ref target args)
  | .param p, table => table.numberNode (.param p) (.param p)
  | .keyOf t, table =>
      let (n, table) := number t table
      table.numberNode (.keyOf n) (.keyOf t)
  | .index t k, table =>
      let (n, table) := number t table
      let (m, table) := number k table
      table.numberNode (.index n m) (.index t k)
  | .mapped p constraint template params, table =>
      let (n, table) := number constraint table
      let (m, table) := number template table
      table.numberNode (.mapped p n m params) (.mapped p constraint template params)
  | .name s args, table =>
      let (ns, table) := numbers args table
      table.numberNode (.name s ns) (.name s args)

def numbers : List Ty → Numbering → List Nat × Numbering
  | [], table => ([], table)
  | t :: rest, table =>
      let (n, table) := number t table
      let (ns, table) := numbers rest table
      (n :: ns, table)
end

/-- The first type that got a number. -/
def representative? (table : Numbering) (n : Nat) : Option Ty :=
  table.entries[n]?.map (·.2)

/-- A parameter that the table has not met, whatever its name. -/
def freshParam (name : String) (table : Numbering) : TypeParam × Numbering :=
  let p : TypeParam := ⟨name, table.size⟩
  (p, (table.number (.param p)).2)

end Numbering

end TypeGuard
