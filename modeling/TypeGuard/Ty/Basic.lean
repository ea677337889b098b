import TypeGuard.Value.Basic

/-! Types as the surrounding type system reports them: what a type is, without an opinion on what it
means. -/

namespace TypeGuard

/-- Parameters have an identity of their own; the name is for display. -/
structure TypeParam where
  name : String
  id : Nat
deriving DecidableEq

/-- Declarations have an identity of their own: those of one qualified name differ in their serial.
The one that a catalog lists under the name has serial zero. -/
structure DeclId where
  qualified : String
  serial : Nat
deriving DecidableEq

inductive ObjectKind where
  | interface
  | nominal
deriving DecidableEq

inductive SequenceKind where
  | array
  | tuple
deriving DecidableEq

inductive Ty where
  | primitive (name : String)
  /-- A string or a number, unless the type system broke its promise. -/
  | literal (value : Value)
  | boolean (value : Bool)
  | union (members : List Ty)
  | inter (members : List Ty)
  /-- The object type of a declaration. Element types beside the declaration tell it from others. -/
  | object (kind : ObjectKind) (decl : DeclId) (elements : List Ty)
  /-- An array has one element type, if it is made as arrays are. -/
  | sequence (kind : SequenceKind) (elements : List Ty)
  /-- A generic target with an argument for each of its parameters. -/
  | ref (target : Ty) (args : List Ty)
  | param (p : TypeParam)
  | keyOf (operand : Ty)
  | index (object key : Ty)
  /-- Has a property for every key of the constraint. As the body of a generic alias it carries the
  parameters of the alias. -/
  | mapped (p : TypeParam) (constraint template : Ty) (params : List TypeParam)
  /-- Not resolved yet, so that declarations can mention each other and themselves. -/
  | name (name : String) (args : List Ty)

namespace Ty

mutual
def beq : Ty → Ty → Bool
  | primitive a, primitive b => a = b
  | literal a, literal b => a = b
  | boolean a, boolean b => a = b
  | union as, union bs => beqList as bs
  | inter as, inter bs => beqList as bs
  | object k a as, object k' b bs => k = k' && a = b && beqList as bs
  | sequence k as, sequence k' bs => k = k' && beqList as bs
  | ref t as, ref u bs => beq t u && beqList as bs
  | param p, param q => p = q
  | keyOf a, keyOf b => beq a b
  | index a k, index b l => beq a b && beq k l
  | mapped p c t ps, mapped q d u qs => p = q && beq c d && beq t u && ps = qs
  | name a as, name b bs => a = b && beqList as bs
  | _, _ => false

def beqList : List Ty → List Ty → Bool
  | [], [] => true
  | a :: as, b :: bs => beq a b && beqList as bs
  | _, _ => false
end

mutual
theorem beq_iff : ∀ a b : Ty, beq a b ↔ a = b
  | primitive _, b => by cases b <;> simp [beq]
  | literal _, b => by cases b <;> simp [beq]
  | boolean _, b => by cases b <;> simp [beq]
  | union as, b => by cases b <;> simp [beq, beqList_iff as]
  | inter as, b => by cases b <;> simp [beq, beqList_iff as]
  | object _ _ as, b => by cases b <;> simp [beq, beqList_iff as, and_assoc]
  | sequence _ as, b => by cases b <;> simp [beq, beqList_iff as]
  | ref t as, b => by cases b <;> simp [beq, beq_iff t, beqList_iff as]
  | param _, b => by cases b <;> simp [beq]
  | keyOf t, b => by cases b <;> simp [beq, beq_iff t]
  | index t k, b => by cases b <;> simp [beq, beq_iff t, beq_iff k]
  | mapped _ c t _, b => by cases b <;> simp [beq, beq_iff c, beq_iff t, and_assoc]
  | name _ as, b => by cases b <;> simp [beq, beqList_iff as]

theorem beqList_iff : ∀ as bs : List Ty, beqList as bs ↔ as = bs
  | [], bs => by cases bs <;> simp [beqList]
  | a :: as, bs => by cases bs <;> simp [beqList, beq_iff a, beqList_iff as]
end

instance : DecidableEq Ty := fun a b => decidable_of_iff _ (beq_iff a b)

def isName : Ty → Bool
  | name _ _ => true
  | _ => false

/-- What stands for the object itself: the target of a reference, else the type. -/
def head : Ty → Ty
  | ref target _ => target
  | t => t

def args : Ty → List Ty
  | ref _ args => args
  | _ => []

end Ty

end TypeGuard
