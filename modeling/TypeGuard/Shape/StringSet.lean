/-! Finite sets of strings, listed in ascending order of code points. -/

namespace TypeGuard

/-- The order makes the list of a set unique. -/
structure StringSet where
  toList : List String
  sorted : toList.Pairwise (· < ·)
deriving DecidableEq

namespace StringSet

def insertItem (s : String) : List String → List String
  | [] => [s]
  | t :: rest =>
      if s < t then s :: t :: rest
      else if s = t then t :: rest
      else t :: insertItem s rest

theorem mem_insertItem {s x : String} {items : List String} :
    x ∈ insertItem s items ↔ x = s ∨ x ∈ items := by
  induction items with
  | nil => simp [insertItem]
  | cons t rest ih =>
      unfold insertItem
      split
      · simp
      · split
        · next heq => subst heq; simp
        · simp only [List.mem_cons, ih]
          exact or_left_comm

theorem sorted_insertItem {s : String} {items : List String}
    (hsorted : items.Pairwise (· < ·)) : (insertItem s items).Pairwise (· < ·) := by
  induction items with
  | nil => simp [insertItem]
  | cons t rest ih =>
      rw [List.pairwise_cons] at hsorted
      unfold insertItem
      split
      · next hlt =>
          refine List.pairwise_cons.2 ⟨fun x hx => ?_, List.pairwise_cons.2 hsorted⟩
          rcases List.mem_cons.1 hx with rfl | hrest
          · exact hlt
          · exact String.lt_trans hlt (hsorted.1 x hrest)
      · next hnlt =>
          split
          · exact List.pairwise_cons.2 hsorted
          · next hne =>
              refine List.pairwise_cons.2 ⟨fun x hx => ?_, ih hsorted.2⟩
              rcases mem_insertItem.1 hx with rfl | hrest
              · exact Std.lt_of_le_of_ne (String.not_lt.1 hnlt) (Ne.symm hne)
              · exact hsorted.1 x hrest

def empty : StringSet := ⟨[], .nil⟩

def insert (s : String) (set : StringSet) : StringSet :=
  ⟨insertItem s set.toList, sorted_insertItem set.sorted⟩

def ofList : List String → StringSet
  | [] => empty
  | s :: rest => (ofList rest).insert s

def inter (a b : StringSet) : StringSet :=
  ⟨a.toList.filter (b.toList.contains ·), a.sorted.filter _⟩

@[simp] theorem mem_ofList {x : String} {items : List String} :
    x ∈ (ofList items).toList ↔ x ∈ items := by
  induction items with
  | nil => simp [ofList, empty]
  | cons s rest ih => simp [ofList, insert, mem_insertItem, ih]

theorem ofList_cons_ne_nil (s : String) (rest : List String) : (ofList (s :: rest)).toList ≠ [] :=
  List.ne_nil_of_mem (mem_ofList.2 List.mem_cons_self)

@[simp] theorem mem_inter {x : String} {a b : StringSet} :
    x ∈ (a.inter b).toList ↔ x ∈ a.toList ∧ x ∈ b.toList := by
  simp [inter]

end StringSet

end TypeGuard
