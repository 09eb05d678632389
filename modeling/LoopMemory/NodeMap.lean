import LoopMemory.Region

/-!
Finite maps from nodes, in the order in which the nodes were first set.
-/
namespace LoopMemory

structure NodeMap (α : Type) where
  entries : List (NodeId × α) := []
deriving DecidableEq, Inhabited

namespace NodeMap
variable {α : Type}

def get? (m : NodeMap α) (n : NodeId) : Option α := m.entries.lookup n

def put (n : NodeId) (a : α) : List (NodeId × α) → List (NodeId × α)
  | [] => [(n, a)]
  | (k, b) :: l => if n = k then (k, a) :: l else (k, b) :: put n a l

def set (m : NodeMap α) (n : NodeId) (a : α) : NodeMap α := ⟨put n a m.entries⟩

def erase (m : NodeMap α) (n : NodeId) : NodeMap α := ⟨m.entries.filter fun e => e.1 != n⟩

theorem lookup_put (n k : NodeId) (a : α) (l : List (NodeId × α)) :
    (put n a l).lookup k = if k = n then some a else l.lookup k := by
  induction l with
  | nil =>
    by_cases h : k = n
    · simp [put, h]
    · simp [put, List.lookup_cons, beq_false_of_ne h, h]
  | cons e l ih =>
    obtain ⟨j, b⟩ := e
    by_cases hn : n = j
    · subst hn
      by_cases hk : k = n
      · simp [put, hk]
      · simp [put, List.lookup_cons, beq_false_of_ne hk, hk]
    · by_cases hk : k = j
      · subst hk
        simp [put, hn, Ne.symm hn]
      · simp [put, hn, List.lookup_cons, beq_false_of_ne hk, ih]

@[simp] theorem get?_set (m : NodeMap α) (n k : NodeId) (a : α) :
    (m.set n a).get? k = if k = n then some a else m.get? k := lookup_put n k a m.entries

end NodeMap
end LoopMemory
