/-!
Finite sets as strictly ascending lists. The order comes from an injective key, so two sets
with the same members are the same list.
-/
namespace LoopMemory

/-- A type ordered by an injective key. -/
class Keyed (α : Type) where
  key : α → List Int
  key_inj {a b : α} : key a = key b → a = b

namespace Keyed
variable {α : Type} [Keyed α]

def before (a b : α) : Prop := key a < key b

instance (a b : α) : Decidable (before a b) := inferInstanceAs (Decidable (key a < key b))

theorem not_before_self (a : α) : ¬before a a := List.lt_irrefl _

theorem before_trans {a b c : α} (h : before a b) (k : before b c) : before a c :=
  List.lt_trans h k

theorem eq_of_not_before {a b : α} (h : ¬before a b) (k : ¬before b a) : a = b :=
  key_inj (List.le_antisymm k h)

instance : Keyed Nat := ⟨fun n => [(n : Int)], fun h => Int.ofNat.inj (List.cons.inj h).1⟩

end Keyed

open Keyed

structure SortedSet (α : Type) [Keyed α] where
  toList : List α
  ascending : toList.Pairwise before

namespace SortedSet
variable {α : Type} [Keyed α]

instance [DecidableEq α] : DecidableEq (SortedSet α) := fun s t =>
  decidable_of_iff (s.toList = t.toList) ⟨fun h => by cases s; cases t; simp_all, fun h => h ▸ rfl⟩

instance : Membership α (SortedSet α) := ⟨fun s a => a ∈ s.toList⟩

theorem mem_toList {s : SortedSet α} {a : α} : a ∈ s.toList ↔ a ∈ s := Iff.rfl

instance [DecidableEq α] (a : α) (s : SortedSet α) : Decidable (a ∈ s) :=
  inferInstanceAs (Decidable (a ∈ s.toList))

instance : EmptyCollection (SortedSet α) := ⟨⟨[], .nil⟩⟩

instance : Inhabited (SortedSet α) := ⟨∅⟩

def size (s : SortedSet α) : Nat := s.toList.length

def isEmpty (s : SortedSet α) : Bool := s.toList.isEmpty

def place (a : α) : List α → List α
  | [] => [a]
  | b :: l => if before a b then a :: b :: l else if before b a then b :: place a l else b :: l

theorem mem_place {a x : α} {l : List α} : x ∈ place a l ↔ x = a ∨ x ∈ l := by
  induction l with
  | nil => simp [place]
  | cons b l ih =>
    rw [place]
    split
    · simp
    · rename_i h
      split
      · simp only [List.mem_cons, ih]; grind
      · rename_i k
        have := eq_of_not_before h k
        simp [this]

theorem place_ascending (a : α) {l : List α} (h : l.Pairwise before) :
    (place a l).Pairwise before := by
  induction l with
  | nil => simp [place]
  | cons b l ih =>
    have ⟨hb, hl⟩ := List.pairwise_cons.1 h
    rw [place]
    split
    · rename_i hab
      refine List.pairwise_cons.2 ⟨fun x hx => ?_, h⟩
      rcases List.mem_cons.1 hx with rfl | hx
      · exact hab
      · exact before_trans hab (hb x hx)
    · split
      · rename_i hba
        refine List.pairwise_cons.2 ⟨fun x hx => ?_, ih hl⟩
        rcases mem_place.1 hx with rfl | hx
        · exact hba
        · exact hb x hx
      · exact h

def insert (a : α) (s : SortedSet α) : SortedSet α :=
  ⟨place a s.toList, place_ascending a s.ascending⟩

def filter (p : α → Bool) (s : SortedSet α) : SortedSet α :=
  ⟨s.toList.filter p, s.ascending.filter p⟩

def insertMany (s : SortedSet α) (l : List α) : SortedSet α := l.foldl (fun s a => s.insert a) s

def ofList (l : List α) : SortedSet α := insertMany ∅ l

instance : Union (SortedSet α) := ⟨fun s t => s.insertMany t.toList⟩

def inter [DecidableEq α] (s t : SortedSet α) : SortedSet α := s.filter fun a => decide (a ∈ t)

instance [DecidableEq α] : Inter (SortedSet α) := ⟨inter⟩

instance : HasSubset (SortedSet α) := ⟨fun s t => ∀ a, a ∈ s → a ∈ t⟩

/- Membership is the view: each operation says what it does to it. -/

@[simp] theorem not_mem_empty (a : α) : ¬a ∈ (∅ : SortedSet α) := List.not_mem_nil

@[simp] theorem mem_insert {a x : α} {s : SortedSet α} : x ∈ s.insert a ↔ x = a ∨ x ∈ s := mem_place

@[simp] theorem mem_filter {p : α → Bool} {x : α} {s : SortedSet α} :
    x ∈ s.filter p ↔ x ∈ s ∧ p x = true := List.mem_filter

@[simp] theorem mem_insertMany {x : α} {s : SortedSet α} {l : List α} :
    x ∈ s.insertMany l ↔ x ∈ s ∨ x ∈ l := by
  induction l generalizing s with
  | nil => simp [insertMany]
  | cons a l ih =>
    change x ∈ (s.insert a).insertMany l ↔ _
    rw [ih, mem_insert, List.mem_cons]; grind

@[simp] theorem mem_ofList {x : α} {l : List α} : x ∈ ofList l ↔ x ∈ l := by simp [ofList]

@[simp] theorem mem_union {x : α} {s t : SortedSet α} : x ∈ s ∪ t ↔ x ∈ s ∨ x ∈ t :=
  mem_insertMany

@[simp] theorem mem_inter [DecidableEq α] {x : α} {s t : SortedSet α} :
    x ∈ s ∩ t ↔ x ∈ s ∧ x ∈ t := by
  change x ∈ s.filter _ ↔ _
  simp

theorem ascending_ext {l m : List α} (hl : l.Pairwise before) (hm : m.Pairwise before)
    (h : ∀ a, a ∈ l ↔ a ∈ m) : l = m := by
  induction l generalizing m with
  | nil =>
    cases m with
    | nil => rfl
    | cons b m => exact absurd ((h b).2 (.head _)) List.not_mem_nil
  | cons a l ih =>
    cases m with
    | nil => exact absurd ((h a).1 (.head _)) List.not_mem_nil
    | cons b m =>
      have ⟨ha, hl'⟩ := List.pairwise_cons.1 hl
      have ⟨hb, hm'⟩ := List.pairwise_cons.1 hm
      have hab : a = b := by
        rcases List.mem_cons.1 ((h a).1 (.head _)) with e | hm
        · exact e
        rcases List.mem_cons.1 ((h b).2 (.head _)) with e | hl
        · exact e.symm
        exact absurd (before_trans (ha b hl) (hb a hm)) (not_before_self a)
      subst hab
      congr 1
      refine ih hl' hm' fun x => ⟨fun hx => ?_, fun hx => ?_⟩
      · rcases List.mem_cons.1 ((h x).1 (.tail _ hx)) with rfl | k
        · exact absurd (ha x hx) (not_before_self x)
        · exact k
      · rcases List.mem_cons.1 ((h x).2 (.tail _ hx)) with rfl | k
        · exact absurd (hb x hx) (not_before_self x)
        · exact k

@[ext] theorem ext {s t : SortedSet α} (h : ∀ a, a ∈ s ↔ a ∈ t) : s = t := by
  have := ascending_ext s.ascending t.ascending h
  cases s; cases t; simp_all

end SortedSet
end LoopMemory
