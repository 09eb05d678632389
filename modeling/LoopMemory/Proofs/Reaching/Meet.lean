import LoopMemory.Proofs.Reaching

/-! The meet of data-flow values. Its must side shrinks and its may side grows, and the two together
are the greatest value below both. A meet reports a change exactly where it made one. -/
namespace LoopMemory

namespace SortedSet
variable {α : Type} [Keyed α] {s t : SortedSet α}

theorem size_eq_iff (h : s ⊆ t) : s.size = t.size ↔ s = t := by
  constructor
  · intro hsize
    exact eq_of_subset_of_size_le h (Nat.le_of_eq hsize.symm)
  · exact congrArg size

/- A set that only shrinks or only grows shows each change in its size. -/

theorem interChanges_iff [DecidableEq α] : s.interChanges t = true ↔ s ∩ t ≠ s := by
  have hsub : s ∩ t ⊆ s := fun _ h => (mem_inter.1 h).1
  rw [interChanges, bne_iff_ne]
  exact not_congr (size_eq_iff hsub)

theorem unionChanges_iff : s.unionChanges t = true ↔ s ∪ t ≠ s := by
  have hsub : s ⊆ s ∪ t := fun _ h => mem_union.2 (.inl h)
  rw [unionChanges, bne_iff_ne, ne_comm, @ne_comm _ (s ∪ t)]
  exact not_congr (size_eq_iff hsub)

end SortedSet

namespace Reach
variable {r s t : Reach}

/- The meets of the two sides, as the bounds that they are. -/

theorem le_inter_iff : t ≤ r.inter s ↔ t ≤ r ∧ t ≤ s := by
  constructor
  · intro h
    have hmem : ∀ l ∈ t, l ∈ r ∧ l ∈ s := fun l hl => mem_inter.1 (h.1 l hl)
    have hfull : t.isFull = true → r.isFull = true ∧ s.isFull = true := by simpa using h.2
    exact ⟨⟨fun l hl => (hmem l hl).1, fun hf => (hfull hf).1⟩,
      ⟨fun l hl => (hmem l hl).2, fun hf => (hfull hf).2⟩⟩
  · intro ⟨hr, hs⟩
    refine ⟨fun l hl => mem_inter.2 ⟨hr.1 l hl, hs.1 l hl⟩, fun hf => ?_⟩
    rw [isFull_inter, hr.2 hf, hs.2 hf, Bool.and_self]

theorem union_le_iff : r.union s ≤ t ↔ r ≤ t ∧ s ≤ t := by
  constructor
  · intro h
    have hfull : r.isFull = true ∨ s.isFull = true → t.isFull = true := by simpa using h.2
    exact ⟨⟨fun l hl => h.1 l (mem_union.2 (.inl hl)), fun hf => hfull (.inl hf)⟩,
      ⟨fun l hl => h.1 l (mem_union.2 (.inr hl)), fun hf => hfull (.inr hf)⟩⟩
  · intro ⟨hr, hs⟩
    refine ⟨fun l hl => (mem_union.1 hl).elim (hr.1 l) (hs.1 l), fun hf => ?_⟩
    rw [isFull_union, Bool.or_eq_true] at hf
    exact hf.elim hr.2 hs.2

/- Between two sets the sizes tell. Where one side is everything there is nothing to count. -/

theorem interChanges_iff : r.interChanges s = true ↔ r.inter s ≠ r := by
  cases s with
  | full => simp [interChanges, inter]
  | only s =>
    cases r with
    | full => simp [interChanges, inter]
    | only r => simp [interChanges, inter, SortedSet.interChanges_iff]

theorem unionChanges_iff : r.unionChanges s = true ↔ r.union s ≠ r := by
  cases r with
  | full => simp [unionChanges, union]
  | only r =>
    cases s with
    | full => simp [unionChanges, union]
    | only s => simp [unionChanges, union, SortedSet.unionChanges_iff]

end Reach

namespace Reaching
variable {x y z : Reaching}

theorem le_meet_iff : z ≤ x.meet y ↔ z ≤ x ∧ z ≤ y := by
  have hsides := and_congr (@Reach.le_inter_iff x.must y.must z.must)
    (@Reach.union_le_iff x.may y.may z.may)
  exact hsides.trans and_and_and_comm

/- Values with the same ones below them are equal, so the laws of `∧` carry over to the meet. -/

theorem eq_of_forall_le_iff (h : ∀ z, z ≤ x ↔ z ≤ y) : x = y :=
  le_antisymm ((h x).1 (le_refl x)) ((h y).2 (le_refl y))

theorem meet_assoc (x y z : Reaching) : (x.meet y).meet z = x.meet (y.meet z) := by
  refine eq_of_forall_le_iff fun w => ?_
  simp only [le_meet_iff]
  exact and_assoc

theorem meet_comm (x y : Reaching) : x.meet y = y.meet x := by
  refine eq_of_forall_le_iff fun w => ?_
  rw [le_meet_iff, le_meet_iff]
  exact and_comm

theorem meet_self (x : Reaching) : x.meet x = x := by
  refine eq_of_forall_le_iff fun w => ?_
  rw [le_meet_iff, and_self]

theorem meet_top (x : Reaching) : x.meet top = x := by
  refine eq_of_forall_le_iff fun w => ?_
  rw [le_meet_iff]
  exact and_iff_left (le_top w)

theorem top_meet (x : Reaching) : top.meet x = x := (meet_comm top x).trans (meet_top x)

theorem meet_le_left (x y : Reaching) : x.meet y ≤ x := (le_meet_iff.1 (le_refl _)).1

theorem meet_le_right (x y : Reaching) : x.meet y ≤ y := (le_meet_iff.1 (le_refl _)).2

theorem meet_eq_iff : x.meet y = x ↔ x.must.inter y.must = x.must ∧ x.may.union y.may = x.may := by
  constructor
  · intro h
    exact ⟨congrArg must h, congrArg may h⟩
  · intro h
    exact ext h.1 h.2

theorem meetChanges_iff : x.meetChanges y = true ↔ x.meet y ≠ x := by
  rw [meetChanges, Bool.or_eq_true, Reach.interChanges_iff, Reach.unionChanges_iff]
  exact not_and_or.symm.trans (not_congr meet_eq_iff.symm)

/-- A meet of many values is the greatest one below all of them. -/
theorem le_meet_all {ys : List Reaching} : z ≤ ys.foldl meet x ↔ z ≤ x ∧ ∀ y ∈ ys, z ≤ y := by
  induction ys generalizing x with
  | nil => simp
  | cons y ys ih => rw [List.foldl_cons, ih, le_meet_iff, List.forall_mem_cons, and_assoc]

/-- A meet depends on the values only, not on their order or number. -/
theorem meet_all_congr {ys zs : List Reaching} (h : ∀ y, y ∈ ys ↔ y ∈ zs) :
    ys.foldl meet x = zs.foldl meet x := by
  refine eq_of_forall_le_iff fun z => ?_
  rw [le_meet_all, le_meet_all]
  simp only [h]

/-- The values with their meet are a semilattice below the top, and each report of a change says
just whether the value in hand is another one now. -/
theorem meet_semilattice (x y z : Reaching) (r s : Reach) :
    ((x.meet y).meet z = x.meet (y.meet z) ∧ x.meet y = y.meet x ∧ x.meet x = x) ∧
    (top.meet x = x ∧ x.meet top = x) ∧
    (x.meet y ≤ x ∧ x.meet y ≤ y ∧ (z ≤ x.meet y ↔ z ≤ x ∧ z ≤ y)) ∧
    (x.meetChanges y = true ↔ x.meet y ≠ x) ∧
    (r.interChanges s = true ↔ r.inter s ≠ r) ∧ (r.unionChanges s = true ↔ r.union s ≠ r) :=
  ⟨⟨meet_assoc x y z, meet_comm x y, meet_self x⟩, ⟨top_meet x, meet_top x⟩,
    ⟨meet_le_left x y, meet_le_right x y, le_meet_iff⟩, meetChanges_iff, Reach.interChanges_iff,
    Reach.unionChanges_iff⟩

/- The meet is the same either way round, and yet only one of the two values changes. -/
example : top.meet start = start.meet top ∧ top.meetChanges start = true ∧
    start.meetChanges top = false := by
  decide

end Reaching
end LoopMemory
