import LoopMemory.Footprint.Summary
import LoopMemory.Proofs.Except

/-! What each operation on footprints does to the definitions, uses, addresses and unknown
instructions in them. -/
namespace LoopMemory

@[simp] theorem UnknownAccess.isAny_write_max (u v : UnknownAccess) :
    (u.max v).write.isAny = (u.write.isAny || v.write.isAny) := by
  cases hu : u.write <;> cases hv : v.write <;>
    simp [UnknownAccess.max, Assurance.max, Assurance.isAny, hu, hv]

/- An unknown access is dropped by no later one of the same instruction. -/
theorem UnknownInsts.any_record {q : UnknownAccess → Bool} (hq : ∀ u v, q (u.max v) = (q u || q v))
    (i : Inst) (u : UnknownAccess) (us : UnknownInsts) :
    (UnknownInsts.record i u us).any (fun e => q e.2) = (q u || us.any fun e => q e.2) := by
  induction us with
  | nil => simp [record]
  | cons e us ih =>
    obtain ⟨j, v⟩ := e
    rw [record]
    split
    · simp
    · split
      · simp only [List.any_cons, hq, Bool.or_assoc, Bool.or_left_comm]
      · simp only [List.any_cons, ih, Bool.or_left_comm]

theorem UnknownInsts.record_ne_nil (i : Inst) (u : UnknownAccess) (us : UnknownInsts) :
    UnknownInsts.record i u us ≠ [] := by
  cases us with
  | nil => simp [record]
  | cons e us =>
    rw [record]
    split
    · simp
    · split <;> simp

namespace Footprint
variable {aliases : Aliasing} {f g : Footprint} {l : Location} {b : Base}

theorem hasUnknown_iff : f.hasUnknown = true ↔ f.unknown ≠ [] := by
  cases h : f.unknown <;> simp [hasUnknown, h]

theorem hasUnknown_of_hasUnknownWrites (h : f.hasUnknownWrites = true) : f.hasUnknown = true := by
  rw [hasUnknown_iff]
  rintro he
  simp [hasUnknownWrites, he] at h

@[simp] theorem hasUnknown_empty : ({} : Footprint).hasUnknown = false := rfl

@[simp] theorem hasUnknownWrites_empty : ({} : Footprint).hasUnknownWrites = false := rfl

theorem addUnknown_eq_ok {i : Inst} {u : UnknownAccess} : f.addUnknown i u = .ok g ↔
    u.isIdle = false ∧ g = { f with unknown := UnknownInsts.record i u f.unknown } := by
  simp only [addUnknown, bind_eq_ok, require_eq_ok, pure_eq_ok]
  constructor
  · rintro ⟨_, hu, hg⟩
    exact ⟨hu, hg.symm⟩
  · rintro ⟨hu, hg⟩
    exact ⟨(), hu, hg.symm⟩

/- An unknown access at its place in program order. -/

section ApplyUnknown
variable {u : UnknownAccess}

theorem defs_applyUnknown :
    (f.applyUnknown u).defs = if u.write.isAny then ∅ else f.defs := by
  cases hr : u.read.isAny <;> cases hw : u.write.isAny <;>
    simp [applyUnknown, hr, hw, exposeTracked, clobberTracked, downgrade]

theorem mem_uses_applyUnknown (h : l ∈ f.uses) : l ∈ (f.applyUnknown u).uses := by
  cases hr : u.read.isAny <;> cases hw : u.write.isAny <;>
    simp [applyUnknown, hr, hw, exposeTracked, clobberTracked, downgrade, h]

theorem mem_mayDefs_applyUnknown : l ∈ (f.applyUnknown u).mayDefs ↔
    l ∈ f.mayDefs ∨ (u.write.isAny = true ∧ l ∈ f.tracked) := by
  cases hr : u.read.isAny <;> cases hw : u.write.isAny <;>
    simp only [applyUnknown, hr, hw, exposeTracked, clobberTracked, downgrade, tracked, if_true,
      if_false, Bool.false_eq_true, SortedSet.mem_insertMany, SortedSet.mem_union, List.mem_append,
      SortedSet.mem_toList, false_and, true_and, or_false] <;> grind

theorem mem_written_applyUnknown (h : l ∈ f.defs ∨ l ∈ f.mayDefs) :
    l ∈ (f.applyUnknown u).defs ∨ l ∈ (f.applyUnknown u).mayDefs := by
  cases hr : u.read.isAny <;> cases hw : u.write.isAny <;>
    simp only [applyUnknown, hr, hw, exposeTracked, clobberTracked, downgrade, if_true, if_false,
      Bool.false_eq_true, SortedSet.mem_insertMany, SortedSet.mem_union]
  · exact h
  · exact .inr (.inl h.symm)
  · exact h
  · exact .inr (.inl h.symm)

@[simp] theorem unknown_applyUnknown : (f.applyUnknown u).unknown = f.unknown := by
  cases hr : u.read.isAny <;> cases hw : u.write.isAny <;>
    simp [applyUnknown, hr, hw, exposeTracked, clobberTracked, downgrade]

/- What is unknown about other instructions changes nothing about this one. -/
theorem applyUnknown_unknown {us : UnknownInsts} :
    applyUnknown { f with unknown := us } u = { f.applyUnknown u with unknown := us } := by
  cases hr : u.read.isAny <;> cases hw : u.write.isAny <;>
    simp only [applyUnknown, hr, hw, if_true, if_false, Bool.false_eq_true] <;> rfl

@[simp] theorem addresses_applyUnknown : (f.applyUnknown u).addresses = f.addresses := by
  cases hr : u.read.isAny <;> cases hw : u.write.isAny <;>
    simp [applyUnknown, hr, hw, exposeTracked, clobberTracked, downgrade]

end ApplyUnknown

/- A whole region. -/

section Widen
variable {repeats : Bool}

@[simp] theorem defs_widen : (f.widen repeats).defs = f.defs := by
  unfold widen
  split <;> split <;> rfl

@[simp] theorem addresses_widen : (f.widen repeats).addresses = f.addresses := by
  unfold widen
  split <;> split <;> rfl

@[simp] theorem unknown_widen : (f.widen repeats).unknown = f.unknown := by
  unfold widen
  split <;> split <;> rfl

theorem mem_uses_widen (h : l ∈ f.uses) : l ∈ (f.widen repeats).uses := by
  unfold widen
  split <;> split <;> simp [h]

theorem mem_mayDefs_widen (h : l ∈ f.mayDefs) : l ∈ (f.widen repeats).mayDefs := by
  unfold widen
  split <;> split <;> simp [h]

theorem widen_of_known (h : f.hasUnknown = false) : f.widen repeats = f := by
  have hu : f.unknown = [] := by simpa [hasUnknown] using h
  simp [widen, hasUnknownWrites, hasUnknownReads, hu]

end Widen

@[simp] theorem unknown_downgrade : f.downgrade.unknown = f.unknown := rfl

@[simp] theorem addresses_downgrade : f.downgrade.addresses = f.addresses := rfl

@[simp] theorem uses_downgrade : f.downgrade.uses = f.uses := rfl

@[simp] theorem defs_downgrade : f.downgrade.defs = ∅ := rfl

@[simp] theorem mem_mayDefs_downgrade :
    l ∈ f.downgrade.mayDefs ↔ l ∈ f.mayDefs ∨ l ∈ f.defs := by
  simp [downgrade]

theorem hasUnknownWrites_mergeAccesses :
    (mergeAccesses aliases f g).hasUnknownWrites = (f.hasUnknownWrites || g.hasUnknownWrites) := by
  simp only [hasUnknownWrites, mergeAccesses]
  generalize f.unknown = us
  induction g.unknown generalizing us with
  | nil => simp
  | cons e vs ih =>
    rw [List.foldl_cons, ih, UnknownInsts.any_record (q := fun u => u.write.isAny) (by simp),
      List.any_cons, Bool.or_assoc, Bool.or_left_comm]

theorem hasUnknown_mergeAccesses : (mergeAccesses aliases f g).hasUnknown = true ↔
    f.hasUnknown = true ∨ g.hasUnknown = true := by
  simp only [hasUnknown_iff, mergeAccesses]
  generalize f.unknown = us
  induction g.unknown generalizing us with
  | nil => simp
  | cons e vs ih => simp [ih, UnknownInsts.record_ne_nil]

section Absorb
variable {exiting input : Reaching} {sum : Footprint}

theorem mem_uses_absorb : l ∈ (sum.absorb aliases exiting input f).uses ↔
    l ∈ sum.uses ∨ (l ∈ f.uses ∧ input.must.covers l = false) := by
  simp [absorb, mergeAccesses, absorbDefs, absorbUses, SortedSet.mem_toList]

theorem mem_defs_absorb : l ∈ (sum.absorb aliases exiting input f).defs ↔
    l ∈ sum.defs ∨ (l ∈ f.defs ∧ exiting.must.covers l = true) := by
  simp [absorb, mergeAccesses, absorbDefs, absorbUses, SortedSet.mem_toList]

theorem mem_mayDefs_absorb : l ∈ (sum.absorb aliases exiting input f).mayDefs ↔
    l ∈ sum.mayDefs ∨ (l ∈ f.defs ∧ exiting.must.covers l = false) ∨ l ∈ f.mayDefs := by
  simp [absorb, mergeAccesses, absorbDefs, absorbUses, SortedSet.mem_toList, or_assoc]

theorem mem_addresses_absorb : b ∈ (sum.absorb aliases exiting input f).addresses ↔
    b ∈ sum.addresses ∨ b ∈ f.addresses := by
  simp [absorb, mergeAccesses, absorbDefs, absorbUses]

theorem hasUnknownWrites_absorb : (sum.absorb aliases exiting input f).hasUnknownWrites =
    (sum.hasUnknownWrites || f.hasUnknownWrites) :=
  hasUnknownWrites_mergeAccesses

theorem hasUnknown_absorb : (sum.absorb aliases exiting input f).hasUnknown = true ↔
    sum.hasUnknown = true ∨ f.hasUnknown = true :=
  hasUnknown_mergeAccesses

end Absorb
end Footprint
end LoopMemory
