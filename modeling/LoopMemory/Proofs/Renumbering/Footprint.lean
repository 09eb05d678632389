import LoopMemory.Proofs.AliasClasses.Components
import LoopMemory.Proofs.Footprint.Tally
import Mathlib.Data.List.Forall2
import Mathlib.Logic.Relator

/-! Footprints under other numbers of the instructions. The locations in them are the same, in
whatever order they were met, and so is what is unknown about each instruction. -/
namespace LoopMemory
variable {I : Inst → Inst → Prop}

namespace UnknownInsts
variable {us vs : UnknownInsts} {i j : Inst} {u : UnknownAccess}

/-- The same is unknown of instructions that `I` relates, and of no others. -/
structure Alike (I : Inst → Inst → Prop) (us vs : UnknownInsts) : Prop where
  left : us.Ordered
  right : vs.Ordered
  lookup : ∀ i j, I i j → us.lookup i = vs.lookup j
  forth : ∀ e ∈ us, ∃ j, I e.1 j
  back : ∀ e ∈ vs, ∃ i, I i e.1

theorem alike_nil : Alike I [] [] := ⟨ordered_nil, ordered_nil, by simp, by simp, by simp⟩

namespace Alike
variable (h : Alike I us vs)
include h

theorem symm : Alike (flip I) vs us :=
  ⟨h.right, h.left, fun i j hij => (h.lookup j i hij).symm, h.back, h.forth⟩

theorem record (hI : Relator.BiUnique I) (hij : I i j) :
    Alike I (record i u us) (record j u vs) where
  left := h.left.record i u
  right := h.right.record j u
  lookup i' j' hij' := by
    have heq : i' = i ↔ j' = j :=
      ⟨fun he => hI.2 hij' (he ▸ hij), fun he => hI.1 hij' (he ▸ hij)⟩
    rw [lookup_record h.left, lookup_record h.right, h.lookup i j hij, h.lookup i' j' hij']
    simp only [heq]
  forth e he := by
    rcases mem_record he with he | ⟨d, hd, he⟩
    · exact ⟨j, he ▸ hij⟩
    · exact he ▸ h.forth d hd
  back e he := by
    rcases mem_record he with he | ⟨d, hd, he⟩
    · exact ⟨i, he ▸ hij⟩
    · exact he ▸ h.back d hd

theorem mem_right (hu : (i, u) ∈ us) : ∃ j, I i j ∧ (j, u) ∈ vs := by
  obtain ⟨j, hij⟩ := h.forth _ hu
  refine ⟨j, hij, h.right.mem_iff.2 ?_⟩
  rw [← h.lookup i j hij]
  exact h.left.mem_iff.1 hu

theorem any_imp {q : UnknownAccess → Bool} (hq : (us.any fun e => q e.2) = true) :
    (vs.any fun e => q e.2) = true := by
  rw [List.any_eq_true] at hq ⊢
  obtain ⟨⟨i, u⟩, hu, hq⟩ := hq
  obtain ⟨j, -, hu⟩ := h.mem_right hu
  exact ⟨(j, u), hu, hq⟩

theorem any_eq (q : UnknownAccess → Bool) : (us.any fun e => q e.2) = vs.any fun e => q e.2 :=
  Bool.eq_iff_iff.2 ⟨h.any_imp, h.symm.any_imp⟩

/- No two of the instructions get one number. -/
theorem length_le (hI : Relator.BiUnique I) : us.length ≤ vs.length := by
  have hexists : ∀ e ∈ us, ∃ d ∈ vs, I e.1 d.1 := by
    rintro ⟨i, u⟩ hu
    obtain ⟨j, hij, hu⟩ := h.mem_right hu
    exact ⟨(j, u), hu, hij⟩
  choose! number hmem hnumber using hexists
  have hnodup : (us.map number).Nodup := by
    refine List.pairwise_map.2 (h.left.imp_of_mem ?_)
    rintro d e hd he hlt heq
    have hsame : d.1 = e.1 := hI.1 (hnumber d hd) (heq ▸ hnumber e he)
    exact (lt_irrefl _ (hsame ▸ hlt)).elim
  have hsub : us.map number ⊆ vs := by
    intro d hd
    obtain ⟨e, he, rfl⟩ := List.mem_map.1 hd
    exact hmem e he
  simpa using (hnodup.subperm hsub).length_le

theorem length_eq (hI : Relator.BiUnique I) : us.length = vs.length :=
  le_antisymm (h.length_le hI)
    (h.symm.length_le ⟨fun _ _ _ hi hj => hI.2 hi hj, fun _ _ _ hi hj => hI.1 hi hj⟩)

end Alike
end UnknownInsts

namespace Footprint
variable {aliases : Aliasing} {f g : Footprint} {l : Location}

/-- The same footprint, but for the numbers of the instructions and the order of what was met. -/
structure Alike (I : Inst → Inst → Prop) (f g : Footprint) : Prop where
  defs : f.defs = g.defs
  mayDefs : f.mayDefs = g.mayDefs
  uses : f.uses = g.uses
  addresses : f.addresses = g.addresses
  locations : ∀ l, l ∈ f.explicit.locations ↔ l ∈ g.explicit.locations
  unknown : f.unknown.Alike I g.unknown

theorem alike_of_unknown {us : UnknownInsts} (h : f.unknown.Alike I us) :
    f.Alike I { f with unknown := us } :=
  ⟨rfl, rfl, rfl, rfl, fun _ => Iff.rfl, h⟩

theorem alike_empty : Alike I {} {} := alike_of_unknown UnknownInsts.alike_nil

namespace Alike
variable (h : f.Alike I g)
include h

theorem symm : g.Alike (flip I) f :=
  ⟨h.defs.symm, h.mayDefs.symm, h.uses.symm, h.addresses.symm, fun l => (h.locations l).symm,
    h.unknown.symm⟩

theorem hasUnknown : f.hasUnknown = g.hasUnknown := by
  have hany : ∀ us : UnknownInsts, (us.any fun _ => true) = !us.isEmpty := by
    rintro (_ | _) <;> rfl
  rw [Footprint.hasUnknown, Footprint.hasUnknown, ← hany, ← hany]
  exact h.unknown.any_eq fun _ => true

theorem hasUnknownReads : f.hasUnknownReads = g.hasUnknownReads :=
  h.unknown.any_eq fun u => u.read.isAny

theorem hasUnknownWrites : f.hasUnknownWrites = g.hasUnknownWrites :=
  h.unknown.any_eq fun u => u.write.isAny

theorem mem_tracked : l ∈ f.tracked ↔ l ∈ g.tracked := by
  rw [Footprint.mem_tracked, Footprint.mem_tracked, h.locations, Writes, Writes, h.defs, h.mayDefs]

/-- Values pass the same way. -/
theorem transfer (x : Reaching) : x.transfer aliases f = x.transfer aliases g := by
  simp only [Reaching.transfer, h.hasUnknownWrites, h.defs, h.mayDefs]

theorem downgrade : f.downgrade.Alike I g.downgrade :=
  ⟨rfl, congrArg₂ (· ∪ ·) h.mayDefs h.defs, h.uses, h.addresses, h.locations, h.unknown⟩

theorem widen (repeats : Bool) : (f.widen repeats).Alike I (g.widen repeats) where
  defs := by rw [defs_widen, defs_widen, h.defs]
  mayDefs := SortedSet.ext fun l => by
    rw [mem_mayDefs_widen_iff, mem_mayDefs_widen_iff, h.mayDefs, h.hasUnknownWrites, h.mem_tracked,
      h.defs]
  uses := SortedSet.ext fun l => by
    rw [mem_uses_widen_iff, mem_uses_widen_iff, h.uses, h.hasUnknownReads, h.mem_tracked]
  addresses := by rw [addresses_widen, addresses_widen, h.addresses]
  locations l := by rw [explicit_widen, explicit_widen, h.locations]
  unknown := by
    rw [unknown_widen, unknown_widen]
    exact h.unknown

end Alike
end Footprint
end LoopMemory
