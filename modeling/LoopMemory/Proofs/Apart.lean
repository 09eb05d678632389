import LoopMemory.Proofs.Reaching

/-! Locations of which no two overlap and none covers another. Among them a definition ends no other
one, and only a location itself covers it. -/
namespace LoopMemory

def Aliasing.Apart (aliases : Aliasing) (A : Location → Prop) : Prop :=
  ∀ l k, A l → A k → l ≠ k → aliases l k = .none ∧ l.covers k = false

namespace Aliasing.Apart
variable {aliases : Aliasing} {A W : Location → Prop} {s : LocationSet} {l : Location}
  {x : Reaching} {f : Footprint} (h : aliases.Apart A)
include h

theorem mem_of_meets (hs : ∀ k ∈ s, A k) (hl : A l) (hm : s.meets aliases l = true) : l ∈ s := by
  obtain ⟨k, hk, hm⟩ := SortedSet.meets_iff.1 hm
  by_cases hkl : k = l
  · exact hkl ▸ hk
  · simp [Aliasing.meets, (h k l (hs k hk) hl hkl).1, Overlap.meets] at hm

theorem covers_set_iff (hs : ∀ k ∈ s, A k) (hl : A l) : s.covers l = true ↔ l ∈ s := by
  rw [SortedSet.covers_iff]
  constructor
  · rintro ⟨k, hk, hc⟩
    by_cases hkl : k = l
    · exact hkl ▸ hk
    · simp [(h k l (hs k hk) hl hkl).2] at hc
  · exact fun hl => ⟨l, hl, l.covers_refl⟩

theorem covers_must_iff (hx : x.Within A W) (hl : A l) :
    x.must.covers l = true ↔ x.must.isFull = false ∧ l ∈ x.must := by
  rw [Reach.covers_iff]
  refine and_congr_right fun hfull => ⟨?_, fun hl => ⟨l, hl, l.covers_refl⟩⟩
  rintro ⟨k, hk, hc⟩
  by_cases hkl : k = l
  · exact hkl ▸ hk
  · simp [(h k l (hx.must hfull k hk) hl hkl).2] at hc

theorem mem_must_transfer_iff (hx : x.Within A W) (hd : ∀ k ∈ f.defs, A k) :
    l ∈ (x.transfer aliases f).must ↔
      l ∈ f.defs ∨ (f.hasUnknownWrites = false ∧ l ∈ x.must) := by
  rw [Reaching.mem_must_transfer]
  constructor
  · exact fun hl => hl.imp_right fun hl => ⟨hl.1, hl.2.1⟩
  · rintro (hl | ⟨hw, hl⟩)
    · exact .inl hl
    cases hfull : x.must.isFull with
    | true => exact .inr ⟨hw, hl, .inl rfl⟩
    | false =>
      cases hm : f.defs.meets aliases l with
      | true => exact .inl (h.mem_of_meets hd (hx.must hfull l hl) hm)
      | false => exact .inr ⟨hw, hl, .inr rfl⟩

end Aliasing.Apart
end LoopMemory
