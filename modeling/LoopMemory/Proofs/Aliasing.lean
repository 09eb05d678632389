import LoopMemory.Aliasing
import Mathlib.Order.MinMax

/-! Whether two locations may share a byte does not depend on which comes first. -/
namespace LoopMemory

/-- Each location meets itself, and two of them meet whichever comes first. -/
structure Aliasing.Regular (aliases : Aliasing) : Prop where
  refl : ∀ a, aliases.meets a a = true
  comm : ∀ a b, aliases.meets a b = aliases.meets b a

theorem Aliasing.meets_eq_false {aliases : Aliasing} {a b : Location} :
    aliases.meets a b = false ↔ aliases a b = .none := by
  simp [Aliasing.meets, Overlap.meets]

namespace AliasModel

theorem basesMeet_comm (m : AliasModel) (a b : Base) : m.basesMeet a b = m.basesMeet b a := by
  simp only [basesMeet, min_comm a b, max_comm a b, Bool.or_assoc,
    Bool.or_comm (m.wild.contains a)]

/- Only which bases are paired matters, not the order of the pairs. -/
theorem overlap_congr {m m' : AliasModel} (hw : m'.wild = m.wild)
    (hp : ∀ pair, pair ∈ m'.pairs ↔ pair ∈ m.pairs) : m'.overlap = m.overlap := by
  have hmeet : m'.basesMeet = m.basesMeet := by
    funext b c
    have hpair : m'.pairs.contains (min b c, max b c) = m.pairs.contains (min b c, max b c) := by
      rw [Bool.eq_iff_iff, List.contains_iff_mem, List.contains_iff_mem, hp]
    rw [basesMeet, basesMeet, hpair, hw]
  funext a b
  rw [overlap, overlap, hmeet]

theorem meets_comm (m : AliasModel) (a b : Location) :
    m.overlap.meets a b = m.overlap.meets b a := by
  have ht : tagsDiffer a b = tagsDiffer b a := by
    unfold tagsDiffer
    cases a.tag <;> cases b.tag <;> simp [bne_comm]
  have hend : (endsBefore a b || endsBefore b a) = (endsBefore b a || endsBefore a b) :=
    Bool.or_comm ..
  simp only [Aliasing.meets, overlap, ht, m.basesMeet_comm a.base, hend, eq_comm (a := a.offset),
    eq_comm (a := a.size), ne_eq, eq_comm (a := a.base)]

theorem regular (m : AliasModel) : m.overlap.Regular where
  refl a := by
    have htags : tagsDiffer a a = false := by
      unfold tagsDiffer
      cases a.tag <;> simp
    simp [Aliasing.meets, overlap, htags, Overlap.meets]
  comm := m.meets_comm

end AliasModel
end LoopMemory
