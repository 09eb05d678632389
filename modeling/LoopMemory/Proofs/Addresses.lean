import LoopMemory.Proofs.Aliasing
import Mathlib.Data.Set.Defs

/-! The addresses of a location, and what coverage and overlap say about them. Both decisions go by
the stop. It is exact except where a size is itself no offset: such a range may begin so far below
zero that it ends before the last address, and yet its stop is not known. -/
namespace LoopMemory

/-- Tags that do not tell two locations apart: they are equal, or one of them is missing. -/
def Location.Compatible (a b : Location) : Prop := a.tag = b.tag ∨ a.tag = none ∨ b.tag = none

instance (a b : Location) : Decidable (a.Compatible b) := inferInstanceAs (Decidable (_ ∨ _))

namespace Location
variable {a b l : Location} {p q : Int64} {e : Int}

/-- The addresses of the bytes of a location. The end is summed up without any bound, and without a
known size the bytes go on to the last address. -/
def addresses (l : Location) : Set Int64 :=
  {p | l.offset.toInt ≤ p.toInt ∧ ∀ n, l.size = .bytes n → p.toInt < l.offset.toInt + n.toNat}

/-- The locations have no address in common. -/
def Separate (a b : Location) : Prop := ∀ p ∈ a.addresses, p ∉ b.addresses

/-- The size is no offset, although the range ends before the last address. -/
def HidesEnd (l : Location) : Prop :=
  ∃ n, l.size = .bytes n ∧ Int64.maxValue.toInt < n.toNat ∧
    l.offset.toInt + n.toNat ≤ Int64.maxValue.toInt

theorem exists_address (hmin : Int64.minValue.toInt ≤ e) (hmax : e ≤ Int64.maxValue.toInt) :
    ∃ p : Int64, p.toInt = e := by
  rw [Int64.toInt_minValue] at hmin
  rw [Int64.toInt_maxValue] at hmax
  exact ⟨.ofInt e, Int64.toInt_ofInt_of_le hmin (by omega)⟩

theorem offset_mem (h : l.size ≠ .bytes 0) : l.offset ∈ l.addresses := by
  refine ⟨Int.le_refl _, fun n hn => ?_⟩
  have hpos : n.toNat ≠ 0 := by
    intro h0
    have hz : n = 0 := UInt64.toNat_inj.1 h0
    exact h (hz ▸ hn)
  omega

/-- The addresses have no gaps. -/
theorem mem_of_le (hp : p ∈ l.addresses) (ho : l.offset.toInt ≤ q.toInt)
    (hq : q.toInt ≤ p.toInt) : q ∈ l.addresses :=
  ⟨ho, fun n hn => Int.lt_of_le_of_lt hq (hp.2 n hn)⟩

theorem size_ne_zero_of_mem (hp : p ∈ l.addresses) : l.size ≠ .bytes 0 := by
  intro h0
  have hlow := hp.1
  have hlast := hp.2 0 h0
  simp only [UInt64.toNat_zero, Int.natCast_zero] at hlast
  omega

/- What the stop says. -/

theorem stop_eq_some : l.stop = some e ↔ ∃ n, l.size = .bytes n ∧
    (n.toNat : Int) ≤ Int64.maxValue.toInt ∧ l.offset.toInt + n.toNat = e ∧
      e ≤ Int64.maxValue.toInt := by
  unfold stop
  cases l.size with
  | unknown => simp
  | bytes n =>
    simp only [Extent.bytes.injEq, exists_eq_left']
    split
    · rename_i h
      constructor
      · intro he
        cases he
        exact ⟨h.1, rfl, h.2⟩
      · intro he
        rw [he.2.1]
    · rename_i h
      refine iff_of_false (by simp) fun he => h ⟨he.1, ?_⟩
      rw [he.2.1]
      exact he.2.2

theorem mem_of_stop (h : l.stop = some e) :
    p ∈ l.addresses ↔ l.offset.toInt ≤ p.toInt ∧ p.toInt < e := by
  obtain ⟨n, hn, -, he, -⟩ := stop_eq_some.1 h
  refine and_congr_right fun _ => ?_
  rw [← he, hn]
  constructor
  · intro hp
    exact hp n rfl
  · intro hp k hk
    cases hk
    exact hp

theorem mem_of_no_stop (h : l.stop = none) (hh : ¬l.HidesEnd) :
    p ∈ l.addresses ↔ l.offset.toInt ≤ p.toInt := by
  refine and_iff_left fun n hn => ?_
  have hlast := p.toInt_le
  by_contra hp
  have hend : l.offset.toInt + n.toNat ≤ Int64.maxValue.toInt := by omega
  have hsize : (n.toNat : Int) ≤ Int64.maxValue.toInt := by
    by_contra hlong
    exact hh ⟨n, hn, by omega, hend⟩
  rw [stop_eq_some.2 ⟨n, hn, hsize, rfl, hend⟩] at h
  cases h

theorem HidesEnd.stop (h : l.HidesEnd) : l.stop = none := by
  obtain ⟨n, hn, hlong, -⟩ := h
  cases hs : l.stop with
  | none => rfl
  | some e =>
    obtain ⟨k, hk, hshort, -⟩ := stop_eq_some.1 hs
    rw [hn] at hk
    cases hk
    omega

theorem not_hidesEnd (h : l.stop = some e) : ¬l.HidesEnd := by
  intro hh
  rw [hh.stop] at h
  cases h

/- Without a stop the bytes reach the last address, or at least further than those of any location
   with a stop that begins no later. -/
theorem exists_far (h : l.stop = none) : ∃ p ∈ l.addresses,
    Int64.maxValue.toInt ≤ p.toInt ∨ l.offset.toInt + Int64.maxValue.toInt ≤ p.toInt := by
  by_cases hh : l.HidesEnd
  · obtain ⟨n, hn, hlong, hend⟩ := hh
    have hmin := l.offset.minValue_le_toInt
    have hmax := Int64.toInt_maxValue
    obtain ⟨p, hp⟩ := exists_address (e := l.offset.toInt + n.toNat - 1) (by omega) (by omega)
    refine ⟨p, ⟨by omega, fun k hk => ?_⟩, .inr (by omega)⟩
    rw [hn] at hk
    cases hk
    omega
  · exact ⟨.maxValue, (mem_of_no_stop h hh).2 l.offset.toInt_le, .inl (Int.le_refl _)⟩

theorem size_ne_zero_of_no_stop (h : l.stop = none) : l.size ≠ .bytes 0 := by
  obtain ⟨p, hp, -⟩ := exists_far h
  exact size_ne_zero_of_mem hp

theorem not_subset_of_stop (ha : a.stop = some e) (hb : b.stop = none) :
    ¬b.addresses ⊆ a.addresses := by
  intro h
  obtain ⟨n, -, hsize, he, hmax⟩ := stop_eq_some.1 ha
  obtain ⟨p, hp, hfar⟩ := exists_far hb
  have hfirst := ((mem_of_stop ha).1 (h (offset_mem (size_ne_zero_of_no_stop hb)))).1
  have hlast := ((mem_of_stop ha).1 (h hp)).2
  omega

/- Coverage. -/

theorem subset_iff_of_stop {s t : Int} (hb : b.size ≠ .bytes 0) (ha : a.stop = some s)
    (ht : b.stop = some t) : b.addresses ⊆ a.addresses ↔ a.offset ≤ b.offset ∧ t ≤ s := by
  rw [Int64.le_iff_toInt_le]
  have hfirst := offset_mem hb
  constructor
  · intro h
    have hlow := ((mem_of_stop ht).1 hfirst).2
    have hmin := b.offset.minValue_le_toInt
    obtain ⟨-, -, -, -, hmax⟩ := stop_eq_some.1 ht
    obtain ⟨p, hp⟩ := exists_address (e := t - 1) (by omega) (by omega)
    have hlast : p ∈ b.addresses := (mem_of_stop ht).2 (by omega)
    have hpa := (mem_of_stop ha).1 (h hlast)
    exact ⟨((mem_of_stop ha).1 (h hfirst)).1, by omega⟩
  · intro h p hp
    have hpb := (mem_of_stop ht).1 hp
    exact (mem_of_stop ha).2 (by omega)

/-- A location covers another one on its base just where it has all of its addresses, or hides its
end and begins no later. -/
theorem covers_iff_addresses (hb : b.size ≠ .bytes 0) : a.covers b = true ↔ a.base = b.base ∧
    (b.addresses ⊆ a.addresses ∨ a.HidesEnd ∧ a.offset ≤ b.offset) := by
  simp only [covers, Bool.and_eq_true, beq_iff_eq, decide_eq_true_eq, and_assoc]
  refine and_congr_right fun _ => ?_
  have hfirst := offset_mem hb
  cases ha : a.stop with
  | none =>
    simp only [and_true]
    by_cases hh : a.HidesEnd
    · constructor
      · intro ho
        exact .inr ⟨hh, ho⟩
      · intro h
        cases h with
        | inl h => exact Int64.le_iff_toInt_le.2 (h hfirst).1
        | inr h => exact h.2
    · rw [or_iff_left fun h => hh h.1, Int64.le_iff_toInt_le]
      constructor
      · intro ho p hp
        exact (mem_of_no_stop ha hh).2 (Int.le_trans ho hp.1)
      · intro h
        exact (h hfirst).1
  | some s =>
    rw [or_iff_left fun h => not_hidesEnd ha h.1]
    cases hs : b.stop with
    | none => simp [not_subset_of_stop ha hs]
    | some t => simp only [decide_eq_true_eq, subset_iff_of_stop hb ha hs]

theorem size_ne_zero_of_covers (hb : b.size ≠ .bytes 0) (h : a.covers b = true) :
    a.size ≠ .bytes 0 := by
  cases ((covers_iff_addresses hb).1 h).2 with
  | inl hsub => exact size_ne_zero_of_mem (hsub (offset_mem hb))
  | inr hh => exact size_ne_zero_of_no_stop hh.1.stop

end Location

namespace AliasModel
open Location
variable {m : AliasModel} {a b : Location}

theorem tagsDiffer_eq_false_iff : tagsDiffer a b = false ↔ a.Compatible b := by
  unfold tagsDiffer Compatible
  cases a.tag <;> cases b.tag <;> simp

theorem endsBefore_iff (ha : a.size ≠ .bytes 0) : endsBefore a b = true ↔
    ¬a.HidesEnd ∧ ∀ p ∈ a.addresses, p.toInt < b.offset.toInt := by
  unfold endsBefore
  cases hs : a.stop with
  | none =>
    refine iff_of_false (by simp) fun h => ?_
    have hlast := h.2 .maxValue ((mem_of_no_stop hs h.1).2 a.offset.toInt_le)
    have hmax := b.offset.toInt_le
    omega
  | some e =>
    simp only [decide_eq_true_eq]
    constructor
    · intro he
      exact ⟨not_hidesEnd hs, fun p hp => Int.lt_of_lt_of_le ((mem_of_stop hs).1 hp).2 he⟩
    · intro h
      have hfirst := (mem_of_stop hs).1 (offset_mem ha)
      have hmin := a.offset.minValue_le_toInt
      obtain ⟨-, -, -, -, hmax⟩ := stop_eq_some.1 hs
      obtain ⟨p, hp⟩ := exists_address (e := e - 1) (by omega) (by omega)
      have hlast := h.2 p ((mem_of_stop hs).2 (by omega))
      omega

/- Two ranges without gaps are separate just where one of them ends before the other begins. -/
theorem separate_iff_before (ha : a.size ≠ .bytes 0) (hb : b.size ≠ .bytes 0) :
    a.Separate b ↔ (∀ p ∈ a.addresses, p.toInt < b.offset.toInt) ∨
      ∀ p ∈ b.addresses, p.toInt < a.offset.toInt := by
  constructor
  · intro h
    by_cases ho : a.offset.toInt ≤ b.offset.toInt
    · refine .inl fun p hp => ?_
      by_contra hle
      exact h b.offset (mem_of_le hp ho (by omega)) (offset_mem hb)
    · refine .inr fun p hp => ?_
      by_contra hle
      exact h a.offset (offset_mem ha) (mem_of_le hp (by omega) (by omega))
  · intro h p hpa hpb
    cases h with
    | inl h =>
      have hlt := h p hpa
      have hge := hpb.1
      omega
    | inr h =>
      have hlt := h p hpb
      have hge := hpa.1
      omega

theorem endsBefore_lt (ha : a.size ≠ .bytes 0) (h : endsBefore a b = true) :
    a.offset.toInt < b.offset.toInt :=
  ((endsBefore_iff ha).1 h).2 a.offset (offset_mem ha)

theorem overlap_eq_none_iff (ha : a.size ≠ .bytes 0) (hb : b.size ≠ .bytes 0)
    (hbase : a.base = b.base) (ht : a.Compatible b) :
    m.overlap a b = .none ↔ endsBefore a b = true ∨ endsBefore b a = true := by
  simp only [overlap, tagsDiffer_eq_false_iff.2 ht, Bool.false_eq_true, if_false, ne_eq, hbase,
    not_true_eq_false]
  by_cases hsame : a.offset = b.offset ∧ a.size = b.size
  · rw [if_pos hsame]
    refine iff_of_false (by simp) fun h => ?_
    have heq := congrArg Int64.toInt hsame.1
    cases h with
    | inl h =>
      have hlt := endsBefore_lt ha h
      omega
    | inr h =>
      have hlt := endsBefore_lt hb h
      omega
  · rw [if_neg hsame, ← Bool.or_eq_true]
    cases endsBefore a b || endsBefore b a <;> simp

/-- Two locations on one base, whose tags do not tell them apart, are kept apart just where they
share no address and the one that begins first does not hide its end. -/
theorem overlap_eq_none_iff_addresses (ha : a.size ≠ .bytes 0) (hb : b.size ≠ .bytes 0)
    (hbase : a.base = b.base) (ht : a.Compatible b) : m.overlap a b = .none ↔
      a.Separate b ∧ ¬(a.HidesEnd ∧ a.offset ≤ b.offset) ∧
        ¬(b.HidesEnd ∧ b.offset ≤ a.offset) := by
  rw [overlap_eq_none_iff ha hb hbase ht, separate_iff_before ha hb, Int64.le_iff_toInt_le,
    Int64.le_iff_toInt_le]
  constructor
  · intro h
    cases h with
    | inl h =>
      obtain ⟨hh, hlast⟩ := (endsBefore_iff ha).1 h
      have hlt := endsBefore_lt ha h
      exact ⟨.inl hlast, fun hk => hh hk.1, fun hk => by omega⟩
    | inr h =>
      obtain ⟨hh, hlast⟩ := (endsBefore_iff hb).1 h
      have hlt := endsBefore_lt hb h
      exact ⟨.inr hlast, fun hk => by omega, fun hk => hh hk.1⟩
  · intro h
    obtain ⟨hbefore, hh, hh'⟩ := h
    cases hbefore with
    | inl hlast =>
      have hlt := hlast a.offset (offset_mem ha)
      exact .inl ((endsBefore_iff ha).2 ⟨fun hk => hh ⟨hk, by omega⟩, hlast⟩)
    | inr hlast =>
      have hlt := hlast b.offset (offset_mem hb)
      exact .inr ((endsBefore_iff hb).2 ⟨fun hk => hh' ⟨hk, by omega⟩, hlast⟩)

theorem overlap_of_not_compatible (h : ¬a.Compatible b) : m.overlap a b = .none := by
  rw [← tagsDiffer_eq_false_iff, Bool.not_eq_false] at h
  rw [overlap, if_pos h]

/-- What covers a location that is not empty is kept apart from it just where the tags tell the two
apart: the bytes alone never do. -/
theorem overlap_eq_none_iff_of_covers (hb : b.size ≠ .bytes 0) (h : a.covers b = true) :
    m.overlap a b = .none ↔ ¬a.Compatible b := by
  obtain ⟨hbase, hreach⟩ := (covers_iff_addresses hb).1 h
  have ha := size_ne_zero_of_covers hb h
  constructor
  · intro hnone hc
    obtain ⟨hapart, hshown, -⟩ := (overlap_eq_none_iff_addresses ha hb hbase hc).1 hnone
    cases hreach with
    | inl hsub => exact hapart b.offset (hsub (offset_mem hb)) (offset_mem hb)
    | inr hh => exact hshown hh
  · exact overlap_of_not_compatible

/-- Coverage and overlap are exact on addresses, but for locations that hide their end: each of
these is taken to go on to the last address. -/
theorem exact_on_addresses (m : AliasModel) (a b : Location) (hb : b.size ≠ .bytes 0) :
    (a.covers b = true ↔ a.base = b.base ∧
      (b.addresses ⊆ a.addresses ∨ a.HidesEnd ∧ a.offset ≤ b.offset)) ∧
    (a.size ≠ .bytes 0 → a.base = b.base → a.Compatible b →
      (m.overlap a b = .none ↔ a.Separate b ∧
        ¬(a.HidesEnd ∧ a.offset ≤ b.offset) ∧ ¬(b.HidesEnd ∧ b.offset ≤ a.offset))) := by
  constructor
  · exact covers_iff_addresses hb
  · intro ha hbase ht
    exact overlap_eq_none_iff_addresses ha hb hbase ht

/-- The last three addresses, and five more that no offset reaches. -/
def nearEnd : Location := ⟨1, 9223372036854775805, .bytes 8, none⟩

def nextToLast : Location := ⟨1, 9223372036854775806, .bytes 1, none⟩

theorem exact_on_addresses_nearEnd : nextToLast.size ≠ .bytes 0 ∧
    nextToLast.addresses ⊆ nearEnd.addresses ∧
      ¬nearEnd.Separate nextToLast := by
  have hsize : nextToLast.size ≠ .bytes 0 := by decide
  obtain ⟨hcovers, hoverlap⟩ := exact_on_addresses {} nearEnd nextToLast hsize
  have hnear : ¬nearEnd.HidesEnd := by
    intro ⟨n, hn, hlong, _⟩
    cases hn
    exact absurd hlong (by decide)
  have hnext : ¬nextToLast.HidesEnd :=
    not_hidesEnd (e := 9223372036854775807) (by decide)
  refine ⟨hsize, ?_, fun hapart => ?_⟩
  · exact (hcovers.1 (by decide)).2.resolve_right fun h => hnear h.1
  · have hnone := (hoverlap (by decide) rfl (.inl rfl)).2
      ⟨hapart, fun h => hnear h.1, fun h => hnext h.1⟩
    exact absurd hnone (by decide)

/-- All addresses below zero. -/
def belowZero : Location := ⟨1, Int64.minValue, .bytes 9223372036854775808, none⟩

def fromZero : Location := ⟨1, 0, .bytes 8, none⟩

/-- Neither decision sees where the addresses below zero end. -/
theorem inexact_belowZero : fromZero.size ≠ .bytes 0 ∧ belowZero.size ≠ .bytes 0 ∧
    belowZero.base = fromZero.base ∧ belowZero.Compatible fromZero ∧
    ¬(belowZero.covers fromZero = true ↔ belowZero.base = fromZero.base ∧
      fromZero.addresses ⊆ belowZero.addresses) ∧
    ¬(overlap {} belowZero fromZero = .none ↔ belowZero.Separate fromZero) := by
  have hend : ∀ p ∈ belowZero.addresses, p.toInt < 0 := fun p hp => hp.2 9223372036854775808 rfl
  refine ⟨by decide, by decide, rfl, .inl rfl, fun h => ?_, fun h => ?_⟩
  · have hzero : (0 : Int64) ∈ belowZero.addresses :=
      (h.1 (by decide)).2 (offset_mem (l := fromZero) (by decide))
    exact absurd (hend 0 hzero) (by decide)
  · have hapart : belowZero.Separate fromZero := by
      intro p hp hp'
      have hneg := hend p hp
      have hpos : (0 : Int) ≤ p.toInt := hp'.1
      omega
    exact absurd (h.2 hapart) (by decide)

end AliasModel
end LoopMemory
