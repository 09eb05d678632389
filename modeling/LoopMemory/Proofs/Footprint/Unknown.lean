import LoopMemory.Footprint
import Mathlib.Order.Bounds.Basic

/-! Instructions of unknown effect, each with the strongest of what was recorded for it. -/
namespace LoopMemory

namespace Assurance

def rank : Assurance → Nat
  | no => 0
  | may => 1
  | must => 2

theorem rank_injective : Function.Injective rank := by
  intro a b h
  cases a <;> cases b <;> simp [rank] at h ⊢

instance : LinearOrder Assurance := LinearOrder.lift' rank rank_injective

theorem max_eq (a b : Assurance) : a.max b = Max.max a b := by
  cases a <;> cases b <;> decide

theorem isAny_mono {a b : Assurance} (h : a ≤ b) (ha : a.isAny = true) : b.isAny = true := by
  revert h ha
  cases a <;> cases b <;> decide

end Assurance

/- On either side the surest of a set of accesses. -/
structure UnknownAccess.Strongest (s : Set UnknownAccess) (u : UnknownAccess) : Prop where
  read : IsGreatest (UnknownAccess.read '' s) u.read
  write : IsGreatest (UnknownAccess.write '' s) u.write

namespace UnknownAccess
variable {s t : Set UnknownAccess} {u v : UnknownAccess} {o o' : Option UnknownAccess}

theorem strongest_singleton (u : UnknownAccess) : Strongest {u} u := by
  constructor <;> rw [Set.image_singleton] <;> exact isGreatest_singleton

theorem Strongest.union (hu : Strongest s u) (hv : Strongest t v) :
    Strongest (s ∪ t) (u.max v) := by
  constructor
  · simp only [max, Assurance.max_eq, Set.image_union]
    exact hu.read.union hv.read
  · simp only [max, Assurance.max_eq, Set.image_union]
    exact hu.write.union hv.write

theorem Strongest.unique (hu : Strongest s u) (hv : Strongest s v) : u = v := by
  obtain ⟨ur, uw⟩ := u
  obtain ⟨vr, vw⟩ := v
  rw [show ur = vr from hu.read.unique hv.read, show uw = vw from hu.write.unique hv.write]

theorem Strongest.nonempty (h : Strongest s u) : s.Nonempty := Set.image_nonempty.1 h.read.nonempty

/-- The strongest access, if there is any access at all. -/
def Peak (s : Set UnknownAccess) : Option UnknownAccess → Prop
  | none => s = ∅
  | some u => Strongest s u

theorem Peak.union (h : Peak s o) (h' : Peak t o') : Peak (s ∪ t) (o.merge max o') := by
  cases o with
  | none =>
    have hs : s = ∅ := h
    rw [hs, Set.empty_union]
    cases o' <;> exact h'
  | some u =>
    cases o' with
    | none =>
      have ht : t = ∅ := h'
      rw [ht, Set.union_empty]
      exact h
    | some v => exact Strongest.union h h'

theorem Peak.eq_some_iff (h : Peak s o) : o = some u ↔ Strongest s u := by
  constructor
  · rintro rfl
    exact h
  · intro hu
    cases o with
    | none =>
      have hs : s = ∅ := h
      exact absurd hu.nonempty (by simp [hs])
    | some v => exact congrArg some (Strongest.unique h hu)

theorem Peak.unique (h : Peak s o) (h' : Peak s o') : o = o' := by
  cases o' with
  | none =>
    obtain rfl : s = ∅ := h'
    cases o with
    | none => rfl
    | some u => exact absurd (Strongest.nonempty h) (by simp)
  | some v => exact h.eq_some_iff.2 h'

theorem Peak.exists_of_some (h : Peak s o) (ho : o = some u) : ∃ v, v ∈ s :=
  (h.eq_some_iff.1 ho).nonempty

theorem Peak.eq_some_of_mem (h : Peak s o) (hu : u ∈ s) : ∃ v, o = some v := by
  cases o with
  | none =>
    have hs : s = ∅ := h
    simp [hs] at hu
  | some v => exact ⟨v, rfl⟩

end UnknownAccess

namespace UnknownInsts
variable {us vs : UnknownInsts} {i j : Inst} {u v : UnknownAccess}

/-- Every instruction stands in its place, and so at most once. -/
def Ordered (us : UnknownInsts) : Prop := us.Pairwise fun a b => a.1 < b.1

theorem ordered_nil : Ordered [] := List.Pairwise.nil

theorem mem_record {e : Inst × UnknownAccess} (h : e ∈ record i u us) :
    e.1 = i ∨ ∃ d ∈ us, e.1 = d.1 := by
  induction us with
  | nil => exact .inl (congrArg Prod.fst (List.mem_singleton.1 h))
  | cons d us ih =>
    obtain ⟨k, w⟩ := d
    rw [record] at h
    split at h
    · rcases List.mem_cons.1 h with rfl | h
      · exact .inl rfl
      · exact .inr ⟨e, h, rfl⟩
    · split at h
      · rename_i hik
        rcases List.mem_cons.1 h with rfl | h
        · exact .inl hik.symm
        · exact .inr ⟨e, .tail _ h, rfl⟩
      · rcases List.mem_cons.1 h with rfl | h
        · exact .inr ⟨_, .head _, rfl⟩
        · exact (ih h).imp_right fun ⟨d, hd, he⟩ => ⟨d, .tail _ hd, he⟩

theorem Ordered.record (h : us.Ordered) (i : Inst) (u : UnknownAccess) :
    Ordered (record i u us) := by
  induction us with
  | nil => exact List.pairwise_singleton ..
  | cons d us ih =>
    obtain ⟨k, w⟩ := d
    obtain ⟨hk, hus⟩ := List.pairwise_cons.1 h
    rw [UnknownInsts.record]
    split
    · rename_i hik
      refine List.pairwise_cons.2 ⟨fun e he => ?_, h⟩
      rcases List.mem_cons.1 he with rfl | he
      · exact hik
      · exact hik.trans (hk e he)
    · split
      · exact List.pairwise_cons.2 ⟨hk, hus⟩
      · rename_i hik hne
        refine List.pairwise_cons.2 ⟨fun e he => ?_, ih hus⟩
        rcases mem_record he with he | ⟨d, hd, he⟩
        · rw [he]
          exact lt_of_le_of_ne (not_lt.1 hik) (Ne.symm hne)
        · rw [he]
          exact hk d hd

theorem lookup_cons : List.lookup j ((i, u) :: us) = if j = i then some u else us.lookup j := by
  by_cases h : j = i
  · simp [h]
  · rw [List.lookup_cons, beq_false_of_ne h, if_neg h]

theorem lookup_eq_none (h : ∀ e ∈ us, i < e.1) : us.lookup i = none := by
  rw [List.lookup_eq_none_iff]
  intro e he
  simpa using (h e he).ne

theorem lookup_record (h : us.Ordered) : (record i u us).lookup j =
    if j = i then (us.lookup i).merge UnknownAccess.max (some u) else us.lookup j := by
  induction us with
  | nil =>
    rw [record, lookup_cons]
    simp
  | cons d us ih =>
    obtain ⟨k, w⟩ := d
    obtain ⟨hk, hus⟩ := List.pairwise_cons.1 h
    rw [record]
    split
    · rename_i hik
      have hnone : List.lookup i ((k, w) :: us) = none := by
        refine lookup_eq_none fun e he => ?_
        rcases List.mem_cons.1 he with rfl | he
        · exact hik
        · exact hik.trans (hk e he)
      rw [lookup_cons, hnone]
      simp
    · split
      · rename_i hik
        obtain rfl := hik
        simp only [lookup_cons]
        split <;> simp
      · rename_i hne
        simp only [lookup_cons, ih hus, if_neg hne]
        by_cases hj : j = i
        · rw [hj, if_neg hne]
          simp
        · simp [hj]

/-- What one list has joins what the other one has. -/
theorem lookup_foldl_record (h : us.Ordered) (hv : vs.Ordered) :
    Ordered (vs.foldl (fun us v => record v.1 v.2 us) us) ∧
      ∀ j, (vs.foldl (fun us v => record v.1 v.2 us) us).lookup j =
        (us.lookup j).merge UnknownAccess.max (vs.lookup j) := by
  induction vs generalizing us with
  | nil => exact ⟨h, fun j => by simp⟩
  | cons d vs ih =>
    obtain ⟨k, w⟩ := d
    obtain ⟨hk, hvs⟩ := List.pairwise_cons.1 hv
    obtain ⟨hord, hlook⟩ := ih (h.record k w) hvs
    refine ⟨hord, fun j => ?_⟩
    rw [List.foldl_cons, hlook, lookup_record h, lookup_cons]
    by_cases hj : j = k
    · rw [hj, if_pos rfl, if_pos rfl, lookup_eq_none hk]
      simp
    · rw [if_neg hj, if_neg hj]

theorem Ordered.mem_iff (h : us.Ordered) : (i, u) ∈ us ↔ us.lookup i = some u := by
  induction us with
  | nil => simp
  | cons d us ih =>
    obtain ⟨k, w⟩ := d
    obtain ⟨hk, hus⟩ := List.pairwise_cons.1 h
    rw [List.mem_cons, ih hus, lookup_cons]
    by_cases hi : i = k
    · rw [hi, if_pos rfl, lookup_eq_none hk]
      simp [eq_comm (a := u)]
    · simp [hi]

end UnknownInsts
end LoopMemory
