import LoopMemory.Reaching
import Mathlib.Data.List.Perm.Subperm

/-! The order of data-flow values. A lower value promises fewer definitions and admits more. -/
namespace LoopMemory

namespace Location

theorem covers_refl (l : Location) : l.covers l = true := by
  cases h : l.stop <;> simp [covers, h]

theorem covers_trans {a b c : Location} (h : a.covers b = true) (k : b.covers c = true) :
    a.covers c = true := by
  simp only [covers, Bool.and_eq_true, beq_iff_eq, decide_eq_true_eq] at h k ⊢
  obtain ⟨⟨hb, ho⟩, hs⟩ := h
  obtain ⟨⟨kb, ko⟩, ks⟩ := k
  refine ⟨⟨hb.trans kb, Int64.le_trans ho ko⟩, ?_⟩
  cases ha : a.stop with
  | none => rfl
  | some s =>
    cases hc : b.stop with
    | none => simp [ha, hc] at hs
    | some t =>
      cases hd : c.stop with
      | none => simp [hc, hd] at ks
      | some u =>
        simp only [ha, hc, hd, decide_eq_true_eq] at hs ks ⊢
        omega

end Location

namespace SortedSet

theorem covers_iff {s : LocationSet} {l : Location} :
    s.covers l = true ↔ ∃ m ∈ s, m.covers l = true := by
  simp [covers, List.any_eq_true, mem_toList]

theorem meets_iff {s : LocationSet} {aliases : Aliasing} {l : Location} :
    s.meets aliases l = true ↔ ∃ m ∈ s, aliases.meets m l = true := by
  simp [meets, List.any_eq_true, mem_toList]

theorem meets_eq_false_iff {s : LocationSet} {aliases : Aliasing} {l : Location} :
    s.meets aliases l = false ↔ ∀ m ∈ s, aliases.meets m l = false := by
  simp [meets, List.any_eq_false, mem_toList]

variable {α : Type} [Keyed α]

theorem nodup (s : SortedSet α) : s.toList.Nodup := by
  refine s.ascending.imp ?_
  rintro a _ h rfl
  exact Keyed.not_before_self a h

theorem size_le {s t : SortedSet α} (h : s ⊆ t) : s.size ≤ t.size :=
  (s.nodup.subperm h).length_le

theorem eq_of_subset_of_size_le {s t : SortedSet α} (h : s ⊆ t) (hs : t.size ≤ s.size) : s = t := by
  have hp := (s.nodup.subperm h).perm_of_length_le hs
  exact ext fun a => hp.mem_iff

end SortedSet

namespace Reach

instance : Membership Location Reach := ⟨fun r l => r.contains l = true⟩

instance (r : Reach) (l : Location) : Decidable (l ∈ r) :=
  inferInstanceAs (Decidable (r.contains l = true))

@[simp] theorem mem_full (l : Location) : l ∈ full := rfl

@[simp] theorem mem_only {l : Location} {s : LocationSet} : l ∈ only s ↔ l ∈ s := by
  change decide (l ∈ s) = true ↔ _
  simp

@[simp] theorem isFull_full : full.isFull = true := rfl

@[simp] theorem isFull_only (s : LocationSet) : (only s).isFull = false := rfl

@[simp] theorem isFull_empty : empty.isFull = false := rfl

@[simp] theorem not_mem_empty (l : Location) : ¬l ∈ empty := by
  simp [empty]

/- Membership and fullness together are the view: each operation says what it does to them. -/

@[simp] theorem mem_inter {r s : Reach} {l : Location} : l ∈ r.inter s ↔ l ∈ r ∧ l ∈ s := by
  cases r <;> cases s <;> simp [inter]

@[simp] theorem isFull_inter (r s : Reach) : (r.inter s).isFull = (r.isFull && s.isFull) := by
  cases r <;> cases s <;> rfl

@[simp] theorem mem_union {r s : Reach} {l : Location} : l ∈ r.union s ↔ l ∈ r ∨ l ∈ s := by
  cases r <;> cases s <;> simp [union]

@[simp] theorem isFull_union (r s : Reach) : (r.union s).isFull = (r.isFull || s.isFull) := by
  cases r <;> cases s <;> rfl

@[simp] theorem mem_insertAll {r : Reach} {t : LocationSet} {l : Location} :
    l ∈ r.insertAll t ↔ l ∈ r ∨ l ∈ t := by
  cases r <;> simp [insertAll]

@[simp] theorem isFull_insertAll (r : Reach) (t : LocationSet) :
    (r.insertAll t).isFull = r.isFull := by
  cases r <;> rfl

theorem mem_kill {r : Reach} {aliases : Aliasing} {defs : LocationSet} {l : Location} :
    l ∈ r.kill aliases defs ↔
      l ∈ r ∧ (r.isFull = true ∨ l ∈ defs ∨ defs.meets aliases l = false) := by
  cases r <;> simp [kill]

@[simp] theorem isFull_kill (r : Reach) (aliases : Aliasing) (defs : LocationSet) :
    (r.kill aliases defs).isFull = r.isFull := by
  cases r <;> rfl

theorem covers_iff {r : Reach} {l : Location} :
    r.covers l = true ↔ r.isFull = false ∧ ∃ m ∈ r, m.covers l = true := by
  cases r with
  | full => simp [covers]
  | only s => simp [covers, SortedSet.covers_iff]

theorem ext {r s : Reach} (hf : r.isFull = s.isFull) (h : ∀ l, l ∈ r ↔ l ∈ s) : r = s := by
  cases r with
  | full =>
    cases s with
    | full => rfl
    | only s => simp at hf
  | only r =>
    cases s with
    | full => simp at hf
    | only s => exact congrArg only (SortedSet.ext fun l => by simpa using h l)

instance : LE Reach := ⟨fun r s => (∀ l ∈ r, l ∈ s) ∧ (r.isFull = true → s.isFull = true)⟩

theorem le_refl (r : Reach) : r ≤ r := ⟨fun _ => id, id⟩

theorem le_trans {r s t : Reach} (h : r ≤ s) (k : s ≤ t) : r ≤ t :=
  ⟨fun l hl => k.1 l (h.1 l hl), fun hr => k.2 (h.2 hr)⟩

theorem le_antisymm {r s : Reach} (h : r ≤ s) (k : s ≤ r) : r = s :=
  ext (Bool.eq_iff_iff.2 ⟨h.2, k.2⟩) fun l => ⟨h.1 l, k.1 l⟩

theorem only_le_only {s t : LocationSet} : only s ≤ only t ↔ s ⊆ t := by
  constructor
  · intro h l hl
    simpa using h.1 l (by simpa using hl)
  · intro h
    exact ⟨fun l hl => by simpa using h l (by simpa using hl), by simp⟩

end Reach

namespace Reaching

theorem ext {x y : Reaching} (hm : x.must = y.must) (hy : x.may = y.may) : x = y := by
  cases x
  cases y
  simp_all

instance : LE Reaching := ⟨fun x y => x.must ≤ y.must ∧ y.may ≤ x.may⟩

theorem le_refl (x : Reaching) : x ≤ x := ⟨Reach.le_refl _, Reach.le_refl _⟩

theorem le_trans {x y z : Reaching} (h : x ≤ y) (k : y ≤ z) : x ≤ z :=
  ⟨Reach.le_trans h.1 k.1, Reach.le_trans k.2 h.2⟩

theorem le_antisymm {x y : Reaching} (h : x ≤ y) (k : y ≤ x) : x = y :=
  ext (Reach.le_antisymm h.1 k.1) (Reach.le_antisymm k.2 h.2)

@[simp] theorem must_top : top.must = .full := rfl

@[simp] theorem may_top : top.may = .empty := rfl

theorem le_top (x : Reaching) : x ≤ top :=
  ⟨⟨fun _ _ => by simp, fun _ => rfl⟩, ⟨fun _ h => by simp at h, fun h => by simp at h⟩⟩

@[simp] theorem must_start : start.must = .empty := rfl

@[simp] theorem may_start : start.may = .empty := rfl

theorem mem_must_meet_all {l : Location} {x : Reaching} {ys : List Reaching} :
    l ∈ (ys.foldl meet x).must ↔ l ∈ x.must ∧ ∀ y ∈ ys, l ∈ y.must := by
  induction ys generalizing x with
  | nil => simp
  | cons y ys ih => simp [ih, meet, and_assoc]

theorem isFull_must_meet_all {x : Reaching} {ys : List Reaching} :
    (ys.foldl meet x).must.isFull = true ↔
      x.must.isFull = true ∧ ∀ y ∈ ys, y.must.isFull = true := by
  induction ys generalizing x with
  | nil => simp
  | cons y ys ih => simp [ih, meet, and_assoc]

theorem mem_may_meet_all {l : Location} {x : Reaching} {ys : List Reaching} :
    l ∈ (ys.foldl meet x).may ↔ l ∈ x.may ∨ ∃ y ∈ ys, l ∈ y.may := by
  induction ys generalizing x with
  | nil => simp
  | cons y ys ih => simp [ih, meet, or_assoc]

theorem isFull_may_meet_all {x : Reaching} {ys : List Reaching} :
    (ys.foldl meet x).may.isFull = true ↔
      x.may.isFull = true ∨ ∃ y ∈ ys, y.may.isFull = true := by
  induction ys generalizing x with
  | nil => simp
  | cons y ys ih => simp [ih, meet, or_assoc]

variable {aliases : Aliasing} {f : Footprint} {x y : Reaching} {l : Location}

theorem mem_must_transfer : l ∈ (x.transfer aliases f).must ↔
    l ∈ f.defs ∨ (f.hasUnknownWrites = false ∧ l ∈ x.must ∧
      (x.must.isFull = true ∨ f.defs.meets aliases l = false)) := by
  cases hw : f.hasUnknownWrites with
  | true => simp [transfer, hw, Reach.mem_kill]
  | false =>
    simp only [transfer, hw, Bool.false_eq_true, if_false, Reach.mem_insertAll, Reach.mem_kill,
      true_and]
    constructor
    · rintro (⟨hx, hf | hd | hm⟩ | hd)
      · exact .inr ⟨hx, .inl hf⟩
      · exact .inl hd
      · exact .inr ⟨hx, .inr hm⟩
      · exact .inl hd
    · rintro (hd | ⟨hx, hf | hm⟩)
      · exact .inr hd
      · exact .inl ⟨hx, .inl hf⟩
      · exact .inl ⟨hx, .inr (.inr hm)⟩

theorem isFull_must_transfer : (x.transfer aliases f).must.isFull = true ↔
    f.hasUnknownWrites = false ∧ x.must.isFull = true := by
  cases hw : f.hasUnknownWrites <;> simp [transfer, hw]

theorem mem_may_transfer : l ∈ (x.transfer aliases f).may ↔
    l ∈ x.may ∨ l ∈ f.defs ∨ l ∈ f.mayDefs := by
  simp [transfer, or_assoc]

theorem isFull_may_transfer : (x.transfer aliases f).may.isFull = x.may.isFull := by
  simp [transfer]

/-- Nothing happens, nothing changes. -/
@[simp] theorem transfer_empty : x.transfer aliases {} = x := by
  have hmeet : ∀ l, (∅ : LocationSet).meets aliases l = false := fun _ => rfl
  refine ext (Reach.ext ?_ fun l => ?_) (Reach.ext isFull_may_transfer fun l => ?_)
  · rw [Bool.eq_iff_iff, isFull_must_transfer]
    exact and_iff_right rfl
  · rw [mem_must_transfer]
    simp only [SortedSet.not_mem_empty, false_or, hmeet, or_true, and_true]
    exact and_iff_right rfl
  · simp [mem_may_transfer]

theorem transfer_mono (h : x ≤ y) : x.transfer aliases f ≤ y.transfer aliases f := by
  refine ⟨⟨fun l hl => ?_, fun hx => ?_⟩, ⟨fun l hl => ?_, fun hy => ?_⟩⟩
  · rw [mem_must_transfer] at hl ⊢
    rcases hl with hd | ⟨hw, hx, hf | hm⟩
    · exact .inl hd
    · exact .inr ⟨hw, h.1.1 l hx, .inl (h.1.2 hf)⟩
    · exact .inr ⟨hw, h.1.1 l hx, .inr hm⟩
  · rw [isFull_must_transfer] at hx ⊢
    exact ⟨hx.1, h.1.2 hx.2⟩
  · rw [mem_may_transfer] at hl ⊢
    exact hl.imp_left (h.2.1 l)
  · rw [isFull_may_transfer] at hy ⊢
    exact h.2.2 hy

/-- What is known of the value lies in two sets, one for each side. -/
structure Within (D W : Location → Prop) (x : Reaching) : Prop where
  must : x.must.isFull = false → ∀ l ∈ x.must, D l
  known : x.may.isFull = false
  may : ∀ l ∈ x.may, W l

variable {D W : Location → Prop}

theorem within_top : top.Within D W := ⟨by simp, rfl, by simp⟩

theorem within_start : start.Within D W := ⟨by simp, rfl, by simp⟩

theorem Within.transfer (h : x.Within D W) (hD : ∀ l ∈ f.defs, D l)
    (hW : ∀ l, l ∈ f.defs ∨ l ∈ f.mayDefs → W l) : (x.transfer aliases f).Within D W := by
  refine ⟨fun hy l hl => ?_, ?_, fun l hl => ?_⟩
  · rw [mem_must_transfer] at hl
    rcases hl with hd | ⟨hw, hx, -⟩
    · exact hD l hd
    · refine h.must (Bool.eq_false_iff.2 fun hx => ?_) l hx
      rw [isFull_must_transfer.2 ⟨hw, hx⟩] at hy
      exact Bool.noConfusion hy
  · rw [isFull_may_transfer]
    exact h.known
  · rw [mem_may_transfer] at hl
    rcases hl with hx | hl
    · exact h.may l hx
    · exact hW l hl

end Reaching
end LoopMemory
