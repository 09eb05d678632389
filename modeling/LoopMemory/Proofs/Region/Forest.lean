import LoopMemory.Proofs.Region.PostOrder
import Mathlib.Data.Nat.Init

/-! Regions that name earlier ones as their parents: the walk from the body meets each of them. -/
namespace LoopMemory.RegionTree
variable {t : RegionTree} {region : Region} {r : RegionId} {met stack : List RegionId}

/-- Every region but the body has an earlier one as its parent, which lists it once; no other region
lists it. -/
structure Forest (t : RegionTree) : Prop where
  body : ∃ region, t.region? root = some region ∧ region.parent = none
  rooted : ∀ r region, t.region? r = some region → region.parent = none → r = root
  parent : ∀ r region p, t.region? r = some region → region.parent = some p →
    p < r ∧ ∃ parent, t.region? p = some parent ∧ r ∈ parent.children
  once : ∀ r region, t.region? r = some region → region.children.Nodup
  children : ∀ r region, t.region? r = some region → ∀ c ∈ region.children,
    ∃ child, t.region? c = some child ∧ child.parent = some r

/- What the walk keeps: whatever it has met or is going to meet was reached through its parent. -/
structure Walking (t : RegionTree) (met stack : List RegionId) : Prop where
  nodup : (stack ++ met).Nodup
  root : root ∈ stack ++ met
  reached : ∀ r ∈ stack ++ met, ∃ region, t.region? r = some region ∧
    ∀ p, region.parent = some p → p ∈ met
  closed : ∀ r ∈ met, ∀ region, t.region? r = some region → ∀ c ∈ region.children,
    c ∈ stack ++ met

theorem Forest.walking (h : t.Forest) : t.Walking [] [root] := by
  obtain ⟨body, hb, hp⟩ := h.body
  refine ⟨by simp, by simp, fun r hr => ?_, by simp⟩
  obtain rfl : r = root := by simpa using hr
  exact ⟨body, hb, by simp [hp]⟩

/- A child that was reached before would have its parent among the regions that were met. -/
theorem Walking.step (hf : t.Forest) (h : t.Walking met (r :: stack))
    (hr : t.region? r = some region) :
    t.Walking (r :: met) (region.children.reverse ++ stack) := by
  have hnodup := h.nodup
  rw [List.cons_append, List.nodup_cons] at hnodup
  have hfresh : ∀ c ∈ region.children, c ∉ r :: (stack ++ met) := by
    intro c hc hmem
    obtain ⟨child, hchild, hparent⟩ := hf.children r region hr c hc
    obtain ⟨child', hchild', hmet⟩ := h.reached c (by simpa using hmem)
    obtain rfl := Option.some.inj (hchild.symm.trans hchild')
    exact hnodup.1 (List.mem_append_right _ (hmet r hparent))
  have hperm : (region.children.reverse ++ stack ++ (r :: met)).Perm
      (region.children ++ r :: (stack ++ met)) := by
    rw [List.append_assoc]
    exact (List.reverse_perm _).append List.perm_middle
  refine ⟨?_, ?_, fun k hk => ?_, fun k hk reg hreg c hc => ?_⟩
  · rw [hperm.nodup_iff, List.nodup_append]
    refine ⟨hf.once r region hr, List.nodup_cons.2 hnodup, ?_⟩
    rintro c hc _ hk rfl
    exact hfresh c hc hk
  · rw [hperm.mem_iff]
    exact List.mem_append_right _ (by simpa using h.root)
  · rcases List.mem_append.1 (hperm.mem_iff.1 hk) with hk | hk
    · obtain ⟨child, hchild, hparent⟩ := hf.children r region hr k hk
      refine ⟨child, hchild, fun p hp => ?_⟩
      obtain rfl := Option.some.inj (hparent.symm.trans hp)
      exact .head _
    · obtain ⟨reg, hreg, hmet⟩ := h.reached k (by simpa using hk)
      exact ⟨reg, hreg, fun p hp => .tail _ (hmet p hp)⟩
  · rw [hperm.mem_iff]
    rcases List.mem_cons.1 hk with rfl | hk
    · obtain rfl := Option.some.inj (hr.symm.trans hreg)
      exact List.mem_append_left _ hc
    · exact List.mem_append_right _ (by simpa using h.closed k hk reg hreg c hc)

theorem Walking.length_le (h : t.Walking met stack) : met.length ≤ t.regions.size := by
  refine length_le_of_nodup (List.nodup_append.1 h.nodup).2.1 fun r hr => ?_
  obtain ⟨region, hreg, -⟩ := h.reached r (List.mem_append_right _ hr)
  exact region?_lt hreg

theorem visit_ok (hf : t.Forest) (fuel : Nat) (h : t.Walking met stack)
    (hfuel : t.regions.size < fuel + met.length) :
    ∃ met', t.visit fuel met stack = .ok met' ∧ t.Walking met' [] := by
  induction fuel generalizing met stack with
  | zero =>
    have := h.length_le
    omega
  | succ fuel ih =>
    cases stack with
    | nil => exact ⟨met, rfl, h⟩
    | cons r stack =>
      obtain ⟨region, hr, -⟩ := h.reached r (by simp)
      have hfresh : r ∉ met := by
        have hnodup := h.nodup
        rw [List.cons_append, List.nodup_cons] at hnodup
        exact fun hmet => hnodup.1 (List.mem_append_right _ hmet)
      obtain ⟨met', hvisit, hwalk⟩ := ih (h.step hf hr) (by rw [List.length_cons]; omega)
      refine ⟨met', ?_, hwalk⟩
      rw [visit]
      exact bind_eq_ok.2 ⟨(), require_eq_ok.2 hfresh,
        bind_eq_ok.2 ⟨region, region_eq_ok.2 hr, hvisit⟩⟩

/-- When nothing is left to meet, every region has been met, the parents before their children. -/
theorem Walking.complete (hf : t.Forest) (h : t.Walking met []) (hr : t.region? r = some region) :
    r ∈ met := by
  induction r using Nat.strong_induction_on generalizing region with
  | _ r ih =>
    cases hp : region.parent with
    | none =>
      rw [hf.rooted r region hr hp]
      exact h.root
    | some p =>
      obtain ⟨hlt, parent, hparent, hc⟩ := hf.parent r region p hr hp
      exact h.closed p (ih p hlt hparent) parent hparent r hc

theorem checkNesting_ok (hf : t.Forest) : t.checkNesting = .ok () := by
  obtain ⟨met, hvisit, hwalk⟩ := visit_ok hf (t.regions.size + 1) hf.walking (by simp)
  have hall : List.range t.regions.size ⊆ met := by
    intro r hr
    have hlt := List.mem_range.1 hr
    have hregion : t.region? r = some t.regions[r] := by simp [region?, hlt]
    exact hwalk.complete hf hregion
  have hle : t.regions.size ≤ met.length := by
    simpa using ((List.nodup_range (n := t.regions.size)).subperm hall).length_le
  unfold checkNesting
  exact bind_eq_ok.2 ⟨met, hvisit, require_eq_ok.2 (Nat.le_antisymm hwalk.length_le hle)⟩

end LoopMemory.RegionTree
