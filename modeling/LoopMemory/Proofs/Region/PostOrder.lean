import LoopMemory.Proofs.Region.Valid
import Mathlib.Data.List.Flatten
import Mathlib.Data.List.Perm.Subperm

/-! The bottom-up walk over a valid tree meets every region once, children first. -/
namespace LoopMemory.RegionTree
variable {t : RegionTree} {region : Region} {r c : RegionId} {d : Nat}

/-- Every region in the list comes after its children. -/
def ChildrenFirst (t : RegionTree) (l : List RegionId) : Prop :=
  ∀ before r after, l = before ++ r :: after → ∀ region, t.region? r = some region →
    ∀ c ∈ region.children, c ∈ before

theorem childrenFirst_nil : t.ChildrenFirst [] := by
  intro before r after h
  simp at h

theorem ChildrenFirst.append {l m : List RegionId} (hl : t.ChildrenFirst l)
    (hm : t.ChildrenFirst m) : t.ChildrenFirst (l ++ m) := by
  intro before r after h region hr c hc
  rcases List.append_eq_append_iff.1 h with ⟨as, hb, hma⟩ | ⟨bs, hlb, hbs⟩
  · rw [hb]
    exact List.mem_append_right _ (hm as r after hma region hr c hc)
  · cases bs with
    | nil =>
      have : m = [] ++ r :: after := by simpa using hbs.symm
      exact absurd (hm [] r after this region hr c hc) List.not_mem_nil
    | cons b bs =>
      obtain ⟨rfl, -⟩ := List.cons.inj hbs
      exact hl before r bs hlb region hr c hc

theorem ChildrenFirst.flatMap {f : RegionId → List RegionId} {l : List RegionId}
    (h : ∀ c ∈ l, t.ChildrenFirst (f c)) : t.ChildrenFirst (l.flatMap f) := by
  induction l with
  | nil => exact childrenFirst_nil
  | cons a l ih =>
    rw [List.flatMap_cons]
    exact (h a (.head _)).append (ih fun c hc => h c (.tail _ hc))

theorem ChildrenFirst.snoc {l : List RegionId} (hl : t.ChildrenFirst l)
    (h : ∀ region, t.region? r = some region → ∀ c ∈ region.children, c ∈ l) :
    t.ChildrenFirst (l ++ [r]) := by
  intro before r' after hb region hr c hc
  rcases List.eq_nil_or_concat after with rfl | ⟨as, a, rfl⟩
  · obtain ⟨rfl, hr'⟩ := List.append_inj' hb rfl
    obtain rfl : r = r' := by simpa using hr'
    exact h region hr c hc
  · have hb' : l ++ [r] = (before ++ r' :: as) ++ [a] := by simpa using hb
    obtain ⟨rfl, -⟩ := List.append_inj' hb' rfl
    exact hl before r' as rfl region hr c hc

theorem bottomUp_succ (hr : t.region? r = some region) :
    t.bottomUp (d + 1) r = region.children.flatMap (t.bottomUp d) ++ [r] := by
  simp only [bottomUp, hr]

theorem mem_bottomUp_self (d : Nat) (r : RegionId) : r ∈ t.bottomUp d r := by
  cases d with
  | zero => simp [bottomUp]
  | succ d => unfold bottomUp; split <;> simp

/-- The walk with a stack and without a bound on its depth. A region waits below its children, and is
listed when the walk comes back to it. -/
inductive Lists (t : RegionTree) :
    List (RegionId × Bool) → List RegionId → List RegionId → Prop
  | done {order} : Lists t [] order order
  | emit {r stack order result} (rest : Lists t stack (order ++ [r]) result) :
    Lists t ((r, true) :: stack) order result
  | expand {r region stack order result} (hr : t.region? r = some region)
    (rest : Lists t (region.children.map (·, false) ++ (r, true) :: stack) order result) :
    Lists t ((r, false) :: stack) order result
  /-- Of a region that is not there only the number is listed. -/
  | lost {r stack order result} (hr : t.region? r = none)
    (rest : Lists t ((r, true) :: stack) order result) : Lists t ((r, false) :: stack) order result

/- The depth reaches below every region under `r`. -/
structure Deep (t : RegionTree) (d : Nat) (r : RegionId) : Prop where
  stable : ∀ e, d ≤ e → t.bottomUp e r = t.bottomUp d r
  ordered : t.ChildrenFirst (t.bottomUp d r)
  lists : ∀ stack order result, t.Lists stack (order ++ t.bottomUp d r) result →
    t.Lists ((r, false) :: stack) order result

theorem Deep.mono (h : t.Deep d r) {e : Nat} (he : d ≤ e) : t.Deep e r where
  stable k hk := (h.stable k (Nat.le_trans he hk)).trans (h.stable e he).symm
  ordered := h.stable e he ▸ h.ordered
  lists := h.stable e he ▸ h.lists

theorem lists_children {cs : List RegionId} (h : ∀ c ∈ cs, t.Deep d c)
    {stack : List (RegionId × Bool)} {order result : List RegionId}
    (rest : t.Lists stack (order ++ cs.flatMap (t.bottomUp d)) result) :
    t.Lists (cs.map (·, false) ++ stack) order result := by
  induction cs generalizing order with
  | nil => simpa using rest
  | cons c cs ih =>
    refine (h c (.head _)).lists _ _ _ (ih (fun c hc => h c (.tail _ hc)) ?_)
    simpa using rest

theorem deep_succ (hr : t.region? r = some region) (h : ∀ c ∈ region.children, t.Deep d c) :
    t.Deep (d + 1) r where
  stable e he := by
    obtain ⟨e, rfl⟩ : ∃ k, e = k + 1 := ⟨e - 1, by omega⟩
    rw [bottomUp_succ hr, bottomUp_succ hr]
    congr 1
    exact List.flatMap_congr fun c hc => (h c hc).stable e (by omega)
  ordered := by
    rw [bottomUp_succ hr]
    refine (ChildrenFirst.flatMap fun c hc => (h c hc).ordered).snoc fun region' hr' c hc => ?_
    rw [hr] at hr'
    rw [← Option.some.inj hr'] at hc
    exact List.mem_flatMap.2 ⟨c, hc, mem_bottomUp_self d c⟩
  lists stack order result rest := by
    rw [bottomUp_succ hr, ← List.append_assoc] at rest
    exact .expand hr (lists_children h (.emit rest))

theorem region?_lt (hr : t.region? r = some region) : r < t.regions.size := by
  rw [region?, Array.getElem?_eq_some_iff] at hr
  exact hr.1

/-- The walk ends with the routine body. -/
theorem postOrder_eq (hr : t.region? root = some region) :
    ∃ before, t.postOrder = before ++ [root] := by
  obtain ⟨k, hk⟩ := Nat.exists_eq_add_of_lt (region?_lt hr)
  rw [postOrder, hk, bottomUp_succ hr]
  exact ⟨_, rfl⟩

theorem length_le_of_nodup {l : List RegionId} {k : Nat} (hn : l.Nodup) (h : ∀ r ∈ l, r < k) :
    l.length ≤ k := by
  have hs : l ⊆ List.range k := fun r hr => List.mem_range.2 (h r hr)
  simpa using (hn.subperm hs).length_le

/- The walk from a stack meets just the regions under it, each once. -/
theorem visit_perm (fuel : Nat) {met stack met' : List RegionId} (hn : met.Nodup)
    (hlt : ∀ r ∈ met, r < t.regions.size) (hf : t.regions.size < fuel + met.length)
    (h : t.visit fuel met stack = .ok met') :
    met'.Nodup ∧ (∀ r ∈ met', r < t.regions.size) ∧ ∃ d, (∀ r ∈ stack, t.Deep d r) ∧
      met'.Perm (stack.flatMap (t.bottomUp d) ++ met) := by
  induction fuel generalizing met stack with
  | zero =>
    have := length_le_of_nodup hn hlt
    omega
  | succ fuel ih =>
    cases stack with
    | nil =>
      obtain rfl : met = met' := by simpa [visit] using h
      exact ⟨hn, hlt, 0, by simp, by simp⟩
    | cons r stack =>
      rw [visit] at h
      simp only [bind_eq_ok, require_eq_ok, region_eq_ok] at h
      obtain ⟨_, hr, region, hreg, h⟩ := h
      have hlt' : ∀ k ∈ r :: met, k < t.regions.size := by
        intro k hk
        rcases List.mem_cons.1 hk with rfl | hk
        · exact region?_lt hreg
        · exact hlt k hk
      obtain ⟨hn', hlt'', d, hd, hp⟩ := ih (List.nodup_cons.2 ⟨hr, hn⟩) hlt'
        (by simp only [List.length_cons]; omega) h
      have hchildren : ∀ c ∈ region.children, t.Deep d c := fun c hc => hd c (by simp [hc])
      have hstack : ∀ k ∈ stack, t.Deep d k := fun k hk => hd k (by simp [hk])
      refine ⟨hn', hlt'', d + 1, fun k hk => ?_, hp.trans ?_⟩
      · rcases List.mem_cons.1 hk with rfl | hk
        · exact deep_succ hreg hchildren
        · exact (hstack k hk).mono (Nat.le_succ d)
      · have hsame : stack.flatMap (t.bottomUp (d + 1)) = stack.flatMap (t.bottomUp d) :=
          List.flatMap_congr fun k hk => (hstack k hk).stable _ (Nat.le_succ d)
        rw [List.flatMap_cons, bottomUp_succ hreg, hsame, List.flatMap_append]
        have hrev : (region.children.reverse.flatMap (t.bottomUp d)).Perm
            (region.children.flatMap (t.bottomUp d)) :=
          (List.reverse_perm region.children).flatMap_right _
        have hmid : (stack.flatMap (t.bottomUp d) ++ r :: met).Perm
            (r :: (stack.flatMap (t.bottomUp d) ++ met)) := List.perm_middle
        simpa using hrev.append hmid

theorem bottomUp_sublist_succ (d : Nat) (r : RegionId) :
    (t.bottomUp d r).Sublist (t.bottomUp (d + 1) r) := by
  induction d generalizing r with
  | zero => exact List.singleton_sublist.2 (mem_bottomUp_self 1 r)
  | succ d ih =>
    cases h : t.region? r with
    | none => simp [bottomUp, h]
    | some region =>
      rw [bottomUp_succ h, bottomUp_succ h]
      exact (List.Sublist.flatMap_right _ fun c _ => ih c).append_right _

/-- A greater depth leaves nothing out. -/
theorem bottomUp_sublist (r : RegionId) {d e : Nat} (he : d ≤ e) :
    (t.bottomUp d r).Sublist (t.bottomUp e r) := by
  induction he with
  | refl => exact .refl _
  | step _ ih => exact ih.trans (bottomUp_sublist_succ _ r)

/-- A walk that a greater depth changes is longer than the depth. -/
theorem bottomUp_grows (d : Nat) (r : RegionId) :
    t.bottomUp (d + 1) r = t.bottomUp d r ∨ d + 2 ≤ (t.bottomUp (d + 1) r).length := by
  induction d generalizing r with
  | zero =>
    cases h : t.region? r with
    | none => simp [bottomUp, h]
    | some region =>
      rw [bottomUp_succ h]
      cases hc : region.children with
      | nil => simp [bottomUp]
      | cons c cs => simp [bottomUp]
  | succ d ih =>
    cases h : t.region? r with
    | none => simp [bottomUp, h]
    | some region =>
      rw [bottomUp_succ h, bottomUp_succ h]
      by_cases hall : ∀ c ∈ region.children, t.bottomUp (d + 1) c = t.bottomUp d c
      · exact .inl (by rw [List.flatMap_congr hall])
      · push Not at hall
        obtain ⟨c, hc, hne⟩ := hall
        have hlen := (ih c).resolve_left hne
        obtain ⟨before, after, hsplit⟩ := List.append_of_mem hc
        right
        rw [hsplit]
        simp only [List.flatMap_append, List.flatMap_cons, List.length_append,
          List.length_singleton]
        omega

namespace Valid

/- At the depth of its size a valid tree has been walked to its leaves. -/
theorem postOrder_walk (h : t.Valid) : t.postOrder.Nodup ∧
    t.postOrder.length = t.regions.size ∧ (∀ r ∈ t.postOrder, r < t.regions.size) ∧
    t.Deep t.regions.size root := by
  have hnest := h.nesting
  simp only [checkNesting, bind_eq_ok, require_eq_ok] at hnest
  obtain ⟨met, hv, hlen⟩ := hnest
  obtain ⟨hn, hlt, d, hd, hp⟩ := visit_perm _ List.nodup_nil (by simp) (by simp) hv
  have hdeep : t.Deep d root := hd root (.head _)
  have hperm : ∀ e, d ≤ e → met.Perm (t.bottomUp e root) := by
    intro e he
    rw [hdeep.stable e he]
    simpa using hp
  have hle : ∀ e, (t.bottomUp e root).length ≤ t.regions.size := by
    intro e
    rw [← hlen, (hperm (d + e) (Nat.le_add_right d e)).length_eq]
    exact (bottomUp_sublist root (Nat.le_add_left e d)).length_le
  have hsame : ∀ k, t.bottomUp (t.regions.size + k) root = t.postOrder := by
    intro k
    induction k with
    | zero => rfl
    | succ k ih =>
      rcases bottomUp_grows (t := t) (t.regions.size + k) root with hk | hk
      · rw [← ih, ← hk]; rfl
      · have := hle (t.regions.size + k + 1)
        omega
  have hpost : t.bottomUp t.regions.size root = t.bottomUp d root := by
    rw [← hdeep.stable _ (Nat.le_add_left d t.regions.size)]
    exact (hsame d).symm
  have hperm' : met.Perm t.postOrder := by
    rw [postOrder, hpost]
    exact hperm d (Nat.le_refl d)
  refine ⟨hperm'.nodup_iff.1 hn, ?_, fun r hr => hlt r (hperm'.mem_iff.2 hr), fun e he => ?_, ?_, ?_⟩
  · rw [← hperm'.length_eq, hlen]
  · obtain ⟨k, rfl⟩ := Nat.exists_eq_add_of_le he
    exact hsame k
  · exact hpost ▸ hdeep.ordered
  · exact hpost ▸ hdeep.lists

theorem postOrder_nodup (h : t.Valid) : t.postOrder.Nodup := h.postOrder_walk.1

theorem postOrder_childrenFirst (h : t.Valid) : t.ChildrenFirst t.postOrder :=
  h.postOrder_walk.2.2.2.ordered

/-- The walk with a stack comes to an end, and with the same list. -/
theorem lists_postOrder (h : t.Valid) : t.Lists [(root, false)] [] t.postOrder :=
  h.postOrder_walk.2.2.2.lists _ _ _ .done

theorem postOrder_perm (h : t.Valid) : t.postOrder.Perm (List.range t.regions.size) := by
  obtain ⟨hn, hlen, hlt, -⟩ := h.postOrder_walk
  have hs : t.postOrder.Subperm (List.range t.regions.size) :=
    hn.subperm fun k hk => List.mem_range.2 (hlt k hk)
  exact hs.perm_of_length_le (by simp [hlen])

theorem mem_postOrder (h : t.Valid) (hr : t.region? r = some region) : r ∈ t.postOrder :=
  h.postOrder_perm.mem_iff.2 (List.mem_range.2 (region?_lt hr))

/-- What holds of the routine body and passes from a region to its children holds everywhere. -/
theorem top_down (h : t.Valid) (P : RegionId → Prop) (start : P root)
    (step : ∀ r region, t.region? r = some region → P r → ∀ c ∈ region.children, P c)
    (hr : t.region? r = some region) : P r := by
  have hwalk : ∀ d k, P k → ∀ c ∈ t.bottomUp d k, P c := by
    intro d
    induction d with
    | zero => intro k hk c hc; simpa [bottomUp] using (List.mem_singleton.1 hc) ▸ hk
    | succ d ih =>
      intro k hk c hc
      cases hreg : t.region? k with
      | none =>
        simp only [bottomUp, hreg, List.mem_singleton] at hc
        exact hc ▸ hk
      | some region =>
        rw [bottomUp_succ hreg, List.mem_append, List.mem_flatMap, List.mem_singleton] at hc
        rcases hc with ⟨b, hb, hc⟩ | rfl
        · exact ih b (step k region hreg hk b hb) c hc
        · exact hk
  exact hwalk _ root start r (h.mem_postOrder hr)

end Valid
end LoopMemory.RegionTree
