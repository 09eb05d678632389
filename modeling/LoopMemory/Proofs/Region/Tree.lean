import LoopMemory.Proofs.Region.PostOrder
import LoopMemory.Region.Builder
import Mathlib.Data.List.Nodup

/-! The shape of the trees that validation accepts, and the walks over their regions. Main statement:
the walk of validation comes to an end on all regions whatsoever. Where validation accepts them they
are a tree, each graph stays in its region, and the bottom-up walk ends with a list of all regions in
which each comes after everything below it. -/
namespace LoopMemory.RegionTree
open Relation

/-- The walk of validation as it goes on without a bound, until nothing is left on the stack or a
region stops it. -/
inductive Visits (t : RegionTree) :
    List RegionId → List RegionId → Except Breach (List RegionId) → Prop
  | done {met} : Visits t met [] (.ok met)
  | twice {met r stack} (hmet : r ∈ met) :
    Visits t met (r :: stack) (.error (.reachedTwice r t.routine))
  | lost {met r stack} (hmet : r ∉ met) (hr : t.region? r = none) :
    Visits t met (r :: stack) (.error (.noRegion t.routine r))
  | next {met r stack region result} (hmet : r ∉ met) (hr : t.region? r = some region)
    (rest : Visits t (r :: met) (region.children.reverse ++ stack) result) :
    Visits t met (r :: stack) result

/-- The region lists the other as a child. -/
def Child (t : RegionTree) (p c : RegionId) : Prop :=
  ∃ region, t.region? p = some region ∧ c ∈ region.children

/-- A way from the body to the region along the lists of children, as the regions above it, the
nearest first. -/
inductive Lineage (t : RegionTree) : RegionId → List RegionId → Prop
  | body : Lineage t root []
  | child {p c path} (above : Lineage t p path) (hc : t.Child p c) : Lineage t c (p :: path)

/-- The regions are a tree, and each node lies in one region along with its neighbours. -/
structure Shaped (t : RegionTree) : Prop where
  reached : ∀ r region, t.region? r = some region → ∃! path, t.Lineage r path
  once : ∀ r region, t.region? r = some region → region.children.Nodup
  parents : ∀ p c, t.Child p c ↔ ∃ child, t.region? c = some child ∧ child.parent = some p
  owned : ∀ n node, t.node? n = some node → ∀ r,
    (∃ region, t.region? r = some region ∧ n ∈ region.nodes) ↔ r = node.region
  listed : ∀ r region, t.region? r = some region → ∀ n ∈ region.nodes, ∃ node, t.node? n = some node
  inside : ∀ n node, t.node? n = some node → ∀ k ∈ node.succs ++ node.preds,
    ∃ other, t.node? k = some other ∧ other.region = node.region
  entries : ∀ r region, t.region? r = some region →
    ∃ entry, t.node? region.entry = some entry ∧ entry.preds = []

/-- The walk with a stack ends with this list of all regions, the body last, in which each comes after
everything below it. -/
structure WalkedUp (t : RegionTree) (order : List RegionId) : Prop where
  ends : t.Lists [(root, false)] [] order
  perm : order.Perm (List.range t.regions.size)
  after : ∀ before r later, order = before ++ r :: later → ∀ c, TransGen t.Child r c → c ∈ before
  last : order.getLast? = some root

variable {t : RegionTree} {region : Region} {p r c : RegionId} {n : NodeId} {node : Node}
  {met stack path path' : List RegionId}

/- The regions that were met are all different, so that there are steps left for the others. -/
theorem visits_visit (fuel : Nat) (hn : met.Nodup) (hlt : ∀ r ∈ met, r < t.regions.size)
    (hfuel : t.regions.size < fuel + met.length) : t.Visits met stack (t.visit fuel met stack) := by
  induction fuel generalizing met stack with
  | zero =>
    have := length_le_of_nodup hn hlt
    omega
  | succ fuel ih =>
    cases stack with
    | nil => exact .done
    | cons r stack =>
      by_cases hmet : r ∈ met
      · have hvisit : t.visit (fuel + 1) met (r :: stack) = .error (.reachedTwice r t.routine) := by
          simp [visit, require, hmet, bind, Except.bind]
        exact hvisit ▸ .twice hmet
      · cases hr : t.region? r with
        | none =>
          have hvisit : t.visit (fuel + 1) met (r :: stack) = .error (.noRegion t.routine r) := by
            simp [visit, require, hmet, RegionTree.region, hr, bind, Except.bind]
          exact hvisit ▸ .lost hmet hr
        | some region =>
          have hvisit : t.visit (fuel + 1) met (r :: stack) =
              t.visit fuel (r :: met) (region.children.reverse ++ stack) := by
            simp [visit, require, hmet, RegionTree.region, hr, bind, Except.bind]
          refine hvisit ▸ .next hmet hr (ih (List.nodup_cons.2 ⟨hmet, hn⟩) ?_ ?_)
          · exact List.forall_mem_cons.2 ⟨region?_lt hr, hlt⟩
          · rw [List.length_cons]
            omega

namespace Valid
variable (h : t.Valid)
include h

/- Parents and children. -/

theorem child_iff : t.Child p c ↔ ∃ child, t.region? c = some child ∧ child.parent = some p := by
  constructor
  · rintro ⟨region, hp, hc⟩
    have hok := h.region p region hp
    exact hok.id ▸ hok.children c hc
  · rintro ⟨child, hc, hparent⟩
    have hok := h.region c child hc
    have hlist := hok.parent
    simp only [ParentOk, hparent, hok.id] at hlist
    obtain ⟨parent, -, -, hp, hmem, -⟩ := hlist
    exact ⟨parent, hp, hmem⟩

theorem not_child_root : ¬t.Child p root := by
  rw [h.child_iff]
  rintro ⟨child, hc, hparent⟩
  obtain ⟨body, hbody, -, hnone, -⟩ := h.body
  obtain rfl := Option.some.inj (hbody.symm.trans hc)
  simp [hnone] at hparent

theorem child_unique (hp : t.Child p c) (hr : t.Child r c) : p = r := by
  obtain ⟨child, hc, hparent⟩ := h.child_iff.1 hp
  obtain ⟨child', hc', hparent'⟩ := h.child_iff.1 hr
  obtain rfl := Option.some.inj (hc.symm.trans hc')
  exact Option.some.inj (hparent.symm.trans hparent')

theorem lineage_unique (hl : t.Lineage r path) (hl' : t.Lineage r path') : path = path' := by
  induction hl generalizing path' with
  | body =>
    cases hl' with
    | body => rfl
    | child _ hc => exact absurd hc h.not_child_root
  | child _ hc ih =>
    cases hl' with
    | body => exact absurd hc h.not_child_root
    | child above hc' =>
      obtain rfl := h.child_unique hc hc'
      rw [ih above]

theorem exists_lineage (hr : t.region? r = some region) : ∃ path, t.Lineage r path := by
  refine h.top_down (fun r => ∃ path, t.Lineage r path) ⟨[], .body⟩ ?_ hr
  rintro p parent hp ⟨path, above⟩ c hc
  exact ⟨p :: path, .child above ⟨parent, hp, hc⟩⟩

/- A walk from any region is part of one from the body, so that it repeats nothing. -/
theorem bottomUp_nodup (hr : t.region? r = some region) : ∀ d, (t.bottomUp d r).Nodup := by
  refine h.top_down (fun r => ∀ d, (t.bottomUp d r).Nodup) (fun d => ?_) ?_ hr
  · have hwalk : t.bottomUp (t.regions.size + d) root = t.postOrder :=
      h.postOrder_walk.2.2.2.stable _ (Nat.le_add_right _ _)
    exact (hwalk ▸ h.postOrder_nodup).sublist (bottomUp_sublist root (Nat.le_add_left _ _))
  · intro p parent hp hwalk c hc d
    have hall := hwalk (d + 1)
    rw [bottomUp_succ hp] at hall
    exact (List.nodup_flatMap.1 (List.nodup_append.1 hall).1).1 c hc

theorem children_nodup (hr : t.region? r = some region) : region.children.Nodup := by
  have hwalk := h.bottomUp_nodup hr 1
  rw [bottomUp_succ hr, List.nodup_append] at hwalk
  simpa [bottomUp] using hwalk.1

/- Nodes and their neighbours. -/

theorem listed_iff (hn : t.node? n = some node) :
    (∃ region, t.region? r = some region ∧ n ∈ region.nodes) ↔ r = node.region := by
  constructor
  · rintro ⟨region, hr, hmem⟩
    obtain ⟨node', hn', hregion⟩ := h.listed hr hmem
    obtain rfl := Option.some.inj (hn.symm.trans hn')
    exact hregion.symm
  · rintro rfl
    exact h.owner hn

theorem same_region_of_neighbour (hl : t.Linked) (hn : t.node? n = some node) {k : NodeId}
    (hk : k ∈ node.succs ++ node.preds) :
    ∃ other, t.node? k = some other ∧ other.region = node.region := by
  cases List.mem_append.1 hk with
  | inl hsucc =>
    obtain ⟨node', other, hn', hother, hregion⟩ := h.same_region_of_leads ⟨node, hn, hsucc⟩
    obtain rfl := Option.some.inj (hn.symm.trans hn')
    exact ⟨other, hother, hregion⟩
  | inr hpred =>
    obtain ⟨other, node', hother, hn', hregion⟩ :=
      h.same_region_of_leads ((hl n node hn k).1 hpred)
    obtain rfl := Option.some.inj (hn.symm.trans hn')
    exact ⟨other, hother, hregion.symm⟩

theorem shaped (hl : t.Linked) : t.Shaped where
  reached r region hr := by
    obtain ⟨path, hpath⟩ := h.exists_lineage hr
    exact ⟨path, hpath, fun path' hpath' => h.lineage_unique hpath' hpath⟩
  once r region hr := h.children_nodup hr
  parents p c := h.child_iff
  owned n node hn r := h.listed_iff hn
  listed r region hr n hn := by
    obtain ⟨node, hnode, -⟩ := h.listed hr hn
    exact ⟨node, hnode⟩
  inside n node hn k hk := h.same_region_of_neighbour hl hn hk
  entries r region hr := by
    obtain ⟨entry, hentry, -, hpreds⟩ := (h.region r region hr).graph.entry
    exact ⟨entry, hentry, hpreds⟩

/- What lies below a region comes before it, child by child. -/
theorem mem_before_of_below {before later : List RegionId}
    (hpo : t.postOrder = before ++ r :: later) (hc : TransGen t.Child r c) : c ∈ before := by
  induction hc using TransGen.head_induction_on generalizing before later with
  | single hc =>
    obtain ⟨region, hr, hc⟩ := hc
    exact h.postOrder_childrenFirst before _ later hpo region hr _ hc
  | head hc _ ih =>
    obtain ⟨region, hr, hc⟩ := hc
    have hmem := h.postOrder_childrenFirst before _ later hpo region hr _ hc
    obtain ⟨first, rest, rfl⟩ := List.append_of_mem hmem
    exact List.mem_append_left _ (ih (by rw [hpo, List.append_assoc, List.cons_append]))

theorem walkedUp : t.WalkedUp t.postOrder where
  ends := h.lists_postOrder
  perm := h.postOrder_perm
  after before r later hpo c hc := h.mem_before_of_below hpo hc
  last := by
    obtain ⟨body, hbody, -⟩ := h.body
    obtain ⟨before, hpo⟩ := postOrder_eq hbody
    rw [hpo, List.getLast?_concat]

end Valid

/-- Validation's walk comes to an end on all regions and nodes whatsoever, and those that it accepts
are a tree, over which the bottom-up walk comes to an end too. -/
theorem shaped_of_validate (routine : String) (regions : Array Region) (nodes : Array Node) :
    let t := ofParts routine regions nodes
    t.Visits [] [root] (t.visit (t.regions.size + 1) [] [root]) ∧
    (t.validate = .ok () → t.Shaped ∧ t.WalkedUp t.postOrder) := by
  intro t
  refine ⟨visits_visit _ List.nodup_nil (by simp) (by simp), fun hvalid => ?_⟩
  have hv := validate_eq_ok.1 hvalid
  exact ⟨hv.shaped (linked_ofParts hv.indexed), hv.walkedUp⟩

/-- A loop with two loops in it, and a block in the first of these. -/
def twoInOne : TreeBuilder := (TreeBuilder.new "nest").run
  [.loop 0 "outer" true, .loop 1 "first" false, .loop 1 "second" false, .block 2 [0],
    .path 2 [11], .path 1 [7, 10], .path 0 [4]]

theorem shaped_of_validate_twoInOne :
    let t := ofParts "nest" twoInOne.regions twoInOne.finish.nodes
    t.validate = .ok () ∧ t.postOrder = [2, 3, 1, 0] ∧ t.Shaped ∧ t.WalkedUp [2, 3, 1, 0] := by
  intro t
  have hvalid : t.validate = .ok () := by decide +kernel
  have horder : t.postOrder = [2, 3, 1, 0] := by decide +kernel
  obtain ⟨hshaped, hwalk⟩ :=
    (shaped_of_validate "nest" twoInOne.regions twoInOne.finish.nodes).2 hvalid
  exact ⟨hvalid, horder, hshaped, horder ▸ hwalk⟩

end LoopMemory.RegionTree
