import LoopMemory.Proofs.Analysis
import LoopMemory.Proofs.Region.Walk
import LoopMemory.Region.Builder

/-! The analysis asks for the effects of the instructions in the order of its walk over the tree,
once for every time that a region lists their block. -/
namespace LoopMemory

def NodeKind.insts : NodeKind → List Inst
  | .block insts => insts
  | .entry | .exit | .region _ => []

namespace RegionTree
variable {t : RegionTree} {region : Region} {r : RegionId} {n : NodeId} {node : Node}

def instsAt (t : RegionTree) (n : NodeId) : List Inst :=
  ((t.node? n).map fun node => node.kind.insts).getD []

/-- The instructions of all blocks, in the order in which the tree stores its nodes. -/
def insts (t : RegionTree) : List Inst := t.nodes.toList.flatMap fun node => node.kind.insts

theorem instsAt_eq (hn : t.node? n = some node) : t.instsAt n = node.kind.insts := by
  simp [instsAt, hn]

theorem flatMap_range_getElem? {α β : Type} (l : List α) (f : α → List β) :
    (List.range l.length).flatMap (fun i => (l[i]?.map f).getD []) = l.flatMap f := by
  induction l with
  | nil => rfl
  | cons a l ih => simp [List.range_succ_eq_map, List.flatMap_map, ih]

theorem insts_eq : t.insts = (List.range t.nodes.size).flatMap t.instsAt := by
  have hat : t.instsAt = fun n => (t.nodes.toList[n]?.map fun node => node.kind.insts).getD [] := by
    funext n
    simp [instsAt, node?]
  rw [hat]
  exact (flatMap_range_getElem? t.nodes.toList _).symm

namespace Valid
variable (hv : t.Valid)
include hv

/-- The blocks in the walk have the instructions of the tree just if none of them is met twice. -/
theorem walk_insts_perm_iff : (t.walk.flatMap t.instsAt).Perm t.insts ↔
    ∀ n ∈ t.walk, t.instsAt n ≠ [] → t.walk.count n = 1 := by
  obtain ⟨extra, he⟩ := hv.exists_walk_perm
  have hcount : ∀ n ∈ t.walk, t.walk.count n = 1 + extra.count n := by
    intro n hn
    obtain ⟨node, hnode⟩ := hv.node_of_mem_walk hn
    have hone : (List.range t.nodes.size).count n = 1 :=
      List.count_eq_one_of_mem List.nodup_range
        (List.mem_range.2 (Array.getElem?_eq_some_iff.1 hnode).1)
    rw [he.count_eq, List.count_append, hone]
  have hsplit : (t.walk.flatMap t.instsAt).Perm (t.insts ++ extra.flatMap t.instsAt) := by
    rw [insts_eq, ← List.flatMap_append]
    exact he.flatMap_right _
  constructor
  · intro h n hn hne
    have hlen := (hsplit.symm.trans h).length_eq
    have hnil : extra.flatMap t.instsAt = [] := by
      rw [List.length_append] at hlen
      exact List.eq_nil_of_length_eq_zero (by omega)
    have hout : n ∉ extra := fun hx => hne (List.flatMap_eq_nil_iff.1 hnil n hx)
    rw [hcount n hn, List.count_eq_zero.2 hout]
  · intro h
    have hnil : extra.flatMap t.instsAt = [] := by
      rw [List.flatMap_eq_nil_iff]
      intro n hx
      have hn : n ∈ t.walk := he.mem_iff.2 (List.mem_append_right _ hx)
      by_contra hne
      have hone := h n hn hne
      rw [hcount n hn] at hone
      exact List.count_eq_zero.1 (by omega) hx
    simpa [hnil] using hsplit

end Valid
end RegionTree

namespace Memory
open RegionTree
variable {m : Memory} {t : RegionTree} {region : Region} {r : RegionId} {n : NodeId}
  {results : Results} {progress : Progress}

theorem asked_of_surveyBlock {insts : List Inst} {s : Survey} (h : m.surveyBlock insts = .ok s) :
    s.asked = insts := by
  refine foldlM_inv (fun done (s : Survey) => s.asked = done) h rfl ?_
  rintro before i after s u - rfl hu
  simp only [surveyInst, bind_eq_ok, pure_eq_ok] at hu
  obtain ⟨f, -, rfl⟩ := hu
  rfl

theorem asked_of_surveyNode {s u : NodeSurvey} (h : m.surveyNode t results s n = .ok u) :
    u.asked = s.asked ++ t.instsAt n := by
  rw [surveyNode, bind_eq_ok] at h
  obtain ⟨node, hn, h⟩ := h
  rw [instsAt_eq (node_eq_ok.1 hn)]
  cases hk : node.kind with
  | entry | exit =>
    simp only [hk, bind_eq_ok, pure_eq_ok] at h
    obtain ⟨survey, rfl, rfl⟩ := h
    rfl
  | block insts =>
    simp only [hk, bind_eq_ok, pure_eq_ok] at h
    obtain ⟨survey, hs, rfl⟩ := h
    exact congrArg _ (asked_of_surveyBlock hs)
  | region c =>
    simp only [hk, bind_eq_ok, pure_eq_ok, map_eq_ok] at h
    obtain ⟨_, ⟨f, -, rfl⟩, rfl⟩ := h
    rfl

theorem asked_of_surveyRegion {s : NodeSurvey} (h : m.surveyRegion t region results = .ok s) :
    s.asked = region.nodes.flatMap t.instsAt := by
  refine foldlM_inv (fun done (s : NodeSurvey) => s.asked = done.flatMap t.instsAt) h rfl ?_
  rintro before n after s u - hs hu
  rw [asked_of_surveyNode hu, hs, List.flatMap_append, List.flatMap_singleton]

theorem asked_of_analyzeRegion {p q : Progress} (h : m.analyzeRegion t p r = .ok q) :
    q.asked = p.asked ++ (t.nodesOf r).flatMap t.instsAt := by
  obtain ⟨region, s, _, _, hA, hq⟩ := analyzeRegion_eq_ok.1 h
  rw [hq, asked_of_surveyRegion hA.survey, nodesOf_eq hA.lookup]

/-- Every instruction is known to do nothing. -/
def idle : Memory where
  effects _ := some {}
  aliases := ({} : AliasModel).overlap
  escapes _ := false
  settings := {}

/-- A loop between two blocks, with a block of its own. -/
def between : RegionTree := ((TreeBuilder.new "routine").run [.block 0 [0, 1], .loop 0 "loop" true,
  .block 1 [4, 3], .block 0 [2], .path 1 [6], .path 0 [2, 5, 7]]).finish

/-- A body that lists its only block twice. -/
def doubling : RegionTree := .ofParts "routine"
  #[{ id := 0, name := "routine", kind := .body, entry := 0, exit := 1, nodes := [0, 2, 2, 1] }]
  #[{ id := 0, region := 0, kind := .entry, succs := [2] },
    { id := 1, region := 0, kind := .exit },
    { id := 2, region := 0, kind := .block [0], succs := [1] }]

/-- The analysis asks for the effects of the instructions region by region, every region after its
children, and block by block in program order. It asks as often as the tree has the instructions
just if no region lists a block with instructions twice. -/
theorem asked_of_analyze (h : m.analyze t = .ok progress) :
    progress.asked = t.postOrder.flatMap (fun r => (t.nodesOf r).flatMap t.instsAt) ∧
      (progress.asked.Perm t.insts ↔ ∀ r region n node insts, t.region? r = some region →
        n ∈ region.nodes → t.node? n = some node → node.kind = .block insts → insts ≠ [] →
        region.nodes.count n = 1) := by
  obtain ⟨hv, hp⟩ := analyze_eq_ok.1 h
  have hasked : progress.asked = t.postOrder.flatMap fun r => (t.nodesOf r).flatMap t.instsAt := by
    refine foldlM_inv (fun done (p : Progress) =>
      p.asked = done.flatMap fun r => (t.nodesOf r).flatMap t.instsAt) hp rfl ?_
    rintro before r after p q - hp hq
    rw [asked_of_analyzeRegion hq, hp, List.flatMap_append, List.flatMap_singleton]
  refine ⟨hasked, ?_⟩
  rw [hasked, ← List.flatMap_assoc]
  refine hv.walk_insts_perm_iff.trans ⟨fun hone r region n node insts hr hn hnode hk hne => ?_,
    fun hone n hn hne => ?_⟩
  · rw [← hv.count_walk hr hn]
    refine hone n (hv.mem_walk hnode) ?_
    rwa [instsAt_eq hnode, hk]
  · obtain ⟨node, hnode⟩ := hv.node_of_mem_walk hn
    obtain ⟨owner, ho, hmem⟩ := hv.owner hnode
    rw [hv.count_walk ho hmem]
    rw [instsAt_eq hnode] at hne
    cases hk : node.kind with
    | entry | exit | region => simp [hk, NodeKind.insts] at hne
    | block insts =>
      exact hone _ owner n node insts ho hmem hnode hk (by simpa [hk, NodeKind.insts] using hne)

theorem asked_of_analyze_between : ∃ progress, idle.analyze between = .ok progress ∧
    progress.asked = [4, 3, 0, 1, 2] ∧ progress.asked.Perm between.insts := by
  have hok : (idle.analyze between).isOk = true := by decide +kernel
  cases h : idle.analyze between with
  | error e =>
    rw [h] at hok
    cases hok
  | ok progress =>
    obtain ⟨hasked, hperm⟩ := asked_of_analyze h
    have hlisted : ∀ region ∈ between.regions.toList, region.nodes.Nodup := by decide +kernel
    refine ⟨progress, rfl, hasked.trans (by decide +kernel), hperm.2 ?_⟩
    intro r region n node insts hr hn _ _ _
    exact List.count_eq_one_of_mem (hlisted region (Array.mem_toList_iff.2
      (Array.mem_of_getElem? hr))) hn

/-- Validation lets a block be listed twice, which is then asked for twice. -/
theorem asked_twice_doubling : doubling.validate = .ok () ∧ ∃ progress,
    idle.analyze doubling = .ok progress ∧ ¬progress.asked.Perm doubling.insts := by
  have hasked : (idle.analyze doubling).toOption.map Progress.asked = some [0, 0] := by
    decide +kernel
  obtain ⟨progress, hp, hasked⟩ := Option.map_eq_some_iff.1 hasked
  refine ⟨by decide +kernel, progress, eq_ok_of_toOption hp, ?_⟩
  rw [hasked]
  decide +kernel

end Memory
end LoopMemory
