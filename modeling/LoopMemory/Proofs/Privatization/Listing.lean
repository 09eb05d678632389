import LoopMemory.Proofs.Inventory
import LoopMemory.Proofs.Privatization.Classes
import LoopMemory.Proofs.Region.Tree
import LoopMemory.Proofs.Solver.Walks

/-! The list of the verdicts on a loop: each location that is read or written inside the loop, at
whatever depth, once and in order. -/
namespace LoopMemory.Memory
open Relation

variable {m : Memory} {t : RegionTree} {region : Region} {r : RegionId} {progress : Progress}
  {model : AliasModel} {cs : List Candidate}

/-- Sorted candidates ascend as soon as no two of them are on one location. -/
theorem pairwise_classifyLoop {results : Results} {liveOut : LocationSet} {aliases : Aliasing}
    (hcs : classifyLoop t results r liveOut aliases = .ok cs)
    (hnodup : (cs.map (·.location)).Nodup) :
    cs.Pairwise fun a b => Keyed.before a.location b.location := by
  obtain ⟨_, f, flow, -, -, -, -, rfl⟩ := classifyLoop_eq_ok.1 hcs
  have hsorted := LoopFacts.pairwise_mergeSort
    (LoopFacts.candidates ⟨f, flow.output.must, liveOut, aliases⟩)
  refine (hsorted.and (List.pairwise_map.1 hnodup)).imp ?_
  rintro a b ⟨hle, hne⟩
  exact Decidable.byContradiction fun hlt => hne (Keyed.eq_of_not_before hlt hle)

/-- What the loops below a region do is done inside it. -/
theorem eventsIn_of_below (hv : t.Valid) {c : RegionId} (hc : TransGen t.Child r c) :
    m.eventsIn t c ⊆ m.eventsIn t r := by
  have hchild : ∀ {p c}, t.Child p c → m.eventsIn t c ⊆ m.eventsIn t p := by
    rintro p c ⟨parent, hp, hmem⟩ e ⟨i, hi, he⟩
    obtain ⟨_, n, node, -, -, hn, hk, hregion⟩ := hv.of_child hp hmem
    exact ⟨i, .loop hp (hv.mem_nodes hp hn hregion) hn hk hi, he⟩
  induction hc with
  | single hc => exact hchild hc
  | tail _ hc ih => exact (hchild hc).trans ih

/-- Two loops, one in the other, that touch a variable and a part of it. -/
def wholeAndPart : Memory where
  effects i := some { accesses :=
    if i = 0 then [⟨Problem.wholeVar, 0, .no, .must⟩, ⟨target, 1, .no, .no⟩]
    else [⟨Problem.upperPart, 0, .must, .no⟩, ⟨Problem.wholeVar, 1, .may, .may⟩] }
  aliases := ({} : AliasModel).overlap
  escapes _ := false
  settings := {}

/-- Every loop can be classified, whatever is read after it and whatever oracle is asked. The
verdicts are in the order of their locations, none has two, and those that have one are just the
locations that an access inside the loop reads or writes, in a block of the loop itself or of the
loops inside it; the loops below it in the tree are among these. -/
theorem classifyLoop_ascending (h : m.analyze t = .ok progress) (ha : m.aliases = model.overlap)
    (hr : t.region? r = some region) (hloop : region.isLoop = true) (liveOut : LocationSet)
    (aliases : Aliasing) :
    ∃ cs, classifyLoop t progress.results r liveOut aliases = .ok cs ∧
      (cs.Pairwise fun a b => Keyed.before a.location b.location) ∧
      (∀ l, (∃ c ∈ cs, c.location = l) ↔ ∃ a, .access a ∈ m.eventsIn t r ∧
        (a.read.isAny = true ∨ a.write.isAny = true) ∧ a.location = l) ∧
      ∀ c, TransGen t.Child r c → m.eventsIn t c ⊆ m.eventsIn t r := by
  obtain ⟨cs, hcs⟩ := classifyLoop_ok h hr hloop liveOut aliases
  obtain ⟨s⟩ := solved_of_analyze h hr
  obtain ⟨hnodup, -⟩ := locations_of_classifyLoop s.onFile hcs h (ha ▸ model.regular) hr
  refine ⟨cs, hcs, pairwise_classifyLoop hcs hnodup, fun l => ?_,
    fun c hc => eventsIn_of_below (valid_of_analyze h) hc⟩
  rw [← List.mem_map, (perm_classifyLoop s.onFile hcs).mem_iff,
    (tallies_of_analyze h hr _ s.onFile).explicit]
  simp only [Access.isAddressOnly_eq_false]

theorem classifyLoop_ascending_wholeAndPart : ∃ progress cs,
    wholeAndPart.analyze calls.finish = .ok progress ∧
    classifyLoop calls.finish progress.results 1 ∅ wholeAndPart.aliases = .ok cs ∧
    (cs.Pairwise fun a b => Keyed.before a.location b.location) ∧
    (∃ c ∈ cs, c.location = Problem.upperPart) ∧ ¬∃ c ∈ cs, c.location = target := by
  have hr : calls.finish.region? 1 = some calls.finish.regions[1]! := by decide +kernel
  have hc : calls.finish.region? 2 = some calls.finish.regions[2]! := by decide +kernel
  have h7 : calls.finish.node? 7 = some ⟨7, 1, .region 2, [3], [8]⟩ := by decide +kernel
  have h9 : calls.finish.node? 9 = some ⟨9, 2, .block [1], [6], [5, 6]⟩ := by decide +kernel
  have hsolved : (wholeAndPart.analyze calls.finish).isOk = true := by decide +kernel
  cases h : wholeAndPart.analyze calls.finish with
  | error e =>
    rw [h] at hsolved
    cases hsolved
  | ok progress =>
    have hmodel : wholeAndPart.aliases = ({} : AliasModel).overlap := rfl
    obtain ⟨cs, hcs, hsorted, hlisted, -⟩ := classifyLoop_ascending h hmodel hr
      (by decide +kernel) ∅ wholeAndPart.aliases
    have hinner : calls.finish.Holds 1 1 :=
      .loop hr (by decide +kernel) h7 rfl (.block hc (by decide +kernel) h9 rfl (.head _))
    refine ⟨progress, cs, rfl, hcs, hsorted, (hlisted _).2 ⟨_, ⟨1, hinner, .head _⟩, .inl rfl, rfl⟩,
      fun htarget => ?_⟩
    obtain ⟨a, ⟨i, -, ha⟩, hrw, hl⟩ := (hlisted target).1 htarget
    have hall : ∀ a ∈ [⟨Problem.wholeVar, 0, .no, .must⟩, ⟨target, 1, .no, .no⟩,
        ⟨Problem.upperPart, 0, .must, .no⟩, (⟨Problem.wholeVar, 1, .may, .may⟩ : Access)],
        a.location = target → ¬(a.read.isAny = true ∨ a.write.isAny = true) := by
      decide +kernel
    refine hall a ?_ hl hrw
    simp only [instEvents, wholeAndPart, Option.map_none, Option.toList_none, List.append_nil] at ha
    split at ha
    · simp only [List.mem_map, Event.access.injEq, exists_eq_right] at ha
      exact List.mem_append_left [_, _] ha
    · simp only [List.mem_map, Event.access.injEq, exists_eq_right] at ha
      exact List.mem_append_right [_, _] ha

end LoopMemory.Memory
