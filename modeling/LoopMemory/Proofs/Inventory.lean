import LoopMemory.Proofs.Footprint.Tally
import LoopMemory.Proofs.Privatization

/-! Summaries account for every effect inside a region, at whatever depth, and for no other. -/
namespace LoopMemory

namespace Problem
variable {p : Problem} {sol : Solution} {settings : Settings} {g : Footprint} {l : Location}

section Collapse
variable (h : p.collapse sol settings = .ok g)
include h

/-- Something unknown may write all that a region touches. -/
theorem writes_of_collapse (hu : g.hasUnknownWrites = true) (hl : l ∈ g.explicit.locations) :
    g.Writes l := by
  obtain ⟨exiting, sum, -, -, rfl⟩ := collapse_eq_ok.1 h
  rw [Footprint.hasUnknownWrites, Footprint.unknown_widen] at hu
  rw [Footprint.explicit_widen] at hl
  exact Footprint.writes_widen.2 (.inr ⟨hu, hl⟩)

/-- In a loop, something unknown may read all that a later iteration touches. -/
theorem uses_of_collapse (hloop : p.region.isLoop = true) (hu : g.hasUnknownReads = true)
    (hl : l ∈ g.explicit.locations) : l ∈ g.uses := by
  obtain ⟨exiting, sum, -, -, rfl⟩ := collapse_eq_ok.1 h
  rw [Footprint.hasUnknownReads, Footprint.unknown_widen] at hu
  rw [Footprint.explicit_widen] at hl
  exact Footprint.mem_uses_widen_iff.2 (.inr ⟨hu, hloop, Footprint.mem_tracked.2 (.inl hl)⟩)

end Collapse
end Problem

namespace Memory
variable {m : Memory} {t : RegionTree} {region : Region} {r : RegionId} {progress : Progress}
  {results : Results} {fps : NodeMap Footprint} {sol : Solution} {f g : Footprint} {i j : Inst}
  {u : UnknownAccess} {e : Event}

/-- All that the instructions of a region may do, at whatever depth they are. -/
def eventsIn (m : Memory) (t : RegionTree) (r : RegionId) : Set Event :=
  {e | ∃ i, t.Holds r i ∧ e ∈ m.instEvents i}

def eventsOf (m : Memory) (t : RegionTree) : NodeKind → Set Event
  | .entry | .exit => ∅
  | .block insts => {e | e ∈ m.blockEvents insts}
  | .region c => m.eventsIn t c

theorem mem_eventsIn (hr : t.region? r = some region) : e ∈ m.eventsIn t r ↔
    ∃ n ∈ region.nodes, ∃ node, t.node? n = some node ∧ e ∈ m.eventsOf t node.kind := by
  constructor
  · rintro ⟨i, hi, he⟩
    cases hi with
    | block hr' hmem hn hk hi =>
      obtain rfl := Option.some.inj (hr.symm.trans hr')
      refine ⟨_, hmem, _, hn, ?_⟩
      rw [hk]
      exact List.mem_flatMap.2 ⟨i, hi, he⟩
    | loop hr' hmem hn hk hi =>
      obtain rfl := Option.some.inj (hr.symm.trans hr')
      refine ⟨_, hmem, _, hn, ?_⟩
      rw [hk]
      exact ⟨i, hi, he⟩
  · rintro ⟨n, hmem, node, hn, he⟩
    cases hk : node.kind with
    | entry | exit => simp [hk, eventsOf] at he
    | block insts =>
      rw [hk] at he
      obtain ⟨i, hi, he⟩ := List.mem_flatMap.1 he
      exact ⟨i, .block hr hmem hn hk hi, he⟩
    | region c =>
      rw [hk] at he
      obtain ⟨i, hi, he⟩ := he
      exact ⟨i, .loop hr hmem hn hk hi, he⟩

/-- An unknown access is one of the instruction that it names. -/
theorem unknown_mem_eventsIn :
    .unknown i u ∈ m.eventsIn t r ↔ t.Holds r i ∧ .unknown i u ∈ m.instEvents i := by
  constructor
  · rintro ⟨j, hj, he⟩
    obtain ⟨rfl, -⟩ := unknown_mem_instEvents.1 he
    exact ⟨hj, he⟩
  · rintro ⟨hi, he⟩
    exact ⟨i, hi, he⟩

theorem exists_unknown_instEvents :
    (∃ u, .unknown i u ∈ m.instEvents i) ↔
      ∀ e, m.effects i = some e → e.unknown.isSome = true := by
  unfold instEvents
  cases m.effects i with
  | none => simp
  | some e => cases h : e.unknown <;> simp [h]

theorem IsFootprint.tallies {k : NodeKind} (hf : m.IsFootprint results k f)
    (hloop : ∀ c, k = .region c → ∀ g, results.summary? c = some g →
      m.Tallies (m.eventsIn t c) g) : m.Tallies (m.eventsOf t k) f := by
  cases k with
  | entry | exit =>
    obtain rfl : f = {} := hf
    exact tallies_empty
  | block insts => exact tallies_of_blockFootprint hf
  | region c => exact hloop c rfl f hf

/- What the nodes account for, their region accounts for. -/
theorem tallies_of_collapse (hr : t.region? r = some region)
    (hs : m.Surveyed t results region fps)
    (hnode : ∀ n ∈ region.nodes, ∀ node f, t.node? n = some node →
      m.IsFootprint results node.kind f → m.Tallies (m.eventsOf t node.kind) f)
    (hc : (Problem.mk t region fps m.aliases).collapse sol m.settings = .ok g) :
    m.Tallies (m.eventsIn t r) g := by
  obtain ⟨exiting, sum, -, hsum, rfl⟩ := Problem.collapse_eq_ok.1 hc
  have hall : m.Tallies (m.eventsIn t r) sum := by
    have hset : m.eventsIn t r = {e | ∃ n ∈ region.nodes, ∃ node, t.node? n = some node ∧
        e ∈ m.eventsOf t node.kind} := Set.ext fun e => mem_eventsIn hr
    rw [hset]
    refine foldlM_inv (fun done sum => m.Tallies {e | ∃ n ∈ done, ∃ node, t.node? n = some node ∧
      e ∈ m.eventsOf t node.kind} sum) hsum (by simpa using tallies_empty) ?_
    rintro before n after s u hl ih hu
    obtain ⟨f, x, ⟨hf, -⟩, rfl⟩ := Problem.absorbNode_eq_ok.1 hu
    have hmem : n ∈ region.nodes := by
      have hl : region.nodes = before ++ n :: after := hl
      simp [hl]
    obtain ⟨node, f', hn, hf', hfoot⟩ := hs n hmem
    obtain rfl := Option.some.inj (hf.symm.trans hf')
    have hstep := ih.absorb (hnode n hmem node f hn hfoot) exiting x
    convert hstep using 1
    ext e
    simp [or_and_right, exists_or, hn]
  split
  · exact hall.widen
  · exact hall.downgrade.widen

theorem tallies_of_analyze (h : m.analyze t = .ok progress) (hr : t.region? r = some region) :
    ∀ g, progress.results.summary? r = some g → m.Tallies (m.eventsIn t r) g := by
  refine analyze_induction h (fun r => ∀ g, progress.results.summary? r = some g →
    m.Tallies (m.eventsIn t r) g) ?_ hr
  intro r region hr ih g hg
  obtain ⟨s⟩ := solved_of_analyze h hr
  obtain rfl := Option.some.inj (s.onFile.symm.trans hg)
  refine tallies_of_collapse hr s.surveyed (fun n hn node f hnode hf => ?_) s.collapses
  exact hf.tallies fun c hk => (ih n hn node c hnode hk).2

/-- A loop that calls something unresolved, next to a write in a loop around it. -/
def calls : TreeBuilder :=
  (TreeBuilder.new "routine").run [.loop 0 "outer" true, .loop 1 "inner" false, .block 1 [0],
    .block 2 [1], .path 2 [9], .path 1 [8, 7], .path 0 [4]]

def calling : Memory where
  effects i := if i = 0 then some { accesses := [⟨source, 0, .no, .must⟩] } else none
  aliases := ({} : AliasModel).overlap
  escapes _ := false
  settings := {}

/-- The summary of a region says what the instructions inside it do, however deep they are. It has
just the locations that they access, the bases that they evaluate or that have escaped, and the
instructions with effects that are not known, each with the surest of them. Where one of those may
write, the region may write all that it accesses, and else just what an access writes; where one
may read and the region repeats, the region may read all that it accesses. -/
theorem summary_exact (h : m.analyze t = .ok progress) (hr : t.region? r = some region) :
    ∃ g, progress.results.regionFootprint r = .ok g ∧
      (∀ l, l ∈ g.explicit.locations ↔ ∃ a, .access a ∈ m.eventsIn t r ∧
        (a.read.isAny = true ∨ a.write.isAny = true) ∧ a.location = l) ∧
      (∀ b, b ∈ g.addresses ↔ ∃ a, .access a ∈ m.eventsIn t r ∧
        (a.isAddressOnly = true ∨ m.escapes a.location = true) ∧ a.location.base = b) ∧
      (g.unknown.Ordered ∧
        (∀ i, g.hasUnknownInst i = true ↔
          t.Holds r i ∧ ∀ e, m.effects i = some e → e.unknown.isSome = true) ∧
        ∀ i u, (i, u) ∈ g.unknown ↔
          UnknownAccess.Strongest {v | .unknown i v ∈ m.eventsIn t r} u) ∧
      ((∃ i u, .unknown i u ∈ m.eventsIn t r ∧ u.write.isAny = true) →
        ∀ l, l ∈ g.defs ∪ g.mayDefs ↔ l ∈ g.explicit.locations) ∧
      ((¬∃ i u, .unknown i u ∈ m.eventsIn t r ∧ u.write.isAny = true) →
        ∀ l, l ∈ g.defs ∪ g.mayDefs ↔
          ∃ a, .access a ∈ m.eventsIn t r ∧ a.write.isAny = true ∧ a.location = l) ∧
      (region.isLoop = true → (∃ i u, .unknown i u ∈ m.eventsIn t r ∧ u.read.isAny = true) →
        ∀ l, l ∈ g.uses ↔ l ∈ g.explicit.locations) := by
  obtain ⟨s⟩ := solved_of_analyze h hr
  have htally := tallies_of_analyze h hr _ s.onFile
  refine ⟨s.summary, Results.regionFootprint_eq_ok.2 s.onFile, fun l => ?_, htally.addresses,
    ⟨htally.ordered, fun i => ?_, fun i u => htally.mem_unknown⟩, fun hu l => ?_, fun hu l => ?_,
    fun hloop hu l => ⟨htally.uses l, fun hl => ?_⟩⟩
  · simp only [htally.explicit, Access.isAddressOnly_eq_false]
  · rw [← exists_unknown_instEvents, ← exists_and_left]
    simp only [← unknown_mem_eventsIn]
    exact htally.hasUnknownInst_iff
  · rw [SortedSet.mem_union]
    exact ⟨htally.touched l,
      Problem.writes_of_collapse s.collapses (htally.hasUnknownWrites_iff.2 hu)⟩
  · rw [SortedSet.mem_union]
    rw [← htally.hasUnknownWrites_iff, Bool.not_eq_true] at hu
    refine ⟨htally.written hu l, ?_⟩
    rintro ⟨a, ha, hw, rfl⟩
    exact htally.writes a ha hw
  · exact Problem.uses_of_collapse s.collapses hloop (htally.hasUnknownReads_iff.2 hu) hl

theorem summary_exact_calls : ∃ progress g, calling.analyze calls.finish = .ok progress ∧
    progress.results.regionFootprint 1 = .ok g ∧ (1, .conservative) ∈ g.unknown ∧
    (∀ l, l ∈ g.defs ∪ g.mayDefs ↔ l ∈ g.explicit.locations) ∧ source ∈ g.uses := by
  have hr : calls.finish.region? 1 = some calls.finish.regions[1]! := by decide +kernel
  have hc : calls.finish.region? 2 = some calls.finish.regions[2]! := by decide +kernel
  have h7 : calls.finish.node? 7 = some ⟨7, 1, .region 2, [3], [8]⟩ := by decide +kernel
  have h8 : calls.finish.node? 8 = some ⟨8, 1, .block [0], [7], [2, 3]⟩ := by decide +kernel
  have h9 : calls.finish.node? 9 = some ⟨9, 2, .block [1], [6], [5, 6]⟩ := by decide +kernel
  have hwrite : .access ⟨source, 0, .no, .must⟩ ∈ calling.eventsIn calls.finish 1 :=
    ⟨0, .block hr (by decide +kernel) h8 rfl (.head _), .head _⟩
  have hcall : calls.finish.Holds 1 1 :=
    .loop hr (by decide +kernel) h7 rfl (.block hc (by decide +kernel) h9 rfl (.head _))
  have hunknown : .unknown 1 .conservative ∈ calling.eventsIn calls.finish 1 :=
    ⟨1, hcall, .head _⟩
  have hsolved : (calling.analyze calls.finish).isOk = true := by decide +kernel
  cases h : calling.analyze calls.finish with
  | error e =>
    rw [h] at hsolved
    cases hsolved
  | ok progress =>
    obtain ⟨g, hg, hexplicit, -, ⟨-, hinst, hvalue⟩, hwritten, -, hread⟩ := summary_exact h hr
    have hsource : source ∈ g.explicit.locations :=
      (hexplicit source).2 ⟨_, hwrite, .inr rfl, rfl⟩
    have hloop : calls.finish.regions[1]!.isLoop = true := by decide +kernel
    refine ⟨progress, g, rfl, hg, (hvalue 1 _).2 ?_, hwritten ⟨1, _, hunknown, rfl⟩,
      (hread hloop ⟨1, _, hunknown, rfl⟩ source).2 hsource⟩
    have hset : {v | Event.unknown 1 v ∈ calling.eventsIn calls.finish 1} =
        {.conservative} := by
      ext v
      simp [unknown_mem_eventsIn, hcall, instEvents, calling]
    rw [hset]
    exact UnknownAccess.strongest_singleton _

end Memory
end LoopMemory
