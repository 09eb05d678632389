import LoopMemory.Description.Report
import LoopMemory.Privatization
import LoopMemory.Proofs.Aliasing
import LoopMemory.Proofs.Description.Acceptance
import LoopMemory.Proofs.Exposure
import LoopMemory.Proofs.Laps

/-! Verdicts on the locations of a loop against what its iterations do. -/
namespace LoopMemory

/-- The region has the instruction, in a block of its own or in a loop inside it. -/
inductive RegionTree.Holds (t : RegionTree) : RegionId → Inst → Prop
  | block {r : RegionId} {region : Region} {n : NodeId} {node : Node} {insts : List Inst} {i : Inst}
      (hr : t.region? r = some region) (hmem : n ∈ region.nodes) (hn : t.node? n = some node)
      (hk : node.kind = .block insts) (hi : i ∈ insts) : Holds t r i
  | loop {r c : RegionId} {region : Region} {n : NodeId} {node : Node} {i : Inst}
      (hr : t.region? r = some region) (hmem : n ∈ region.nodes) (hn : t.node? n = some node)
      (hk : node.kind = .region c) (hi : Holds t c i) : Holds t r i

namespace Memory
variable {m : Memory} {t : RegionTree} {region : Region} {r : RegionId} {n : NodeId}
  {progress : Progress} {f g : Footprint} {l : Location} {es : List Event} {i : Inst}

/- What a footprint keeps of an instruction, however deep it is. -/
structure Accounts (m : Memory) (f : Footprint) (i : Inst) : Prop where
  unknown : ∀ j u, .unknown j u ∈ m.instEvents i → f.hasUnknown = true
  writes : ∀ a, .access a ∈ m.instEvents i → a.write.isAny = true →
    a.location ∈ f.defs ∨ a.location ∈ f.mayDefs
  addresses : ∀ a, .access a ∈ m.instEvents i →
    a.isAddressOnly = true ∨ m.escapes a.location = true → a.location.base ∈ f.addresses

theorem Recorded.accounts {insts : List Inst} (h : m.Recorded (m.blockEvents insts) f)
    (hi : i ∈ insts) : m.Accounts f i := by
  have hsub : ∀ e ∈ m.instEvents i, e ∈ m.blockEvents insts :=
    fun e he => List.mem_flatMap.2 ⟨i, hi, he⟩
  exact ⟨fun j u hu => h.unknown j u (hsub _ hu), fun a ha => h.writes a (hsub _ ha),
    fun a ha => h.addresses a (hsub _ ha)⟩

/- What a node has on file about the instruction passes to the summary. -/
theorem accounts_of_holds (h : m.analyze t = .ok progress) (hl : t.Linked) (hi : t.Holds r i) :
    ∀ g, progress.results.summary? r = some g → m.Accounts g i := by
  have lift : ∀ {r region n node i}, t.region? r = some region → n ∈ region.nodes →
      t.node? n = some node → (∀ f, m.IsFootprint progress.results node.kind f → m.Accounts f i) →
      ∀ g, progress.results.summary? r = some g → m.Accounts g i := by
    intro r region n node i hr hmem hn hf g hg
    obtain ⟨node', f', x, hx⟩ := exists_onFile h hl hr hmem
    obtain rfl := Option.some.inj (hn.symm.trans hx.lookup)
    obtain ⟨hu, hw, ha⟩ := hf f' hx.footprint
    exact ⟨fun j u hj => OnFile.unknown_summary h hl hr hg hmem hx (hu j u hj),
      fun a hj hj' => OnFile.written_summary h hl hr hg hmem hx (hw a hj hj'),
      fun a hj hj' => OnFile.addresses_summary h hl hr hg hmem hx (ha a hj hj')⟩
  induction hi with
  | block hr hmem hn hk hi =>
    exact lift hr hmem hn fun f hf => (recorded_of_blockFootprint (hf.of_block hk)).accounts hi
  | loop hr hmem hn hk hi ih => exact lift hr hmem hn fun f hf => ih f (hf.of_region hk)

/-- Where a summary has nothing unknown, every instruction of the region is resolved. -/
theorem Accounts.resolved (h : m.Accounts f i) (hf : f.hasUnknown = false) :
    ∃ e, m.effects i = some e ∧ e.unknown = none := by
  cases he : m.effects i with
  | none =>
    have hu := h.unknown i .conservative (by simp [instEvents, he])
    simp [hf] at hu
  | some e =>
    refine ⟨e, rfl, ?_⟩
    cases hu : e.unknown with
    | none => rfl
    | some u =>
      have hu := h.unknown i u (by simp [instEvents, he, hu])
      simp [hf] at hu

theorem mem_instEvents {e : Effect} {a : Access} (he : m.effects i = some e)
    (ha : a ∈ e.accesses) : .access a ∈ m.instEvents i := by
  simp [instEvents, he, ha]

end Memory

namespace LoopFacts
variable {x : LoopFacts} {l : Location} {cls : List Location} {v : Verdict}

theorem blocking?_eq_some (h : x.blocking? cls = some v) : v = .shared ∨ v = .dependency := by
  unfold blocking? at h
  split at h
  · exact .inl (Option.some.inj h).symm
  · split at h
    · exact .inr (Option.some.inj h).symm
    · simp at h

/-- A class takes verdicts away, but gives none except the blocking ones. -/
theorem own_of_verdict (h : x.verdict cls l = v) (hs : v ≠ .shared) (hd : v ≠ .dependency) :
    x.own l = v := by
  unfold verdict at h
  split at h
  · rename_i b hb
    split at h
    · rcases blocking?_eq_some hb with rfl | rfl
      · exact absurd h.symm hs
      · exact absurd h.symm hd
    · exact h
  · exact h

/- What stands behind each verdict, in the order in which they are tried. -/
theorem own_cases (x : LoopFacts) (l : Location) : x.own l = .shared ∨
    (x.footprint.hasUnknown = false ∧ l.base ∉ x.footprint.addresses) ∧
      (x.own l = .readOnly ∧ x.footprint.defs.meets x.aliases l = false ∧
          x.footprint.mayDefs.meets x.aliases l = false ∨
        x.own l = .dependency ∨
        (x.own l).isPrivate = true ∧ x.footprint.uses.meets x.aliases l = false ∧
          (x.own l = .priv ∨ x.own l = .lastPrivate → x.iterationEnd.covers l = true)) := by
  unfold own
  split
  · exact .inl rfl
  · rename_i hknown
    refine .inr ⟨by simpa using hknown, ?_⟩
    split
    · rename_i hunwritten
      exact .inl ⟨rfl, by simpa using hunwritten⟩
    · split
      · exact .inr (.inl rfl)
      · rename_i hunused
        have hunused : x.footprint.uses.meets x.aliases l = false := by simpa using hunused
        cases x.iterationEnd.covers l <;> cases x.liveOut.meets x.aliases l <;>
          simp [Verdict.isPrivate, hunused]

theorem known_of_own (h : x.own l ≠ .shared) :
    x.footprint.hasUnknown = false ∧ l.base ∉ x.footprint.addresses := by
  obtain hs | ⟨hknown, -⟩ := own_cases x l
  · exact absurd hs h
  · exact hknown

theorem unused_of_own (h : (x.own l).isPrivate = true) :
    x.footprint.uses.meets x.aliases l = false := by
  obtain hs | ⟨-, ⟨hr, -⟩ | hd | ⟨-, hunused, -⟩⟩ := own_cases x l
  · simp [hs, Verdict.isPrivate] at h
  · simp [hr, Verdict.isPrivate] at h
  · simp [hd, Verdict.isPrivate] at h
  · exact hunused

theorem unwritten_of_own (h : x.own l = .readOnly) :
    x.footprint.defs.meets x.aliases l = false ∧ x.footprint.mayDefs.meets x.aliases l = false := by
  obtain hs | ⟨-, ⟨-, hunwritten⟩ | hd | ⟨hp, -⟩⟩ := own_cases x l
  · simp [hs] at h
  · exact hunwritten
  · simp [hd] at h
  · simp [h, Verdict.isPrivate] at hp

theorem covered_of_own (h : x.own l = .priv ∨ x.own l = .lastPrivate) :
    x.iterationEnd.covers l = true := by
  obtain hs | ⟨-, ⟨hr, -⟩ | hd | ⟨-, -, hcovers⟩⟩ := own_cases x l
  · simp [hs] at h
  · simp [hr] at h
  · simp [hd] at h
  · exact hcovers h

end LoopFacts

section Classified
variable {t : RegionTree} {results : Results} {r : RegionId} {liveOut : LocationSet}
  {aliases : Aliasing} {cs : List Candidate} {c : Candidate}

theorem classifyLoop_eq_ok : classifyLoop t results r liveOut aliases = .ok cs ↔
    ∃ region f flow, t.region? r = some region ∧ region.isLoop = true ∧
      results.regionFootprint r = .ok f ∧ results.nodeFlow region.exit = .ok flow ∧
      cs = (LoopFacts.candidates ⟨f, flow.output.must, liveOut, aliases⟩).mergeSort
        fun a b => decide (¬b.location.key < a.location.key) := by
  simp only [classifyLoop, bind_eq_ok, RegionTree.region_eq_ok, require_eq_ok, pure_eq_ok]
  constructor
  · rintro ⟨region, hr, _, hloop, f, hf, flow, hflow, rfl⟩
    exact ⟨region, f, flow, hr, hloop, hf, hflow, rfl⟩
  · rintro ⟨region, f, flow, hr, hloop, hf, hflow, rfl⟩
    exact ⟨region, hr, (), hloop, f, hf, flow, hflow, rfl⟩

theorem mem_classifyLoop (h : classifyLoop t results r liveOut aliases = .ok cs) (hc : c ∈ cs) :
    ∃ region g flow cls, t.region? r = some region ∧ results.summary? r = some g ∧
      results.nodes[region.exit]?.bind (·.flow) = some flow ∧
      c.verdict = LoopFacts.verdict ⟨g, flow.output.must, liveOut, aliases⟩ cls c.location := by
  obtain ⟨region, g, flow, hr, -, hg, hflow, rfl⟩ := classifyLoop_eq_ok.1 h
  rw [List.mem_mergeSort] at hc
  simp only [LoopFacts.candidates, List.mem_flatMap, List.mem_map] at hc
  obtain ⟨cls, -, l, -, rfl⟩ := hc
  exact ⟨region, g, flow, cls, hr, Results.regionFootprint_eq_ok.1 hg,
    Results.nodeFlow_eq_ok.1 hflow, rfl⟩

end Classified

namespace Memory
variable {m : Memory} {t : RegionTree} {region : Region} {r : RegionId} {progress : Progress}
  {liveOut : LocationSet} {cs : List Candidate} {c : Candidate} {l : Location} {es : List Event}
  {i : Inst}

section Verdicts
variable (h : m.analyze t = .ok progress) (hl : t.Linked)
  (hcs : classifyLoop t progress.results r liveOut m.aliases = .ok cs) (hc : c ∈ cs)
include h hl hcs hc

/-- A location is shared as soon as anything is unknown or its address is taken. -/
theorem resolved_of_verdict (hs : c.verdict ≠ .shared) (hd : c.verdict ≠ .dependency)
    (hi : t.Holds r i) : ∃ e, m.effects i = some e ∧ e.unknown = none ∧
      ∀ a ∈ e.accesses, a.isAddressOnly = true ∨ m.escapes a.location = true →
        a.location.base ≠ c.location.base := by
  obtain ⟨region, g, flow, cls, hr, hg, -, hv⟩ := mem_classifyLoop hcs hc
  have hown := LoopFacts.own_of_verdict hv.symm hs hd
  obtain ⟨hk, hb⟩ := LoopFacts.known_of_own (hown.trans_ne hs)
  have hacc := accounts_of_holds h hl hi g hg
  obtain ⟨e, he, hu⟩ := hacc.resolved hk
  refine ⟨e, he, hu, fun a ha hesc hbase => hb ?_⟩
  exact hbase ▸ hacc.addresses a (mem_instEvents he ha) hesc

/-- A location that gets a private copy is not read in an iteration before it is written. -/
theorem covered_of_private (hp : c.verdict.isPrivate = true) (run : m.Started t r es)
    (hm : m.aliases.meets l c.location = true) : ¬m.Exposed l es := by
  intro he
  obtain ⟨region, g, flow, cls, hr, hg, -, hv⟩ := mem_classifyLoop hcs hc
  have hown : LoopFacts.own _ c.location = c.verdict := LoopFacts.own_of_verdict hv.symm
    (by rintro hs; simp [hs, Verdict.isPrivate] at hp)
    (by rintro hs; simp [hs, Verdict.isPrivate] at hp)
  have huse := uses_of_started h hl run g hg l he
  have hno := LoopFacts.unused_of_own (hown ▸ hp)
  rw [Bool.eq_false_iff] at hno
  exact hno (SortedSet.meets_iff.2 ⟨l, huse, hm⟩)

/-- The value of such a location at the end of an iteration was written in that iteration. -/
theorem covered_of_last (hp : c.verdict = .priv ∨ c.verdict = .lastPrivate)
    (hr : t.region? r = some region) (run : m.Run t r region.exit es) :
    m.Covered c.location es := by
  obtain ⟨region', g, flow, cls, hr', hg, hflow, hv⟩ := mem_classifyLoop hcs hc
  obtain rfl : region = region' := Option.some.inj (hr.symm.trans hr')
  have hown : LoopFacts.own _ c.location = c.verdict := LoopFacts.own_of_verdict hv.symm
    (by rintro hs; simp [hs] at hp) (by rintro hs; simp [hs] at hp)
  have hcov := LoopFacts.covered_of_own (hown ▸ hp)
  obtain ⟨region', node, f, x, -, -, hx, hreach⟩ := (arrives_of_run h hl run).reached
  obtain rfl := Option.some.inj (hflow.symm.trans hx.flow)
  obtain ⟨exit, hexit, hkind⟩ := ((valid_of_analyze h).region r region hr).graph.exit
  have hbehind := hreach.transfer
    (vouches_of_across h hl (.pass hexit (.inr hkind)) hx)
  obtain ⟨-, d, hd, hdl⟩ := Reach.covers_iff.1 hcov
  have hw := (hbehind.written d hd).covers hdl
  rw [List.append_nil] at hw
  exact hw.covered

theorem unwritten_of_readOnly (hp : c.verdict = .readOnly) (hi : t.Holds r i) :
    ∃ e, m.effects i = some e ∧ e.unknown = none ∧
      ∀ a ∈ e.accesses, a.write.isAny = true → m.aliases.meets a.location c.location = false := by
  obtain ⟨e, he, hu, -⟩ := resolved_of_verdict h hl hcs hc (by simp [hp]) (by simp [hp]) hi
  refine ⟨e, he, hu, fun a ha hw => ?_⟩
  obtain ⟨region, g, flow, cls, hr, hg, -, hv⟩ := mem_classifyLoop hcs hc
  have hown : LoopFacts.own _ c.location = c.verdict :=
    LoopFacts.own_of_verdict hv.symm (by simp [hp]) (by simp [hp])
  obtain ⟨hd, hmd⟩ := LoopFacts.unwritten_of_own (hown.trans hp)
  rw [Bool.eq_false_iff]
  intro hm
  rcases (accounts_of_holds h hl hi g hg).writes a (mem_instEvents he ha) hw with hw | hw
  · exact absurd hd (by simp [SortedSet.meets_iff.2 ⟨_, hw, hm⟩])
  · exact absurd hmd (by simp [SortedSet.meets_iff.2 ⟨_, hw, hm⟩])

end Verdicts
end Memory

namespace Description
variable {routine : Routine} {model : Model} {settings : Settings} {progress : Progress}
  {r : RegionId} {liveOut : LocationSet} {cs : List Candidate} {c : Candidate}

theorem linked_of_model (h : routine.model = .ok model) (hv : model.tree.Valid) :
    model.tree.Linked := by
  obtain ⟨b, -, hb⟩ := Routine.model_ok h
  rw [hb] at hv ⊢
  exact RegionTree.linked_ofParts hv.indexed

theorem rewinds_of_model (h : routine.model = .ok model) (hv : model.tree.Valid) :
    model.tree.Rewinds := by
  obtain ⟨b, hends, hb⟩ := Routine.model_ok h
  rw [hb] at hv ⊢
  intro r region entry exit hr he hx
  exact hends.succs_exit_subset hv hr he hx

/-- A store to a variable, alone in a loop. -/
def storeLoop : Routine where
  name := "routine"
  vars := [{ name := "x", size := some 8 }]
  loops := [{ name := "loop" }]
  blocks := [{
    name := "block", region := some "loop"
    instructions := [{ operation := .store, target := some "x" }] }]

/-- Verdicts are safe, in every loop of a described routine and in every iteration of a run. A
location with a copy of its own is never touched in ways that the analysis cannot see, and every
read that may overlap it comes after a certain write of the same iteration that covers what is
read. Where the copy of the last iteration is final, every whole iteration surely writes the
location. What is only read is written nowhere in the loop. -/
theorem verdicts_safe (hm : routine.model = .ok model)
    (h : (model.memory settings).analyze model.tree = .ok progress)
    (hcs : classifyLoop model.tree progress.results r liveOut model.aliases.overlap = .ok cs)
    (hc : c ∈ cs) :
    (c.verdict.isPrivate = true →
      (∀ i, model.tree.Holds r i → ∃ e, model.effectOf i = some e ∧ e.unknown = none ∧
        ∀ a ∈ e.accesses, a.isAddressOnly = true ∨ model.mayEscape a.location = true →
          a.location.base ≠ c.location.base) ∧
      ∀ its es, (model.memory settings).Lapping model.tree r its es → ∀ it ∈ its ++ [es],
        ∀ before a after, it = before ++ .access a :: after → a.read.isAny = true →
          model.aliases.overlap.meets a.location c.location = true ∨
            model.aliases.overlap.meets c.location a.location = true →
          (model.memory settings).Covered a.location before) ∧
    (c.verdict = .priv ∨ c.verdict = .lastPrivate →
      ∀ region its n es, model.tree.region? r = some region →
        (model.memory settings).Laps model.tree r its n es →
        (∀ it ∈ its, (model.memory settings).Covered c.location it) ∧
          (n = region.exit → (model.memory settings).Covered c.location es)) ∧
    (c.verdict = .readOnly →
      ∀ i, model.tree.Holds r i → ∃ e, model.effectOf i = some e ∧ e.unknown = none ∧
        ∀ a ∈ e.accesses, a.write.isAny = true →
          model.aliases.overlap.meets a.location c.location = false ∧
            model.aliases.overlap.meets c.location a.location = false) := by
  have hv := Memory.valid_of_analyze h
  have hl := linked_of_model hm hv
  have hb := rewinds_of_model hm hv
  refine ⟨fun hp => ⟨fun i hi => ?_, ?_⟩, fun hp region its n es hr laps => ?_, fun hp i hi => ?_⟩
  · have hs : c.verdict ≠ .shared := by
      rintro hs
      simp [hs, Verdict.isPrivate] at hp
    have hd : c.verdict ≠ .dependency := by
      rintro hd
      simp [hd, Verdict.isPrivate] at hp
    exact Memory.resolved_of_verdict h hl hcs hc hs hd hi
  · intro its es laps it hit before a after he hr hmeet
    have run := laps.started hv hb it hit
    have hmeet : model.aliases.overlap.meets a.location c.location = true := by
      rcases hmeet with hmeet | hmeet
      · exact hmeet
      · rw [model.aliases.meets_comm, hmeet]
    refine Classical.byContradiction fun hn => ?_
    exact Memory.covered_of_private h hl hcs hc hp run hmeet ⟨before, a, after, he, hr, rfl, hn⟩
  · obtain ⟨run, hits⟩ := laps.run hv hb
    refine ⟨fun it hit => ?_, fun hx => ?_⟩
    · obtain ⟨region', hr', hrun⟩ := hits it hit
      exact Memory.covered_of_last h hl hcs hc hp hr' hrun
    · exact Memory.covered_of_last h hl hcs hc hp hr (hx ▸ run)
  · obtain ⟨e, he, hu, hw⟩ := Memory.unwritten_of_readOnly h hl hcs hc hp hi
    refine ⟨e, he, hu, fun a ha hwa => ⟨hw a ha hwa, ?_⟩⟩
    rw [model.aliases.meets_comm]
    exact hw a ha hwa

theorem verdicts_safe_storeLoop : ∃ model progress,
    storeLoop.model = .ok model ∧ (model.memory {}).analyze model.tree = .ok progress ∧
    classifyLoop model.tree progress.results 1 ∅ model.aliases.overlap =
      .ok [⟨⟨1, 0, .bytes 8, none⟩, .priv, false⟩] ∧
    ∀ region its n es, model.tree.region? 1 = some region →
      (model.memory {}).Laps model.tree 1 its n es →
      ∀ it ∈ its, (model.memory {}).Covered ⟨1, 0, .bytes 8, none⟩ it := by
  have hall : (storeLoop.model.toOption.bind fun model =>
      ((model.memory {}).analyze model.tree).toOption.bind fun progress =>
        (classifyLoop model.tree progress.results 1 ∅ model.aliases.overlap).toOption) =
      some [⟨⟨1, 0, .bytes 8, none⟩, .priv, false⟩] := by
    decide +kernel
  obtain ⟨model, hm, hall⟩ := Option.bind_eq_some_iff.1 hall
  obtain ⟨progress, hp, hcs⟩ := Option.bind_eq_some_iff.1 hall
  have hm := eq_ok_of_toOption hm
  have hp := eq_ok_of_toOption hp
  have hcs := eq_ok_of_toOption hcs
  have hsafe := verdicts_safe hm hp hcs (.head _)
  exact ⟨model, progress, hm, hp, hcs, fun region its n es hr laps =>
    (hsafe.2.1 (.inl rfl) region its n es hr laps).1⟩

end Description
end LoopMemory
