import LoopMemory.Description.Analysis
import LoopMemory.Proofs.Analysis.Complete
import LoopMemory.Proofs.Analysis.Total
import LoopMemory.Proofs.Description.Overlong
import LoopMemory.Proofs.Privatization

/-! What can be lowered can be analysed and reported on, so that a description is only ever refused
for what is wrong with itself. A program that checks its arithmetic may end instead, at a range in an
expected text that no offset can count. -/
namespace LoopMemory.Description
variable {routine : Routine} {model : Model} {settings : Settings} {progress : Progress}
  {arith : Arithmetic}

theorem Model.analyze_eq {m : Model} (h : (m.memory settings).analyze m.tree = .ok progress) :
    m.analyze arith settings = m.report arith progress.results := by
  rw [analyze, h]
  rfl

/- An accepted routine. -/
section Accepted
variable (hm : routine.model = .ok model)
include hm

theorem blockFootprint_of_model (insts : List Inst) :
    ∃ f, (model.memory settings).blockFootprint insts = .ok f := by
  obtain ⟨-, -, -, hunknown⟩ := Routine.lowered hm
  refine Memory.blockFootprint_ok fun i u hevent => ?_
  obtain ⟨j, -, hevent⟩ := List.mem_flatMap.1 hevent
  suffices h : u = .conservative by rw [h]; rfl
  obtain ⟨-, ⟨-, hu⟩ | ⟨e, he, hu⟩⟩ := Memory.unknown_mem_instEvents.1 hevent
  · exact hu
  · exact hunknown j e u he hu

theorem analyze_of_model :
    ∃ progress, (model.memory settings).analyze model.tree = .ok progress := by
  obtain ⟨hv, hl, hnest, -⟩ := Routine.lowered hm
  exact Memory.analyze_ok_of_nested hv hl hnest fun _ _ insts _ _ =>
    blockFootprint_of_model hm insts

theorem ofResults_ok {r : RegionId} {region : Region}
    (h : (model.memory settings).analyze model.tree = .ok progress)
    (hr : model.tree.region? r = some region) :
    ∃ report, RegionReport.ofResults model progress.results region = .ok report := by
  obtain ⟨hv, -, hnest, -⟩ := Routine.lowered hm
  obtain rfl := (hv.region r region hr).id
  obtain ⟨f, flow, _, hf, hflow, -⟩ := Memory.exists_region_facts h hr
  simp only [RegionReport.ofResults, bind_eq_ok]
  by_cases hloop : region.isLoop = true
  · obtain ⟨cs, hcs⟩ := Memory.classifyLoop_ok h hr hloop (model.liveAfter region.id)
      model.aliases.overlap
    exact ⟨_, f, hf, flow, hflow, by rw [if_pos hloop, hcs]; rfl⟩
  · exact ⟨_, f, hf, flow, hflow, by rw [if_neg hloop]; rfl⟩

theorem regions_of_analyze (h : (model.memory settings).analyze model.tree = .ok progress) :
    ∃ regions, model.tree.regions.toList.mapM (RegionReport.ofResults model progress.results) =
      .ok regions := by
  refine mapM_ok fun region hmem => ?_
  obtain ⟨r, hr⟩ := Array.getElem?_of_mem (Array.mem_toList_iff.1 hmem)
  exact ofResults_ok hm h hr

end Accepted

/- The faults of a description. -/

theorem mem_partition {ε α : Type} {l : List (Except ε α)} :
    (∀ a, a ∈ (partition l).1 ↔ .ok a ∈ l) ∧ ∀ e, e ∈ (partition l).2 ↔ .error e ∈ l := by
  induction l with
  | nil => simp [partition]
  | cons x l ih => cases x <;> simp [partition, ih]

theorem mem_models {d : Description} :
    model ∈ (partition (d.routines.map Routine.modelOrFault)).1 ↔
      ∃ r ∈ d.routines, r.model = .ok model := by
  simp only [mem_partition.1, List.mem_map, Routine.modelOrFault, mapError_eq_ok]

/-- The analysis that a computation ended with, unless the program or the analysis broke off. -/
theorem eq_ok_of_analysis {x : Except Overflow (Except Failure Analysed)} {a : Analysed}
    (h : (x.toOption.bind Except.toOption) = some a) : x = .ok (.ok a) := by
  obtain ⟨outcome, hx, ha⟩ := Option.bind_eq_some_iff.1 h
  rw [eq_ok_of_toOption hx, eq_ok_of_toOption ha]

/-- A block in a loop that is not there. -/
def misplaced : Routine where
  name := "misplaced"
  blocks := [{ name := "block", region := some "loop" }]

end LoopMemory.Description
