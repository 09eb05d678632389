import LoopMemory.Proofs.Solver.Walks

/-! Solving comes to an end on any graph whatever, and on the way there the value behind a node only
goes down. -/
namespace LoopMemory.Problem
variable {p : Problem} {s t : State} {n k : NodeId} {rest : List NodeId} {x : Reaching}

/-- The loop of the solver with no bound on its steps, up to where it ends: the worklist is empty or
a step fails. -/
inductive Ends (p : Problem) : State → State → Option Breach → Prop
  | idle {s : State} (hq : s.queue = []) : Ends p s s none
  | fail {s : State} {n : NodeId} {rest : List NodeId} {e : Breach} (hq : s.queue = n :: rest)
      (he : p.step s n rest = .error e) : Ends p s s (some e)
  | next {s t u : State} {n : NodeId} {rest : List NodeId} {e : Option Breach}
      (hq : s.queue = n :: rest) (ht : p.step s n rest = .ok t) (ends : Ends p t u e) : Ends p s u e

/-- A run with fuel is the loop, if it did not stop for want of fuel. -/
theorem ends_of_run {e : Option Breach} (fuel : Nat) (s : State) (h : p.run fuel s = (t, e))
    (hq : e = none → t.queue = []) : p.Ends s t e := by
  induction fuel generalizing s with
  | zero =>
    obtain ⟨rfl, rfl⟩ := Prod.mk.inj h
    exact .idle (hq rfl)
  | succ fuel ih =>
    rw [run] at h
    split at h
    · rename_i hs
      obtain ⟨rfl, rfl⟩ := Prod.mk.inj h
      exact .idle hs
    · rename_i n rest hs
      split at h
      · rename_i b hb
        obtain ⟨rfl, rfl⟩ := Prod.mk.inj h
        exact .fail hs hb
      · rename_i u hu
        exact .next hs hu (ih u h)

/-- What the solver answers where its loop ends. -/
def State.answer (p : Problem) (s : State) : Option Breach → Except Breach Solution
  | none => .ok (s.solution p)
  | some e => .error e

theorem solveTraced_eq : p.solveTraced =
    ((p.run p.stepBound p.begin).1.trace,
      (p.run p.stepBound p.begin).1.answer p (p.run p.stepBound p.begin).2) := by
  unfold solveTraced
  cases p.run p.stepBound p.begin with
  | mk s e => cases e <;> rfl

/-- The values that were stored behind a node, in order. -/
def observed (trace : List (NodeId × Reaching)) (n : NodeId) : List Reaching :=
  trace.filterMap fun e => if e.1 = n then some e.2 else none

theorem observed_snoc (trace : List (NodeId × Reaching)) : observed (trace ++ [(k, x)]) n =
    if k = n then observed trace n ++ [x] else observed trace n := by
  by_cases h : k = n <;> simp [observed, List.filterMap_append, h]

theorem observed_tops (ns : List NodeId) :
    observed (ns.map fun k => (k, .top)) n = List.replicate (ns.count n) .top := by
  induction ns with
  | nil => rfl
  | cons k ns ih =>
    have ih : (ns.map fun k => (k, Reaching.top)).filterMap _ = _ := ih
    by_cases h : k = n <;> simp [observed, h, ih, List.replicate_succ]

/- What a run keeps: the last value stored behind a node is the one that counts, and none lies above
   the one before it. -/
structure Descends (s : State) : Prop where
  chain : ∀ n, (observed s.trace n).IsChain fun x y => y ≤ x
  last : ∀ n, (observed s.trace n).getLast? = s.outputs.get? n

theorem descends_begin : Descends p.begin := by
  refine ⟨fun n => ?_, fun n => ?_⟩
  · simp only [begin, observed_tops]
    exact List.isChain_replicate_of_rel _ (Reaching.le_refl _)
  · rw [get?_begin_outputs]
    simp only [begin, observed_tops, List.getLast?_replicate, List.count_eq_zero]
    by_cases h : n ∈ p.region.nodes <;> simp [h]

theorem Descends.step (h : Descends s) (hb : p.Budget s) (ht : p.Steps s n rest t) :
    Descends t := by
  cases ht with
  | same => exact ⟨h.chain, h.last⟩
  | @change node f x hn hf hx hy =>
    refine ⟨fun k => ?_, fun k => ?_⟩
    · simp only [enqueue_all_trace, State.store, State.visit, observed_snoc]
      split
      · rename_i hnk
        subst hnk
        refine List.isChain_append.2 ⟨h.chain n, List.isChain_singleton _, fun y hlast z hz => ?_⟩
        obtain rfl : x.transfer p.aliases f = z := by simpa using hz
        rw [h.last] at hlast
        exact hx ▸ hb.lowered n node f y hn hf hlast
      · exact h.chain k
    · simp only [enqueue_all_trace, enqueue_all_outputs, State.store, State.visit, observed_snoc,
        NodeMap.get?_set]
      by_cases hkn : k = n
      · subst hkn
        simp
      · rw [if_neg (Ne.symm hkn), if_neg hkn]
        exact h.last k

theorem run_descends (fuel : Nat) :
    p.Budget (p.run fuel p.begin).1 ∧ Descends (p.run fuel p.begin).1 :=
  run_inv (fun s => p.Budget s ∧ Descends s)
    (fun _ _ _ _ h hq ht => ⟨h.1.step hq ht, h.2.step h.1 ht⟩) fuel p.begin
    ⟨budget_begin, descends_begin⟩

/-- A block that the region does not list, between two visits of one that it does. -/
def straying : Problem where
  tree := .ofParts "routine" #[]
    #[⟨0, 0, .entry, [2], []⟩, ⟨1, 0, .exit, [], []⟩, ⟨2, 0, .block [0], [1, 3], []⟩,
      ⟨3, 1, .block [1], [2], []⟩]
  region := { id := 0, name := "routine", kind := .body, entry := 0, exit := 1, nodes := [0, 1, 2] }
  footprints := overwriting.footprints
  aliases := overwriting.aliases

/-- The loop of the solver ends on every tree, well formed or not. No value stored behind a node
lies above the one before it, the last one is the solution's, and the numbers of changes and of
steps have the bounds that the heights of the values set. -/
theorem solve_descends (p : Problem) :
    (∃ s e, p.Ends p.begin s e ∧ p.solveTraced = (s.trace, s.answer p e)) ∧
    (∀ n, (observed p.solveTraced.1 n).IsChain fun x y => y ≤ x) ∧
    ∀ sol, p.solve = .ok sol →
      (∀ n, (observed p.solveTraced.1 n).getLast? = sol.outputs.get? n) ∧
      sol.stats.changed ≤ p.tree.nodes.size * (2 + p.defs.size + p.writes.size) ∧
      sol.stats.transfers ≤ p.region.nodes.length + sol.stats.changed * p.maxSuccs := by
  obtain ⟨hb, hd⟩ := @run_descends p p.stepBound
  have htrace : p.solveTraced.1 = (p.run p.stepBound p.begin).1.trace := by rw [solveTraced_eq]
  refine ⟨⟨_, _, ends_of_run _ _ rfl fun he => ?_, solveTraced_eq⟩, fun n => ?_, fun sol hsol => ?_⟩
  · exact run_queue _ _ budget_begin (Nat.le_add_right _ _) (Prod.ext rfl he)
  · rw [htrace]
    exact hd.chain n
  · obtain ⟨s, hs, rfl⟩ := solve_eq_ok hsol
    rw [hs] at htrace hb hd
    refine ⟨fun n => ?_, Nat.le_trans (Nat.le_add_right _ _) hb.changes,
      Nat.le_trans (Nat.le_add_right _ _) hb.entries⟩
    rw [htrace]
    exact hd.last n

theorem solve_descends_straying : ∃ sol, straying.solve = .ok sol ∧
    straying.tree.validate = .error (.noRoot "routine") ∧
    observed straying.solveTraced.1 2 = [.top,
      ⟨.only (.ofList [wholeVar]), .only (.ofList [wholeVar])⟩,
      ⟨.only (.ofList [wholeVar]), .only (.ofList [wholeVar, upperPart])⟩] ∧
    (observed straying.solveTraced.1 2).IsChain (fun x y => y ≤ x) ∧
    (observed straying.solveTraced.1 2).getLast? = sol.outputs.get? 2 ∧
    sol.stats.changed ≤ 4 * (2 + 2 + 2) ∧ sol.stats.transfers ≤ 3 + sol.stats.changed * 2 := by
  obtain ⟨-, hchain, hok⟩ := solve_descends straying
  cases h : straying.solve with
  | error e =>
    have hsolved : straying.solve.isOk = true := by decide +kernel
    rw [h] at hsolved
    cases hsolved
  | ok sol =>
    obtain ⟨hlast, hchanged, htransfers⟩ := hok sol h
    exact ⟨sol, rfl, by decide +kernel, by decide +kernel, hchain 2, hlast 2, hchanged, htransfers⟩

end LoopMemory.Problem
