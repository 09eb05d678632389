import LoopMemory.Proofs.Inventory

/-! Runs taken apart at one of their events: what happened before the run came to the node of that
event, what happened inside the node, and what happened after the run had left it. -/
namespace LoopMemory.Memory
variable {m : Memory} {t : RegionTree} {region : Region} {r : RegionId} {n : NodeId} {e : Event}
  {es es' es'' before after : List Event}

/-- A run of a region that breaks off inside a block or a loop: what happened up to the arrival
there, and what happened since. -/
inductive Inside (m : Memory) (t : RegionTree) (r : RegionId) : List Event → List Event → Prop
  | block {n : NodeId} {node : Node} {insts : List Inst} {es es' rest : List Event}
      (run : Run m t r n es) (hn : t.node? n = some node) (hk : node.kind = .block insts)
      (hs : es' ++ rest = m.blockEvents insts) : Inside m t r es es'
  | loop {n : NodeId} {node : Node} {c : RegionId} {es es' : List Event}
      (run : Run m t r n es) (hn : t.node? n = some node) (hk : node.kind = .region c)
      (within : Started m t c es') : Inside m t r es es'

/-- A run that arrives at a node after it passed another one: what happened up to that one, in it,
and on the way from there. -/
inductive Passed (m : Memory) (t : RegionTree) (r : RegionId) :
    NodeId → List Event → List Event → List Event → Prop
  | leave {n k : NodeId} {node : Node} {es es' : List Event} (run : Run m t r n es)
      (ha : Across m t n es') (hn : t.node? n = some node) (hk : k ∈ node.succs) :
      Passed m t r k es es' []
  | move {n k : NodeId} {node : Node} {es es' es'' way : List Event}
      (run : Passed m t r n es es' es'') (ha : Across m t n way) (hn : t.node? n = some node)
      (hk : k ∈ node.succs) : Passed m t r k es es' (es'' ++ way)

theorem Inside.started (h : m.Inside t r es es') : m.Started t r (es ++ es') := by
  cases h with
  | block run hn hk hs => exact .block run hn hk hs
  | loop run hn hk within => exact .loop run hn hk within

theorem Passed.run (h : m.Passed t r n es es' es'') : m.Run t r n (es ++ es' ++ es'') := by
  induction h with
  | leave run ha hn hk => simpa using run.step ha hn hk
  | move run ha hn hk ih => simpa using ih.step ha hn hk

/-- Every event of a run lies in some node that the run has passed. -/
theorem Run.passed (run : m.Run t r n es) : ∀ before e after, es = before ++ e :: after →
    ∃ pre mid rest tail, before = pre ++ mid ∧ after = rest ++ tail ∧
      m.Passed t r n pre (mid ++ e :: rest) tail := by
  refine run.along (P := fun n es => ∀ before e after, es = before ++ e :: after →
    ∃ pre mid rest tail, before = pre ++ mid ∧ after = rest ++ tail ∧
      m.Passed t r n pre (mid ++ e :: rest) tail) (by simp) ?_
  intro n k node es way run ih hn hk ha before e after he
  rcases split_append he with ⟨gone, hes⟩ | ⟨mid, rfl, rfl⟩
  · obtain ⟨pre, mid, rest, tail, rfl, rfl, hp⟩ := ih before e gone hes
    have hafter : after = rest ++ (tail ++ way) := by
      rw [hes] at he
      simpa using he.symm
    exact ⟨pre, mid, rest, tail ++ way, rfl, hafter, hp.move ha hn hk⟩
  · exact ⟨es, mid, after, [], rfl, by simp, .leave run ha hn hk⟩

/-- Up to any of its events, a run breaks off inside the node of that event. -/
theorem Run.inside (run : m.Run t r n es) : ∀ before e after, es = before ++ e :: after →
    ∃ pre mid, before = pre ++ mid ∧ m.Inside t r pre (mid ++ [e]) := by
  induction run with
  | enter => simp
  | pass run hn hk hs ih => exact ih
  | skip run hn hk hc hz hs ih => exact ih
  | @block r n k node es insts run hn hk hs ih =>
    intro before e after he
    rcases split_append he with ⟨gone, hes⟩ | ⟨mid, rfl, hes⟩
    · exact ih before e gone hes
    · have hsplit : mid ++ [e] ++ after = m.blockEvents insts := by simp [hes]
      exact ⟨es, mid, rfl, .block run hn hk hsplit⟩
  | @loop r c n k node inner es es' run hn hk hc within hs ih ihw =>
    intro before e after he
    rcases split_append he with ⟨gone, hes⟩ | ⟨mid, rfl, hes⟩
    · exact ih before e gone hes
    · obtain ⟨pre, mid, rfl, hin⟩ := ihw mid e after hes
      exact ⟨es, pre ++ mid, rfl, .loop run hn hk (by simpa using hin.started)⟩

theorem Started.inside (run : m.Started t r es) : ∀ before e after, es = before ++ e :: after →
    ∃ pre mid, before = pre ++ mid ∧ m.Inside t r pre (mid ++ [e]) := by
  induction run with
  | arrived run => exact run.inside
  | @block r n node insts es es' rest run hn hk hs =>
    intro before e after he
    rcases split_append he with ⟨gone, hes⟩ | ⟨mid, rfl, rfl⟩
    · exact run.inside before e gone hes
    · have hsplit : mid ++ [e] ++ (after ++ rest) = m.blockEvents insts := by simpa using hs
      exact ⟨es, mid, rfl, .block run hn hk hsplit⟩
  | @loop r c n node es es' run hn hk within ih =>
    intro before e after he
    rcases split_append he with ⟨gone, hes⟩ | ⟨mid, rfl, hes⟩
    · exact run.inside before e gone hes
    · obtain ⟨pre, mid, rfl, hin⟩ := ih mid e after hes
      exact ⟨es, pre ++ mid, rfl, .loop run hn hk (by simpa using hin.started)⟩

/- What happens in a region is done by its instructions. -/

theorem Run.mem (hv : t.Valid) (run : m.Run t r n es) :
    ∃ region, t.region? r = some region ∧ n ∈ region.nodes := by
  refine run.along (P := fun n _ => ∃ region, t.region? r = some region ∧ n ∈ region.nodes)
    (fun region hr => ⟨region, hr, hv.entry_mem hr⟩) ?_
  rintro n k node es es' - ⟨region, hr, hn⟩ hnode hk -
  exact ⟨region, hr, hv.succ_mem hr hn hnode hk⟩

/- The events inside a node are ones of its region. -/
theorem Run.mem_eventsIn_of_node {node : Node} (hv : t.Valid) (run : m.Run t r n es)
    (hn : t.node? n = some node) (he : e ∈ m.eventsOf t node.kind) : e ∈ m.eventsIn t r := by
  obtain ⟨region, hr, hmem⟩ := run.mem hv
  exact (mem_eventsIn hr).2 ⟨n, hmem, node, hn, he⟩

theorem Run.mem_eventsIn (hv : t.Valid) (run : m.Run t r n es) : ∀ e ∈ es, e ∈ m.eventsIn t r := by
  induction run with
  | enter => simp
  | pass run hn hk hs ih => exact ih
  | skip run hn hk hc hz hs ih => exact ih
  | block run hn hk hs ih =>
    intro e he
    rcases List.mem_append.1 he with he | he
    · exact ih e he
    · exact run.mem_eventsIn_of_node hv hn (by rw [hk]; exact he)
  | loop run hn hk hc within hs ih ihw =>
    intro e he
    rcases List.mem_append.1 he with he | he
    · exact ih e he
    · exact run.mem_eventsIn_of_node hv hn (by rw [hk]; exact ihw e he)

theorem Started.mem_eventsIn (hv : t.Valid) (run : m.Started t r es) :
    ∀ e ∈ es, e ∈ m.eventsIn t r := by
  induction run with
  | arrived run => exact run.mem_eventsIn hv
  | block run hn hk hs =>
    intro e he
    rcases List.mem_append.1 he with he | he
    · exact run.mem_eventsIn hv e he
    · refine run.mem_eventsIn_of_node hv hn ?_
      rw [hk, eventsOf, ← hs]
      exact List.mem_append_left _ he
  | loop run hn hk within ih =>
    intro e he
    rcases List.mem_append.1 he with he | he
    · exact run.mem_eventsIn hv e he
    · exact run.mem_eventsIn_of_node hv hn (by rw [hk]; exact ih e he)

theorem Across.mem_eventsOf {node : Node} (hv : t.Valid) (ha : m.Across t n es)
    (hn : t.node? n = some node) : ∀ e ∈ es, e ∈ m.eventsOf t node.kind := by
  cases ha with
  | pass | skip => simp
  | block hn' hk =>
    obtain rfl := Option.some.inj (hn.symm.trans hn')
    rw [hk]
    exact fun e he => he
  | loop hn' hk hc within =>
    obtain rfl := Option.some.inj (hn.symm.trans hn')
    rw [hk]
    exact within.mem_eventsIn hv

end LoopMemory.Memory
