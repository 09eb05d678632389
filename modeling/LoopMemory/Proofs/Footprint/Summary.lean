import LoopMemory.Proofs.Footprint
import LoopMemory.Proofs.Reaching

/-! The summary of a solved region, read off the footprints of its nodes. -/
namespace LoopMemory.Problem
variable {p : Problem} {sol : Solution} {exiting : Reaching} {settings : Settings}
  {n : NodeId} {nodes : List NodeId} {sum g : Footprint} {l : Location} {b : Base}

/-- The footprint of a node and the value in front of it. -/
def Has (p : Problem) (sol : Solution) (n : NodeId) (f : Footprint) (x : Reaching) : Prop :=
  p.footprints.get? n = some f ∧ sol.inputs.get? n = some x

theorem absorbNode_eq_ok : p.absorbNode sol exiting sum n = .ok g ↔
    ∃ f x, p.Has sol n f x ∧ g = sum.absorb p.aliases exiting x f := by
  unfold absorbNode Has
  cases p.footprints.get? n with
  | none => simp
  | some f =>
    cases sol.inputs.get? n with
    | none => simp
    | some x => simp [eq_comm (a := g)]

theorem Has.absorbNode_eq {f : Footprint} {x : Reaching} (h : p.Has sol n f x) :
    p.absorbNode sol exiting sum n = .ok (sum.absorb p.aliases exiting x f) :=
  absorbNode_eq_ok.2 ⟨f, x, h, rfl⟩

/-- What a summary has, it has from one of the nodes. -/
theorem absorbed_iff {P : Footprint → Prop} {Q : Footprint → Reaching → Prop}
    (h : nodes.foldlM (p.absorbNode sol exiting) {} = .ok sum) (start : ¬P {})
    (step : ∀ sum f x, P (sum.absorb p.aliases exiting x f) ↔ P sum ∨ Q f x) :
    P sum ↔ ∃ n ∈ nodes, ∃ f x, p.Has sol n f x ∧ Q f x := by
  refine foldlM_inv (fun done sum => P sum ↔ ∃ n ∈ done, ∃ f x, p.Has sol n f x ∧ Q f x) h
    (by simp [start]) ?_
  rintro before n after s u - ih hu
  obtain ⟨f, x, ⟨hf, hx⟩, rfl⟩ := absorbNode_eq_ok.1 hu
  rw [step, ih]
  constructor
  · rintro (⟨k, hk, hq⟩ | hq)
    · exact ⟨k, List.mem_append_left _ hk, hq⟩
    · exact ⟨n, List.mem_append_right _ (.head _), f, x, ⟨hf, hx⟩, hq⟩
  · rintro ⟨k, hk, f', x', ⟨hf', hx'⟩, hq⟩
    rcases List.mem_append.1 hk with hk | hk
    · exact .inl ⟨k, hk, f', x', ⟨hf', hx'⟩, hq⟩
    · rw [List.mem_singleton.1 hk] at hf' hx'
      rw [hf] at hf'
      rw [hx] at hx'
      cases hf'
      cases hx'
      exact .inr hq

theorem collapse_eq_ok : p.collapse sol settings = .ok g ↔
    ∃ exiting sum, sol.outputs.get? p.region.exit = some exiting ∧
      p.region.nodes.foldlM (p.absorbNode sol exiting) {} = .ok sum ∧
      g = (if p.region.runsOnce settings then sum else sum.downgrade).widen p.region.isLoop := by
  unfold collapse
  cases sol.outputs.get? p.region.exit with
  | none => simp
  | some exiting => simp [map_eq_ok, eq_comm (a := g)]

/-- A region whose nodes all have footprints and values has a summary. -/
theorem collapse_ok (hn : ∀ n ∈ p.region.nodes, ∃ f x, p.Has sol n f x)
    (hx : ∃ y, sol.outputs.get? p.region.exit = some y) :
    ∃ g, p.collapse sol settings = .ok g := by
  obtain ⟨y, hy⟩ := hx
  obtain ⟨sum, hs, -⟩ := foldlM_ok (l := p.region.nodes) (f := p.absorbNode sol y) (s := {})
    (fun _ _ => True) trivial (fun before n after s hl _ => by
      obtain ⟨f, x, hfx⟩ := hn n (by simp [hl])
      exact ⟨_, absorbNode_eq_ok.2 ⟨f, x, hfx, rfl⟩, trivial⟩)
  exact ⟨_, collapse_eq_ok.2 ⟨y, sum, hy, hs, rfl⟩⟩

section Collapse
variable (h : p.collapse sol settings = .ok g)
include h

theorem mem_uses_collapse (hn : n ∈ p.region.nodes) {f : Footprint} {x : Reaching}
    (hfx : p.Has sol n f x) (hl : l ∈ f.uses) (hc : x.must.covers l = false) : l ∈ g.uses := by
  obtain ⟨exiting, sum, -, hsum, rfl⟩ := collapse_eq_ok.1 h
  have hu : l ∈ sum.uses := (absorbed_iff (P := fun s => l ∈ s.uses) hsum (by simp) fun _ _ _ =>
    Footprint.mem_uses_absorb).2 ⟨n, hn, f, x, hfx, hl, hc⟩
  apply Footprint.mem_uses_widen
  split
  · exact hu
  · exact hu

theorem mem_defs_collapse : l ∈ g.defs ↔ p.region.runsOnce settings = true ∧
    ∃ y, sol.outputs.get? p.region.exit = some y ∧ y.must.covers l = true ∧
      ∃ n ∈ p.region.nodes, ∃ f x, p.Has sol n f x ∧ l ∈ f.defs := by
  obtain ⟨exiting, sum, hy, hsum, rfl⟩ := collapse_eq_ok.1 h
  have hd : l ∈ sum.defs ↔ _ :=
    absorbed_iff (P := fun s => l ∈ s.defs) hsum (by simp) fun _ _ _ => Footprint.mem_defs_absorb
  rw [Footprint.defs_widen]
  split
  · rename_i hr
    rw [hd]
    constructor
    · rintro ⟨n, hn, f, x, hfx, hl, hc⟩
      exact ⟨hr, exiting, hy, hc, n, hn, f, x, hfx, hl⟩
    · rintro ⟨-, y, hy', hc, n, hn, f, x, hfx, hl⟩
      rw [hy] at hy'
      exact ⟨n, hn, f, x, hfx, hl, Option.some.inj hy' ▸ hc⟩
  · rename_i hr
    simp [hr]

/-- No write of a node is lost. -/
theorem written_collapse (hn : n ∈ p.region.nodes) {f : Footprint} {x : Reaching}
    (hfx : p.Has sol n f x) (hl : l ∈ f.defs ∨ l ∈ f.mayDefs) : l ∈ g.defs ∨ l ∈ g.mayDefs := by
  obtain ⟨exiting, sum, -, hsum, rfl⟩ := collapse_eq_ok.1 h
  have hw : l ∈ sum.defs ∨ l ∈ sum.mayDefs := by
    by_cases hd : l ∈ f.defs ∧ exiting.must.covers l = true
    · exact .inl ((absorbed_iff (P := fun s => l ∈ s.defs) hsum (by simp) fun _ _ _ =>
        Footprint.mem_defs_absorb).2 ⟨n, hn, f, x, hfx, hd⟩)
    · refine .inr ((absorbed_iff (P := fun s => l ∈ s.mayDefs) hsum (by simp) fun _ _ _ =>
        Footprint.mem_mayDefs_absorb).2 ⟨n, hn, f, x, hfx, ?_⟩)
      rcases hl with hl | hl
      · exact .inl ⟨hl, Bool.eq_false_iff.2 fun hc => hd ⟨hl, hc⟩⟩
      · exact .inr hl
  rw [Footprint.defs_widen]
  split
  · exact hw.imp_right Footprint.mem_mayDefs_widen
  · exact .inr (Footprint.mem_mayDefs_widen (Footprint.mem_mayDefs_downgrade.2 hw.symm))

/-- Where nothing is unknown, no write is made up either. -/
theorem written_collapse_iff (hu : g.hasUnknown = false) : l ∈ g.defs ∨ l ∈ g.mayDefs ↔
    ∃ n ∈ p.region.nodes, ∃ f x, p.Has sol n f x ∧ (l ∈ f.defs ∨ l ∈ f.mayDefs) := by
  constructor
  swap
  · rintro ⟨n, hn, f, x, hfx, hl⟩
    exact written_collapse h hn hfx hl
  intro hl
  obtain ⟨exiting, sum, -, hsum, rfl⟩ := collapse_eq_ok.1 h
  rw [Footprint.hasUnknown, Footprint.unknown_widen] at hu
  rw [Footprint.widen_of_known hu] at hl
  have hl : l ∈ sum.defs ∨ l ∈ sum.mayDefs := by
    split at hl
    · exact hl
    · simpa [or_comm] using hl
  rcases hl with hl | hl
  · obtain ⟨n, hn, f, x, hfx, hd, -⟩ := (absorbed_iff (P := fun s => l ∈ s.defs) hsum (by simp)
      fun _ _ _ => Footprint.mem_defs_absorb).1 hl
    exact ⟨n, hn, f, x, hfx, .inl hd⟩
  · obtain ⟨n, hn, f, x, hfx, hd⟩ := (absorbed_iff (P := fun s => l ∈ s.mayDefs) hsum (by simp)
      fun _ _ _ => Footprint.mem_mayDefs_absorb).1 hl
    exact ⟨n, hn, f, x, hfx, hd.imp_left And.left⟩

theorem mem_addresses_collapse : b ∈ g.addresses ↔
    ∃ n ∈ p.region.nodes, ∃ f x, p.Has sol n f x ∧ b ∈ f.addresses := by
  obtain ⟨exiting, sum, -, hsum, rfl⟩ := collapse_eq_ok.1 h
  rw [Footprint.addresses_widen, apply_ite Footprint.addresses, Footprint.addresses_downgrade,
    ite_self]
  exact absorbed_iff (P := fun f => b ∈ f.addresses) hsum (by simp) fun _ _ _ =>
    Footprint.mem_addresses_absorb

theorem hasUnknownWrites_collapse : g.hasUnknownWrites = true ↔
    ∃ n ∈ p.region.nodes, ∃ f x, p.Has sol n f x ∧ f.hasUnknownWrites = true := by
  obtain ⟨exiting, sum, -, hsum, rfl⟩ := collapse_eq_ok.1 h
  rw [Footprint.hasUnknownWrites, Footprint.unknown_widen, apply_ite Footprint.unknown,
    Footprint.unknown_downgrade, ite_self]
  exact absorbed_iff (P := fun f => f.hasUnknownWrites = true) hsum (by simp) fun _ _ _ => by
    rw [Footprint.hasUnknownWrites_absorb, Bool.or_eq_true]

theorem hasUnknown_collapse : g.hasUnknown = true ↔
    ∃ n ∈ p.region.nodes, ∃ f x, p.Has sol n f x ∧ f.hasUnknown = true := by
  obtain ⟨exiting, sum, -, hsum, rfl⟩ := collapse_eq_ok.1 h
  rw [Footprint.hasUnknown, Footprint.unknown_widen, apply_ite Footprint.unknown,
    Footprint.unknown_downgrade, ite_self]
  exact absorbed_iff (P := fun f => f.hasUnknown = true) hsum (by simp) fun _ _ _ =>
    Footprint.hasUnknown_absorb

end Collapse
end LoopMemory.Problem
