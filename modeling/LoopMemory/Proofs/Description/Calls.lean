import LoopMemory.Proofs.Description.Lowering
import LoopMemory.Proofs.Region.Calls

/-! Lowering makes calls on a builder and nothing else, with ids that the builder handed out. -/
namespace LoopMemory.Description
open TreeBuilder

namespace Draft
variable {routine : Routine} {names : Names} {d d' : Draft} {l : LoopEntry} {b : BlockEntry}
  {r p : RegionId} {n k : NodeId} {name x : String} {parent entry : Option String}

/-- Calls lead to the draft, and its tables hold ids that were handed out. -/
structure Called (name : String) (d : Draft) : Prop where
  calls : ∃ steps, (TreeBuilder.new name).KnowsAll steps ∧
    d.builder = (TreeBuilder.new name).run steps
  regions : ∀ e ∈ d.regions, e.2 < d.builder.regions.size
  nodes : ∀ e ∈ d.nodes, e.2 < d.builder.nodes.size

theorem exists_of_connectEntry {entry : Option String}
    (hd : d.connectEntry routine r entry = .ok d') : ∃ first,
      (∀ n, first = some n →
        (∃ name, d.node name r = .ok n) ∨ d.firstNode? routine r = some n) ∧
      d' = { d with
        builder := d.builder.addEdge (d.builder.entry r) (first.getD (d.builder.exit r)) } := by
  cases entry with
  | none =>
    simp only [Draft.connectEntry, bind_eq_ok, pure_eq_ok] at hd
    obtain ⟨first, hfirst, rfl⟩ := hd
    exact ⟨first, fun n hn => .inr (hfirst.trans hn), rfl⟩
  | some name =>
    simp only [Draft.connectEntry, bind_eq_ok, pure_eq_ok, map_eq_ok] at hd
    obtain ⟨first, ⟨k, hk, rfl⟩, rfl⟩ := hd
    exact ⟨some k, fun n hn => .inl ⟨name, Option.some.inj hn ▸ hk⟩, rfl⟩

namespace Called

theorem tidy (h : d.Called name) : d.builder.Tidy := by
  obtain ⟨steps, hs, hrun⟩ := h.calls
  exact hrun ▸ ((tidy_new name).run hs).1

theorem call (h : d.Called name) {s : Step} (hs : d.builder.Knows s) :
    ∃ steps, (TreeBuilder.new name).KnowsAll steps ∧
      d.builder.apply s = (TreeBuilder.new name).run steps := by
  obtain ⟨steps, hsteps, hrun⟩ := h.calls
  exact ⟨steps ++ [s], knowsAll_append.2 ⟨hsteps, hrun ▸ hs⟩, by rw [run_append, hrun]⟩

theorem region_lt (h : d.Called name) (hp : d.region? parent = some r) :
    r < d.builder.regions.size := by
  cases parent with
  | none =>
    obtain rfl := Option.some.inj hp
    obtain ⟨body, hbody, -⟩ := h.tidy.sound.body
    exact TreeBuilder.region_lt hbody
  | some x => exact h.regions (x, r) (mem_of_lookup hp)

theorem lookup_lt (h : d.Called name) (hn : d.nodes.lookup x = some n) :
    n < d.builder.nodes.size := h.nodes (x, n) (mem_of_lookup hn)

theorem entry_lt (h : d.Called name) (hr : r < d.builder.regions.size) :
    d.builder.entry r < d.builder.nodes.size := by
  obtain ⟨region, hregion⟩ := exists_region hr
  exact stem?_lt (h.tidy.sound.entry hregion)

theorem exit_lt (h : d.Called name) (hr : r < d.builder.regions.size) :
    d.builder.exit r < d.builder.nodes.size := by
  obtain ⟨region, hregion⟩ := exists_region hr
  exact stem?_lt (h.tidy.sound.exit hregion)

theorem node_lt (h : d.Called name) (hr : r < d.builder.regions.size)
    (hn : d.node x r = .ok n) : n < d.builder.nodes.size := by
  unfold Draft.node at hn
  split at hn
  · exact Except.ok.inj hn ▸ h.exit_lt hr
  · split at hn
    · cases hn
    · rename_i n' hlookup
      simp only [bind_eq_ok, pure_eq_ok] at hn
      obtain ⟨-, -, rfl⟩ := hn
      exact h.lookup_lt hlookup

theorem firstNode?_lt (h : d.Called name) (hn : d.firstNode? routine r = some n) :
    n < d.builder.nodes.size := by
  obtain ⟨x, -, hlookup⟩ := Option.bind_eq_some_iff.1 hn
  exact h.lookup_lt hlookup

/- Only the body has no node that stands for it. -/
theorem standIn_lt (h : d.Called name) (hr : r < d.builder.regions.size)
    (hn : d.builder.standIn? r = some n) : n < d.builder.nodes.size := by
  obtain ⟨region, hregion⟩ := exists_region hr
  have hown := h.tidy.sound.region r region hregion
  have hs : region.standIn = some n := by
    rw [← hn, TreeBuilder.standIn?, getElem!_def, hregion]
  cases hparent : region.parent with
  | none =>
    obtain ⟨body, hbody, -, -, hnone⟩ := h.tidy.sound.body
    rw [hown.rooted hparent] at hregion
    rw [Option.some.inj (hregion.symm.trans hbody), hnone] at hs
    cases hs
  | some q =>
    obtain ⟨-, -, n', hs', hstem⟩ := hown.parent q hparent
    obtain rfl := Option.some.inj (hs'.symm.trans hs)
    exact stem?_lt hstem

/- Each step of lowering is a call or two. -/

theorem addLoop (h : d.Called name) (hp : d.region? parent = some p)
    (hd : d.addLoop p l = .ok d') : d'.Called name := by
  obtain ⟨-, rfl⟩ := addLoop_eq_ok.1 hd
  have hregions : (d.builder.addLoop p l.name l.executesAtLeastOnce).2.regions.size =
      d.builder.regions.size + 1 := by
    simp [TreeBuilder.addLoop, addRegion, addNode]
  have hnodes : (d.builder.addLoop p l.name l.executesAtLeastOnce).2.nodes.size =
      d.builder.nodes.size + 3 := by
    simp [nodes_addLoop]
  refine ⟨h.call (s := .loop p l.name l.executesAtLeastOnce) (h.region_lt hp), fun e he => ?_,
    fun e he => ?_⟩
  · rw [hregions]
    cases List.mem_append.1 he with
    | inl hold => exact Nat.lt_succ_of_lt (h.regions e hold)
    | inr hnew => exact List.mem_singleton.1 hnew ▸ Nat.lt_succ_self _
  · rw [hnodes]
    cases List.mem_append.1 he with
    | inl hold => exact Nat.lt_add_right 3 (h.nodes e hold)
    | inr hnew => exact List.mem_singleton.1 hnew ▸ Nat.lt_succ_self _

theorem addLoops (fuel : Nat) (h : d.Called name) {pending : List LoopEntry}
    (hd : Draft.addLoops fuel d pending = .ok d') : d'.Called name := by
  induction fuel generalizing d pending with
  | zero => cases pending <;> exact Except.ok.inj hd ▸ h
  | succ fuel ih =>
    cases pending with
    | nil => exact Except.ok.inj hd ▸ h
    | cons l pending =>
      simp only [Draft.addLoops, bind_eq_ok] at hd
      obtain ⟨⟨u, waiting⟩, hu, _, -, hd⟩ := hd
      refine ih ?_ hd
      refine foldlM_inv (fun _ (s : Draft × List LoopEntry) => s.1.Called name) hu h ?_
      rintro before l after s t - hs hstep
      unfold tryLoop at hstep
      split at hstep
      · exact Except.ok.inj hstep ▸ hs
      · rename_i p hp
        simp only [bind_eq_ok, pure_eq_ok] at hstep
        obtain ⟨v, hv, rfl⟩ := hstep
        exact hs.addLoop hp hv

theorem addBlock (h : d.Called name) (hd : Draft.addBlock names d b = .ok d') :
    d'.Called name := by
  obtain ⟨-, r, effects, hr, -, rfl⟩ := addBlock_eq_ok.1 hd
  generalize (List.range effects.length).map (d.effects.size + ·) = insts
  have hregions : (d.builder.addBlock r insts).2.regions.size = d.builder.regions.size := by
    simp [TreeBuilder.addBlock, addNode]
  have hnodes : (d.builder.addBlock r insts).2.nodes.size = d.builder.nodes.size + 1 := by
    simp [TreeBuilder.addBlock, addNode]
  refine ⟨h.call (s := .block r insts) (h.region_lt hr), fun e he => ?_, fun e he => ?_⟩
  · rw [hregions]
    exact h.regions e he
  · rw [hnodes]
    cases List.mem_append.1 he with
    | inl hold => exact Nat.lt_succ_of_lt (h.nodes e hold)
    | inr hnew => exact List.mem_singleton.1 hnew ▸ Nat.lt_succ_self _

theorem addEdge (h : d.Called name) (hn : n < d.builder.nodes.size)
    (hk : k < d.builder.nodes.size) :
    Called name { d with builder := d.builder.addEdge n k } where
  calls := h.call (s := .edge n k) ⟨hn, hk⟩
  regions := h.regions
  nodes e he := by simpa [TreeBuilder.addEdge] using h.nodes e he

theorem connectEntry (h : d.Called name) (hp : d.region? parent = some r)
    (hd : d.connectEntry routine r entry = .ok d') : d'.Called name := by
  obtain ⟨first, hfirst, rfl⟩ := exists_of_connectEntry hd
  have hr := h.region_lt hp
  refine h.addEdge (h.entry_lt hr) ?_
  cases first with
  | none => exact h.exit_lt hr
  | some n =>
    cases hfirst n rfl with
    | inl hnamed =>
      obtain ⟨x, hn⟩ := hnamed
      exact h.node_lt hr hn
    | inr hn => exact h.firstNode?_lt hn

theorem connectAll (h : d.Called name) (hp : d.region? parent = some r)
    (hn : n < d.builder.nodes.size) {succs : List String}
    (hd : succs.foldlM (connectTo r n) d = .ok d') : d'.Called name := by
  have hall := foldlM_inv (fun _ (u : Draft) => u.Called name ∧ u.region? parent = some r ∧
    n < u.builder.nodes.size) hd ⟨h, hp, hn⟩ (by
      rintro before x after s u - ⟨hs, hp, hn⟩ hu
      simp only [connectTo, bind_eq_ok, pure_eq_ok] at hu
      obtain ⟨target, ht, rfl⟩ := hu
      refine ⟨hs.addEdge hn (hs.node_lt (hs.region_lt hp) ht), hp, ?_⟩
      simpa [TreeBuilder.addEdge] using hn)
  exact hall.1

theorem connectLoop (h : d.Called name) (hd : Draft.connectLoop routine d l = .ok d') :
    d'.Called name := by
  simp only [Draft.connectLoop, bind_eq_ok, region_eq_ok] at hd
  obtain ⟨r, hr, u, hu, p, hp, hd⟩ := hd
  have hentered := h.connectEntry hr hu
  have hr' : u.region? (some l.name) = some r := by
    obtain ⟨_, -, rfl⟩ := exists_of_connectEntry hu
    exact hr
  split at hd
  · exact Except.ok.inj hd ▸ hentered
  · rename_i n hn
    exact hentered.connectAll hp (hentered.standIn_lt (hentered.region_lt hr') hn) hd

theorem connectBlock (h : d.Called name) (hd : Draft.connectBlock d b = .ok d') :
    d'.Called name := by
  simp only [Draft.connectBlock, bind_eq_ok, region_eq_ok] at hd
  obtain ⟨r, hr, hd⟩ := hd
  split at hd
  · exact Except.ok.inj hd ▸ h
  · rename_i n hn
    exact h.connectAll hr (h.lookup_lt hn) hd

theorem connect (h : d.Called name) (hd : d.connect routine = .ok d') : d'.Called name := by
  simp only [Draft.connect, bind_eq_ok] at hd
  obtain ⟨u, hu, v, hv, hd⟩ := hd
  have hroot : d.region? none = some RegionTree.root := rfl
  have hloops := foldlM_inv (fun _ (s : Draft) => s.Called name) hv (h.connectEntry hroot hu)
    fun before l after s t _ hs ht => hs.connectLoop ht
  exact foldlM_inv (fun _ (s : Draft) => s.Called name) hd hloops
    fun before b after s t _ hs ht => hs.connectBlock ht

end Called
end Draft

end LoopMemory.Description
