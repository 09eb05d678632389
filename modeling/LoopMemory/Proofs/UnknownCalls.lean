import LoopMemory.Proofs.Exposure
import LoopMemory.Proofs.Visits

/-! What an instruction of unknown effect sees and spoils. A footprint is widened over what it has
tracked itself, so a call takes in all that was touched before it in the same block or loop, but of
the nodes before that only what shows there as a use or as a write. -/
namespace LoopMemory.Memory
variable {m : Memory} {t : RegionTree} {region : Region} {r : RegionId} {n : NodeId} {node : Node}
  {results : Results} {progress : Progress} {f g : Footprint} {x : Reaching} {a : Access}
  {l : Location} {i : Inst} {u : UnknownAccess} {e : Event} {insts : List Inst}
  {es es' es'' before after mid rest tail : List Event}

/- Later events of a block take nothing away. -/

theorem recordEvent_grows (h : m.recordEvent f e = .ok g) :
    (∀ l ∈ f.uses, l ∈ g.uses) ∧ ∀ l, f.Writes l → g.Writes l := by
  cases e with
  | access a =>
    obtain rfl : m.recordAccess f a = g := Except.ok.inj h
    exact ⟨fun l hl => mem_uses_recordAccess.2 (.inl hl),
      fun l hl => writes_recordAccess.2 (.inl hl)⟩
  | unknown i u =>
    obtain ⟨-, rfl⟩ := recordUnknown_eq_ok.1 h
    exact ⟨fun l hl => Footprint.mem_uses_applyUnknown hl,
      fun l hl => Footprint.writes_applyUnknown.2 (.inl hl)⟩

theorem recordEvents_grow (h : es.foldlM m.recordEvent f = .ok g) :
    (∀ l ∈ f.uses, l ∈ g.uses) ∧ ∀ l, f.Writes l → g.Writes l := by
  refine foldlM_inv (fun _ g => (∀ l ∈ f.uses, l ∈ g.uses) ∧ ∀ l, f.Writes l → g.Writes l) h
    ⟨fun _ => id, fun _ => id⟩ ?_
  rintro before e after s s' - ⟨huses, hwrites⟩ hs
  obtain ⟨huses', hwrites'⟩ := recordEvent_grows hs
  exact ⟨fun l hl => huses' l (huses l hl), fun l hl => hwrites' l (hwrites l hl)⟩

/- The footprint of a block with something unknown in it, at that point of the block. -/
theorem blockFootprint_at (h : m.blockFootprint insts = .ok f)
    (hs : m.blockEvents insts = before ++ .unknown i u :: after) :
    ∃ s, m.Recorded before s ∧ m.Tallies {e | e ∈ before} s ∧
      (∀ l ∈ ({ s with unknown := UnknownInsts.record i u s.unknown }.applyUnknown u).uses,
        l ∈ f.uses) ∧
      ∀ l, ({ s with unknown := UnknownInsts.record i u s.unknown }.applyUnknown u).Writes l →
        f.Writes l := by
  rw [blockFootprint_eq, hs, List.foldlM_append, bind_eq_ok] at h
  obtain ⟨s, hbefore, h⟩ := h
  rw [List.foldlM_cons, bind_eq_ok] at h
  obtain ⟨s', hunknown, hafter⟩ := h
  obtain ⟨-, rfl⟩ := recordUnknown_eq_ok.1 hunknown
  obtain ⟨huses, hwrites⟩ := recordEvents_grow hafter
  exact ⟨s, recorded_of_events hbefore, tallies_of_events hbefore, huses, hwrites⟩

theorem uses_of_blockFootprint (h : m.blockFootprint insts = .ok f)
    (hs : m.blockEvents insts = before ++ .unknown i u :: after) (hu : u.read.isAny = true)
    (ha : .access a ∈ before) (hao : a.isAddressOnly = false) (hc : ¬m.Covered a.location before) :
    a.location ∈ f.uses := by
  obtain ⟨s, hrec, htally, huses, -⟩ := blockFootprint_at h hs
  refine huses _ ?_
  have htracked : a.location ∈ s.tracked :=
    htally.mem_tracked.2 ((htally.explicit _).2 ⟨a, ha, hao, rfl⟩)
  have hdefs : s.defs.covers a.location = false := by
    rw [Bool.eq_false_iff]
    intro hcov
    obtain ⟨d, hd, hdl⟩ := SortedSet.covers_iff.1 hcov
    exact hc ((hrec.defs d hd).covers hdl).covered
  exact Footprint.mem_uses_applyUnknown_iff.2 (.inr ⟨hu, htracked, hdefs⟩)

theorem writes_of_blockFootprint (h : m.blockFootprint insts = .ok f)
    (hs : m.blockEvents insts = before ++ .unknown i u :: after) (hu : u.write.isAny = true)
    (ha : .access a ∈ before) (hao : a.isAddressOnly = false) : f.Writes a.location := by
  obtain ⟨s, -, htally, -, hwrites⟩ := blockFootprint_at h hs
  refine hwrites _ (Footprint.writes_applyUnknown.2 (.inr ⟨hu, ?_⟩))
  exact (htally.explicit _).2 ⟨a, ha, hao, rfl⟩

section Calls
variable (h : m.analyze t = .ok progress)
include h

/- The footprint of a node accounts for all that its kind lets happen there. -/
theorem tallies_of_onFile (hr : t.region? r = some region) (hn : n ∈ region.nodes)
    (hx : m.OnFile t progress.results n node f x) : m.Tallies (m.eventsOf t node.kind) f := by
  refine hx.footprint.tallies fun c hk g hg => ?_
  obtain ⟨inner, hc, -⟩ := loop_of_analyze h hr hn hx.lookup hk
  exact tallies_of_analyze h hc g hg

/-- In a loop, something unknown may read all that a run of the loop has touched. -/
theorem uses_of_loop (hr : t.region? r = some region) (hloop : region.isLoop = true)
    (run : m.Started t r es) (hi : .unknown i u ∈ es) (hu : u.read.isAny = true)
    (ha : .access a ∈ es) (hao : a.isAddressOnly = false)
    (hg : progress.results.summary? r = some g) : a.location ∈ g.uses := by
  have hv := valid_of_analyze h
  obtain ⟨s⟩ := solved_of_analyze h hr
  obtain rfl := Option.some.inj (hg.symm.trans s.onFile)
  have htally := tallies_of_analyze h hr _ hg
  have hreads := htally.hasUnknownReads_iff.2 ⟨i, u, run.mem_eventsIn hv _ hi, hu⟩
  have htouched := (htally.explicit _).2 ⟨a, run.mem_eventsIn hv _ ha, hao, rfl⟩
  exact Problem.uses_of_collapse s.collapses hloop hreads htouched

theorem uses_of_inside (hl : t.Linked) (hin : m.Inside t r es (mid ++ [.unknown i u]))
    (hu : u.read.isAny = true) (ha : .access a ∈ mid) (hao : a.isAddressOnly = false)
    (hc : ¬m.Covered a.location (es ++ mid)) (hg : progress.results.summary? r = some g) :
    a.location ∈ g.uses := by
  have hces : ¬m.Covered a.location es := fun hcov => hc (hcov.mono (by simp))
  have hcmid : ¬m.Covered a.location mid := fun hcov => hc (hcov.mono (by simp))
  cases hin with
  | @block n node insts _ _ rest run hn hk hs =>
    have hsplit : m.blockEvents insts = mid ++ .unknown i u :: rest := by simpa using hs.symm
    refine uses_carried h hl run hn (fun f hf => ?_) hg hces
    exact uses_of_blockFootprint (hf.of_block hk) hsplit hu ha hao hcmid
  | loop run hn hk within =>
    refine uses_carried h hl run hn (fun f hf => ?_) hg hces
    obtain ⟨region, hr, hmem⟩ := run.mem (valid_of_analyze h)
    obtain ⟨inner, hc, hloop⟩ := loop_of_analyze h hr hmem hn hk
    exact uses_of_loop h hc hloop within (i := i) (by simp) hu (List.mem_append_left _ ha) hao
      (hf.of_region hk)

/- What something unknown spoils on the way through a node, its footprint may write. -/
theorem writes_of_across (hr : t.region? r = some region) (hn : n ∈ region.nodes)
    (hx : m.OnFile t progress.results n node f x)
    (hw : m.Across t n (mid ++ .unknown i u :: rest)) (hu : u.write.isAny = true)
    (ha : .access a ∈ mid) (hao : a.isAddressOnly = false) : f.Writes a.location := by
  have hv := valid_of_analyze h
  have hevents := hw.mem_eventsOf hv hx.lookup
  have htally := tallies_of_onFile h hr hn hx
  cases hk : node.kind with
  | entry =>
    have hnil := (across_end hx.lookup (.inl hk)).1 hw
    simp at hnil
  | exit =>
    have hnil := (across_end hx.lookup (.inr hk)).1 hw
    simp at hnil
  | block insts =>
    have hs := (across_block hx.lookup hk).1 hw
    exact writes_of_blockFootprint (hx.footprint.of_block hk) hs.symm hu ha hao
  | region c =>
    obtain ⟨inner, hc, -⟩ := loop_of_analyze h hr hn hx.lookup hk
    obtain ⟨s⟩ := solved_of_analyze h hc
    obtain rfl := Option.some.inj ((hx.footprint.of_region hk).symm.trans s.onFile)
    have hwrites := htally.hasUnknownWrites_iff.2 ⟨i, u, hevents _ (by simp), hu⟩
    have htouched := (htally.explicit _).2 ⟨a, hevents _ (List.mem_append_left _ ha), hao, rfl⟩
    exact Problem.writes_of_collapse s.collapses hwrites htouched

section Arriving
variable (hl : t.Linked)
include hl

/-- What may reach a node, or may be written there, may reach the nodes after it. -/
theorem may_step (run : m.Run t r n es) (hn : t.node? n = some node) {k : NodeId}
    (hk : k ∈ node.succs)
    (hmay : ∀ f x, m.OnFile t progress.results n node f x → l ∈ x.may ∨ f.Writes l)
    {node' : Node} {y : Reaching} (hy : m.OnFile t progress.results k node' g y) : l ∈ y.may := by
  obtain ⟨region, hr, hmem⟩ := run.mem (valid_of_analyze h)
  obtain ⟨node'', f, x, hx⟩ := exists_onFile h hl hr hmem
  obtain rfl := Option.some.inj (hn.symm.trans hx.lookup)
  exact (OnFile.edge h hl hr hmem hx hy hk).2.1 l (Reaching.mem_may_transfer.2 (hmay f x hx))

theorem may_of_run (run : m.Run t r n es) (ha : .access a ∈ es) (hw : a.write.isAny = true) :
    ∀ node f x, m.OnFile t progress.results n node f x → a.location ∈ x.may := by
  refine run.along (P := fun n es => .access a ∈ es → ∀ node f x,
    m.OnFile t progress.results n node f x → a.location ∈ x.may) (by simp) ?_ ha
  intro n k node es es' run ih hn hk hway ha node' g y hy
  refine may_step h hl run hn hk (fun f x hx => ?_) hy
  rcases List.mem_append.1 ha with ha | ha
  · exact .inl (ih ha node f x hx)
  · have hv := valid_of_analyze h
    obtain ⟨region, hr, hmem⟩ := run.mem hv
    exact .inr ((tallies_of_onFile h hr hmem hx).writes a (hway.mem_eventsOf hv hn _ ha) hw)

theorem may_of_passed (hp : m.Passed t r n es (mid ++ .unknown i u :: rest) tail)
    (hu : u.write.isAny = true) (ha : .access a ∈ mid) (hao : a.isAddressOnly = false) :
    ∀ node f x, m.OnFile t progress.results n node f x → a.location ∈ x.may := by
  generalize hway : mid ++ .unknown i u :: rest = way at hp
  induction hp with
  | leave run hacross hn hk =>
    intro node' g y hy
    refine may_step h hl run hn hk (fun f x hx => .inr ?_) hy
    obtain ⟨region, hr, hmem⟩ := run.mem (valid_of_analyze h)
    exact writes_of_across h hr hmem hx (hway ▸ hacross) hu ha hao
  | move hp hacross hn hk ih =>
    intro node' g y hy
    exact may_step h hl hp.run hn hk (fun f x hx => .inl (ih hway _ f x hx)) hy

end Arriving
end Calls

/-- A call that follows in the same block, and one that follows in the next block. -/
def joined : TreeBuilder :=
  (TreeBuilder.new "routine").run [.block 0 [0, 1], .path 0 [2]]

def parted : TreeBuilder :=
  (TreeBuilder.new "routine").run [.block 0 [0], .block 0 [1], .path 0 [2, 3]]

/-- One access, and calls of which nothing is known. -/
def callingAfter (a : Access) : Memory where
  effects i := if i = 0 then some { accesses := [a] } else none
  aliases := ({} : AliasModel).overlap
  escapes _ := false
  settings := {}

def stored : Access := ⟨source, 0, .no, .may⟩

def loaded : Access := ⟨source, 0, .must, .no⟩

theorem run_joined (a : Access) :
    (callingAfter a).Run joined.finish 0 2 [] ∧
      (callingAfter a).blockEvents [0, 1] = [.access a, .unknown 1 .conservative] := by
  have hr : joined.finish.region? 0 = some joined.finish.regions[0]! := by decide +kernel
  have h0 : joined.finish.node? 0 = some ⟨0, 0, .entry, [2], []⟩ := by decide +kernel
  exact ⟨(Run.enter hr).pass h0 (.inl rfl) (.head _), rfl⟩

theorem run_parted (a : Access) :
    (callingAfter a).Run parted.finish 0 1 [.access a, .unknown 1 .conservative] := by
  have hr : parted.finish.region? 0 = some parted.finish.regions[0]! := by decide +kernel
  have h0 : parted.finish.node? 0 = some ⟨0, 0, .entry, [2], []⟩ := by decide +kernel
  have h2 : parted.finish.node? 2 = some ⟨2, 0, .block [0], [3], [0]⟩ := by decide +kernel
  have h3 : parted.finish.node? 3 = some ⟨3, 0, .block [1], [1], [2]⟩ := by decide +kernel
  have run := (Run.enter (m := callingAfter a) hr).pass h0 (.inl rfl) (.head _)
  exact (run.block h2 rfl (.head _)).block h3 rfl (.head _)

/-- A run that comes to something unknown that reads breaks off inside a node. The region then uses
what the run has touched and no certain write of the run covered: all of it in a loop, and in the
routine body what was read, or was touched inside that node. -/
theorem uses_of_unknown_read (routine : String) (regions : Array Region) (nodes : Array Node)
    (h : m.analyze (.ofParts routine regions nodes) = .ok progress)
    (hr : regions[r]? = some region) (hu : u.read.isAny = true) :
    (∀ before after,
      m.Started (.ofParts routine regions nodes) r (before ++ .unknown i u :: after) →
      ∃ es mid, before = es ++ mid ∧
        m.Inside (.ofParts routine regions nodes) r es (mid ++ [.unknown i u])) ∧
    ∀ es mid, m.Inside (.ofParts routine regions nodes) r es (mid ++ [.unknown i u]) →
      ∃ uses, progress.results.uses r = .ok uses ∧
        ∀ a, .access a ∈ es ++ mid → a.isAddressOnly = false →
          ¬m.Covered a.location (es ++ mid) →
          region.isLoop = true ∨ a.read.isAny = true ∨ .access a ∈ mid → a.location ∈ uses := by
  have hl := RegionTree.linked_ofParts (valid_of_analyze h).indexed
  refine ⟨fun before after run => run.inside before _ after rfl, fun es mid hin => ?_⟩
  obtain ⟨g, hg⟩ := exists_summary h hr
  refine ⟨g.uses, map_eq_ok.2 ⟨g, Results.regionFootprint_eq_ok.2 hg, rfl⟩, ?_⟩
  rintro a ha hao hc (hloop | hread | hmid)
  · exact uses_of_loop h hr hloop hin.started (i := i) (by simp) hu (by simp_all) hao hg
  · obtain ⟨pre, post, hsplit⟩ := List.append_of_mem ha
    refine uses_of_started h hl hin.started g hg _
      ⟨pre, a, post ++ [.unknown i u], ?_, hread, rfl, ?_⟩
    · rw [← List.append_assoc, hsplit]
      simp
    · exact fun hcov => hc (hcov.mono (by simp [hsplit]))
  · exact uses_of_inside h hl hin hu hmid hao hc hg

theorem uses_of_unknown_read_joined : ∃ progress uses,
    (callingAfter stored).analyze joined.finish = .ok progress ∧
    progress.results.uses 0 = .ok uses ∧ source ∈ uses := by
  have hr : joined.finish.region? 0 = some joined.finish.regions[0]! := by decide +kernel
  have h2 : joined.finish.node? 2 = some ⟨2, 0, .block [0, 1], [1], [0]⟩ := by decide +kernel
  have hsolved : ((callingAfter stored).analyze joined.finish).isOk = true := by decide +kernel
  cases h : (callingAfter stored).analyze joined.finish with
  | error e =>
    rw [h] at hsolved
    cases hsolved
  | ok progress =>
    obtain ⟨run, hevents⟩ := run_joined stored
    have hsplit : ([.access stored] ++ [.unknown 1 .conservative]) ++ [] =
        (callingAfter stored).blockEvents [0, 1] := by
      rw [hevents]
      rfl
    obtain ⟨uses, huses, hall⟩ := (uses_of_unknown_read (i := 1) (u := .conservative) _ _ _ h hr
      rfl).2 [] [.access stored] (.block run h2 rfl hsplit)
    refine ⟨progress, uses, rfl, huses, hall stored (by simp) rfl ?_ (.inr (.inr (.head _)))⟩
    rintro ⟨a, ha, hw, -⟩
    obtain rfl : a = stored := by simpa using ha
    simp [writeOf, stored, callingAfter] at hw

/-- The read of the next block does not show: the location was touched before it in the same run,
and nothing covers it. -/
theorem unknown_read_unseen_parted : ∃ progress uses,
    (callingAfter stored).analyze parted.finish = .ok progress ∧
    (callingAfter stored).Run parted.finish 0 1 ([.access stored] ++ [.unknown 1 .conservative]) ∧
    ¬(callingAfter stored).Covered source [.access stored] ∧
    progress.results.uses 0 = .ok uses ∧ source ∉ uses := by
  have hsolved : ((callingAfter stored).analyze parted.finish >>= fun p => p.results.uses 0) =
      .ok ∅ := by
    decide +kernel
  obtain ⟨progress, h, huses⟩ := bind_eq_ok.1 hsolved
  refine ⟨progress, ∅, h, run_parted stored, ?_, huses, by simp⟩
  rintro ⟨a, ha, hw, -⟩
  obtain rfl : a = stored := by simpa using ha
  simp [writeOf, stored, callingAfter] at hw

/-- A run that has come through something unknown that writes has passed the node of it. What the
run wrote before may then reach where it arrives, and so may all that it touched inside that
node. -/
theorem may_reach_of_unknown_write (routine : String) (regions : Array Region) (nodes : Array Node)
    (h : m.analyze (.ofParts routine regions nodes) = .ok progress) (hu : u.write.isAny = true) :
    (∀ n before after,
      m.Run (.ofParts routine regions nodes) r n (before ++ .unknown i u :: after) →
      ∃ es mid rest tail, before = es ++ mid ∧ after = rest ++ tail ∧
        m.Passed (.ofParts routine regions nodes) r n es (mid ++ .unknown i u :: rest) tail) ∧
    ∀ n es mid rest tail,
      m.Passed (.ofParts routine regions nodes) r n es (mid ++ .unknown i u :: rest) tail →
      ∃ flow, progress.results.nodeFlow n = .ok flow ∧
        ∀ a, .access a ∈ es ++ mid → a.isAddressOnly = false →
          a.write.isAny = true ∨ .access a ∈ mid → a.location ∈ flow.input.may := by
  have hv := valid_of_analyze h
  have hl := RegionTree.linked_ofParts hv.indexed
  refine ⟨fun n before after run => run.passed before _ after rfl, ?_⟩
  intro n es mid rest tail hp
  obtain ⟨region, hr, hmem⟩ := hp.run.mem hv
  obtain ⟨node, f, x, hx⟩ := exists_onFile h hl hr hmem
  refine ⟨⟨x, x.transfer m.aliases f⟩, Results.nodeFlow_eq_ok.2 hx.flow, ?_⟩
  rintro a ha hao (hw | hmid)
  · refine may_of_run h hl hp.run ?_ hw node f x hx
    rcases List.mem_append.1 ha with ha | ha <;> simp [ha]
  · exact may_of_passed h hl hp hu hmid hao node f x hx

theorem may_reach_of_unknown_write_joined : ∃ progress flow,
    (callingAfter loaded).analyze joined.finish = .ok progress ∧
    progress.results.nodeFlow 1 = .ok flow ∧ source ∈ flow.input.may := by
  have h2 : joined.finish.node? 2 = some ⟨2, 0, .block [0, 1], [1], [0]⟩ := by decide +kernel
  have hsolved : ((callingAfter loaded).analyze joined.finish).isOk = true := by decide +kernel
  cases h : (callingAfter loaded).analyze joined.finish with
  | error e =>
    rw [h] at hsolved
    cases hsolved
  | ok progress =>
    obtain ⟨run, hevents⟩ := run_joined loaded
    have hacross := Across.block (m := callingAfter loaded) h2 rfl
    rw [hevents] at hacross
    obtain ⟨flow, hflow, hall⟩ := (may_reach_of_unknown_write (i := 1) (u := .conservative) _ _ _ h
      rfl).2 1 [] [.access loaded] [] [] (.leave run hacross h2 (.head _))
    exact ⟨progress, flow, rfl, hflow, hall loaded (by simp) rfl (.inr (.head _))⟩

/-- The write of the next block does not show: the location was touched before it in the same run.
-/
theorem unknown_write_unseen_parted : ∃ progress flow,
    (callingAfter loaded).analyze parted.finish = .ok progress ∧
    (callingAfter loaded).Run parted.finish 0 1 ([.access loaded] ++ [.unknown 1 .conservative]) ∧
    progress.results.nodeFlow 1 = .ok flow ∧ source ∉ flow.input.may := by
  have hsolved : ((callingAfter loaded).analyze parted.finish >>= fun p =>
      (·.input.may) <$> p.results.nodeFlow 1) = .ok .empty := by
    decide +kernel
  obtain ⟨progress, h, hp⟩ := bind_eq_ok.1 hsolved
  obtain ⟨flow, hflow, hmay⟩ := map_eq_ok.1 hp
  exact ⟨progress, flow, h, run_parted loaded, hflow, by simp [hmay]⟩

end LoopMemory.Memory
