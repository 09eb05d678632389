import LoopMemory.Proofs.Description.Contents
import LoopMemory.Proofs.Description.Reordered
import LoopMemory.Proofs.Renumbering.Privatization

/-! Descriptions that differ only in order are lowered to routines that differ only in numbers. -/
namespace LoopMemory

namespace Description
open TreeBuilder Relator

/-- Regions of one name are the same, and so are nodes at one spot and instructions in one slot. -/
def renumbering (r : Routine) (d : Draft) (r' : Routine) (d' : Draft) : Renumbering where
  region p p' := ∃ region ∈ r.regions, d.region? region = some p ∧ d'.region? region = some p'
  node n k := ∃ s, d.At r s n ∧ d'.At r' s k
  inst i j := ∃ slot, r.slots[i]? = some slot ∧ r'.slots[j]? = some slot

/-- Both nodes are there, and they do the same. -/
def Counterparts (r : Routine) (d : Draft) (r' : Routine) (d' : Draft) (n k : NodeId) : Prop :=
  ∃ node node', d.builder.stem? n = some node ∧ d'.builder.stem? k = some node' ∧
    (renumbering r d r' d').SameNode node node'

namespace Draft.Whole
variable {r r' : Routine} {d d' : Draft} {names names' : Names} {region : Option String}
  {p p' : RegionId} {reg reg' : Region} {n k : NodeId} {s : Spot}

theorem slots_nodup (hd : d.Whole r names) : r.slots.Nodup := by
  obtain ⟨ls, -, hh⟩ := hd.holds
  exact Routine.slots_nodup (List.nodup_append.1 hh.nodeNames).2.1

theorem slot_inj (hd : d.Whole r names) {i j : Inst} {slot} (hi : r.slots[i]? = some slot)
    (hj : r.slots[j]? = some slot) : i = j :=
  (List.getElem?_inj (List.getElem?_eq_some_iff.1 hi).1 hd.slots_nodup).1 (hi.trans hj.symm)

variable (h : r.Reordered r') (hd : d.Whole r names) (hd' : d'.Whole r' names')
include hd hd'

theorem insts_biUnique : BiUnique (renumbering r d r' d').inst := by
  constructor
  · rintro i j i' ⟨slot, hi, hj⟩ ⟨slot', hi', hj'⟩
    obtain rfl := Option.some.inj (hj.symm.trans hj')
    exact hd.slot_inj hi hi'
  · rintro i j j' ⟨slot, hi, hj⟩ ⟨slot', hi', hj'⟩
    obtain rfl := Option.some.inj (hi.symm.trans hi')
    exact hd'.slot_inj hj hj'

theorem nodes_biUnique : BiUnique (renumbering r d r' d').node := by
  constructor
  · rintro n k n' ⟨s, hs, hk⟩ ⟨s', hs', hk'⟩
    exact hs.unique (hd'.at_inj hk hk' ▸ hs')
  · rintro n k k' ⟨s, hs, hk⟩ ⟨s', hs', hk'⟩
    exact hk.unique (hd.at_inj hs hs' ▸ hk')

include h

/- Every spot has a node in both. -/
theorem exists_at (hs : d.At r s n) : ∃ k, d'.At r' s k := by
  cases s with
  | entry region => exact hd'.exists_at_entry (h.mem_regions hs.1)
  | exit region => exact hd'.exists_at_exit (h.mem_regions hs.1)
  | named x =>
    obtain ⟨q, hq, rfl⟩ := hd.place_of_lookup hs
    obtain ⟨q', hq', hname, -⟩ := h.exists_place hq
    obtain ⟨-, -, k, -, -, hk, -⟩ := hd'.stem_place hq'
    exact ⟨k, hname ▸ hk⟩

theorem counterparts_of_block {b : BlockEntry} (hb : b ∈ r.blocks)
    (hn : d.nodes.lookup b.name = some n) (hk : d'.nodes.lookup b.name = some k) :
    Counterparts r d r' d' n k := by
  obtain ⟨b', hb', hsame⟩ := h.blocks.forth hb
  obtain ⟨ls, -, hh⟩ := hd.holds
  obtain ⟨ls', -, hh'⟩ := hd'.holds
  obtain ⟨before, after, he⟩ := List.append_of_mem hb
  obtain ⟨before', after', he'⟩ := List.append_of_mem hb'
  obtain ⟨p, n, hp, hn', hstem⟩ := hh.blocks before b after he
  obtain ⟨p', k, hp', hk', hstem'⟩ := hh'.blocks before' b' after' he'
  obtain rfl := Option.some.inj (hn.symm.trans hn')
  obtain rfl := Option.some.inj (hk.symm.trans (hsame.name_eq ▸ hk'))
  refine ⟨_, _, hstem, hstem', .block ?_, r.home b.region, hd.home_mem hp,
    hd.region?_home.trans hp, ?_⟩
  · rw [hsame.instructions_eq]
    refine List.forall₂_map_left_iff.2 (List.forall₂_map_right_iff.2
      (List.forall₂_same.2 fun o ho => ?_))
    obtain ⟨e, ho⟩ : ∃ e, b.instructions[o]? = some e :=
      ⟨_, List.getElem?_eq_getElem (List.mem_range.1 ho)⟩
    have ho' : b'.instructions[o]? = some e := by rwa [hsame.instructions_eq]
    exact ⟨_, Routine.getElem?_slots he ho, hsame.name_eq ▸ Routine.getElem?_slots he' ho'⟩
  · rw [← h.home_eq, ← hsame.region_eq]
    exact hd'.region?_home.trans hp'

theorem counterparts_of_loop {l : LoopEntry} (hl : l ∈ r.loops)
    (hn : d.nodes.lookup l.name = some n) (hk : d'.nodes.lookup l.name = some k) :
    Counterparts r d r' d' n k := by
  obtain ⟨l', hl', hsame⟩ := h.loops.forth hl
  obtain ⟨ls, hls, hh⟩ := hd.holds
  obtain ⟨ls', hls', hh'⟩ := hd'.holds
  obtain ⟨⟨p, i, n, -, hp, hi, -, -, hn', hstem⟩, -⟩ := hh.loops l (hls.mem_iff.2 hl)
  obtain ⟨⟨p', i', k, -, hp', hi', -, -, hk', hstem'⟩, -⟩ := hh'.loops l' (hls'.mem_iff.2 hl')
  obtain rfl := Option.some.inj (hn.symm.trans hn')
  obtain rfl := Option.some.inj (hk.symm.trans (hsame.name_eq ▸ hk'))
  refine ⟨_, _, hstem, hstem', .region ⟨some l.name, Routine.loop_mem_regions hl, hi,
    hsame.name_eq ▸ hi'⟩, r.home l.parent, hd.home_mem hp, hd.region?_home.trans hp, ?_⟩
  rw [← h.home_eq, ← hsame.parent_eq]
  exact hd'.region?_home.trans hp'

/- Nodes at one spot do the same. -/
theorem counterparts_of_at (hs : d.At r s n) (hk : d'.At r' s k) :
    Counterparts r d r' d' n k := by
  cases s with
  | entry region =>
    obtain ⟨p, hp, hstem⟩ := hd.stem_entry hs
    obtain ⟨p', hp', hstem'⟩ := hd'.stem_entry hk
    exact ⟨_, _, hstem, hstem', .entry, region, hs.1, hp, hp'⟩
  | exit region =>
    obtain ⟨p, hp, hstem⟩ := hd.stem_exit hs
    obtain ⟨p', hp', hstem'⟩ := hd'.stem_exit hk
    exact ⟨_, _, hstem, hstem', .exit, region, hs.1, hp, hp'⟩
  | named x =>
    obtain ⟨q, hq, rfl⟩ := hd.place_of_lookup hs
    rcases Routine.mem_places.1 hq with ⟨b, hb, rfl⟩ | ⟨l, hl, rfl⟩
    · exact hd.counterparts_of_block h hd' hb hs hk
    · exact hd.counterparts_of_loop h hd' hl hs hk

section Region
variable (hr : region ∈ r.regions) (hp : d.region? region = some p)
  (hp' : d'.region? region = some p') (hreg : d.builder.regions[p]? = some reg)
  (hreg' : d'.builder.regions[p']? = some reg')
include hr hp hp' hreg hreg'

/- Each node of a region has its counterpart there. -/
theorem exists_node (hn : n ∈ reg.nodes) : ∃ k ∈ reg'.nodes, ∃ s, d.At r s n ∧ d'.At r' s k := by
  obtain ⟨kind, hstem⟩ := (hd.ready.sound.region p reg hreg).nodes n hn
  obtain ⟨s, hs⟩ := hd.exists_spot hstem
  obtain ⟨k, hk⟩ := hd.exists_at h hd' hs
  obtain ⟨node, node', hn', hk', hsame⟩ := hd.counterparts_of_at h hd' hs hk
  obtain rfl := Option.some.inj (hstem.symm.trans hn')
  obtain ⟨region', hr', hq, hq'⟩ := hsame.region
  obtain rfl := hd.region?_inj hr hr' hp hq
  obtain ⟨-, owner, howner, hmem⟩ := hd'.ready.sound.node k node' hk'
  rw [← Option.some.inj (hp'.symm.trans hq'), hreg'] at howner
  exact ⟨k, Option.some.inj howner ▸ hmem, s, hs, hk⟩

theorem same_outline : reg.name = reg'.name ∧ reg.kind = reg'.kind ∧
    ∀ n k, reg.standIn = some n → reg'.standIn = some k →
      ∃ s, d.At r s n ∧ d'.At r' s k := by
  cases region with
  | none =>
    obtain rfl := Option.some.inj hp
    obtain rfl := Option.some.inj hp'
    obtain ⟨hname, hkind, hstandIn⟩ := hd.region_of_body hreg
    obtain ⟨hname', hkind', -⟩ := hd'.region_of_body hreg'
    rw [hname, hname', hkind, hkind', hstandIn, h.name_eq]
    exact ⟨rfl, rfl, fun _ _ hn => absurd hn (by simp)⟩
  | some name =>
    obtain ⟨l, hl, rfl⟩ := Routine.exists_loop hr
    obtain ⟨l', hl', hsame⟩ := h.loops.forth hl
    obtain ⟨hname, hkind, n, hs, hn⟩ := hd.region_of_loop hl hp hreg
    obtain ⟨hname', hkind', k, hs', hk⟩ := hd'.region_of_loop hl' (hsame.name_eq ▸ hp') hreg'
    rw [hname, hname', hkind, hkind', hs, hs', hsame.name_eq, hsame.once_eq]
    refine ⟨rfl, rfl, fun _ _ hn' hk' => ⟨.named l.name, ?_, ?_⟩⟩
    · exact Option.some.inj hn' ▸ hn
    · exact Option.some.inj hk' ▸ hsame.name_eq ▸ hk

theorem same_region : (renumbering r d r' d').SameRegion reg reg' := by
  obtain ⟨hname, hkind, hstandIn⟩ := hd.same_outline h hd' hr hp hp' hreg hreg'
  have hr' := h.mem_regions hr
  exact
    { name := hname
      kind := hkind
      entry := ⟨.entry region, ⟨hr, p, hp, entry_of_region hreg⟩, hr', p', hp',
        entry_of_region hreg'⟩
      exit := ⟨.exit region, ⟨hr, p, hp, exit_of_region hreg⟩, hr', p', hp', exit_of_region hreg'⟩
      standIn := hstandIn
      forth := fun n hn => hd.exists_node h hd' hr hp hp' hreg hreg' hn
      back := fun k hk => by
        obtain ⟨n, hn, s, hk, hs⟩ := hd'.exists_node h.symm hd hr' hp' hp hreg' hreg hk
        exact ⟨n, hn, s, hs, hk⟩ }

end Region
end Draft.Whole

namespace Routine.Lowered
variable {r r' : Routine} {d d' : Draft} {m m' : Model} {settings : Settings} {p p' : RegionId}
  {reg : Region} (h : r.Reordered r') (hlow : r.Lowered d m) (hlow' : r'.Lowered d' m')
include h hlow hlow'

theorem renumbers (hp : r.Pinned) (settings : Settings) : (renumbering r d r' d').Renumbers
    (m.memory settings) m.tree m'.effectOf m'.tree where
  nodes := hlow.drawn.whole.nodes_biUnique hlow'.drawn.whole
  insts := hlow.drawn.whole.insts_biUnique hlow'.drawn.whole
  effects i j hij := by
    obtain ⟨slot, hi, hj⟩ := hij
    have heffect := hlow'.effectOf_slot hj
    rw [h.variables_eq] at heffect
    exact Except.ok.inj ((hlow.effectOf_slot hi).symm.trans heffect)
  region p p' hpp := by
    obtain ⟨region, hr, hp, hp'⟩ := hpp
    obtain ⟨reg, hreg⟩ := hlow.drawn.whole.ready.exists_region hp
    obtain ⟨reg', hreg'⟩ := hlow'.drawn.whole.ready.exists_region hp'
    rw [hlow.tree, hlow'.tree]
    exact ⟨reg, reg', hreg, hreg',
      hlow.drawn.whole.same_region h hlow'.drawn.whole hr hp hp' hreg hreg'⟩
  node n k hnk := by
    obtain ⟨s, hs, hk⟩ := hnk
    obtain ⟨stem, stem', hstem, hstem', hsame⟩ :=
      hlow.drawn.whole.counterparts_of_at h hlow'.drawn.whole hs hk
    obtain ⟨node, hnode, rfl⟩ := exists_node_finish hstem
    obtain ⟨node', hnode', rfl⟩ := exists_node_finish hstem'
    rw [hlow.tree, hlow'.tree]
    exact ⟨node, node', hnode, hnode', hsame.kind, hsame.region⟩
  leads n k hnk j l hjl := by
    obtain ⟨s, hs, hk⟩ := hnk
    obtain ⟨t, hj, hl⟩ := hjl
    rw [hlow.tree, hlow'.tree, hlow.drawn.leads_at_iff hs hj, hlow'.drawn.leads_at_iff hk hl]
    exact ⟨h.leads hp, h.symm.leads (h.pinned hp)⟩

theorem overlap_eq : m'.aliases.overlap = m.aliases.overlap := by
  refine AliasModel.overlap_congr ?_ fun pair => ?_
  · rw [wild_of_aliasModel hlow.aliases, wild_of_aliasModel hlow'.aliases, h.basesWhere_eq]
  · rw [mem_pairs hlow.aliases, mem_pairs hlow'.aliases, h.variables_eq]
    simp only [h.aliases.mem_iff]

/- Apart from the effects, which are numbered, the analysis asks the same memory. -/
theorem memory_eq : m'.memory settings = { m.memory settings with effects := m'.effectOf } := by
  have hescapes : m'.mayEscape = m.mayEscape := by
    funext l
    rw [Model.mayEscape, Model.mayEscape, hlow.escaped, hlow'.escaped, h.basesWhere_eq]
  rw [Model.memory, Model.memory, hlow.overlap_eq h hlow', hescapes]

theorem names_eq : m'.names = m.names := by
  rw [hlow.names, hlow'.names, h.variables_eq]

theorem liveAfter_eq (hpp : (renumbering r d r' d').region p p')
    (hreg : m.tree.region? p = some reg) (hloop : reg.isLoop) :
    m'.liveAfter p' = m.liveAfter p := by
  obtain ⟨region, hr, hp, hp'⟩ := hpp
  rw [hlow.tree] at hreg
  obtain ⟨l, hl, rfl⟩ := (hlow.drawn.whole.isLoop_iff hp hr hreg).1 hloop
  obtain ⟨l', hl', hsame⟩ := h.loops.forth hl
  obtain ⟨s, hs, hlive⟩ := hlow.liveAfter_loop hl hp
  obtain ⟨s', hs', hlive'⟩ := hlow'.liveAfter_loop hl' (hsame.name_eq ▸ hp')
  rw [h.variables_eq] at hs'
  rw [hlive, hlive']
  ext x
  simp only [SortedSet.mem_ofList, mem_of_mapM hs, mem_of_mapM hs', hsame.liveOut.mem_iff]

end Routine.Lowered
end Description
end LoopMemory
