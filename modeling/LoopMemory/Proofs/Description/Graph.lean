import LoopMemory.Proofs.Description.Edges
import LoopMemory.Proofs.Description.Reached

/-! The graphs of a finished routine are the ones of its description: an edge leads from one node to
another just when one leads from spot to spot. -/
namespace LoopMemory.Description
open TreeBuilder Relation

namespace Draft
variable {r : Routine} {names : Names} {d : Draft} {i k n : NodeId} {region : Option String}
  {s t : Spot}

/-- The draft once its edges are drawn. -/
structure Drawn (r : Routine) (names : Names) (d : Draft) : Prop where
  whole : d.Whole r names
  entries : ∀ o ∈ r.outlines, ∀ x, o.2 = some x → r.Knows o.1 x
  successors : ∀ q ∈ r.places, ∀ x ∈ q.successors, r.Knows q.region x
  draws : ∀ i k, d.builder.Draws i k ↔ ∃ s t, r.Writes s t ∧ d.At r s i ∧ d.At r t k

theorem Whole.region_of_lt {p : RegionId} {reg : Region} (h : d.Whole r names)
    (hp : d.builder.regions[p]? = some reg) : ∃ region ∈ r.regions, d.region? region = some p := by
  obtain ⟨ls, hls, hh⟩ := h.holds
  have hmem : p ∈ d.regions.map (·.2) := by
    rw [hh.regionIds]
    exact List.mem_range.2 (region_lt hp)
  obtain ⟨⟨x, p⟩, he, rfl⟩ := List.mem_map.1 hmem
  have hlookup := hh.lookup_region he
  exact ⟨r.home (some x), h.home_mem hlookup, h.region?_home.trans hlookup⟩

theorem Whole.exists_at_entry (h : d.Whole r names) (hr : region ∈ r.regions) :
    ∃ n, d.At r (.entry region) n := by
  obtain ⟨p, hp⟩ := h.exists_region hr
  exact ⟨_, hr, p, hp, rfl⟩

theorem Whole.exists_at_exit (h : d.Whole r names) (hr : region ∈ r.regions) :
    ∃ n, d.At r (.exit region) n := by
  obtain ⟨p, hp⟩ := h.exists_region hr
  exact ⟨_, hr, p, hp, rfl⟩

/- Every node stands at a spot. -/
theorem Whole.exists_spot {node : Node} (h : d.Whole r names)
    (hn : d.builder.stem? n = some node) : ∃ s, d.At r s n := by
  obtain ⟨-, owner, howner, -⟩ := h.ready.sound.node n node hn
  obtain ⟨region, hr, hp⟩ := h.region_of_lt howner
  obtain ⟨ls, hls, hh⟩ := h.holds
  rcases hh.covered n node hn with ⟨-, hentry⟩ | ⟨-, hexit⟩ | hnamed
  · exact ⟨.entry region, hr, _, hp, hentry⟩
  · exact ⟨.exit region, hr, _, hp, hexit⟩
  · obtain ⟨⟨x, n⟩, he, rfl⟩ := List.mem_map.1 hnamed
    exact ⟨.named x, hh.lookup_node he⟩

/- A loop is only described once. -/
theorem Whole.loop_unique {l l' : LoopEntry} (h : d.Whole r names) (hl : l ∈ r.loops)
    (hl' : l' ∈ r.loops) (hname : l.name = l'.name) : l = l' :=
  List.inj_on_of_nodup_map h.loops_fresh.1 hl hl' hname

/- What the region of the body and those of the loops say of themselves. -/

theorem Whole.region_of_body {reg : Region} (h : d.Whole r names)
    (hreg : d.builder.regions[RegionTree.root]? = some reg) :
    reg.name = r.name ∧ reg.kind = .body ∧ reg.standIn = none := by
  obtain ⟨body, hb, hkind, -, hstandIn⟩ := h.ready.sound.body
  obtain rfl := Option.some.inj (hreg.symm.trans hb)
  obtain ⟨ls, -, hh⟩ := h.holds
  obtain ⟨outline, ho, hname⟩ := hh.body
  rw [outline?, hreg] at ho
  obtain rfl := Option.some.inj ho
  exact ⟨hname, hkind, hstandIn⟩

theorem Whole.region_of_loop {l : LoopEntry} {p : RegionId} {reg : Region} (h : d.Whole r names)
    (hl : l ∈ r.loops) (hp : d.region? (some l.name) = some p)
    (hreg : d.builder.regions[p]? = some reg) :
    reg.name = l.name ∧ reg.kind = .loop l.executesAtLeastOnce ∧
      ∃ n, reg.standIn = some n ∧ d.nodes.lookup l.name = some n := by
  obtain ⟨ls, hls, hh⟩ := h.holds
  obtain ⟨⟨-, i, n, o, -, hi, ho, hs, hn, -⟩, i', o', hi', ho', hname, hkind⟩ :=
    hh.loops l (hls.mem_iff.2 hl)
  obtain rfl := Option.some.inj (hp.symm.trans hi)
  obtain rfl := Option.some.inj (hp.symm.trans hi')
  rw [outline?, hreg] at ho ho'
  obtain rfl := Option.some.inj ho
  obtain rfl := Option.some.inj ho'
  exact ⟨hname, hkind, n, hs, hn⟩

/- No two regions have one name. -/
theorem Whole.name_inj {p p' : RegionId} {reg reg' : Region} (h : d.Whole r names)
    (hreg : d.builder.regions[p]? = some reg) (hreg' : d.builder.regions[p']? = some reg')
    (hname : reg.name = reg'.name) : p = p' := by
  have hnamed : ∀ (p : RegionId) (reg : Region), d.builder.regions[p]? = some reg →
      d.regions.lookup reg.name = some p := by
    intro p reg hreg
    obtain ⟨region, hr, hp⟩ := h.region_of_lt hreg
    cases region with
    | none =>
      obtain rfl := Option.some.inj hp
      obtain ⟨hname, -⟩ := h.region_of_body hreg
      obtain ⟨ls, -, hh⟩ := h.holds
      exact hname ▸ hh.lookup_body
    | some name =>
      obtain ⟨l, hl, rfl⟩ := Routine.exists_loop hr
      exact (h.region_of_loop hl hp hreg).1 ▸ hp
  exact Option.some.inj ((hnamed p reg hreg).symm.trans (hname ▸ hnamed p' reg' hreg'))

/- The region of a loop is one, and that of the body is not. -/
theorem Whole.isLoop_iff {p : RegionId} {reg : Region} (h : d.Whole r names)
    (hp : d.region? region = some p) (hr : region ∈ r.regions)
    (hreg : d.builder.regions[p]? = some reg) :
    reg.isLoop ↔ ∃ l ∈ r.loops, region = some l.name := by
  cases region with
  | none =>
    obtain rfl := Option.some.inj hp
    obtain ⟨-, hkind, -⟩ := h.region_of_body hreg
    simp [Region.isLoop, hkind, RegionKind.isLoop]
  | some name =>
    obtain ⟨l, hl, rfl⟩ := Routine.exists_loop hr
    obtain ⟨-, hkind, -⟩ := h.region_of_loop hl hp hreg
    simp only [Region.isLoop, hkind, RegionKind.isLoop, true_iff]
    exact ⟨l, hl, rfl⟩

namespace Drawn
variable (h : d.Drawn r names)
include h

theorem exists_at_header {e : Option String} (ho : (region, e) ∈ r.outlines) :
    ∃ n, d.At r (r.header region e) n := by
  have hr : region ∈ r.regions := List.mem_map.2 ⟨_, ho, rfl⟩
  obtain ⟨p, hp⟩ := h.whole.exists_region hr
  cases e with
  | none => exact ⟨_, h.whole.at_firstNode? hr hp⟩
  | some x => exact h.whole.exists_at_of hr hp (h.entries _ ho x rfl)

/- Every edge of the description has a node at its end. -/
theorem exists_at_of_leads (hl : r.Leads s t) : ∃ n, d.At r t n := by
  cases hl with
  | written hw =>
    cases hw with
    | enter ho => exact h.exists_at_header ho
    | next hq hx =>
      obtain ⟨hr, p, -, -, hp, -⟩ := h.whole.stem_place hq
      exact h.whole.exists_at_of hr hp (h.successors _ hq _ hx)
  | fall hq _ => exact h.whole.exists_at_exit (h.whole.stem_place hq).1
  | again hl _ =>
    exact h.exists_at_header (.tail _ (List.mem_map.2 ⟨_, hl, rfl⟩))

/- Only the places without successors, and no entries and exits, have no edge drawn. -/
theorem idle_iff : (∃ node, d.builder.stem? n = some node ∧ node.kind ≠ .exit ∧
      (∀ j, ¬d.builder.Draws n j) ∧ k = d.builder.exit node.region) ↔
    ∃ q ∈ r.places, q.successors = [] ∧ d.At r (.named q.name) n ∧ d.At r (.exit q.region) k := by
  have hsound := h.whole.ready.sound
  constructor
  · rintro ⟨node, hn, hx, hnone, rfl⟩
    obtain ⟨-, owner, howner, -⟩ := hsound.node n node hn
    obtain ⟨ls, hls, hh⟩ := h.whole.holds
    rcases hh.covered n node hn with ⟨-, hentry⟩ | ⟨hexit, -⟩ | hnamed
    · obtain ⟨region, hr, hp⟩ := h.whole.region_of_lt howner
      obtain ⟨⟨region', e⟩, ho, rfl⟩ := List.mem_map.1 hr
      obtain ⟨j, hj⟩ := h.exists_at_header ho
      exact absurd ((h.draws n j).2 ⟨_, _, .enter ho, ⟨hr, _, hp, hentry⟩, hj⟩) (hnone j)
    · exact absurd hexit hx
    · obtain ⟨⟨x, n⟩, he, rfl⟩ := List.mem_map.1 hnamed
      have hat : d.At r (.named x) n := hh.lookup_node he
      obtain ⟨q, hq, rfl, hr, p, kind, hp, hstem, -⟩ := h.whole.stem_named hat
      obtain rfl := Option.some.inj (hn.symm.trans hstem)
      refine ⟨q, hq, List.eq_nil_iff_forall_not_mem.2 fun x hx => ?_, hat, hr, p, hp, rfl⟩
      obtain ⟨j, hj⟩ := h.whole.exists_at_of hr hp (h.successors q hq x hx)
      exact hnone j ((h.draws n j).2 ⟨_, _, .next hq hx, hat, hj⟩)
  · rintro ⟨q, hq, hnil, hat, hexit⟩
    obtain ⟨q', hq', hname, hr, p, kind, hp, hstem, he, hx⟩ := h.whole.stem_named hat
    obtain rfl := h.whole.place_unique hq' hq hname
    refine ⟨_, hstem, hx, fun j hj => ?_, hexit.unique ⟨hr, p, hp, rfl⟩⟩
    obtain ⟨s, t, hw, hs, -⟩ := (h.draws n j).1 hj
    obtain rfl := h.whole.at_inj hs hat
    generalize hspot : Spot.named q'.name = spot at hw
    cases hw with
    | enter => cases hspot
    | @next q'' x hq'' hx' =>
      obtain rfl := h.whole.place_unique hq'' hq' (Spot.named.inj hspot).symm
      simp [hnil] at hx'

/- The exit of a loop leads back to wherever its entry leads, but not to itself. -/
theorem again_iff : (∃ (p : RegionId) (reg : Region), d.builder.regions[p]? = some reg ∧
      reg.isLoop ∧ reg.exit = n ∧ d.builder.Draws reg.entry k ∧ k ≠ n) ↔
    ∃ l ∈ r.loops, r.header (some l.name) l.entry ≠ .exit (some l.name) ∧
      d.At r (.exit (some l.name)) n ∧ d.At r (r.header (some l.name) l.entry) k := by
  constructor
  · rintro ⟨p, reg, hreg, hloop, rfl, hdraws, hne⟩
    obtain ⟨region, hr, hp⟩ := h.whole.region_of_lt hreg
    obtain ⟨l, hl, rfl⟩ := (h.whole.isLoop_iff hp hr hreg).1 hloop
    have hentry : d.At r (.entry (some l.name)) reg.entry :=
      ⟨hr, p, hp, entry_of_region hreg⟩
    have hexit : d.At r (.exit (some l.name)) reg.exit := ⟨hr, p, hp, exit_of_region hreg⟩
    obtain ⟨s, t, hw, hs, ht⟩ := (h.draws _ _).1 hdraws
    obtain rfl := h.whole.at_inj hs hentry
    generalize hspot : Spot.entry (some l.name) = spot at hw
    cases hw with
    | next => cases hspot
    | @enter region e ho =>
      obtain rfl := Spot.entry.inj hspot
      rcases List.mem_cons.1 ho with he | ho
      · cases he
      · obtain ⟨l', hl', he⟩ := List.mem_map.1 ho
        obtain ⟨hname, rfl⟩ := Prod.mk.inj he
        obtain rfl := h.whole.loop_unique hl' hl (Option.some.inj hname)
        refine ⟨l', hl, fun hsame => ?_, hexit, ht⟩
        rw [hsame] at ht
        exact hne (ht.unique hexit)
  · rintro ⟨l, hl, hne, hexit, hheader⟩
    obtain ⟨hr, p, hp, rfl⟩ := hexit
    obtain ⟨reg, hreg⟩ := h.whole.ready.exists_region hp
    refine ⟨p, reg, hreg, (h.whole.isLoop_iff hp hr hreg).2 ⟨l, hl, rfl⟩,
      (exit_of_region hreg).symm, ?_, ?_⟩
    · exact (h.draws _ _).2 ⟨_, _, .enter (.tail _ (List.mem_map.2 ⟨l, hl, rfl⟩)),
        ⟨hr, p, hp, entry_of_region hreg⟩, hheader⟩
    · rintro rfl
      exact hne (h.whole.at_inj hheader ⟨hr, p, hp, rfl⟩)

/-- The edges of the finished tree. -/
theorem leads_iff : d.builder.finish.Leads i k ↔
    ∃ s t, r.Leads s t ∧ d.At r s i ∧ d.At r t k := by
  rw [leads_finish h.whole.ready.sound, h.draws, h.idle_iff, h.again_iff]
  constructor
  · rintro (⟨s, t, hw, hs, ht⟩ | ⟨q, hq, hnil, hs, ht⟩ | ⟨l, hl, hne, hs, ht⟩)
    · exact ⟨s, t, .written hw, hs, ht⟩
    · exact ⟨_, _, .fall hq hnil, hs, ht⟩
    · exact ⟨_, _, .again hl hne, hs, ht⟩
  · rintro ⟨s, t, hl, hs, ht⟩
    cases hl with
    | written hw => exact .inl ⟨s, t, hw, hs, ht⟩
    | fall hq hnil => exact .inr (.inl ⟨_, hq, hnil, hs, ht⟩)
    | again hl hne => exact .inr (.inr ⟨_, hl, hne, hs, ht⟩)

theorem leads_at_iff (hs : d.At r s i) (ht : d.At r t k) :
    d.builder.finish.Leads i k ↔ r.Leads s t := by
  rw [h.leads_iff]
  constructor
  · rintro ⟨u, v, hl, hu, hv⟩
    rwa [h.whole.at_inj hs hu, h.whole.at_inj ht hv]
  · exact fun hl => ⟨s, t, hl, hs, ht⟩

/- A spot that a path goes on from has a node, as it is the start or the end of an edge. -/
theorem path_iff (hs : d.At r s i) (ht : d.At r t k) :
    ReflTransGen d.builder.finish.Leads i k ↔ ReflTransGen r.Leads s t := by
  constructor
  · intro hpath
    suffices H : ∀ t, d.At r t k → ReflTransGen r.Leads s t from H t ht
    clear ht
    induction hpath with
    | refl =>
      intro t ht
      rw [h.whole.at_inj hs ht]
    | tail _ hl ih =>
      intro t ht
      obtain ⟨u, v, hl, hu, hv⟩ := h.leads_iff.1 hl
      obtain rfl := h.whole.at_inj hv ht
      exact (ih u hu).tail hl
  · intro hpath
    suffices H : ∀ k, d.At r t k → ReflTransGen d.builder.finish.Leads i k from H k ht
    clear ht
    induction hpath with
    | refl =>
      intro k hk
      rw [hs.unique hk]
    | @tail u v hpath hl ih =>
      intro k hk
      have hu : ∃ j, d.At r u j := by
        cases hpath with
        | refl => exact ⟨i, hs⟩
        | tail _ hl => exact h.exists_at_of_leads hl
      obtain ⟨j, hj⟩ := hu
      exact (ih j hj).tail (h.leads_iff.2 ⟨u, v, hl, hj, hk⟩)

/-- The search finds every node of the finished tree that has a name just when a path of the
description leads to each place. -/
theorem checkReached_iff {u : Unit} :
    d.builder.finish.regions.toList.forM (checkReached d.builder.finish d.nodes) = .ok u ↔
      ∀ q ∈ r.places, ReflTransGen r.Leads (.entry q.region) (.named q.name) := by
  have hsound := h.whole.ready.sound
  simp only [forM_eq_ok, checkReached_eq_ok]
  constructor
  · intro hall q hq
    obtain ⟨hr, p, n, kind, hp, hn, hstem, -⟩ := h.whole.stem_place hq
    obtain ⟨reg, hreg⟩ := h.whole.ready.exists_region hp
    obtain ⟨node, hnode, hstem'⟩ := exists_node_finish hstem
    have hmem : reg ∈ d.builder.finish.regions.toList :=
      Array.mem_toList_iff.2 (Array.mem_of_getElem? hreg)
    have hregion : node.region = reg.id :=
      (congrArg Node.region hstem').trans (hsound.region p reg hreg).id.symm
    have hpath := hall reg hmem (q.name, n) (mem_of_lookup hn) node hnode hregion
    have hentry : d.At r (.entry q.region) reg.entry := ⟨hr, p, hp, entry_of_region hreg⟩
    have hat : d.At r (.named q.name) n := hn
    exact (h.path_iff hentry hat).1 hpath
  · rintro hall reg hmem ⟨x, n⟩ he node hnode hregion
    obtain ⟨p, hreg⟩ := Array.getElem?_of_mem (Array.mem_toList_iff.1 hmem)
    have hreg : d.builder.regions[p]? = some reg := hreg
    obtain ⟨ls, -, hh⟩ := h.whole.holds
    have hat : d.At r (.named x) n := hh.lookup_node he
    obtain ⟨q, hq, rfl, hr, p', kind, hp', hstem, -⟩ := h.whole.stem_named hat
    have hp : p' = p := by
      have hstem' := congrArg Node.region
        (Option.some.inj ((stem_of_finish hnode).symm.trans hstem))
      exact hstem'.symm.trans (hregion.trans (hsound.region p reg hreg).id)
    subst hp
    have hentry : d.At r (.entry q.region) reg.entry := ⟨hr, p', hp', entry_of_region hreg⟩
    exact (h.path_iff hentry hat).2 (hall q hq)

end Drawn
end Draft
end LoopMemory.Description
