import LoopMemory.Proofs.Description.Graph

/-! Lowering accepts the well-formed descriptions and no others. Main statement: a model stands behind
a description just when its names are in order, its loops are rooted in the body, and a path leads to
each of its blocks and loops. -/
namespace LoopMemory.Description
open TreeBuilder Relation

namespace Draft
variable {r : Routine} {names : Names} {d d' : Draft}

/- Once the tables are filled, the region of every loop is known. -/
theorem Whole.exists_liveOut (hn : names = ⟨r.variables⟩) (h : d.Whole r names) :
    (∃ out, r.loops.mapM (d.liveOut names) = .ok out) ↔
      ∀ l ∈ r.loops, ∀ x ∈ l.liveOut, r.Declares x := by
  rw [exists_mapM_ok]
  refine forall₂_congr fun l hl => ?_
  obtain ⟨p, hp⟩ : ∃ p, d.region? (some l.name) = some p :=
    h.exists_region (Routine.loop_mem_regions hl)
  rw [← exists_wholes hn]
  simp only [liveOut, bind_eq_ok, pure_eq_ok, region_eq_ok, hp]
  constructor
  · rintro ⟨_, _, -, s, hs, -⟩
    exact ⟨s, hs⟩
  · rintro ⟨s, hs⟩
    exact ⟨_, p, rfl, s, hs, rfl⟩

/- Edges are only written from entries, blocks and loops. -/
theorem Drawn.deadEnds (h : d.Drawn r names) : d.builder.DeadEnds := by
  intro n node hn hk
  rw [List.eq_nil_iff_forall_not_mem]
  intro k hmem
  have hstem := stem?_of_node hn
  obtain ⟨s, t, hw, hs, -⟩ := (h.draws n k).1 ⟨node, hn, hmem⟩
  cases hw with
  | enter =>
    obtain ⟨p, -, hentry⟩ := h.whole.stem_entry hs
    rw [hstem] at hentry
    have hkind : node.kind = .entry := congrArg Node.kind (Option.some.inj hentry)
    rw [hk] at hkind
    cases hkind
  | next =>
    obtain ⟨q, -, -, -, p, kind, -, hnamed, -, hx⟩ := h.whole.stem_named hs
    rw [hstem] at hnamed
    have hkind : node.kind = kind := congrArg Node.kind (Option.some.inj hnamed)
    exact hx (hkind.symm.trans hk)

/- Nothing but what is written down is drawn. -/
theorem drawn_of_connect (h : d.Whole r names) (hbare : d.builder.Bare)
    (hd : d.connect r = .ok d') : d'.Drawn r names := by
  have hdrawing := drawing_connect h
  obtain ⟨hentries, hsuccessors⟩ := hdrawing.accepts.1 ⟨d', hd⟩
  have hsame := hdrawing.same d' hd
  refine ⟨hdrawing.whole d' hd, hentries, hsuccessors, fun i k => ?_⟩
  rw [hdrawing.draws d' hd]
  simp only [hsame.at_iff, hbare.not_draws, false_or]

end Draft

namespace Routine
variable {r : Routine} {m : Model}

/-- The routine is lowered to the model, by way of the draft. -/
structure Lowered (r : Routine) (d : Draft) (m : Model) : Prop where
  drawn : d.Drawn r ⟨r.variables⟩
  declared : ∃ d' d'', Draft.addLoops r.loops.length (.start r) r.loops = .ok d' ∧
    r.blocks.foldlM (Draft.addBlock ⟨r.variables⟩) d' = .ok d''
  reached : d.builder.finish.regions.toList.forM (checkReached d.builder.finish d.nodes) = .ok ()
  name : m.name = r.name
  tree : m.tree = d.builder.finish
  effects : m.effects = d.effects
  aliases : r.aliasModel ⟨r.variables⟩ = .ok m.aliases
  escaped : m.escaped = r.basesWhere (·.escapes)
  names : m.names = ⟨r.variables⟩
  liveOut : r.loops.mapM (d.liveOut ⟨r.variables⟩) = .ok m.liveOut
  expect : m.expect = r.expect

theorem exists_lowered (h : r.model = .ok m) : ∃ d, r.Lowered d m := by
  simp only [Routine.model, bind_eq_ok, pure_eq_ok] at h
  obtain ⟨names, hnames, aliases, haliases, d, hd, u, hu, v, hv, out, hout, _, hreach, rfl⟩ := h
  obtain rfl := names_eq_ok hnames
  obtain ⟨ls, hls, hrounds⟩ := Draft.rounds_of_addLoops ⟨r.variables⟩ hd
  obtain ⟨hholds, hbare⟩ := hrounds.holds.addBlocks hrounds.bare hu
  have hdrawn := Draft.drawn_of_connect ⟨ls, hls, hholds⟩ hbare hv
  exact ⟨v, hdrawn, ⟨d, u, hd, hu⟩, hreach, rfl, rfl, rfl, haliases, rfl, rfl, hout, rfl⟩

/-- A lowered routine is a finished tree in which every edge out of an exit is a back edge. -/
theorem model_ok (h : r.model = .ok m) : ∃ b : TreeBuilder, b.DeadEnds ∧ m.tree = b.finish := by
  obtain ⟨d, hlow⟩ := exists_lowered h
  exact ⟨d.builder, hlow.drawn.deadEnds, hlow.tree⟩

/-- A lowered routine has a valid tree in which loops and their nodes belong together, and its
instructions are known, or may read and write anything. -/
theorem lowered (h : r.model = .ok m) : m.tree.Valid ∧ m.tree.Linked ∧ m.tree.Nested ∧
    ∀ i e u, m.effectOf i = some e → e.unknown = some u → u = .conservative := by
  obtain ⟨d, hlow⟩ := exists_lowered h
  have hready := hlow.drawn.whole.ready
  have hvalid := valid_finish hready.sound hready.fenced
  rw [hlow.tree]
  refine ⟨hvalid, RegionTree.linked_ofParts hvalid.indexed, hready.formed.nested_finish,
    fun i e u he hu => ?_⟩
  rw [Model.effectOf, hlow.effects] at he
  exact hready.effects _ (Array.mem_of_getElem? (Option.join_eq_some_iff.1 he)) e u rfl hu

theorem wellFormed_of_model (h : r.model = .ok m) : r.WellFormed := by
  have hnames : ∃ names, r.names = .ok names := by
    simp only [Routine.model, bind_eq_ok] at h
    obtain ⟨names, hnames, -⟩ := h
    exact ⟨names, hnames⟩
  obtain ⟨d, hlow⟩ := exists_lowered h
  obtain ⟨d', d'', hd', hd''⟩ := hlow.declared
  obtain ⟨hloops, hloop⟩ := Draft.exists_addLoops.1 ⟨d', hd'⟩
  obtain ⟨ls, hls, hrounds⟩ := Draft.rounds_of_addLoops ⟨r.variables⟩ hd'
  obtain ⟨hblocks, hblock⟩ := (Draft.exists_addBlocks rfl hrounds.holds hls).1 ⟨d'', hd''⟩
  exact
    { vars := exists_names.1 hnames
      aliases := (exists_aliasModel rfl).1 ⟨_, hlow.aliases⟩
      loops := hloops
      loop := hloop
      blocks := hblocks
      block := fun b hb => (hblock b hb).1
      instructions := fun b hb => (hblock b hb).2
      liveOut := (hlow.drawn.whole.exists_liveOut rfl).1 ⟨_, hlow.liveOut⟩
      entries := hlow.drawn.entries
      successors := hlow.drawn.successors
      reached := hlow.drawn.checkReached_iff.1 hlow.reached }

theorem WellFormed.exists_model (h : r.WellFormed) : ∃ m, r.model = .ok m := by
  obtain ⟨names, hnames⟩ := exists_names.2 h.vars
  obtain rfl := names_eq_ok hnames
  obtain ⟨aliases, haliases⟩ := (exists_aliasModel rfl).2 h.aliases
  obtain ⟨d, hd⟩ := Draft.exists_addLoops.2 ⟨h.loops, h.loop⟩
  obtain ⟨ls, hls, hrounds⟩ := Draft.rounds_of_addLoops ⟨r.variables⟩ hd
  obtain ⟨u, hu⟩ := (Draft.exists_addBlocks rfl hrounds.holds hls).2
    ⟨h.blocks, fun b hb => ⟨h.block b hb, h.instructions b hb⟩⟩
  obtain ⟨hholds, hbare⟩ := hrounds.holds.addBlocks hrounds.bare hu
  have hwhole : u.Whole r ⟨r.variables⟩ := ⟨ls, hls, hholds⟩
  obtain ⟨v, hv⟩ := (Draft.drawing_connect hwhole).accepts.2 ⟨h.entries, h.successors⟩
  have hdrawn := Draft.drawn_of_connect hwhole hbare hv
  obtain ⟨out, hout⟩ := (hdrawn.whole.exists_liveOut rfl).2 h.liveOut
  have hreach := (hdrawn.checkReached_iff (u := ())).2 h.reached
  simp only [Routine.model, bind_eq_ok, pure_eq_ok]
  exact ⟨_, _, hnames, aliases, haliases, d, hd, u, hu, v, hv, out, hout, (), hreach, rfl⟩

/-- A description stands for a routine just when it is well-formed. -/
theorem accepted_iff_wellFormed (r : Routine) : (∃ m, r.model = .ok m) ↔ r.WellFormed :=
  ⟨fun ⟨_, h⟩ => wellFormed_of_model h, WellFormed.exists_model⟩

end Routine
end LoopMemory.Description
