import LoopMemory.Proofs.Description.Declared

/-! Once everything is declared, each spot of a description has one node in the graphs, and no two
spots share theirs. The names in entries and successors are found there. -/
namespace LoopMemory.Description
open TreeBuilder

namespace Routine
variable {r : Routine} {region : Option String} {q : Place}

/-- The body and the loops. -/
def regions (r : Routine) : List (Option String) := r.outlines.map (·.1)

theorem mem_regions : region ∈ r.regions ↔
    ∀ name, region = some name → name ∈ r.loops.map (·.name) := by
  cases region <;> simp [regions, outlines, eq_comm]

theorem loop_mem_regions {l : LoopEntry} (hl : l ∈ r.loops) : some l.name ∈ r.regions :=
  mem_regions.2 fun _ hname => Option.some.inj hname ▸ List.mem_map_of_mem hl

theorem exists_loop {name : String} (hr : some name ∈ r.regions) : ∃ l ∈ r.loops, l.name = name :=
  List.mem_map.1 (mem_regions.1 hr name rfl)

theorem mem_places : q ∈ r.places ↔
    (∃ b ∈ r.blocks, r.blockPlace b = q) ∨ ∃ l ∈ r.loops, r.loopPlace l = q := by
  simp [places]

end Routine

namespace Draft
variable {r : Routine} {names : Names} {ls : List LoopEntry} {d d' : Draft} {l : LoopEntry}
  {p : RegionId} {n k : NodeId} {region region' parent entry : Option String} {x : String}
  {s t : Spot} {q : Place}

/-- The node that stands at a spot. -/
def At (d : Draft) (r : Routine) : Spot → NodeId → Prop
  | .entry region, n => region ∈ r.regions ∧ ∃ p, d.region? region = some p ∧ d.builder.entry p = n
  | .exit region, n => region ∈ r.regions ∧ ∃ p, d.region? region = some p ∧ d.builder.exit p = n
  | .named x, n => d.nodes.lookup x = some n

theorem At.unique (h : d.At r s n) (h' : d.At r s k) : n = k := by
  cases s with
  | entry region =>
    obtain ⟨-, p, hp, rfl⟩ := h
    obtain ⟨-, p', hp', rfl⟩ := h'
    rw [Option.some.inj (hp.symm.trans hp')]
  | exit region =>
    obtain ⟨-, p, hp, rfl⟩ := h
    obtain ⟨-, p', hp', rfl⟩ := h'
    rw [Option.some.inj (hp.symm.trans hp')]
  | named x => exact Option.some.inj (h.symm.trans h')

/-- The draft has all loops and blocks of the routine. -/
structure Whole (r : Routine) (names : Names) (d : Draft) : Prop where
  holds : ∃ ls, ls.Perm r.loops ∧ d.Holds r names ls r.blocks

namespace Whole
variable (h : d.Whole r names)
include h

theorem ready : d.Ready := by
  obtain ⟨ls, -, h⟩ := h
  exact h.ready

theorem loops_fresh : (r.loops.map (·.name)).Nodup ∧ r.name ∉ r.loops.map (·.name) := by
  obtain ⟨ls, hls, h⟩ := h
  obtain ⟨hfresh, hnodup⟩ := List.nodup_cons.1 h.regionNames
  exact ⟨(hls.map _).nodup_iff.1 hnodup, fun hmem => hfresh ((hls.map _).mem_iff.2 hmem)⟩

theorem lookup_region_eq_none :
    d.regions.lookup x = none ↔ x ≠ r.name ∧ x ∉ r.loops.map (·.name) := by
  obtain ⟨ls, hls, h⟩ := h
  rw [h.lookup_region_eq_none, (hls.map _).mem_iff]

theorem lookup_node_eq_none :
    d.nodes.lookup x = none ↔ x ∉ r.loops.map (·.name) ∧ x ∉ r.blocks.map (·.name) := by
  obtain ⟨ls, hls, h⟩ := h
  rw [h.lookup_node_eq_none, (hls.map _).mem_iff]

theorem region?_home : d.region? (r.home parent) = d.region? parent := by
  obtain ⟨ls, -, h⟩ := h
  exact h.region?_home

/- Regions. -/

theorem exists_region (hr : region ∈ r.regions) : ∃ p, d.region? region = some p := by
  rw [Routine.mem_regions] at hr
  cases region with
  | none => exact ⟨_, rfl⟩
  | some name =>
    cases hl : d.regions.lookup name with
    | none => exact absurd (hr name rfl) (h.lookup_region_eq_none.1 hl).2
    | some p => exact ⟨p, hl⟩

/- A loop never stands for the body, which has the routine's name. -/
theorem region?_inj (hr : region ∈ r.regions) (hr' : region' ∈ r.regions)
    (hp : d.region? region = some p) (hp' : d.region? region' = some p) : region = region' := by
  have hfresh := h.loops_fresh.2
  obtain ⟨ls, -, h⟩ := h
  rw [Routine.mem_regions] at hr hr'
  have hbody : ∀ name, name ∈ r.loops.map (·.name) →
      d.regions.lookup name ≠ some RegionTree.root := by
    intro name hmem hlookup
    exact hfresh (lookup_inj h.regionIds_nodup hlookup h.lookup_body ▸ hmem)
  cases region with
  | none =>
    obtain rfl := Option.some.inj hp
    cases region' with
    | none => rfl
    | some name => exact absurd hp' (hbody name (hr' name rfl))
  | some name =>
    cases region' with
    | none =>
      obtain rfl := Option.some.inj hp'
      exact absurd hp (hbody name (hr name rfl))
    | some name' => exact congrArg some (lookup_inj h.regionIds_nodup hp hp')

theorem home_mem (hp : d.region? parent = some p) : r.home parent ∈ r.regions := by
  obtain ⟨ls, hls, h⟩ := h
  rw [Routine.mem_regions]
  intro name hname
  exact (hls.map _).mem_iff.1 (h.exists_region?.1 ⟨p, hp⟩ name hname)

theorem stem_entry (ha : d.At r (.entry region) n) : ∃ p, d.region? region = some p ∧
    d.builder.stem? n = some { id := n, region := p, kind := .entry } := by
  obtain ⟨-, p, hp, rfl⟩ := ha
  obtain ⟨reg, hreg⟩ := h.ready.exists_region hp
  exact ⟨p, hp, h.ready.sound.entry hreg⟩

theorem stem_exit (ha : d.At r (.exit region) n) : ∃ p, d.region? region = some p ∧
    d.builder.stem? n = some { id := n, region := p, kind := .exit } := by
  obtain ⟨-, p, hp, rfl⟩ := ha
  obtain ⟨reg, hreg⟩ := h.ready.exists_region hp
  exact ⟨p, hp, h.ready.sound.exit hreg⟩

/- Places. -/

theorem places_nodup : (r.places.map (·.name)).Nodup := by
  obtain ⟨ls, hls, h⟩ := h
  have hnames : (r.places.map (·.name)).Perm (ls.map (·.name) ++ r.blocks.map (·.name)) := by
    have he : r.places.map (·.name) = r.blocks.map (·.name) ++ r.loops.map (·.name) := by
      simp [Routine.places, Function.comp_def, Routine.blockPlace, Routine.loopPlace]
    rw [he]
    exact List.perm_append_comm.trans ((hls.map _).symm.append_right _)
  exact hnames.nodup_iff.2 h.nodeNames

theorem place_unique {q' : Place} (hq : q ∈ r.places) (hq' : q' ∈ r.places)
    (hname : q.name = q'.name) : q = q' :=
  List.inj_on_of_nodup_map h.places_nodup hq hq' hname

/- A place is in the tables, as a block or as a loop. -/
theorem stem_place (hq : q ∈ r.places) : q.region ∈ r.regions ∧
    ∃ p n kind, d.region? q.region = some p ∧ d.nodes.lookup q.name = some n ∧
      d.builder.stem? n = some { id := n, region := p, kind } ∧ kind ≠ .entry ∧ kind ≠ .exit := by
  rcases Routine.mem_places.1 hq with ⟨b, hb, rfl⟩ | ⟨l, hl, rfl⟩
  · obtain ⟨before, after, he⟩ := List.append_of_mem hb
    obtain ⟨ls, hls, hh⟩ := h.holds
    obtain ⟨p, n, hp, hn, hstem⟩ := hh.blocks before b after he
    exact ⟨h.home_mem hp, p, n, _, h.region?_home.trans hp, hn, hstem, by simp, by simp⟩
  · obtain ⟨ls, hls, hh⟩ := h.holds
    obtain ⟨⟨p, i, n, outline, hp, -, -, -, hn, hstem⟩, -⟩ := hh.loops l (hls.mem_iff.2 hl)
    exact ⟨h.home_mem hp, p, n, _, h.region?_home.trans hp, hn, hstem, by simp, by simp⟩

theorem place_of_lookup (hn : d.nodes.lookup x = some n) : ∃ q ∈ r.places, q.name = x := by
  by_contra hnone
  rw [h.lookup_node_eq_none.2 ⟨fun hmem => ?_, fun hmem => ?_⟩] at hn
  · cases hn
  · obtain ⟨l, hl, rfl⟩ := List.mem_map.1 hmem
    exact hnone ⟨_, Routine.mem_places.2 (.inr ⟨l, hl, rfl⟩), rfl⟩
  · obtain ⟨b, hb, rfl⟩ := List.mem_map.1 hmem
    exact hnone ⟨_, Routine.mem_places.2 (.inl ⟨b, hb, rfl⟩), rfl⟩

theorem stem_named (ha : d.At r (.named x) n) : ∃ q ∈ r.places, q.name = x ∧
    q.region ∈ r.regions ∧ ∃ p kind, d.region? q.region = some p ∧
      d.builder.stem? n = some { id := n, region := p, kind } ∧ kind ≠ .entry ∧ kind ≠ .exit := by
  obtain ⟨q, hq, rfl⟩ := h.place_of_lookup ha
  obtain ⟨hr, p, n', kind, hp, hn', hstem, he, hx⟩ := h.stem_place hq
  obtain rfl := Option.some.inj (hn'.symm.trans ha)
  exact ⟨q, hq, rfl, hr, p, kind, hp, hstem, he, hx⟩

/- No two spots share a node. -/
theorem at_inj (hs : d.At r s n) (ht : d.At r t n) : s = t := by
  cases s with
  | entry region =>
    obtain ⟨p, hp, hstem⟩ := h.stem_entry hs
    cases t with
    | entry region' =>
      obtain ⟨p', hp', hstem'⟩ := h.stem_entry ht
      obtain rfl : p = p' := congrArg Node.region (Option.some.inj (hstem.symm.trans hstem'))
      rw [h.region?_inj hs.1 ht.1 hp hp']
    | exit region' =>
      obtain ⟨p', -, hstem'⟩ := h.stem_exit ht
      simp [hstem] at hstem'
    | named x =>
      obtain ⟨q, -, -, -, p', kind, -, hstem', he, -⟩ := h.stem_named ht
      exact absurd (congrArg Node.kind (Option.some.inj (hstem'.symm.trans hstem))) he
  | exit region =>
    obtain ⟨p, hp, hstem⟩ := h.stem_exit hs
    cases t with
    | entry region' =>
      obtain ⟨p', -, hstem'⟩ := h.stem_entry ht
      simp [hstem] at hstem'
    | exit region' =>
      obtain ⟨p', hp', hstem'⟩ := h.stem_exit ht
      obtain rfl : p = p' := congrArg Node.region (Option.some.inj (hstem.symm.trans hstem'))
      rw [h.region?_inj hs.1 ht.1 hp hp']
    | named x =>
      obtain ⟨q, -, -, -, p', kind, -, hstem', -, hx⟩ := h.stem_named ht
      exact absurd (congrArg Node.kind (Option.some.inj (hstem'.symm.trans hstem))) hx
  | named x =>
    obtain ⟨q, -, -, -, p, kind, -, hstem, he, hx⟩ := h.stem_named hs
    cases t with
    | entry region' =>
      obtain ⟨p', -, hstem'⟩ := h.stem_entry ht
      exact absurd (congrArg Node.kind (Option.some.inj (hstem.symm.trans hstem'))) he
    | exit region' =>
      obtain ⟨p', -, hstem'⟩ := h.stem_exit ht
      exact absurd (congrArg Node.kind (Option.some.inj (hstem.symm.trans hstem'))) hx
    | named x' =>
      obtain ⟨ls, -, hh⟩ := h.holds
      rw [lookup_inj hh.nodeIds hs ht]

/- Names in entries and successors. -/

section Region
variable (hr : region ∈ r.regions) (hp : d.region? region = some p)
include hr hp

theorem node_eq_ok : d.node x p = .ok n ↔ r.Knows region x ∧ d.At r (.of region x) n := by
  by_cases hx : x = exitName
  · subst hx
    simp only [Draft.node, Spot.of, if_pos, Routine.Knows, true_or, true_and, pure_eq_ok]
    constructor
    · rintro rfl
      exact ⟨hr, p, hp, rfl⟩
    · rintro ⟨-, p', hp', rfl⟩
      rw [Option.some.inj (hp.symm.trans hp')]
  · rw [Draft.node, if_neg hx, Spot.of, if_neg hx]
    simp only [Routine.Knows, hx, false_or, At]
    cases hl : d.nodes.lookup x with
    | none => simp
    | some k =>
      obtain ⟨q, hq, hname, hqr, p', kind, hp', hstem, -⟩ := h.stem_named (r := r) hl
      simp only [bind_eq_ok, require_eq_ok, pure_eq_ok, regionOf_of_stem hstem, Option.some.injEq]
      constructor
      · rintro ⟨_, rfl, rfl⟩
        exact ⟨⟨q, hq, hname, h.region?_inj hqr hr hp' hp⟩, rfl⟩
      · rintro ⟨⟨q', hq', hname', hregion⟩, rfl⟩
        obtain rfl := h.place_unique hq hq' (hname.trans hname'.symm)
        rw [hregion, hp] at hp'
        exact ⟨(), (Option.some.inj hp').symm, rfl⟩

theorem exists_at_of (hk : r.Knows region x) : ∃ n, d.At r (.of region x) n := by
  rcases hk with rfl | ⟨q, hq, rfl, rfl⟩
  · exact ⟨_, by simpa [Spot.of] using ⟨hr, p, hp, rfl⟩⟩
  · by_cases hx : q.name = exitName
    · exact ⟨_, by simpa [Spot.of, hx] using ⟨hr, p, hp, rfl⟩⟩
    · obtain ⟨-, -, n, -, -, hn, -⟩ := h.stem_place hq
      exact ⟨n, by rwa [Spot.of, if_neg hx]⟩

theorem region?_eq_iff : d.region? parent = some p ↔ r.home parent = region := by
  constructor
  · intro hparent
    exact h.region?_inj (h.home_mem hparent) hr (h.region?_home.trans hparent) hp
  · rintro rfl
    exact h.region?_home.symm.trans hp

/- The default for an entry is the first place that is declared in the region. -/
theorem at_firstNode? :
    d.At r (r.header region none) ((d.firstNode? r p).getD (d.builder.exit p)) := by
  have hblocks : (r.blocks.find? fun b => d.region? b.region == some p) =
      r.blocks.find? fun b => (r.blockPlace b).region = region := by
    congr 1
    funext b
    rw [Bool.eq_iff_iff, beq_iff_eq, decide_eq_true_iff]
    exact h.region?_eq_iff hr hp
  have hloops : (r.loops.find? fun l => d.region? l.parent == some p) =
      r.loops.find? fun l => (r.loopPlace l).region = region := by
    congr 1
    funext l
    rw [Bool.eq_iff_iff, beq_iff_eq, decide_eq_true_iff]
    exact h.region?_eq_iff hr hp
  have hfirst : d.firstNode? r p =
      ((r.places.find? (·.region = region)).map (·.name)).bind fun name => d.nodes.lookup name := by
    rw [firstNode?, hblocks, hloops, Routine.places, List.find?_append, List.find?_map,
      List.find?_map, Function.comp_def, Function.comp_def]
    cases (r.blocks.find? fun b => (r.blockPlace b).region = region) <;>
      cases (r.loops.find? fun l => (r.loopPlace l).region = region) <;> rfl
  unfold Routine.header
  cases hq : r.places.find? (·.region = region) with
  | none =>
    rw [hfirst, hq]
    exact ⟨hr, p, hp, rfl⟩
  | some q =>
    obtain ⟨-, -, n, -, -, hn, -⟩ := h.stem_place (List.mem_of_find?_eq_some hq)
    rw [hfirst, hq]
    simp [At, hn]

end Region
end Whole
end Draft
end LoopMemory.Description
