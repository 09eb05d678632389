import LoopMemory.Proofs.Description.Calls
import LoopMemory.Proofs.Description.Contents
import LoopMemory.Proofs.Description.Effects
import Mathlib.Data.List.Dedup

/-! A lowered routine has the regions, the nodes, the edges and the instructions that its description
writes down, and no others. Main statement: numbers can be put to everything that the description
names, so that the tree and the effects say of the numbers what the description says of the names. -/
namespace LoopMemory.Description
open TreeBuilder

/-- The numbers that stand for the regions, the spots and the instructions of a description. -/
structure Legend where
  region : Option String → RegionId
  node : Spot → NodeId
  insts : BlockEntry → List Inst

/-- What the names stand for in the tables of a draft. -/
def Draft.legend (d : Draft) : Legend where
  region x := (d.region? x).getD RegionTree.root
  node
    | .entry x => d.builder.entry ((d.region? x).getD RegionTree.root)
    | .exit x => d.builder.exit ((d.region? x).getD RegionTree.root)
    | .named name => (d.nodes.lookup name).getD 0
  insts b :=
    match (d.nodes.lookup b.name).bind d.builder.kind? with
    | some (.block insts) => insts
    | _ => []

namespace Draft
variable {r : Routine} {names : Names} {d : Draft} {x e : Option String} {s t : Spot} {q : Place}
  {l : LoopEntry} {b : BlockEntry} {p : RegionId} {n k : NodeId} {region : Region} {node : Node}

theorem legend_region (hp : d.region? x = some p) : d.legend.region x = p := by
  simp [legend, hp]

theorem At.legend_eq (h : d.At r s n) : d.legend.node s = n := by
  cases s with
  | entry x =>
    obtain ⟨-, p, hp, rfl⟩ := h
    simp [legend, hp]
  | exit x =>
    obtain ⟨-, p, hp, rfl⟩ := h
    simp [legend, hp]
  | named name =>
    have hn : d.nodes.lookup name = some n := h
    simp [legend, hn]

theorem At.exists_node (h : d.At r s n) {stem : Node} (hstem : d.builder.stem? n = some stem) :
    ∃ node, d.builder.finish.node? (d.legend.node s) = some node ∧ node.kind = stem.kind := by
  obtain ⟨node, hn, rfl⟩ := exists_node_finish hstem
  exact ⟨node, h.legend_eq ▸ hn, rfl⟩

namespace Whole
variable (h : d.Whole r names)
include h

/- The edges of a description, by the spot where they start. -/

theorem leads_place_iff (hq : q ∈ r.places) : r.Leads (.named q.name) t ↔
    if q.successors = [] then t = .exit q.region else ∃ x ∈ q.successors, t = .of q.region x := by
  constructor
  · intro hl
    generalize hs : Spot.named q.name = s at hl
    cases hl with
    | written hw =>
      cases hw with
      | enter => cases hs
      | @next q' x hq' hx =>
        obtain rfl := h.place_unique hq hq' (Spot.named.inj hs)
        rw [if_neg (List.ne_nil_of_mem hx)]
        exact ⟨x, hx, rfl⟩
    | @fall q' hq' hnil =>
      obtain rfl := h.place_unique hq hq' (Spot.named.inj hs)
      rw [if_pos hnil]
    | again => cases hs
  · intro ht
    split at ht
    · rename_i hnil
      exact ht ▸ .fall hq hnil
    · obtain ⟨x, hx, rfl⟩ := ht
      exact .written (.next hq hx)

theorem outline_unique {e' : Option String} (ho : (x, e) ∈ r.outlines)
    (ho' : (x, e') ∈ r.outlines) : e = e' := by
  simp only [Routine.outlines, List.mem_cons, List.mem_map, Prod.mk.injEq] at ho ho'
  rcases ho with ⟨rfl, rfl⟩ | ⟨l, hl, rfl, rfl⟩
  · rcases ho' with ⟨-, rfl⟩ | ⟨l', -, hname, -⟩
    · rfl
    · cases hname
  · rcases ho' with ⟨hname, -⟩ | ⟨l', hl', hname, rfl⟩
    · cases hname
    · rw [h.loop_unique hl hl' (Option.some.inj hname).symm]

theorem leads_entry_iff (ho : (x, e) ∈ r.outlines) :
    r.Leads (.entry x) t ↔ t = r.header x e := by
  constructor
  · intro hl
    generalize hs : Spot.entry x = s at hl
    cases hl with
    | written hw =>
      cases hw with
      | @enter x' e' ho' =>
        obtain rfl := Spot.entry.inj hs
        rw [h.outline_unique ho ho']
      | next => cases hs
    | fall => cases hs
    | again => cases hs
  · rintro rfl
    exact .written (.enter ho)

theorem exists_region_of_mem (hx : x ∈ r.regions) : ∃ p region, d.region? x = some p ∧
    d.legend.region x = p ∧ d.builder.regions[p]? = some region := by
  obtain ⟨p, hp⟩ := h.exists_region hx
  obtain ⟨region, hregion⟩ := h.ready.exists_region hp
  exact ⟨p, region, hp, legend_region hp, hregion⟩

/- The node of a loop lies in the graph of the parent. -/
theorem parent_of_loop (hl : l ∈ r.loops) (hp : d.region? (some l.name) = some p)
    (hregion : d.builder.regions[p]? = some region) :
    region.parent = some (d.legend.region (r.home l.parent)) := by
  have hown := h.ready.sound.region p region hregion
  obtain ⟨-, hkind, n, hs, -⟩ := h.region_of_loop hl hp hregion
  obtain ⟨ls, hls, hh⟩ := h.holds
  obtain ⟨⟨q, p', n', outline, hq, hp', ho, hs', hn', hstem⟩, -⟩ := hh.loops l (hls.mem_iff.2 hl)
  obtain rfl := Option.some.inj (hp.symm.trans hp')
  rw [outline?, hregion] at ho
  obtain rfl := Option.some.inj ho
  rw [legend_region (h.region?_home.trans hq)]
  cases hparent : region.parent with
  | none =>
    obtain ⟨body, hbody, hbodyKind, -⟩ := h.ready.sound.body
    rw [hown.rooted hparent, hbody] at hregion
    rw [← Option.some.inj hregion, hbodyKind] at hkind
    cases hkind
  | some q' =>
    obtain ⟨-, -, k, hk, hkstem⟩ := hown.parent q' hparent
    obtain rfl := Option.some.inj (hk.symm.trans hs')
    rw [hkstem] at hstem
    exact congrArg some (congrArg Node.region (Option.some.inj hstem))

/- Nodes. -/

theorem legend_insts {before after : List BlockEntry} (he : r.blocks = before ++ b :: after) :
    d.legend.insts b =
      List.range' (before.flatMap (·.instructions)).length b.instructions.length := by
  obtain ⟨ls, -, hh⟩ := h.holds
  obtain ⟨p, n, -, hn, hstem⟩ := hh.blocks before b after he
  obtain ⟨raw, hraw, hraw'⟩ := Option.map_eq_some_iff.1 hstem
  have hkind : d.builder.kind? n = some (.block
      (List.range' (before.flatMap (·.instructions)).length b.instructions.length)) := by
    rw [List.range'_eq_map_range, TreeBuilder.kind?, hraw]
    exact congrArg some (congrArg Node.kind hraw')
  simp [legend, hn, hkind]

end Whole

namespace Drawn
variable (h : d.Drawn r names)
include h

theorem mem_succs_iff (hs : d.At r s n)
    (hn : d.builder.finish.node? (d.legend.node s) = some node) :
    k ∈ node.succs ↔ ∃ t, r.Leads s t ∧ k = d.legend.node t := by
  rw [hs.legend_eq] at hn
  rw [← leads_iff_mem_succs hn, h.leads_iff]
  constructor
  · rintro ⟨s', t, hl, hs', ht⟩
    obtain rfl := h.whole.at_inj hs' hs
    exact ⟨t, hl, ht.legend_eq.symm⟩
  · rintro ⟨t, hl, rfl⟩
    obtain ⟨n', ht⟩ := h.exists_at_of_leads hl
    exact ⟨s, t, hl, hs, ht.legend_eq ▸ ht⟩

/- The edges from each kind of spot. -/

theorem exists_place (hq : q ∈ r.places) : ∃ node,
    d.builder.finish.node? (d.legend.node (.named q.name)) = some node ∧
      ∀ k, k ∈ node.succs ↔ if q.successors = [] then k = d.legend.node (.exit q.region)
        else ∃ x ∈ q.successors, k = d.legend.node (.of q.region x) := by
  obtain ⟨-, p, n, kind, -, hlookup, hstem, -⟩ := h.whole.stem_place hq
  have hat : d.At r (.named q.name) n := hlookup
  obtain ⟨node, hn, -⟩ := hat.exists_node hstem
  refine ⟨node, hn, fun k => ?_⟩
  simp only [h.mem_succs_iff hat hn, h.whole.leads_place_iff hq]
  split
  · simp only [exists_eq_left]
  · constructor
    · rintro ⟨t, ⟨x, hx, rfl⟩, rfl⟩
      exact ⟨x, hx, rfl⟩
    · rintro ⟨x, hx, rfl⟩
      exact ⟨_, ⟨x, hx, rfl⟩, rfl⟩

end Drawn
end Draft

namespace Routine
variable {r : Routine} {d : Draft} {m : Model} {l : LoopEntry} {b : BlockEntry}

namespace Lowered
variable (h : r.Lowered d m)
include h

theorem region?_eq (p : RegionId) : m.tree.region? p = d.builder.regions[p]? := by
  rw [h.tree, region?_finish]

theorem exists_loop (hl : l ∈ r.loops) : ∃ region,
    m.tree.region? (d.legend.region (some l.name)) = some region ∧ region.name = l.name ∧
      region.kind = .loop l.executesAtLeastOnce ∧
      region.parent = some (d.legend.region (r.home l.parent)) := by
  have hwhole := h.drawn.whole
  obtain ⟨p, region, hp, hlegend, hregion⟩ := hwhole.exists_region_of_mem (loop_mem_regions hl)
  obtain ⟨hname, hkind, -⟩ := hwhole.region_of_loop hl hp hregion
  exact ⟨region, by rw [h.region?_eq, hlegend, hregion], hname, hkind,
    hwhole.parent_of_loop hl hp hregion⟩

theorem exists_standIn (hl : l ∈ r.loops) : ∃ node,
    m.tree.node? (d.legend.node (.named l.name)) = some node ∧
      node.kind = .region (d.legend.region (some l.name)) := by
  obtain ⟨ls, hls, hh⟩ := h.drawn.whole.holds
  obtain ⟨⟨p, i, n, -, -, hi, -, -, hlookup, hstem⟩, -⟩ := hh.loops l (hls.mem_iff.2 hl)
  have hat : d.At r (.named l.name) n := hlookup
  have hi : d.region? (some l.name) = some i := hi
  obtain ⟨node, hn, hkind⟩ := hat.exists_node hstem
  refine ⟨node, h.tree ▸ hn, hkind.trans ?_⟩
  rw [Draft.legend_region hi]

theorem exists_effect (hb : b ∈ r.blocks) {o : Nat} {e : InstructionEntry}
    (he : b.instructions[o]? = some e) : ∃ (i : Inst) (eff : Option Effect),
      (d.legend.insts b)[o]? = some i ∧ m.effects[i]? = some eff ∧ r.Does e eff := by
  obtain ⟨before, after, hblocks⟩ := List.append_of_mem hb
  have hslot := getElem?_slots hblocks he
  obtain ⟨eff, heff, hok⟩ := getElem?_of_mapM h.effects_toList (instruction_of_slot hslot)
  have ho : o < b.instructions.length := (List.getElem?_eq_some_iff.1 he).1
  rw [h.names] at hok
  refine ⟨_, eff, ?_, Array.getElem?_toList ▸ heff, does_of_effect hok⟩
  rw [h.drawn.whole.legend_insts hblocks, List.getElem?_range' ho, Nat.one_mul]

end Lowered

end Routine
end LoopMemory.Description
