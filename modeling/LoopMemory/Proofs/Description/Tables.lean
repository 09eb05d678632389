import LoopMemory.Proofs.Description.Variables
import Mathlib.Data.List.Nodup

/-! The tables that lowering fills. Each declared loop has a region and a node of its own there, and
each declared block a node; nothing else has a name in them. -/
namespace LoopMemory.Description
open TreeBuilder

section Entries
variable {α : Type} {entries : List (String × α)} {x y : String} {a : α}

theorem lookup_of_mem (hk : (entries.map (·.1)).Nodup) (h : (x, a) ∈ entries) :
    entries.lookup x = some a := by
  obtain ⟨before, after, rfl⟩ := List.append_of_mem h
  rw [List.map_append, List.map_cons, List.nodup_append] at hk
  rw [List.lookup_eq_some_iff]
  refine ⟨before, after, rfl, fun e he => bne_iff_ne.2 ?_⟩
  rintro rfl
  exact hk.2.2 e.1 (List.mem_map_of_mem he) e.1 (.head _) rfl

theorem lookup_eq_none : entries.lookup x = none ↔ x ∉ entries.map (·.1) := by
  simp only [List.lookup_eq_none_iff, bne_iff_ne, List.mem_map, not_exists, not_and]
  exact forall₂_congr fun e _ => ne_comm

/- No two names stand for the same thing. -/
theorem lookup_inj (hv : (entries.map (·.2)).Nodup) (hx : entries.lookup x = some a)
    (hy : entries.lookup y = some a) : x = y :=
  congrArg Prod.fst (List.inj_on_of_nodup_map hv (Draft.mem_of_lookup hx)
    (Draft.mem_of_lookup hy) rfl)

end Entries

namespace Draft
variable {r : Routine} {names : Names} {ls : List LoopEntry} {bs : List BlockEntry} {d d' : Draft}
  {l : LoopEntry} {b : BlockEntry} {p : RegionId} {n : NodeId} {parent : Option String}
  {x : String} {first : Nat}

/-- The region of a loop says what the loop says. -/
def Titled (d : Draft) (l : LoopEntry) : Prop :=
  ∃ i outline, d.regions.lookup l.name = some i ∧ d.builder.outline? i = some outline ∧
    outline.name = l.name ∧ outline.kind = .loop l.executesAtLeastOnce

/-- The node of a block has its instructions, which count on from the first of them. -/
def BlockPlaced (d : Draft) (first : Nat) (b : BlockEntry) : Prop :=
  ∃ p n, d.region? b.region = some p ∧ d.nodes.lookup b.name = some n ∧
    d.builder.stem? n = some {
      id := n, region := p, kind := .block ((List.range b.instructions.length).map (first + ·)) }

/-- Every node is an entry or an exit, or has a name. -/
def Covered (d : Draft) : Prop := ∀ n node, d.builder.stem? n = some node →
  (node.kind = .entry ∧ d.builder.entry node.region = n) ∨
    (node.kind = .exit ∧ d.builder.exit node.region = n) ∨ n ∈ d.nodes.map (·.2)

/-- The draft has all of these loops and blocks, and no others. -/
structure Holds (r : Routine) (names : Names) (ls : List LoopEntry) (bs : List BlockEntry)
    (d : Draft) : Prop where
  ready : d.Ready
  regions : d.regions.map (·.1) = r.name :: ls.map (·.name)
  regionIds : d.regions.map (·.2) = List.range d.builder.regions.size
  nodes : d.nodes.map (·.1) = ls.map (·.name) ++ bs.map (·.name)
  nodeIds : (d.nodes.map (·.2)).Nodup
  regionNames : (r.name :: ls.map (·.name)).Nodup
  nodeNames : (ls.map (·.name) ++ bs.map (·.name)).Nodup
  body : ∃ body, d.builder.outline? RegionTree.root = some body ∧ body.name = r.name
  loops : ∀ l ∈ ls, d.LoopPlaced l ∧ d.Titled l
  blocks : ∀ before b after, bs = before ++ b :: after →
    d.BlockPlaced (before.flatMap (·.instructions)).length b
  effects : (bs.flatMap (·.instructions)).mapM (effect names) = .ok d.effects.toList
  covered : d.Covered

/- The pieces survive later steps. -/

theorem outline?_grow {builder builder' : TreeBuilder} (g : builder.Grows builder') {i : RegionId}
    {outline : Region} (h : builder.outline? i = some outline) :
    builder'.outline? i = some outline := by
  obtain ⟨region, hregion, rfl⟩ := Option.map_eq_some_iff.1 h
  obtain ⟨region', hregion', hout, -⟩ := g.region i region hregion
  rw [outline?, hregion', Option.map_some, hout]

theorem Titled.keep (h : d.Titled l) (k : d.Keeps d') : d'.Titled l := by
  obtain ⟨i, outline, hi, ho, hname⟩ := h
  exact ⟨i, outline, k.regions _ i hi, outline?_grow k.grows ho, hname⟩

theorem BlockPlaced.keep (h : d.BlockPlaced first b) (k : d.Keeps d') :
    d'.BlockPlaced first b := by
  obtain ⟨p, n, hp, hn, hstem⟩ := h
  exact ⟨p, n, k.region? hp, k.nodes _ n hn, k.grows.stem _ _ hstem⟩

theorem entry_of_outline? {builder : TreeBuilder} {i : RegionId} {outline : Region}
    (h : builder.outline? i = some outline) : builder.entry i = outline.entry := by
  rw [entry_eq, h]
  rfl

theorem exit_of_outline? {builder : TreeBuilder} {i : RegionId} {outline : Region}
    (h : builder.outline? i = some outline) : builder.exit i = outline.exit := by
  obtain ⟨region, hregion, rfl⟩ := Option.map_eq_some_iff.1 h
  rw [TreeBuilder.exit, getElem!_def, hregion]
  rfl

/- A node that was covered stays so, as its region is still there. -/
theorem covered_grow {node : Node} (hr : d.Ready) (h : d.Covered) (k : d.Keeps d')
    (hsub : d.nodes.map (·.2) ⊆ d'.nodes.map (·.2)) (hn : d.builder.stem? n = some node) :
    (node.kind = .entry ∧ d'.builder.entry node.region = n) ∨
      (node.kind = .exit ∧ d'.builder.exit node.region = n) ∨ n ∈ d'.nodes.map (·.2) := by
  obtain ⟨-, owner, howner, -⟩ := hr.sound.node n node hn
  have ho : d.builder.outline? node.region = some owner.outline := by
    rw [outline?, howner]
    rfl
  have ho' := outline?_grow k.grows ho
  rw [entry_of_outline? ho', exit_of_outline? ho', ← entry_of_outline? ho, ← exit_of_outline? ho]
  exact (h n node hn).imp_right fun h => h.imp_right fun h => hsub h

theorem holds_start (r : Routine) (names : Names) : (start r).Holds r names [] [] where
  ready := ready_start r
  regions := rfl
  regionIds := rfl
  nodes := rfl
  nodeIds := .nil
  regionNames := by simp
  nodeNames := .nil
  body := ⟨_, rfl, rfl⟩
  loops := by simp
  blocks := by simp
  effects := rfl
  covered n node hn := by
    match n with
    | 0 =>
      obtain rfl := Option.some.inj hn
      exact .inl ⟨rfl, rfl⟩
    | 1 =>
      obtain rfl := Option.some.inj hn
      exact .inr (.inl ⟨rfl, rfl⟩)
    | n + 2 => cases hn

namespace Holds
variable (h : d.Holds r names ls bs)
include h

theorem lookup_region {i : RegionId} (hi : (x, i) ∈ d.regions) : d.regions.lookup x = some i :=
  lookup_of_mem (h.regions ▸ h.regionNames) hi

theorem lookup_node (hn : (x, n) ∈ d.nodes) : d.nodes.lookup x = some n :=
  lookup_of_mem (h.nodes ▸ h.nodeNames) hn

theorem regionIds_nodup : (d.regions.map (·.2)).Nodup := h.regionIds ▸ List.nodup_range

/- The routine's own name comes first. -/
theorem lookup_body : d.regions.lookup r.name = some RegionTree.root := by
  obtain ⟨e, es, he⟩ : ∃ e es, d.regions = e :: es := by
    cases hd : d.regions with
    | nil =>
      have := h.regions
      simp [hd] at this
    | cons e es => exact ⟨e, es, rfl⟩
  have hname : e.1 = r.name := by
    have := h.regions
    rw [he, List.map_cons, List.cons.injEq] at this
    exact this.1
  have hid : e.2 = RegionTree.root := by
    have := h.regionIds
    rw [he, List.map_cons] at this
    cases hs : d.builder.regions.size with
    | zero => simp [hs] at this
    | succ k =>
      rw [hs, List.range_succ_eq_map, List.cons.injEq] at this
      exact this.1
  refine h.lookup_region ?_
  rw [he, ← hname, ← hid]
  exact .head _

theorem region?_home : d.region? (r.home parent) = d.region? parent := by
  cases parent with
  | none => rfl
  | some name =>
    by_cases hname : name = r.name
    · subst hname
      simp [Routine.home, Draft.region?, Option.filter, h.lookup_body]
    · simp [Routine.home, Draft.region?, hname, Option.filter]

/- Only the body and the loops stand for regions. -/
theorem exists_region? : (∃ p, d.region? parent = some p) ↔
    ∀ name, r.home parent = some name → name ∈ ls.map (·.name) := by
  rw [← h.region?_home]
  cases hp : r.home parent with
  | none => simp [Draft.region?]
  | some name =>
    have hne : name ≠ r.name := by
      have := Option.filter_eq_some_iff.1 hp
      simpa using this.2
    have hnone : d.regions.lookup name = none ↔ name ≠ r.name ∧ name ∉ ls.map (·.name) := by
      rw [lookup_eq_none, h.regions, List.mem_cons, not_or]
    simp only [Option.some.injEq, forall_eq']
    constructor
    · rintro ⟨p, hp⟩
      by_contra hmem
      have hp' : d.regions.lookup name = some p := hp
      rw [hnone.2 ⟨hne, hmem⟩] at hp'
      cases hp'
    · intro hmem
      cases hl : d.regions.lookup name with
      | none => exact absurd hmem (hnone.1 hl).2
      | some p => exact ⟨p, hl⟩

theorem lookup_region_eq_none : d.regions.lookup x = none ↔ x ≠ r.name ∧ x ∉ ls.map (·.name) := by
  rw [lookup_eq_none, h.regions, List.mem_cons, not_or]

theorem lookup_node_eq_none :
    d.nodes.lookup x = none ↔ x ∉ ls.map (·.name) ∧ x ∉ bs.map (·.name) := by
  rw [lookup_eq_none, h.nodes, List.mem_append, not_or]

theorem nodeIds_lt (hn : n ∈ d.nodes.map (·.2)) : n < d.builder.nodes.size := by
  obtain ⟨e, he, rfl⟩ := List.mem_map.1 hn
  obtain ⟨p, k, -, hk⟩ := h.ready.nodes e he
  exact stem?_lt hk

theorem nodeIds_push {k : Nat} :
    ((d.nodes ++ [(x, d.builder.nodes.size + k)]).map (·.2)).Nodup := by
  rw [List.map_append, List.nodup_append]
  refine ⟨h.nodeIds, by simp, ?_⟩
  rintro n hn _ hm rfl
  have hlt := h.nodeIds_lt hn
  exact Nat.not_lt.2 (Nat.le_add_right _ k) (List.mem_singleton.1 hm ▸ hlt)

end Holds

/- One more loop. -/
theorem Holds.addLoop (h : d.Holds r names ls []) (hp : d.region? l.parent = some p)
    (hd : d.addLoop p l = .ok d') : d'.Holds r names (ls ++ [l]) [] := by
  have hfree : d.regions.lookup l.name = none := (addLoop_eq_ok.1 hd).1.1
  obtain ⟨hne, hnew⟩ := h.lookup_region_eq_none.1 hfree
  have hnode : d.nodes.lookup l.name = none := h.lookup_node_eq_none.2 ⟨hnew, by simp⟩
  obtain ⟨hready, keeps, hplaced⟩ := h.ready.addLoop hnode hp hd
  obtain ⟨-, rfl⟩ := addLoop_eq_ok.1 hd
  obtain ⟨region, hregion⟩ := h.ready.exists_region hp
  have hsize : (d.builder.addLoop p l.name l.executesAtLeastOnce).2.regions.size =
      d.builder.regions.size + 1 := by
    simp [TreeBuilder.addLoop, addRegion, addNode]
  have hout : (d.builder.addLoop p l.name l.executesAtLeastOnce).2.outline?
      d.builder.regions.size = _ := outline?_addLoop.trans (if_pos rfl)
  have hnodup : (ls.map (·.name) ++ [l.name]).Nodup := by
    rw [List.nodup_append]
    refine ⟨(List.nodup_cons.1 h.regionNames).2, by simp, ?_⟩
    rintro x hx _ hy rfl
    exact hnew (List.mem_singleton.1 hy ▸ hx)
  exact
    { ready := hready
      regions := by simp [h.regions]
      regionIds := by simp only [List.map_append, h.regionIds, hsize, List.range_succ]; rfl
      nodes := by simp [h.nodes]
      nodeIds := h.nodeIds_push
      regionNames := by
        rw [List.map_append, List.nodup_cons, List.mem_append, not_or]
        exact ⟨⟨(List.nodup_cons.1 h.regionNames).1, by simpa using hne.symm⟩, hnodup⟩
      nodeNames := by simpa using hnodup
      body := by
        obtain ⟨body, hb, hname⟩ := h.body
        exact ⟨body, outline?_grow keeps.grows hb, hname⟩
      loops := fun l' hl' => by
        rcases List.mem_append.1 hl' with hl' | hl'
        · exact ⟨(h.loops l' hl').1.keep keeps, (h.loops l' hl').2.keep keeps⟩
        · obtain rfl := List.mem_singleton.1 hl'
          exact ⟨hplaced, _, _, lookup_append_new hfree _, hout, rfl, rfl⟩
      blocks := by simp
      effects := h.effects
      covered := fun n node hn => by
        have hentry := entry_of_outline? hout
        have hexit := exit_of_outline? hout
        rw [stem?_addLoop] at hn
        split at hn
        · rename_i hnew
          exact .inr (.inr (by simp [hnew]))
        · split at hn
          · rename_i hnew
            obtain rfl := Option.some.inj hn
            exact .inr (.inl ⟨rfl, hexit.trans hnew.symm⟩)
          · split at hn
            · rename_i hnew
              obtain rfl := Option.some.inj hn
              exact .inl ⟨rfl, hentry.trans hnew.symm⟩
            · exact covered_grow h.ready h.covered keeps (by simp) hn }

/- One more block. -/
theorem Holds.addBlock (h : d.Holds r names ls bs) (hd : addBlock names d b = .ok d') :
    d'.Holds r names ls (bs ++ [b]) := by
  obtain ⟨hready, keeps⟩ := h.ready.addBlock hd
  obtain ⟨⟨hfree, -⟩, p, effects, hp, heffects, rfl⟩ := addBlock_eq_ok.1 hd
  obtain ⟨region, hregion⟩ := h.ready.exists_region hp
  obtain ⟨hloops, hblocks⟩ := h.lookup_node_eq_none.1 hfree
  have hlength : d.effects.size = (bs.flatMap (·.instructions)).length := by
    simpa using length_of_mapM h.effects
  have hout : ∀ i, (d.builder.addBlock p ((List.range effects.length).map
      (d.effects.size + ·))).2.outline? i = d.builder.outline? i := fun i => outline?_addNode
  have hsize : (d.builder.addBlock p ((List.range effects.length).map
      (d.effects.size + ·))).2.regions.size = d.builder.regions.size := by
    simp [TreeBuilder.addBlock, addNode]
  exact
    { ready := hready
      regions := h.regions
      regionIds := h.regionIds.trans (congrArg List.range hsize.symm)
      nodes := by simp [h.nodes]
      nodeIds := h.nodeIds_push (k := 0)
      regionNames := h.regionNames
      nodeNames := by
        rw [List.map_append, ← List.append_assoc, List.nodup_append]
        refine ⟨h.nodeNames, by simp, ?_⟩
        rintro x hx _ hy rfl
        obtain rfl := List.mem_singleton.1 hy
        exact (List.mem_append.1 hx).elim hloops hblocks
      body := by
        obtain ⟨body, hb, hname⟩ := h.body
        exact ⟨body, outline?_grow keeps.grows hb, hname⟩
      loops := fun l hl => ⟨(h.loops l hl).1.keep keeps, (h.loops l hl).2.keep keeps⟩
      blocks := fun before b' after he => by
        rcases List.eq_nil_or_concat after with rfl | ⟨after, last, rfl⟩
        · obtain ⟨rfl, hb⟩ := List.append_inj' he rfl
          obtain rfl := (List.cons.inj hb).1
          refine ⟨p, d.builder.nodes.size, hp, lookup_append_new hfree _, ?_⟩
          rw [stem?_addBlock, if_pos rfl, length_of_mapM heffects, hlength]
        · rw [List.concat_eq_append, ← List.cons_append, ← List.append_assoc] at he
          obtain ⟨rfl, -⟩ := List.append_inj' he rfl
          exact (h.blocks before b' after rfl).keep keeps
      effects := by
        rw [List.flatMap_append, mapM_append_eq_ok]
        exact ⟨_, effects, h.effects, by simpa using heffects, by simp⟩
      covered := fun n node hn => by
        rw [stem?_addBlock] at hn
        split at hn
        · rename_i hnew
          exact .inr (.inr (by simp [hnew]))
        · exact covered_grow h.ready h.covered keeps (by simp) hn }

end Draft
end LoopMemory.Description
