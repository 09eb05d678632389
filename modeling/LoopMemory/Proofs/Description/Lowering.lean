import LoopMemory.Description.Model
import LoopMemory.Proofs.Region.Built

/-! What each step of lowering makes of a draft: names keep what they stand for, and edges are drawn
only between nodes of one region. -/
namespace LoopMemory.Description
open TreeBuilder

/-- What lowering keeps about a draft. -/
structure Draft.Ready (d : Draft) : Prop where
  formed : d.builder.Formed
  sound : d.builder.Sound
  fenced : d.builder.Fenced
  regions : ∀ e ∈ d.regions, ∃ region, d.builder.regions[e.2]? = some region
  nodes : ∀ e ∈ d.nodes, ∃ r, d.builder.Target r e.2
  effects : ∀ e ∈ d.effects, ∀ eff u, e = some eff → eff.unknown = some u → u = .conservative

/-- Later steps leave all names and what they stand for. -/
structure Draft.Keeps (d d' : Draft) : Prop where
  grows : d.builder.Grows d'.builder
  regions : ∀ name r, d.regions.lookup name = some r → d'.regions.lookup name = some r
  nodes : ∀ name n, d.nodes.lookup name = some n → d'.nodes.lookup name = some n

namespace Draft
variable {d d' : Draft} {names : Names} {routine : Routine} {r p : RegionId} {n : NodeId}
  {name : String} {parent : Option String} {l : LoopEntry} {b : BlockEntry}

theorem mem_of_lookup {α : Type} {entries : List (String × α)} {a : α}
    (h : entries.lookup name = some a) : (name, a) ∈ entries := by
  obtain ⟨before, after, he, -⟩ := List.lookup_eq_some_iff.1 h
  simp [he]

theorem Keeps.region? (h : d.Keeps d') (hp : d.region? parent = some r) :
    d'.region? parent = some r := by
  cases parent with
  | none => exact hp
  | some name => exact h.regions name r hp

theorem region_eq_ok : d.region parent = .ok r ↔ d.region? parent = some r := by
  cases parent with
  | none => simp [Draft.region, Draft.region?]
  | some name => cases h : d.regions.lookup name <;> simp [Draft.region, Draft.region?, h]

theorem lookup_append_of_some {α : Type} {entries more : List (String × α)} {a : α}
    (h : entries.lookup name = some a) : (entries ++ more).lookup name = some a := by
  simp [List.lookup_append, h]

theorem lookup_append_new {α : Type} {entries : List (String × α)}
    (h : entries.lookup name = none) (a : α) : (entries ++ [(name, a)]).lookup name = some a := by
  simp [List.lookup_append, h]

theorem Ready.exists_region (h : d.Ready) (hp : d.region? parent = some r) :
    ∃ region, d.builder.regions[r]? = some region := by
  cases parent with
  | none =>
    obtain rfl := Option.some.inj hp
    obtain ⟨body, hb, -⟩ := h.sound.body
    exact ⟨body, hb⟩
  | some name => exact h.regions (name, r) (mem_of_lookup hp)

/-- The name of a loop stands for the loop, and also for the node that the loop has in the region
around it. -/
def LoopPlaced (d : Draft) (l : LoopEntry) : Prop :=
  ∃ p r n outline, d.region? l.parent = some p ∧ d.regions.lookup l.name = some r ∧
    d.builder.outline? r = some outline ∧ outline.standIn = some n ∧
    d.nodes.lookup l.name = some n ∧
    d.builder.stem? n = some { id := n, region := p, kind := .region r }

theorem LoopPlaced.keep (h : d.LoopPlaced l) (k : d.Keeps d') : d'.LoopPlaced l := by
  obtain ⟨p, r, n, outline, hp, hr, ho, hs, hn, hstem⟩ := h
  obtain ⟨region, hregion, rfl⟩ := Option.map_eq_some_iff.1 ho
  obtain ⟨region', hregion', hout, -, -⟩ := k.grows.region r region hregion
  refine ⟨p, r, n, region'.outline, k.region? hp, k.regions _ r hr, ?_, ?_, k.nodes _ n hn,
    k.grows.stem _ _ hstem⟩
  · rw [outline?, hregion']
    rfl
  · rw [hout]
    exact hs

theorem ready_start (routine : Routine) : (start routine).Ready where
  formed := formed_new routine.name
  sound := sound_new routine.name
  fenced := fenced_new routine.name
  regions e he := by
    obtain rfl := List.mem_singleton.1 he
    obtain ⟨body, hb, -⟩ := (sound_new routine.name).body
    exact ⟨body, hb⟩
  nodes e he := by simp [start] at he
  effects e he := by simp [start] at he

/- Loops. -/

theorem addLoop_eq_ok : d.addLoop p l = .ok d' ↔
    (d.regions.lookup l.name = none ∧ l.name ≠ exitName) ∧ d' = { d with
      builder := (d.builder.addLoop p l.name l.executesAtLeastOnce).2
      regions := d.regions ++ [(l.name, d.builder.regions.size)]
      nodes := d.nodes ++ [(l.name, d.builder.nodes.size + 2)] } := by
  have hregion : (d.builder.addLoop p l.name l.executesAtLeastOnce).1 =
      d.builder.regions.size := rfl
  have hstand : (d.builder.addLoop p l.name l.executesAtLeastOnce).2.standIn?
      d.builder.regions.size = some (d.builder.nodes.size + 2) := by
    rw [standIn?_eq, outline?_addLoop, if_pos rfl]
    rfl
  simp only [Draft.addLoop, bind_eq_ok, require_eq_ok, pure_eq_ok, hregion, hstand,
    Option.map_some, Option.toList_some]
  constructor
  · rintro ⟨_, h, rfl⟩
    exact ⟨h, rfl⟩
  · rintro ⟨h, rfl⟩
    exact ⟨(), h, rfl⟩

theorem Ready.addLoop (h : d.Ready) (hn : d.nodes.lookup l.name = none)
    (hp : d.region? l.parent = some p) (hd : d.addLoop p l = .ok d') :
    d'.Ready ∧ d.Keeps d' ∧ d'.LoopPlaced l := by
  obtain ⟨⟨hfree, -⟩, rfl⟩ := addLoop_eq_ok.1 hd
  obtain ⟨region, hregion⟩ := h.exists_region hp
  have g : d.builder.Grows (d.builder.addLoop p l.name l.executesAtLeastOnce).2 :=
    grows_addLoop hregion
  have hout : (d.builder.addLoop p l.name l.executesAtLeastOnce).2.outline?
      d.builder.regions.size = _ := outline?_addLoop.trans (if_pos rfl)
  have hstem : (d.builder.addLoop p l.name l.executesAtLeastOnce).2.stem?
      (d.builder.nodes.size + 2) = some { id := d.builder.nodes.size + 2, region := p
                                          kind := .region d.builder.regions.size } := by
    rw [stem?_addLoop, if_pos rfl]
  have keeps : d.Keeps { d with
      builder := (d.builder.addLoop p l.name l.executesAtLeastOnce).2
      regions := d.regions ++ [(l.name, d.builder.regions.size)]
      nodes := d.nodes ++ [(l.name, d.builder.nodes.size + 2)] } :=
    ⟨g, fun _ _ => lookup_append_of_some, fun _ _ => lookup_append_of_some⟩
  refine ⟨⟨h.formed.addLoop p _ _, h.sound.addLoop hregion, h.fenced.addLoop hregion,
    fun e he => ?_, fun e he => ?_, h.effects⟩, keeps, ?_⟩
  · rcases List.mem_append.1 he with he | he
    · obtain ⟨reg, hreg⟩ := h.regions e he
      obtain ⟨reg', hreg', -⟩ := g.region _ reg hreg
      exact ⟨reg', hreg'⟩
    · obtain rfl := List.mem_singleton.1 he
      exact ⟨_, (regions_addLoop hregion).trans (if_pos rfl)⟩
  · rcases List.mem_append.1 he with he | he
    · obtain ⟨r, hr⟩ := h.nodes e he
      exact ⟨r, hr.grow g⟩
    · obtain rfl := List.mem_singleton.1 he
      exact ⟨p, .region _, by simp, hstem⟩
  · exact ⟨p, _, _, _, keeps.region? hp, lookup_append_new hfree _, hout, rfl,
      lookup_append_new hn _, hstem⟩

/- Blocks. -/

theorem unknown_of_effect {i : InstructionEntry} {e : Option Effect} (h : effect names i = .ok e) :
    ∀ eff u, e = some eff → eff.unknown = some u → u = .conservative := by
  rintro eff u rfl hu
  unfold effect at h
  split at h
  · cases h
  · obtain ⟨eff', heff, he⟩ := map_eq_ok.1 h
    obtain rfl := Option.some.inj he
    simp only [callEffect, bind_eq_ok, pure_eq_ok] at heff
    obtain ⟨reads, -, writes, -, rfl⟩ := heff
    simp only at hu
    split at hu
    · exact (Option.some.inj hu).symm
    · cases hu
  · split at h
    · cases h
    · simp only [bind_eq_ok, pure_eq_ok] at h
      obtain ⟨l, -, he⟩ := h
      obtain rfl := Option.some.inj he
      cases hu

theorem addBlock_eq_ok : addBlock names d b = .ok d' ↔
    (d.nodes.lookup b.name = none ∧ b.name ≠ exitName) ∧ ∃ r effects,
      d.region? b.region = some r ∧ b.instructions.mapM (effect names) = .ok effects ∧
      d' = { d with
        builder := (d.builder.addBlock r
          ((List.range effects.length).map (d.effects.size + ·))).2
        nodes := d.nodes ++ [(b.name, d.builder.nodes.size)]
        effects := d.effects ++ effects.toArray } := by
  simp only [Draft.addBlock, bind_eq_ok, require_eq_ok, pure_eq_ok, region_eq_ok]
  constructor
  · rintro ⟨_, h, r, hr, effects, heffects, rfl⟩
    exact ⟨h, r, effects, hr, heffects, rfl⟩
  · rintro ⟨h, r, effects, hr, heffects, rfl⟩
    exact ⟨(), h, r, hr, effects, heffects, rfl⟩

theorem Ready.addBlock (h : d.Ready) (hd : addBlock names d b = .ok d') :
    d'.Ready ∧ d.Keeps d' := by
  obtain ⟨⟨hfree, -⟩, r, effects, hr, heffects, rfl⟩ := addBlock_eq_ok.1 hd
  obtain ⟨region, hregion⟩ := h.exists_region hr
  generalize (List.range effects.length).map (d.effects.size + ·) = insts
  have g : d.builder.Grows (d.builder.addBlock r insts).2 := grows_addBlock hregion
  have htarget : (d.builder.addBlock r insts).2.Target r d.builder.nodes.size :=
    ⟨.block insts, by simp, by rw [stem?_addBlock]; exact if_pos rfl⟩
  refine ⟨⟨h.formed.addBlock r _, h.sound.addBlock hregion, h.fenced.addBlock hregion,
    fun e he => ?_, fun e he => ?_, fun e he => ?_⟩,
    ⟨g, fun _ _ => id, fun _ _ => lookup_append_of_some⟩⟩
  · obtain ⟨reg, hreg⟩ := h.regions e he
    obtain ⟨reg', hreg', -⟩ := g.region _ reg hreg
    exact ⟨reg', hreg'⟩
  · rcases List.mem_append.1 he with he | he
    · obtain ⟨r, hr⟩ := h.nodes e he
      exact ⟨r, hr.grow g⟩
    · obtain rfl := List.mem_singleton.1 he
      exact ⟨r, htarget⟩
  · rcases Array.mem_append.1 he with he | he
    · exact h.effects e he
    · obtain ⟨i, -, hi⟩ := exists_of_mapM heffects e (by simpa using he)
      exact unknown_of_effect hi

/- Edges. -/

theorem regionOf_of_stem {b : TreeBuilder} {node : Node} (h : b.stem? n = some node) :
    b.regionOf n = node.region := by
  obtain ⟨raw, hn, rfl⟩ := Option.map_eq_some_iff.1 h
  rw [regionOf, getElem!_def, hn]
  rfl

/-- A successor or an entry is found in the region that it is asked for. -/
theorem Ready.target_of_node (h : d.Ready) (hp : d.region? parent = some r)
    (hd : d.node name r = .ok n) : d.builder.Target r n := by
  unfold Draft.node at hd
  split at hd
  · obtain rfl := Except.ok.inj hd
    obtain ⟨region, hregion⟩ := h.exists_region hp
    exact h.sound.target_exit hregion
  · split at hd
    · cases hd
    · rename_i k hk
      simp only [bind_eq_ok, require_eq_ok, pure_eq_ok] at hd
      obtain ⟨_, hregion, rfl⟩ := hd
      obtain ⟨r', kind, hkind, hstem⟩ := h.nodes _ (mem_of_lookup hk)
      rw [regionOf_of_stem hstem] at hregion
      exact ⟨kind, hkind, hregion ▸ hstem⟩

theorem keeps_addEdge (d : Draft) (n j : NodeId) :
    d.Keeps { d with builder := d.builder.addEdge n j } :=
  ⟨grows_addEdge _ n j, fun _ _ => id, fun _ _ => id⟩

theorem Ready.addEdge (h : d.Ready) {node : Node} {j : NodeId} (hn : d.builder.stem? n = some node)
    (hj : d.builder.Target node.region j) : Ready { d with builder := d.builder.addEdge n j } := by
  refine ⟨h.formed.addEdge n j, h.sound.addEdge n j, h.fenced.addEdge hn hj, h.regions,
    fun e he => ?_, h.effects⟩
  obtain ⟨r, hr⟩ := h.nodes e he
  exact ⟨r, hr.grow (grows_addEdge _ n j)⟩

end Draft
end LoopMemory.Description
