import LoopMemory.Proofs.Region.Edges
import Mathlib.Data.List.Basic

/-! What any calls on a builder lead to: the edges that they ask for decide whether the finished
tree is valid, and the tree has these edges and those that it cannot do without. -/
namespace LoopMemory

theorem nodup_eraseDups (ns : List NodeId) : ns.eraseDups.Nodup := by
  cases ns with
  | nil => exact .nil
  | cons n ns =>
    rw [List.eraseDups_cons, List.nodup_cons]
    exact ⟨by simp, nodup_eraseDups _⟩
termination_by ns.length
decreasing_by
  have hle := List.length_filter_le (fun m => !m == n) ns
  simp only [List.length_cons]
  omega

namespace Node
variable {n : Node} {k : NodeId}

theorem nodup_succs_addSucc (h : n.succs.Nodup) : (n.addSucc k).succs.Nodup := by
  unfold addSucc
  split
  · exact h
  · rename_i hk
    rw [List.contains_iff_mem] at hk
    rw [List.nodup_append]
    refine ⟨h, by simp, ?_⟩
    rintro a ha _ hmem rfl
    exact hk (List.mem_singleton.1 hmem ▸ ha)

theorem nodup_succs_addSucc_all (h : n.succs.Nodup) (ks : List NodeId) :
    (ks.foldl addSucc n).succs.Nodup := by
  induction ks generalizing n with
  | nil => exact h
  | cons k ks ih => exact ih (nodup_succs_addSucc h)

end Node

namespace TreeBuilder
variable {b b' : TreeBuilder} {n k i j : NodeId} {r p : RegionId} {region : Region} {node : Node}
  {name : String} {once : Bool} {insts : List Inst} {s : Step} {es : List (NodeId × NodeId)}

/-- The edges that a call asks for. -/
def asks (b : TreeBuilder) : Step → List (NodeId × NodeId)
  | .loop .. => []
  | .block .. => []
  | .edge source target => [(source, target)]
  | .path r nodes => (b.entry r :: nodes).zip (nodes ++ [b.exit r])

/-- The edges that a run of calls asks for. -/
def asked (b : TreeBuilder) : List Step → List (NodeId × NodeId)
  | [] => []
  | s :: steps => b.asks s ++ (b.apply s).asked steps

/-- Every id that a call is given was handed out before. Ids count up, so that these are the ones
below the number of regions or nodes. -/
def Knows (b : TreeBuilder) : Step → Prop
  | .loop parent _ _ => parent < b.regions.size
  | .block r _ => r < b.regions.size
  | .edge source target => source < b.nodes.size ∧ target < b.nodes.size
  | .path r nodes => r < b.regions.size ∧ ∀ n ∈ nodes, n < b.nodes.size

def KnowsAll (b : TreeBuilder) : List Step → Prop
  | [] => True
  | s :: steps => b.Knows s ∧ (b.apply s).KnowsAll steps

instance (b : TreeBuilder) : (s : Step) → Decidable (b.Knows s)
  | .loop parent _ _ => inferInstanceAs (Decidable (parent < b.regions.size))
  | .block r _ => inferInstanceAs (Decidable (r < b.regions.size))
  | .edge source target =>
    inferInstanceAs (Decidable (source < b.nodes.size ∧ target < b.nodes.size))
  | .path r nodes =>
    inferInstanceAs (Decidable (r < b.regions.size ∧ ∀ n ∈ nodes, n < b.nodes.size))

instance decidableKnowsAll (b : TreeBuilder) : (steps : List Step) → Decidable (b.KnowsAll steps)
  | [] => .isTrue trivial
  | s :: steps =>
    have := decidableKnowsAll (b.apply s) steps
    inferInstanceAs (Decidable (b.Knows s ∧ (b.apply s).KnowsAll steps))

theorem exists_stem (h : n < b.nodes.size) : ∃ node, b.stem? n = some node :=
  ⟨_, stem?_of_node (Array.getElem?_eq_getElem h)⟩

theorem exists_region (h : r < b.regions.size) : ∃ region, b.regions[r]? = some region :=
  ⟨_, Array.getElem?_eq_getElem h⟩

theorem Grows.lt (g : b.Grows b') (h : n < b.nodes.size) : n < b'.nodes.size := by
  obtain ⟨node, hn⟩ := exists_stem h
  exact stem?_lt (g.stem n node hn)

theorem Grows.entry (g : b.Grows b') (hr : b.regions[r]? = some region) :
    b'.entry r = b.entry r := by
  obtain ⟨region', hr', ho, -, -⟩ := g.region r region hr
  have hentry : region'.outline.entry = region.outline.entry := congrArg Region.entry ho
  rw [entry_of_region hr', entry_of_region hr]
  exact hentry

/-- What every call keeps, whatever edges it asks for. -/
structure Tidy (b : TreeBuilder) : Prop where
  sound : b.Sound
  entries : ∀ n node, b.stem? n = some node → node.kind = .entry → n = b.entry node.region
  once : ∀ (n : NodeId) (node : Node), b.nodes[n]? = some node → node.succs.Nodup
  listed : ∀ (r : RegionId) (region : Region), b.regions[r]? = some region → region.nodes.Nodup
  known : ∀ n k, b.Draws n k → k < b.nodes.size

theorem draws_addBlock : (b.addBlock r insts).2.Draws n k ↔ b.Draws n k := by
  simp [Draws, addBlock, addNode, getElem?_push_eq_some, or_and_right, exists_or]

theorem draws_addLoop : (b.addLoop p name once).2.Draws n k ↔ b.Draws n k := by
  simp [Draws, nodes_addLoop, getElem?_push_eq_some, or_and_right, exists_or]

theorem draws_new (routine : String) : ¬(TreeBuilder.new routine).Draws n k :=
  (bare_new routine).not_draws

theorem Tidy.entries_grow (h : b.Tidy) (g : b.Grows b') (hn : b.stem? n = some node)
    (hk : node.kind = .entry) : n = b'.entry node.region := by
  obtain ⟨-, owner, ho, -⟩ := h.sound.node n node hn
  rw [g.entry ho]
  exact h.entries n node hn hk

/- A node that is not there yet is in no list. -/
theorem Tidy.listed_push (h : b.Tidy) (hr : b.regions[r]? = some region) (k : Nat) :
    (region.nodes ++ [b.nodes.size + k]).Nodup := by
  rw [List.nodup_append]
  refine ⟨h.listed r region hr, by simp, ?_⟩
  rintro n hn _ hm rfl
  obtain ⟨kind, hstem⟩ := (h.sound.region r region hr).nodes n hn
  have hlt := stem?_lt hstem
  rw [List.mem_singleton.1 hm] at hlt
  exact Nat.not_lt.2 (Nat.le_add_right _ k) hlt

theorem tidy_new (routine : String) : (TreeBuilder.new routine).Tidy where
  sound := sound_new routine
  entries n node hn hk := by
    match n with
    | 0 =>
      obtain rfl := Option.some.inj hn
      rfl
    | 1 =>
      obtain rfl := Option.some.inj hn
      cases hk
    | n + 2 => cases hn
  once n node hn := by
    rw [bare_new routine n node hn]
    exact .nil
  listed r region hr := by
    cases r with
    | zero =>
      obtain rfl := Option.some.inj hr
      exact List.nodup_range (n := 2)
    | succ r => cases hr
  known n k hd := absurd hd (draws_new routine)

theorem Tidy.addBlock (h : b.Tidy) (hr : b.regions[r]? = some region) :
    (b.addBlock r insts).2.Tidy where
  sound := h.sound.addBlock hr
  entries n node hn hk := by
    rw [stem?_addBlock] at hn
    split at hn
    · obtain rfl := Option.some.inj hn
      cases hk
    · exact h.entries_grow (grows_addBlock hr) hn hk
  once n node hn := by
    cases old_or_bare_addBlock hn with
    | inl hold => exact h.once n node hold
    | inr hbare => simp [hbare]
  listed i reg hi := by
    rw [regions_addBlock hr] at hi
    split at hi
    · obtain rfl := Option.some.inj hi
      exact h.listed_push hr 0
    · exact h.listed i reg hi
  known n k hd := (grows_addBlock hr).lt (h.known n k (draws_addBlock.1 hd))

theorem Tidy.addLoop (h : b.Tidy) (hp : b.regions[p]? = some region) :
    (b.addLoop p name once).2.Tidy where
  sound := h.sound.addLoop hp
  entries n node hn hk := by
    rw [stem?_addLoop] at hn
    split at hn
    · obtain rfl := Option.some.inj hn
      cases hk
    · split at hn
      · obtain rfl := Option.some.inj hn
        cases hk
      · split at hn
        · rename_i hsize
          obtain rfl := Option.some.inj hn
          rw [entry_of_region ((regions_addLoop hp).trans (if_pos rfl)), hsize]
        · exact h.entries_grow (grows_addLoop hp) hn hk
  once n node hn := by
    cases old_or_bare_addLoop hn with
    | inl hold => exact h.once n node hold
    | inr hbare => simp [hbare]
  listed i reg hi := by
    rw [regions_addLoop hp] at hi
    split at hi
    · obtain rfl := Option.some.inj hi
      simp
    · split at hi
      · obtain rfl := Option.some.inj hi
        exact h.listed_push hp 2
      · exact h.listed i reg hi
  known n k hd := (grows_addLoop hp).lt (h.known n k (draws_addLoop.1 hd))

theorem Tidy.addEdge (h : b.Tidy) (hn : n < b.nodes.size) (hk : k < b.nodes.size) :
    (b.addEdge n k).Tidy where
  sound := h.sound.addEdge n k
  entries i node hi := by
    rw [stem?_addEdge] at hi
    exact h.entries i node hi
  once i node hi := by
    simp only [TreeBuilder.addEdge, Array.getElem?_modify] at hi
    split at hi
    · obtain ⟨raw, hraw, rfl⟩ := Option.map_eq_some_iff.1 hi
      exact Node.nodup_succs_addSucc (h.once i raw hraw)
    · exact h.once i node hi
  listed := h.listed
  known i j hd := by
    obtain ⟨node, hnode⟩ := exists_stem hn
    rw [draws_addEdge hnode] at hd
    have g := grows_addEdge b n k
    cases hd with
    | inl hd => exact g.lt (h.known i j hd)
    | inr hnew => exact g.lt (hnew.2 ▸ hk)

theorem Tidy.addEdges (h : b.Tidy) (hes : ∀ e ∈ es, e.1 < b.nodes.size ∧ e.2 < b.nodes.size) :
    (es.foldl (fun b e => b.addEdge e.1 e.2) b).Tidy ∧
      ∀ n k, (es.foldl (fun b e => b.addEdge e.1 e.2) b).Draws n k ↔
        b.Draws n k ∨ (n, k) ∈ es := by
  induction es generalizing b with
  | nil => exact ⟨h, by simp⟩
  | cons e es ih =>
    obtain ⟨hsource, htarget⟩ := hes e List.mem_cons_self
    obtain ⟨node, hnode⟩ := exists_stem hsource
    have g := grows_addEdge b e.1 e.2
    have hrest : ∀ e' ∈ es, e'.1 < (b.addEdge e.1 e.2).nodes.size ∧
        e'.2 < (b.addEdge e.1 e.2).nodes.size := fun e' he' =>
      (hes e' (List.mem_cons_of_mem _ he')).imp g.lt g.lt
    obtain ⟨htidy, hdraws⟩ := ih (h.addEdge hsource htarget) hrest
    refine ⟨htidy, fun n k => ?_⟩
    rw [List.foldl_cons, hdraws, draws_addEdge hnode, List.mem_cons, or_assoc, Prod.ext_iff]

theorem Tidy.known_path (h : b.Tidy) (hr : r < b.regions.size) {nodes : List NodeId}
    (hnodes : ∀ n ∈ nodes, n < b.nodes.size) :
    ∀ e ∈ b.asks (.path r nodes), e.1 < b.nodes.size ∧ e.2 < b.nodes.size := by
  intro e he
  obtain ⟨region, hr⟩ := exists_region hr
  obtain ⟨hsource, htarget⟩ := List.of_mem_zip (show (e.1, e.2) ∈ _ from he)
  constructor
  · cases List.mem_cons.1 hsource with
    | inl hentry => exact hentry ▸ stem?_lt (h.sound.entry hr)
    | inr hsource => exact hnodes _ hsource
  · cases List.mem_append.1 htarget with
    | inl htarget => exact hnodes _ htarget
    | inr hexit => exact List.mem_singleton.1 hexit ▸ stem?_lt (h.sound.exit hr)

/-- A call draws the edges that it asks for. -/
theorem Tidy.apply (h : b.Tidy) (hs : b.Knows s) :
    (b.apply s).Tidy ∧ ∀ n k, (b.apply s).Draws n k ↔ b.Draws n k ∨ (n, k) ∈ b.asks s := by
  cases s with
  | loop parent name once =>
    obtain ⟨region, hp⟩ := exists_region hs
    exact ⟨h.addLoop hp, fun n k => by simp [TreeBuilder.apply, asks, draws_addLoop]⟩
  | block r insts =>
    obtain ⟨region, hr⟩ := exists_region hs
    exact ⟨h.addBlock hr, fun n k => by simp [TreeBuilder.apply, asks, draws_addBlock]⟩
  | edge source target =>
    have hends : ∀ e ∈ [(source, target)], e.1 < b.nodes.size ∧ e.2 < b.nodes.size := by
      intro e he
      rw [List.mem_singleton.1 he]
      exact hs
    exact h.addEdges hends
  | path r nodes => exact h.addEdges (h.known_path hs.1 hs.2)

theorem run_append {steps : List Step} : b.run (steps ++ [s]) = (b.run steps).apply s := by
  simp [TreeBuilder.run]

theorem knowsAll_append {steps : List Step} :
    b.KnowsAll (steps ++ [s]) ↔ b.KnowsAll steps ∧ (b.run steps).Knows s := by
  induction steps generalizing b with
  | nil => simp [KnowsAll, TreeBuilder.run]
  | cons first steps ih => rw [List.cons_append, KnowsAll, ih, KnowsAll, and_assoc]; rfl

theorem Tidy.run {steps : List Step} (h : b.Tidy) (hs : b.KnowsAll steps) :
    (b.run steps).Tidy ∧
      ∀ n k, (b.run steps).Draws n k ↔ b.Draws n k ∨ (n, k) ∈ b.asked steps := by
  induction steps generalizing b with
  | nil => exact ⟨h, by simp [TreeBuilder.run, asked]⟩
  | cons s steps ih =>
    obtain ⟨hstep, hdraws⟩ := h.apply hs.1
    obtain ⟨hrun, hdraws'⟩ := ih hstep hs.2
    refine ⟨hrun, fun n k => (hdraws' n k).trans ?_⟩
    rw [hdraws, asked, List.mem_append, or_assoc]

end TreeBuilder

/-- The edge stays in its region and does not lead to the entry. -/
def RegionTree.Inside (t : RegionTree) (n k : NodeId) : Prop :=
  ∃ source target, t.node? n = some source ∧ t.node? k = some target ∧
    target.region = source.region ∧ target.kind ≠ .entry

/-- What a finished tree is like, given the edges that were asked for. -/
structure RegionTree.Finished (t : RegionTree) (asked : List (NodeId × NodeId)) : Prop where
  accepted : t.validate = .ok () ↔ ∀ n k, (n, k) ∈ asked → t.Inside n k
  onward : ∀ n node, t.node? n = some node → node.kind ≠ .exit → node.succs ≠ []
  once : ∀ n node, t.node? n = some node → node.succs.Nodup ∧ node.preds.Nodup
  inverse : ∀ n node, t.node? n = some node → ∀ k,
    (k ∈ node.succs ↔ ∃ other, t.node? k = some other ∧ n ∈ other.preds) ∧
      (k ∈ node.preds ↔ ∃ other, t.node? k = some other ∧ n ∈ other.succs)
  back : ∀ r region, t.region? r = some region → region.isLoop = true →
    ∃ entry exit, t.node? region.entry = some entry ∧ t.node? region.exit = some exit ∧
      ∀ k, k ∈ exit.succs ↔
        (region.exit, k) ∈ asked ∨ (k ∈ entry.succs ∧ k ≠ region.exit)

namespace TreeBuilder
variable {b : TreeBuilder} {n k : NodeId} {r : RegionId} {region : Region} {node : Node}

theorem Sound.indexed_finish (h : b.Sound) : b.finish.Indexed := fun n _ hn =>
  (h.node n _ (stem_of_finish hn)).1

theorem Sound.stem_eq (h : b.Sound) (hn : b.stem? n = some node) :
    node = { id := n, region := node.region, kind := node.kind } := by
  obtain ⟨hid, -⟩ := h.node n node hn
  obtain ⟨raw, -, rfl⟩ := Option.map_eq_some_iff.1 hn
  simp only [Node.stem] at hid ⊢
  rw [hid]

theorem leads_iff_mem_succs (hn : b.finish.node? n = some node) :
    b.finish.Leads n k ↔ k ∈ node.succs := by
  constructor
  · rintro ⟨node', hn', hk⟩
    obtain rfl := Option.some.inj (hn.symm.trans hn')
    exact hk
  · exact fun hk => ⟨node, hn, hk⟩

theorem nodup_succs_fallThrough (h : node.succs.Nodup) : (b.fallThrough node).succs.Nodup := by
  unfold fallThrough
  split
  · simp
  · exact h

theorem nodup_succs_closeLoop (h : node.succs.Nodup) : (b.closeLoop node).succs.Nodup := by
  unfold closeLoop
  split
  · exact h
  · exact Node.nodup_succs_addSucc_all h _

theorem nodup_finish (h : b.Tidy) (hn : b.finish.node? n = some node) :
    node.succs.Nodup ∧ node.preds.Nodup := by
  obtain ⟨raw, preds, hraw, rfl, rfl⟩ := node?_finish_eq_some.1 hn
  exact ⟨nodup_succs_closeLoop (nodup_succs_fallThrough (h.once n raw hraw)), nodup_eraseDups _⟩

section Finish
variable (h : b.Tidy)
include h

/- No node moves to another region when the tree is finished. -/
theorem fenced_iff : b.Fenced ↔ ∀ n k, b.Draws n k → b.finish.Inside n k := by
  constructor
  · rintro hf n k ⟨raw, hraw, hk⟩
    obtain ⟨source, hsource, hstem⟩ := exists_node_finish (stem?_of_node hraw)
    obtain ⟨target, htarget, hregion, hkind⟩ := (hf n raw hraw k hk).finish
    have hown : source.stem.region = raw.stem.region := congrArg Node.region hstem
    exact ⟨source, target, hsource, htarget, hregion.trans hown.symm, hkind⟩
  · intro hinside n raw hraw k hk
    obtain ⟨source, target, hsource, htarget, hregion, hkind⟩ := hinside n k ⟨raw, hraw, hk⟩
    have hstem := (stem?_of_node hraw).symm.trans (stem_of_finish hsource)
    have hown : raw.stem.region = source.stem.region := congrArg Node.region (Option.some.inj hstem)
    have hsame : target.stem.region = raw.region := hregion.trans hown.symm
    refine ⟨target.kind, hkind, ?_⟩
    rw [stem_of_finish htarget, h.sound.stem_eq (stem_of_finish htarget), hsame]
    rfl

theorem leads_of_draws (hd : b.Draws n k) : b.finish.Leads n k :=
  (leads_finish h.sound).2 (.inl hd)

theorem inside_of_valid (hv : b.finish.Valid) (hd : b.Draws n k) : b.finish.Inside n k := by
  have hleads := leads_of_draws h hd
  obtain ⟨source, target, hsource, htarget, hregion⟩ := hv.same_region_of_leads hleads
  refine ⟨source, target, hsource, htarget, hregion, fun hkind => ?_⟩
  obtain ⟨owner, ho, -⟩ := hv.owner htarget
  have hentry : k = owner.entry := by
    rw [h.entries k _ (stem_of_finish htarget) hkind]
    exact entry_of_region ho
  rw [hentry] at hleads
  exact hv.not_leads_entry (RegionTree.linked_ofParts h.sound.indexed_finish) ho hleads

theorem validate_finish_iff :
    b.finish.validate = .ok () ↔ ∀ n k, b.Draws n k → b.finish.Inside n k := by
  rw [RegionTree.validate_eq_ok]
  constructor
  · exact fun hv n k hd => inside_of_valid h hv hd
  · exact fun hinside => valid_finish h.sound ((fenced_iff h).2 hinside)

theorem exists_leads (hn : b.finish.node? n = some node) (hk : node.kind ≠ .exit) :
    ∃ k, b.finish.Leads n k := by
  by_cases hd : ∃ k, b.Draws n k
  · obtain ⟨k, hd⟩ := hd
    exact ⟨k, leads_of_draws h hd⟩
  · rw [not_exists] at hd
    exact ⟨_, (leads_finish h.sound).2 (.inr (.inl ⟨node.stem, stem_of_finish hn, hk, hd, rfl⟩))⟩

theorem known_of_leads (hl : b.finish.Leads n k) : ∃ node, b.finish.node? k = some node := by
  have hlt : ∃ node, b.stem? k = some node := by
    rcases (leads_finish h.sound).1 hl with hd | ⟨node, hn, -, -, rfl⟩ | ⟨r, region, hr, -, -, hd, -⟩
    · exact exists_stem (h.known n k hd)
    · obtain ⟨-, owner, ho, -⟩ := h.sound.node n node hn
      exact ⟨_, h.sound.exit ho⟩
    · exact exists_stem (h.known _ k hd)
  obtain ⟨stem, hstem⟩ := hlt
  obtain ⟨node, hn, -⟩ := exists_node_finish hstem
  exact ⟨node, hn⟩

theorem inverse_finish (hn : b.finish.node? n = some node) (k : NodeId) :
    (k ∈ node.succs ↔ ∃ other, b.finish.node? k = some other ∧ n ∈ other.preds) ∧
      (k ∈ node.preds ↔ ∃ other, b.finish.node? k = some other ∧ n ∈ other.succs) := by
  have hl := RegionTree.linked_ofParts h.sound.indexed_finish
  refine ⟨⟨fun hk => ?_, ?_⟩, hl n node hn k⟩
  · obtain ⟨other, hother⟩ := known_of_leads h ⟨node, hn, hk⟩
    exact ⟨other, hother, (hl k other hother n).2 ⟨node, hn, hk⟩⟩
  · rintro ⟨other, hother, hpred⟩
    exact (leads_iff_mem_succs hn).1 ((hl k other hother n).1 hpred)

theorem leads_entry_iff (hr : b.regions[r]? = some region) (hne : k ≠ region.exit) :
    b.finish.Leads region.entry k ↔ b.Draws region.entry k := by
  have hown := h.sound.region r region hr
  refine ⟨fun hleads => ?_, leads_of_draws h⟩
  rcases (leads_finish h.sound).1 hleads with hd | ⟨node, hn, -, -, rfl⟩ |
    ⟨r', region', hr', -, hexit, -⟩
  · exact hd
  · obtain rfl := Option.some.inj (hown.entry.symm.trans hn)
    exact absurd (exit_of_region hr) hne
  · have hstem := (h.sound.region r' region' hr').exit
    rw [hexit, hown.entry] at hstem
    cases hstem

/-- An exit leads where it was asked to, and back to where an iteration of its loop starts. -/
theorem leads_exit_iff (hr : b.regions[r]? = some region) (hloop : region.isLoop = true) :
    b.finish.Leads region.exit k ↔
      b.Draws region.exit k ∨ (b.finish.Leads region.entry k ∧ k ≠ region.exit) := by
  have hown := h.sound.region r region hr
  rw [and_congr_left fun hne => leads_entry_iff h hr hne, leads_finish h.sound]
  refine or_congr_right ⟨?_, fun ⟨hd, hne⟩ => .inr ⟨r, region, hr, hloop, rfl, hd, hne⟩⟩
  rintro (⟨node, hn, hk, -⟩ | ⟨r', region', hr', -, hexit, hd, hne⟩)
  · obtain rfl := Option.some.inj (hown.exit.symm.trans hn)
    exact absurd rfl hk
  · rw [eq_of_exit h.sound hr hr' hexit] at hd
    exact ⟨hd, hne⟩

end Finish

/-- Any calls with ids that were handed out end in a tree that is accepted just if no edge was asked
for that leaves its region or leads to an entry; accepted or not, the tree is finished. -/
theorem finished_of_knowsAll (routine : String) (steps : List Step)
    (hs : (TreeBuilder.new routine).KnowsAll steps) :
    ((TreeBuilder.new routine).run steps).finish.Finished
      ((TreeBuilder.new routine).asked steps) := by
  obtain ⟨h, hdraws⟩ := (tidy_new routine).run hs
  have hasked : ∀ n k, ((TreeBuilder.new routine).run steps).Draws n k ↔
      (n, k) ∈ (TreeBuilder.new routine).asked steps := fun n k =>
    (hdraws n k).trans (or_iff_right (draws_new routine))
  constructor
  · simpa only [hasked] using validate_finish_iff h
  · intro n node hn hk hnil
    obtain ⟨k, hleads⟩ := exists_leads h hn hk
    have hmem := (leads_iff_mem_succs hn).1 hleads
    rw [hnil] at hmem
    cases hmem
  · exact fun n node hn => nodup_finish h hn
  · exact fun n node hn => inverse_finish h hn
  · intro r region hr hloop
    have hown := h.sound.region r region hr
    obtain ⟨entry, hentry, -⟩ := exists_node_finish hown.entry
    obtain ⟨exit, hexit, -⟩ := exists_node_finish hown.exit
    refine ⟨entry, exit, hentry, hexit, fun k => ?_⟩
    rw [← leads_iff_mem_succs hexit, ← leads_iff_mem_succs hentry, ← hasked]
    exact leads_exit_iff h hr hloop

/-- A loop whose block and whose exit lead to themselves as well. -/
def circling : List Step :=
  [.loop 0 "l" true, .block 1 [0], .path 1 [5], .edge 5 5, .edge 3 3, .edge 0 4]

theorem finished_of_knowsAll_circling :
    let t := ((TreeBuilder.new "f").run circling).finish
    (TreeBuilder.new "f").KnowsAll circling ∧
      t.Finished [(2, 5), (5, 3), (5, 5), (3, 3), (0, 4)] ∧ t.validate = .ok () := by
  have hknows : (TreeBuilder.new "f").KnowsAll circling := by decide +kernel
  have hasked : (TreeBuilder.new "f").asked circling = [(2, 5), (5, 3), (5, 5), (3, 3), (0, 4)] := by
    decide +kernel
  exact ⟨hknows, hasked ▸ finished_of_knowsAll "f" circling hknows, by decide +kernel⟩

/- The block of the loop may not lead out of it. -/
example : ((TreeBuilder.new "f").run (circling ++ [.edge 5 4])).finish.validate =
    .error (.strayEdge 5 4 "l") := by decide +kernel

end TreeBuilder
end LoopMemory
