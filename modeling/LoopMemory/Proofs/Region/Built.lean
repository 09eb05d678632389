import LoopMemory.Proofs.Region.Builder
import LoopMemory.Proofs.Region.Forest

/-! Trees that a builder makes are valid, as long as every edge stays in its region and leads to no
entry. -/
namespace LoopMemory

/-- A node without its edges, which later calls on a builder add. -/
def Node.stem (n : Node) : Node := { n with succs := [], preds := [] }

namespace TreeBuilder
variable {b b' : TreeBuilder} {n j : NodeId} {r c i p : RegionId} {region parent child : Region}
  {node : Node} {k : NodeKind} {name : String} {once : Bool} {insts : List Inst}

def stem? (b : TreeBuilder) (n : NodeId) : Option Node := b.nodes[n]?.map Node.stem

theorem stem?_of_node (h : b.nodes[n]? = some node) : b.stem? n = some node.stem := by
  rw [stem?, h]
  rfl

theorem stem?_lt (h : b.stem? n = some node) : n < b.nodes.size := by
  obtain ⟨raw, hn, -⟩ := Option.map_eq_some_iff.1 h
  exact (Array.getElem?_eq_some_iff.1 hn).1

theorem region_lt (h : b.regions[r]? = some region) : r < b.regions.size :=
  (Array.getElem?_eq_some_iff.1 h).1

/- What the calls on a builder do. -/

theorem stem?_addBlock : (b.addBlock r insts).2.stem? n =
    if n = b.nodes.size then some { id := n, region := r, kind := .block insts }
    else b.stem? n := by
  simp only [addBlock, addNode, stem?, Array.getElem?_push]
  split
  · rename_i h
    simp [Node.stem, h]
  · rfl

theorem regions_addBlock (hr : b.regions[r]? = some region) : (b.addBlock r insts).2.regions[i]? =
    if i = r then some { region with nodes := region.nodes ++ [b.nodes.size] }
    else b.regions[i]? := by
  simp only [addBlock, addNode, Array.getElem?_modify]
  by_cases h : i = r
  · simp [h, hr]
  · simp [h, Ne.symm h]

theorem nodes_addLoop : (b.addLoop p name once).2.nodes =
    ((b.nodes.push { id := b.nodes.size, region := b.regions.size, kind := .entry }).push
      { id := b.nodes.size + 1, region := b.regions.size, kind := .exit }).push
      { id := b.nodes.size + 2, region := p, kind := .region b.regions.size } := by
  simp [addLoop, addRegion, addNode]

theorem getElem?_push_eq_some {nodes : Array Node} {new : Node} :
    (nodes.push new)[n]? = some node ↔ nodes[n]? = some node ∨ (n = nodes.size ∧ new = node) := by
  rw [Array.getElem?_push]
  by_cases h : n = nodes.size
  · simp [h]
  · simp [h]

/- A node that is not an old one leads nowhere yet. -/

theorem old_or_bare_addBlock (hn : (b.addBlock r insts).2.nodes[n]? = some node) :
    b.nodes[n]? = some node ∨ node.succs = [] := by
  simp only [addBlock, addNode, getElem?_push_eq_some] at hn
  exact hn.imp_right fun hnew => by rw [← hnew.2]

theorem old_or_bare_addLoop (hn : (b.addLoop p name once).2.nodes[n]? = some node) :
    b.nodes[n]? = some node ∨ node.succs = [] := by
  simp only [nodes_addLoop, getElem?_push_eq_some, or_assoc] at hn
  refine hn.imp_right ?_
  rintro (⟨-, rfl⟩ | ⟨-, rfl⟩ | ⟨-, rfl⟩) <;> rfl

theorem stem?_addLoop : (b.addLoop p name once).2.stem? n =
    if n = b.nodes.size + 2 then some { id := n, region := p, kind := .region b.regions.size }
    else if n = b.nodes.size + 1 then some { id := n, region := b.regions.size, kind := .exit }
    else if n = b.nodes.size then some { id := n, region := b.regions.size, kind := .entry }
    else b.stem? n := by
  simp only [stem?, nodes_addLoop, Array.getElem?_push, Array.size_push]
  split
  · rename_i h
    simp [Node.stem, h]
  · split
    · rename_i h
      simp [Node.stem, h]
    · split
      · rename_i h
        simp [Node.stem, h]
      · rfl

theorem regions_addLoop (hp : b.regions[p]? = some parent) :
    (b.addLoop p name once).2.regions[i]? = if i = b.regions.size
      then some {
        id := i, name, kind := .loop once, parent := some p
        entry := b.nodes.size, exit := b.nodes.size + 1
        nodes := [b.nodes.size, b.nodes.size + 1], standIn := some (b.nodes.size + 2) }
      else if i = p then some { parent with
        nodes := parent.nodes ++ [b.nodes.size + 2]
        children := parent.children ++ [b.regions.size] }
      else b.regions[i]? := by
  have hlt := region_lt hp
  simp only [addLoop, addRegion, addNode, Array.getElem?_modify, Array.getElem?_push,
    Array.size_push]
  have hne : p ≠ b.regions.size := Nat.ne_of_lt hlt
  by_cases h : i = b.regions.size
  · simp [h, hne]
  · by_cases hi : i = p
    · simp [hi, hp, hne, Ne.symm hne]
    · simp [h, hi, Ne.symm h, Ne.symm hi]

@[simp] theorem stem?_addEdge : (b.addEdge n j).stem? i = b.stem? i := by
  simp only [addEdge, stem?, Array.getElem?_modify]
  split
  · cases b.nodes[i]? <;> simp [Node.stem]
  · rfl

/-- Later calls keep the stems of nodes, and only lengthen the lists of regions. -/
structure Grows (b b' : TreeBuilder) : Prop where
  stem : ∀ n node, b.stem? n = some node → b'.stem? n = some node
  region : ∀ (r : RegionId) (region : Region), b.regions[r]? = some region →
    ∃ region', b'.regions[r]? = some region' ∧ region'.outline = region.outline ∧
      region.nodes ⊆ region'.nodes ∧ region.children ⊆ region'.children

theorem grows_addBlock (hr : b.regions[r]? = some region) : b.Grows (b.addBlock r insts).2 where
  stem n node hn := by
    rw [stem?_addBlock, if_neg (Nat.ne_of_lt (stem?_lt hn)), hn]
  region i reg hi := by
    rw [regions_addBlock hr]
    by_cases h : i = r
    · subst h
      obtain rfl := Option.some.inj (hr.symm.trans hi)
      exact ⟨_, if_pos rfl, rfl, List.subset_append_left _ _, fun _ => id⟩
    · exact ⟨reg, by rw [if_neg h, hi], rfl, fun _ => id, fun _ => id⟩

theorem grows_addLoop (hp : b.regions[p]? = some parent) :
    b.Grows (b.addLoop p name once).2 where
  stem n node hn := by
    have hlt := stem?_lt hn
    have h1 : n ≠ b.nodes.size + 1 := Nat.ne_of_lt (Nat.lt_succ_of_lt hlt)
    have h2 : n ≠ b.nodes.size + 2 := Nat.ne_of_lt (Nat.lt_add_right 2 hlt)
    rw [stem?_addLoop, if_neg h2, if_neg h1, if_neg (Nat.ne_of_lt hlt), hn]
  region i reg hi := by
    rw [regions_addLoop hp, if_neg (Nat.ne_of_lt (region_lt hi))]
    by_cases h : i = p
    · subst h
      obtain rfl := Option.some.inj (hp.symm.trans hi)
      exact ⟨_, if_pos rfl, rfl, List.subset_append_left _ _, List.subset_append_left _ _⟩
    · exact ⟨reg, by rw [if_neg h, hi], rfl, fun _ => id, fun _ => id⟩

theorem grows_addEdge (b : TreeBuilder) (n j : NodeId) : b.Grows (b.addEdge n j) where
  stem i node hi := by rw [stem?_addEdge, hi]
  region _ region hr := ⟨region, hr, rfl, fun _ => id, fun _ => id⟩

/- What a region says of itself is true of the nodes and of the other regions. -/
structure Owns (b : TreeBuilder) (r : RegionId) (region : Region) : Prop where
  id : region.id = r
  nested : r = RegionTree.root ∨ region.kind ≠ .body
  entry : b.stem? region.entry = some { id := region.entry, region := r, kind := .entry }
  exit : b.stem? region.exit = some { id := region.exit, region := r, kind := .exit }
  first : region.nodes.head? = some region.entry
  listed : region.exit ∈ region.nodes
  nodes : ∀ n ∈ region.nodes, ∃ k, b.stem? n = some { id := n, region := r, kind := k }
  once : region.children.Nodup
  children : ∀ c ∈ region.children, ∃ child, b.regions[c]? = some child ∧ child.parent = some r
  rooted : region.parent = none → r = RegionTree.root
  parent : ∀ p, region.parent = some p → p < r ∧ (∃ parent, b.regions[p]? = some parent ∧
    r ∈ parent.children) ∧ ∃ n, region.standIn = some n ∧
      b.stem? n = some { id := n, region := p, kind := .region r }

theorem Owns.grow (h : b.Owns r region) (g : b.Grows b') : b'.Owns r region where
  id := h.id
  nested := h.nested
  entry := g.stem _ _ h.entry
  exit := g.stem _ _ h.exit
  first := h.first
  listed := h.listed
  nodes n hn := by
    obtain ⟨k, hk⟩ := h.nodes n hn
    exact ⟨k, g.stem _ _ hk⟩
  once := h.once
  children c hc := by
    obtain ⟨child, hchild, hparent⟩ := h.children c hc
    obtain ⟨child', hchild', ho, -, -⟩ := g.region c child hchild
    exact ⟨child', hchild', (congrArg Region.parent ho).trans hparent⟩
  rooted := h.rooted
  parent p hp := by
    obtain ⟨hlt, ⟨parent, hparent, hc⟩, n, hs, hn⟩ := h.parent p hp
    obtain ⟨parent', hparent', -, -, hchildren⟩ := g.region p parent hparent
    exact ⟨hlt, ⟨parent', hparent', hchildren hc⟩, n, hs, g.stem _ _ hn⟩

theorem Owns.addNode (h : b.Owns r region)
    (hn : b.stem? n = some { id := n, region := r, kind := k }) :
    b.Owns r { region with nodes := region.nodes ++ [n] } :=
  { h with
    first := by simp [List.head?_append, h.first]
    listed := List.mem_append_left _ h.listed
    nodes := fun j hj => by
      rcases List.mem_append.1 hj with hj | hj
      · exact h.nodes j hj
      · obtain rfl := List.mem_singleton.1 hj
        exact ⟨k, hn⟩ }

theorem Owns.addChild (h : b.Owns r region) (hc : b.regions[c]? = some child)
    (hp : child.parent = some r) (hnew : c ∉ region.children) :
    b.Owns r { region with children := region.children ++ [c] } :=
  { h with
    once := by
      rw [List.nodup_append]
      refine ⟨h.once, by simp, ?_⟩
      rintro a ha _ hc rfl
      exact hnew (List.mem_singleton.1 hc ▸ ha)
    children := fun j hj => by
      rcases List.mem_append.1 hj with hj | hj
      · exact h.children j hj
      · obtain rfl := List.mem_singleton.1 hj
        exact ⟨child, hc, hp⟩ }

/-- All regions and nodes of a builder fit together. -/
structure Sound (b : TreeBuilder) : Prop where
  body : ∃ region, b.regions[RegionTree.root]? = some region ∧ region.kind = .body ∧
    region.parent = none ∧ region.standIn = none
  region : ∀ (r : RegionId) (region : Region), b.regions[r]? = some region → b.Owns r region
  node : ∀ n node, b.stem? n = some node → node.id = n ∧
    ∃ owner, b.regions[node.region]? = some owner ∧ n ∈ owner.nodes

theorem sound_new (routine : String) : (TreeBuilder.new routine).Sound := by
  have hr : ∀ (r : RegionId) (region : Region),
      (TreeBuilder.new routine).regions[r]? = some region → r = 0 ∧ region =
      { id := 0, name := routine, kind := .body, entry := 0, exit := 1, nodes := [0, 1] } := by
    intro r region h
    cases r with
    | zero => exact ⟨rfl, (Option.some.inj h).symm⟩
    | succ r => cases h
  refine ⟨⟨_, rfl, rfl, rfl, rfl⟩, fun r region h => ?_, fun n node h => ?_⟩
  · obtain ⟨rfl, rfl⟩ := hr r region h
    exact
      { id := rfl
        nested := .inl rfl
        entry := rfl
        exit := rfl
        first := rfl
        listed := by simp
        nodes := fun n hn => by
          rcases List.mem_pair.1 hn with rfl | rfl
          · exact ⟨.entry, rfl⟩
          · exact ⟨.exit, rfl⟩
        once := .nil
        children := by simp
        rooted := fun _ => rfl
        parent := by simp }
  · match n with
    | 0 =>
      obtain rfl := Option.some.inj h
      exact ⟨rfl, _, rfl, .head _⟩
    | 1 =>
      obtain rfl := Option.some.inj h
      exact ⟨rfl, _, rfl, .tail _ (.head _)⟩
    | n + 2 => cases h

theorem Sound.body_grow (h : b.Sound) (g : b.Grows b') :
    ∃ body, b'.regions[RegionTree.root]? = some body ∧ body.kind = .body ∧
      body.parent = none ∧ body.standIn = none := by
  obtain ⟨body, hb, hk, hp, hs⟩ := h.body
  obtain ⟨body', hb', ho, -, -⟩ := g.region _ body hb
  exact ⟨body', hb', (congrArg Region.kind ho).trans hk, (congrArg Region.parent ho).trans hp,
    (congrArg Region.standIn ho).trans hs⟩

theorem Sound.node_grow (h : b.Sound) (g : b.Grows b') (hn : b.stem? n = some node) :
    node.id = n ∧ ∃ owner, b'.regions[node.region]? = some owner ∧ n ∈ owner.nodes := by
  obtain ⟨hid, owner, ho, hmem⟩ := h.node n node hn
  obtain ⟨owner', ho', -, hnodes, -⟩ := g.region _ owner ho
  exact ⟨hid, owner', ho', hnodes hmem⟩

theorem Sound.addBlock (h : b.Sound) (hr : b.regions[r]? = some region) :
    (b.addBlock r insts).2.Sound := by
  have g : b.Grows (b.addBlock r insts).2 := grows_addBlock hr
  have hnew : (b.addBlock r insts).2.stem? b.nodes.size =
      some { id := b.nodes.size, region := r, kind := .block insts } := by
    rw [stem?_addBlock, if_pos rfl]
  refine ⟨h.body_grow g, fun i reg hi => ?_, fun n node hn => ?_⟩
  · rw [regions_addBlock hr] at hi
    split at hi
    · rename_i hir
      obtain rfl := hir
      obtain rfl := Option.some.inj hi
      exact ((h.region i region hr).grow g).addNode hnew
    · exact (h.region i reg hi).grow g
  · rw [stem?_addBlock] at hn
    split at hn
    · obtain rfl := Option.some.inj hn
      refine ⟨rfl, _, (regions_addBlock hr).trans (if_pos rfl), ?_⟩
      rename_i hsize
      simp [hsize]
    · exact h.node_grow g hn

theorem Sound.addLoop (h : b.Sound) (hp : b.regions[p]? = some parent) :
    (b.addLoop p name once).2.Sound := by
  have g : b.Grows (b.addLoop p name once).2 := grows_addLoop hp
  have hentry : (b.addLoop p name once).2.stem? b.nodes.size =
      some { id := b.nodes.size, region := b.regions.size, kind := .entry } := by
    simp [stem?_addLoop]
  have hexit : (b.addLoop p name once).2.stem? (b.nodes.size + 1) =
      some { id := b.nodes.size + 1, region := b.regions.size, kind := .exit } := by
    simp [stem?_addLoop]
  have hstand : (b.addLoop p name once).2.stem? (b.nodes.size + 2) =
      some { id := b.nodes.size + 2, region := p, kind := .region b.regions.size } := by
    simp [stem?_addLoop]
  have hne : p ≠ b.regions.size := Nat.ne_of_lt (region_lt hp)
  have hparent : (b.addLoop p name once).2.regions[p]? = _ :=
    (regions_addLoop hp).trans ((if_neg hne).trans (if_pos rfl))
  have hchild : (b.addLoop p name once).2.regions[b.regions.size]? = _ :=
    (regions_addLoop hp).trans (if_pos rfl)
  refine ⟨h.body_grow g, fun i reg hi => ?_, fun n node hn => ?_⟩
  · rw [regions_addLoop hp] at hi
    split at hi
    · rename_i hir
      obtain rfl := hir
      obtain rfl := Option.some.inj hi
      exact
        { id := rfl
          nested := .inr (by simp)
          entry := hentry
          exit := hexit
          first := rfl
          listed := by simp
          nodes := fun n hn => by
            rcases List.mem_pair.1 hn with rfl | rfl
            · exact ⟨.entry, hentry⟩
            · exact ⟨.exit, hexit⟩
          once := .nil
          children := by simp
          rooted := by simp
          parent := fun q hq => by
            obtain rfl := Option.some.inj hq
            exact ⟨region_lt hp, ⟨_, hparent, by simp⟩, _, rfl, hstand⟩ }
    · split at hi
      · rename_i hip
        obtain rfl := hip
        obtain rfl := Option.some.inj hi
        have hown := ((h.region i parent hp).grow g).addNode hstand
        refine hown.addChild hchild rfl fun hmem => ?_
        obtain ⟨child, hc, -⟩ := (h.region i parent hp).children _ hmem
        exact Nat.lt_irrefl _ (region_lt hc)
      · exact (h.region i reg hi).grow g
  · rw [stem?_addLoop] at hn
    split at hn
    · rename_i hsize
      obtain rfl := Option.some.inj hn
      exact ⟨rfl, _, hparent, by simp [hsize]⟩
    · split at hn
      · rename_i hsize
        obtain rfl := Option.some.inj hn
        exact ⟨rfl, _, hchild, by simp [hsize]⟩
      · split at hn
        · rename_i hsize
          obtain rfl := Option.some.inj hn
          exact ⟨rfl, _, hchild, by simp [hsize]⟩
        · exact h.node_grow g hn

theorem Sound.addEdge (h : b.Sound) (n j : NodeId) : (b.addEdge n j).Sound where
  body := h.body
  region r region hr := (h.region r region hr).grow (grows_addEdge b n j)
  node i node hi := h.node i node (by rwa [stem?_addEdge] at hi)

theorem entry_of_region (hr : b.regions[r]? = some region) : b.entry r = region.entry := by
  rw [TreeBuilder.entry, getElem!_def, hr]

theorem exit_of_region (hr : b.regions[r]? = some region) : b.exit r = region.exit := by
  rw [TreeBuilder.exit, getElem!_def, hr]

theorem Sound.exit (h : b.Sound) (hr : b.regions[r]? = some region) :
    b.stem? (b.exit r) = some { id := b.exit r, region := r, kind := .exit } := by
  rw [exit_of_region hr]
  exact (h.region r region hr).exit

theorem Sound.entry (h : b.Sound) (hr : b.regions[r]? = some region) :
    b.stem? (b.entry r) = some { id := b.entry r, region := r, kind := .entry } := by
  rw [entry_of_region hr]
  exact (h.region r region hr).entry

/- An edge may lead to any node of the same region but its entry. -/
def Target (b : TreeBuilder) (r : RegionId) (n : NodeId) : Prop :=
  ∃ k, k ≠ .entry ∧ b.stem? n = some { id := n, region := r, kind := k }

theorem Target.grow (h : b.Target r n) (g : b.Grows b') : b'.Target r n := by
  obtain ⟨k, hk, hn⟩ := h
  exact ⟨k, hk, g.stem _ _ hn⟩

theorem Sound.target_exit (h : b.Sound) (hr : b.regions[r]? = some region) :
    b.Target r (b.exit r) :=
  ⟨.exit, by simp, h.exit hr⟩

/-- No edge leaves its region, and none leads to an entry. -/
def Fenced (b : TreeBuilder) : Prop :=
  ∀ (n : NodeId) (node : Node), b.nodes[n]? = some node → ∀ s ∈ node.succs, b.Target node.region s

theorem fenced_new (routine : String) : (TreeBuilder.new routine).Fenced := by
  have hnil : ∀ node ∈ (TreeBuilder.new routine).nodes, node.succs = [] := by
    simp [TreeBuilder.new, addRegion, TreeBuilder.addNode]
  intro n node hn s hs
  simp [hnil node (Array.mem_of_getElem? hn)] at hs

theorem Fenced.grow (h : b.Fenced) (g : b.Grows b') (hnew : ∀ (n : NodeId) (node : Node),
    b'.nodes[n]? = some node → b.nodes[n]? = some node ∨ node.succs = []) : b'.Fenced := by
  intro n node hn s hs
  rcases hnew n node hn with hold | hnil
  · exact (h n node hold s hs).grow g
  · simp [hnil] at hs

theorem Fenced.addBlock (h : b.Fenced) (hr : b.regions[r]? = some region) :
    (b.addBlock r insts).2.Fenced :=
  h.grow (grows_addBlock hr) fun _ _ => old_or_bare_addBlock

theorem Fenced.addLoop (h : b.Fenced) (hp : b.regions[p]? = some parent) :
    (b.addLoop p name once).2.Fenced :=
  h.grow (grows_addLoop hp) fun _ _ => old_or_bare_addLoop

theorem Fenced.addEdge (h : b.Fenced) (hn : b.stem? n = some node) (hj : b.Target node.region j) :
    (b.addEdge n j).Fenced := by
  intro i new hi s hs
  have g := grows_addEdge b n j
  simp only [TreeBuilder.addEdge, Array.getElem?_modify] at hi
  split at hi
  · rename_i hni
    obtain rfl := hni
    obtain ⟨raw, hraw, rfl⟩ := Option.map_eq_some_iff.1 hi
    rw [Node.region_addSucc]
    rcases Node.mem_succs_addSucc.1 hs with hs | rfl
    · exact (h n raw hraw s hs).grow g
    · obtain rfl := Option.some.inj ((stem?_of_node hraw).symm.trans hn)
      exact hj.grow g
  · exact (h i new hi s hs).grow g

/- What a builder draws when it finishes. -/

section Finish
variable (h : b.Sound) (hf : b.Fenced)
include h hf

theorem target_fallThrough (hn : b.nodes[n]? = some node) :
    ∀ s ∈ (b.fallThrough node).succs, b.Target node.region s := by
  intro s hs
  unfold fallThrough at hs
  split at hs
  · obtain rfl := List.mem_singleton.1 hs
    obtain ⟨-, owner, ho, -⟩ := h.node n _ (stem?_of_node hn)
    exact h.target_exit ho
  · exact hf n node hn s hs

/- The back edges of a loop lead to where its entry leads, which is in the same region. -/
theorem target_finish (hn : b.nodes[n]? = some node) :
    ∀ s ∈ (b.closeLoop (b.fallThrough node)).succs, b.Target node.region s := by
  intro s hs
  unfold closeLoop at hs
  split at hs
  · exact target_fallThrough h hf hn s hs
  · rename_i region hfind
    rcases Node.mem_succs_addSucc_all.1 hs with hs | hs
    · exact target_fallThrough h hf hn s hs
    · have hexit := List.find?_some (Array.find?_toList ▸ hfind)
      obtain ⟨r, hr⟩ := Array.getElem?_of_mem (Array.mem_of_find?_eq_some hfind)
      have hown := h.region r region hr
      obtain ⟨hid, -⟩ := h.node n _ (stem?_of_node hn)
      have hstem : b.stem? n = some { id := n, region := r, kind := .exit } := by
        simp only [Bool.and_eq_true, beq_iff_eq, id_fallThrough] at hexit
        obtain rfl : region.exit = n := hexit.2.trans hid
        exact hown.exit
      have hregion : node.region = r :=
        congrArg Node.region (Option.some.inj ((stem?_of_node hn).symm.trans hstem))
      obtain ⟨entry, hentry, hestem⟩ := Option.map_eq_some_iff.1 hown.entry
      have hentryRegion : entry.region = r := congrArg Node.region hestem
      rw [headers, hentry] at hs
      have htarget := target_fallThrough h hf hentry s (List.mem_of_mem_filter hs)
      rwa [hregion, ← hentryRegion]

end Finish

theorem stem_of_finish (hn : b.finish.node? n = some node) : b.stem? n = some node.stem := by
  obtain ⟨raw, preds, hraw, rfl, -⟩ := node?_finish_eq_some.1 hn
  rw [stem?_of_node hraw]
  simp [Node.stem]

theorem exists_node_finish {stem : Node} (hn : b.stem? n = some stem) :
    ∃ node, b.finish.node? n = some node ∧ node.stem = stem := by
  obtain ⟨raw, hraw, rfl⟩ := Option.map_eq_some_iff.1 hn
  refine ⟨_, node?_finish_eq_some.2 ⟨raw, _, hraw, rfl, rfl⟩, ?_⟩
  simp [Node.stem]

theorem Target.finish (h : b.Target r n) :
    ∃ node, b.finish.node? n = some node ∧ node.region = r ∧ node.kind ≠ .entry := by
  obtain ⟨k, hk, hn⟩ := h
  obtain ⟨node, hnode, hstem⟩ := exists_node_finish hn
  have hkind : node.kind = k := congrArg Node.kind hstem
  exact ⟨node, hnode, congrArg Node.region hstem, hkind ▸ hk⟩

theorem Sound.forest_finish (h : b.Sound) : b.finish.Forest where
  body := by
    obtain ⟨body, hb, -, hp, -⟩ := h.body
    exact ⟨body, hb, hp⟩
  rooted r region hr := (h.region r region hr).rooted
  parent r region p hr hp := by
    obtain ⟨hlt, hparent, -⟩ := (h.region r region hr).parent p hp
    exact ⟨hlt, hparent⟩
  once r region hr := (h.region r region hr).once
  children r region hr := (h.region r region hr).children

section Valid
variable (h : b.Sound) (hf : b.Fenced)
include h hf

theorem target_of_finish (hn : b.finish.node? n = some node) :
    ∀ s ∈ node.succs, b.Target node.region s := by
  obtain ⟨raw, preds, hraw, rfl, -⟩ := node?_finish_eq_some.1 hn
  intro s hs
  simp only [region_closeLoop, region_fallThrough]
  exact target_finish h hf hraw s hs

/- An entry has no predecessors, since no edge leads there. -/
theorem preds_finish (hn : b.finish.node? n = some node) (hk : node.kind = .entry) :
    node.preds = [] := by
  obtain ⟨raw, preds, hraw, rfl, rfl⟩ := node?_finish_eq_some.1 hn
  rw [List.eq_nil_iff_forall_not_mem]
  intro m hm
  simp only [RegionTree.predsOf, List.mem_eraseDups, List.mem_map, List.mem_filter,
    Array.mem_toList_iff, Array.mem_map, List.contains_iff_mem] at hm
  obtain ⟨_, ⟨⟨source, hsource, rfl⟩, hs⟩, -⟩ := hm
  obtain ⟨i, hi⟩ := Array.getElem?_of_mem hsource
  obtain ⟨target, ht, -, hne⟩ := (target_finish h hf hi n hs).finish
  obtain rfl := Option.some.inj (hn.symm.trans ht)
  exact hne hk

theorem graphOk_finish (hr : b.regions[r]? = some region) : b.finish.GraphOk region := by
  have hown := h.region r region hr
  obtain ⟨entry, hentry, hestem⟩ := exists_node_finish hown.entry
  obtain ⟨exit, hexit, hxstem⟩ := exists_node_finish hown.exit
  have hkind : entry.kind = .entry := congrArg Node.kind hestem
  refine ⟨⟨entry, hentry, hkind, preds_finish h hf hentry hkind⟩,
    ⟨exit, hexit, congrArg Node.kind hxstem⟩, hown.first, hown.listed, fun n hn => ?_⟩
  obtain ⟨k, hk⟩ := hown.nodes n hn
  obtain ⟨node, hnode, hstem⟩ := exists_node_finish hk
  have hregion : node.region = r := congrArg Node.region hstem
  refine ⟨node, hnode, hregion.trans hown.id.symm, fun s hs => ?_⟩
  obtain ⟨target, ht, htr, -⟩ := (target_of_finish h hf hnode s hs).finish
  exact ⟨target, ht, htr.trans (hregion.trans hown.id.symm)⟩

/-- What a builder finishes is a valid tree. -/
theorem valid_finish : b.finish.Valid where
  body := h.body
  region r region hr := by
    have hown := h.region r region hr
    refine ⟨hown.id, hown.nested, ?_, ?_, graphOk_finish h hf hr⟩
    · unfold RegionTree.ParentOk
      cases hp : region.parent with
      | none => exact hown.id.trans (hown.rooted hp)
      | some p =>
        obtain ⟨-, ⟨parent, hparent, hc⟩, n, hs, hn⟩ := hown.parent p hp
        obtain ⟨node, hnode, hstem⟩ := exists_node_finish hn
        rw [hown.id]
        exact ⟨parent, n, node, hparent, hc, hs, hnode, congrArg Node.kind hstem,
          congrArg Node.region hstem⟩
    · intro c hc
      rw [hown.id]
      exact hown.children c hc
  node n node hn := by
    obtain ⟨hid, owner, ho, hmem⟩ := h.node n _ (stem_of_finish hn)
    exact ⟨hid, owner, ho, hid ▸ hmem⟩
  nesting := RegionTree.checkNesting_ok h.forest_finish

end Valid
end TreeBuilder
end LoopMemory
