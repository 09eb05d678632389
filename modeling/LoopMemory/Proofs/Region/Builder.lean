import LoopMemory.Proofs.Region.Valid
import LoopMemory.Region.Builder

/-! What the calls on a builder leave in its nodes and regions, and the edges of a finished tree. -/
namespace LoopMemory

namespace Node
variable {n : Node} {j k : NodeId}

@[simp] theorem id_addSucc : (n.addSucc k).id = n.id := by
  unfold addSucc; split <;> rfl

@[simp] theorem region_addSucc : (n.addSucc k).region = n.region := by
  unfold addSucc; split <;> rfl

@[simp] theorem kind_addSucc : (n.addSucc k).kind = n.kind := by
  unfold addSucc; split <;> rfl

@[simp] theorem mem_succs_addSucc : j ∈ (n.addSucc k).succs ↔ j ∈ n.succs ∨ j = k := by
  unfold addSucc
  split
  · rename_i h
    rw [List.contains_iff_mem] at h
    exact ⟨.inl, fun hj => hj.elim (fun hj => hj) fun he => he ▸ h⟩
  · simp

theorem addSucc_all_kept (ks : List NodeId) (n : Node) : (ks.foldl addSucc n).id = n.id ∧
    (ks.foldl addSucc n).region = n.region ∧ (ks.foldl addSucc n).kind = n.kind := by
  induction ks generalizing n with
  | nil => exact ⟨rfl, rfl, rfl⟩
  | cons k ks ih => simpa using ih (n.addSucc k)

theorem mem_succs_addSucc_all {ks : List NodeId} :
    j ∈ (ks.foldl addSucc n).succs ↔ j ∈ n.succs ∨ j ∈ ks := by
  induction ks generalizing n with
  | nil => simp
  | cons k ks ih => simp [ih, or_assoc]

end Node

/-- A region without its lists, which later calls on a builder extend. -/
def Region.outline (r : Region) : Region := { r with children := [], nodes := [] }

namespace TreeBuilder
variable {b : TreeBuilder} {n : NodeId} {r i : RegionId} {k : NodeKind}

def kind? (b : TreeBuilder) (n : NodeId) : Option NodeKind := b.nodes[n]?.map (·.kind)

def outline? (b : TreeBuilder) (r : RegionId) : Option Region := b.regions[r]?.map Region.outline

theorem outline?_modify {regions : Array Region} {f : Region → Region}
    (h : ∀ r, (f r).outline = r.outline) :
    (regions.modify r f)[i]?.map Region.outline = regions[i]?.map Region.outline := by
  rw [Array.getElem?_modify]
  split
  · cases regions[i]? <;> simp [h]
  · rfl

theorem entry_eq (b : TreeBuilder) (r : RegionId) :
    b.entry r = ((b.outline? r).getD default).entry := by
  unfold entry outline?
  rw [getElem!_def]
  cases b.regions[r]? <;> rfl

theorem standIn?_eq (b : TreeBuilder) (r : RegionId) :
    b.standIn? r = ((b.outline? r).getD default).standIn := by
  unfold standIn? outline?
  rw [getElem!_def]
  cases b.regions[r]? <;> rfl

@[simp] theorem kind?_addNode : (b.addNode r k).2.kind? n =
    if n = b.nodes.size then some k else b.kind? n := by
  simp only [addNode, kind?, Array.getElem?_push]
  split <;> rfl

@[simp] theorem outline?_addNode : (b.addNode r k).2.outline? i = b.outline? i :=
  outline?_modify fun _ => rfl

@[simp] theorem kind?_addEdge (m j : NodeId) : (b.addEdge m j).kind? n = b.kind? n := by
  simp only [addEdge, kind?, Array.getElem?_modify]
  split
  · cases b.nodes[n]? <;> simp
  · rfl

@[simp] theorem outline?_addEdge (m j : NodeId) : (b.addEdge m j).outline? i = b.outline? i := rfl

@[simp] theorem kind?_addRegion {name : String} {kind : RegionKind} {parent : Option RegionId} :
    (b.addRegion name kind parent).2.kind? n = if n = b.nodes.size + 1 then some .exit
      else if n = b.nodes.size then some .entry else b.kind? n := by
  simp only [addRegion, addNode, kind?, Array.getElem?_push, Array.size_push]
  split
  · rfl
  · split <;> rfl

theorem outline?_addRegion {name : String} {kind : RegionKind} {parent : Option RegionId} :
    (b.addRegion name kind parent).2.outline? i = if i = b.regions.size
      then some { id := i, name, kind, parent, entry := b.nodes.size, exit := b.nodes.size + 1 }
      else b.outline? i := by
  simp only [addRegion, addNode, outline?, Array.getElem?_modify, Array.getElem?_push,
    Array.size_push]
  by_cases h : i = b.regions.size
  · simp [h, Region.outline]
  · simp [h, Ne.symm h]

@[simp] theorem size_nodes_addRegion {name : String} {kind : RegionKind}
    {parent : Option RegionId} :
    (b.addRegion name kind parent).2.nodes.size = b.nodes.size + 2 := by
  simp [addRegion, addNode]

/- A loop as it is once its region and its node are there, and before they know each other. -/
private def beginLoop (b : TreeBuilder) (p : RegionId) (name : String) (once : Bool) :
    TreeBuilder :=
  ((b.addRegion name (.loop once) (some p)).2.addNode p (.region b.regions.size)).2

private theorem addLoop_eq {name : String} {once : Bool} : (b.addLoop r name once).2 =
    { b.beginLoop r name once with
      regions := ((b.beginLoop r name once).regions.modify b.regions.size
        fun region => { region with standIn := some (b.nodes.size + 2) }).modify r
        fun region => { region with children := region.children ++ [b.regions.size] } } := by
  rw [← @size_nodes_addRegion b name (.loop once) (some r)]
  rfl

@[simp] theorem kind?_addLoop {name : String} {once : Bool} :
    (b.addLoop r name once).2.kind? n = if n = b.nodes.size + 2 then some (.region b.regions.size)
      else if n = b.nodes.size + 1 then some .exit
      else if n = b.nodes.size then some .entry else b.kind? n := by
  have h : (b.addLoop r name once).2.kind? n = (b.beginLoop r name once).kind? n := by
    simp only [kind?, addLoop_eq]
  rw [h, beginLoop, kind?_addNode, kind?_addRegion, size_nodes_addRegion]

theorem outline?_addLoop {name : String} {once : Bool} :
    (b.addLoop r name once).2.outline? i = if i = b.regions.size
      then some {
        id := i, name, kind := .loop once, parent := some r
        entry := b.nodes.size, exit := b.nodes.size + 1, standIn := some (b.nodes.size + 2) }
      else b.outline? i := by
  have h : (b.beginLoop r name once).outline? i = _ :=
    outline?_addNode.trans outline?_addRegion
  have hr : (b.addLoop r name once).2.outline? i = ((b.beginLoop r name once).regions.modify
      b.regions.size fun region => { region with standIn := some (b.nodes.size + 2) })[i]?.map
        Region.outline := by
    simp only [outline?, addLoop_eq]
    exact outline?_modify fun _ => rfl
  rw [hr, Array.getElem?_modify]
  rw [outline?] at h
  by_cases hi : i = b.regions.size
  · rw [if_pos hi] at h ⊢
    rw [if_pos hi.symm]
    obtain ⟨region, hreg, hout⟩ := Option.map_eq_some_iff.1 h
    rw [hreg]
    simp only [Region.outline, Option.map_some, Option.some.injEq, Region.mk.injEq] at hout ⊢
    simp [hout]
  · rw [if_neg hi] at h ⊢
    rw [if_neg (Ne.symm hi)]
    exact h

/-- The entry of every region is an entry, and a loop and its node know each other. -/
structure Formed (b : TreeBuilder) : Prop where
  first : b.kind? 0 = some .entry
  entry : ∀ r region, b.outline? r = some region → b.kind? region.entry = some .entry
  standIn : ∀ r region n, b.outline? r = some region → region.standIn = some n →
    b.kind? n = some (.region r)
  stands : ∀ n c, b.kind? n = some (.region c) →
    ∃ region, b.outline? c = some region ∧ region.standIn = some n

theorem kind?_lt (h : b.kind? n = some k) : n < b.nodes.size := by
  obtain ⟨node, hn, -⟩ := Option.map_eq_some_iff.1 h
  exact (Array.getElem?_eq_some_iff.1 hn).1

theorem outline?_lt {region : Region} (h : b.outline? r = some region) : r < b.regions.size := by
  obtain ⟨node, hn, -⟩ := Option.map_eq_some_iff.1 h
  exact (Array.getElem?_eq_some_iff.1 hn).1

theorem kind?_addLoop_of_some {p : RegionId} {name : String} {once : Bool}
    (h : b.kind? n = some k) : (b.addLoop p name once).2.kind? n = some k := by
  have hlt := kind?_lt h
  have h1 : n ≠ b.nodes.size + 1 := Nat.ne_of_lt (Nat.lt_succ_of_lt hlt)
  have h2 : n ≠ b.nodes.size + 2 := Nat.ne_of_lt (Nat.lt_add_right 2 hlt)
  rw [kind?_addLoop, if_neg h2, if_neg h1, if_neg (Nat.ne_of_lt hlt), h]

theorem kind?_addBlock_of_some {insts : List Inst} (h : b.kind? n = some k) :
    (b.addBlock r insts).2.kind? n = some k := by
  rw [addBlock, kind?_addNode, if_neg (Nat.ne_of_lt (kind?_lt h)), h]

theorem formed_new (routine : String) : (TreeBuilder.new routine).Formed := by
  have hk : ∀ n, (TreeBuilder.new routine).kind? n =
      if n = 1 then some .exit else if n = 0 then some .entry else none := by
    intro n
    rw [new, kind?_addRegion]
    rfl
  have ho : ∀ i, (TreeBuilder.new routine).outline? i = if i = 0
      then some { id := i, name := routine, kind := .body, entry := 0, exit := 1 } else none := by
    intro i
    rw [new, outline?_addRegion]
    rfl
  refine ⟨hk 0, fun r region hr => ?_, fun r region n hr hs => ?_, fun n c hn => ?_⟩
  · rw [ho] at hr
    split at hr
    · rw [← Option.some.inj hr]
      exact hk 0
    · simp at hr
  · rw [ho] at hr
    split at hr
    · rw [← Option.some.inj hr] at hs
      simp at hs
    · simp at hr
  · rw [hk] at hn
    split at hn
    · simp at hn
    · split at hn <;> simp at hn

theorem Formed.addBlock (h : b.Formed) (r : RegionId) (insts : List Inst) :
    (b.addBlock r insts).2.Formed := by
  have ho : ∀ i, (b.addBlock r insts).2.outline? i = b.outline? i := fun i => outline?_addNode
  refine ⟨kind?_addBlock_of_some h.first, fun i region hi => ?_,
    fun i region n hi hs => ?_, fun n c hn => ?_⟩
  · rw [ho] at hi
    exact kind?_addBlock_of_some (h.entry i region hi)
  · rw [ho] at hi
    exact kind?_addBlock_of_some (h.standIn i region n hi hs)
  · rw [TreeBuilder.addBlock, kind?_addNode] at hn
    rw [ho]
    split at hn
    · simp at hn
    · exact h.stands n c hn

theorem Formed.addLoop (h : b.Formed) (p : RegionId) (name : String) (once : Bool) :
    (b.addLoop p name once).2.Formed := by
  refine ⟨kind?_addLoop_of_some h.first, fun i region hi => ?_,
    fun i region n hi hs => ?_, fun n c hn => ?_⟩
  · rw [outline?_addLoop] at hi
    split at hi
    · obtain rfl := Option.some.inj hi
      simp
    · exact kind?_addLoop_of_some (h.entry i region hi)
  · rw [outline?_addLoop] at hi
    split at hi
    · rename_i hr
      obtain rfl := Option.some.inj hi
      obtain rfl := Option.some.inj hs
      simp [hr]
    · exact kind?_addLoop_of_some (h.standIn i region n hi hs)
  · rw [kind?_addLoop] at hn
    split at hn
    · rename_i hsize
      obtain rfl := NodeKind.region.inj (Option.some.inj hn)
      rw [outline?_addLoop, if_pos rfl]
      exact ⟨_, rfl, congrArg some hsize.symm⟩
    · split at hn
      · simp at hn
      · split at hn
        · simp at hn
        · obtain ⟨region, hc, hs⟩ := h.stands n c hn
          exact ⟨region, by rw [outline?_addLoop, if_neg (Nat.ne_of_lt (outline?_lt hc)), hc], hs⟩

theorem Formed.addEdge (h : b.Formed) (m j : NodeId) : (b.addEdge m j).Formed := by
  refine ⟨?_, fun r region hr => ?_, fun r region n hr hs => ?_, fun n c hn => ?_⟩
  · rw [kind?_addEdge, h.first]
  · rw [kind?_addEdge, h.entry r region hr]
  · rw [kind?_addEdge, h.standIn r region n hr hs]
  · rw [kind?_addEdge] at hn
    exact h.stands n c hn

/-- What holds at first and is kept when a loop, a block or an edge is added, holds after a run. -/
theorem run_induction {P : TreeBuilder → Prop} (start : P b)
    (loop : ∀ b p name once, P b → P (addLoop b p name once).2)
    (block : ∀ b r insts, P b → P (addBlock b r insts).2)
    (edge : ∀ b source target, P b → P (addEdge b source target)) (steps : List Step) :
    P (b.run steps) := by
  refine List.foldlRecOn steps apply start fun b hb s _ => ?_
  cases s with
  | loop p name once => exact loop b p name once hb
  | block r insts => exact block b r insts hb
  | edge source target => exact edge b source target hb
  | path r nodes => exact List.foldlRecOn _ _ hb fun b hb e _ => edge b e.1 e.2 hb

theorem Formed.run (h : b.Formed) (steps : List Step) : (b.run steps).Formed :=
  run_induction h (fun _ p name once h => h.addLoop p name once)
    (fun _ r insts h => h.addBlock r insts) (fun _ n k h => h.addEdge n k) steps

/-- No region lists a node twice, or one that is not there yet. -/
def Listed (b : TreeBuilder) : Prop :=
  ∀ (r : RegionId) (region : Region), b.regions[r]? = some region →
    region.nodes.Nodup ∧ ∀ n ∈ region.nodes, n < b.nodes.size

theorem Listed.modify (h : b.Listed) {f : Region → Region} (hf : ∀ r, (f r).nodes = r.nodes) :
    Listed { b with regions := b.regions.modify r f } := by
  intro i region hi
  simp only [Array.getElem?_modify] at hi
  split at hi
  · obtain ⟨old, hold, rfl⟩ := Option.map_eq_some_iff.1 hi
    rw [hf]
    exact h i old hold
  · exact h i region hi

theorem Listed.addNode (h : b.Listed) : (b.addNode r k).2.Listed := by
  intro i region hi
  have hlt : ∀ {n}, n < b.nodes.size → n < (b.addNode r k).2.nodes.size := by
    intro n hn
    simp only [TreeBuilder.addNode, Array.size_push]
    exact Nat.lt_succ_of_lt hn
  simp only [TreeBuilder.addNode, Array.getElem?_modify] at hi
  split at hi
  · obtain ⟨old, hold, rfl⟩ := Option.map_eq_some_iff.1 hi
    obtain ⟨hnodup, hsize⟩ := h i old hold
    refine ⟨List.nodup_append.2 ⟨hnodup, by simp, ?_⟩, fun n hn => ?_⟩
    · rintro n hn _ hm rfl
      rw [List.mem_singleton.1 hm] at hn
      exact Nat.lt_irrefl _ (hsize _ hn)
    · rcases List.mem_append.1 hn with hn | hn
      · exact hlt (hsize n hn)
      · rw [List.mem_singleton.1 hn]
        simp [TreeBuilder.addNode]
  · exact (h i region hi).imp_right fun hsize n hn => hlt (hsize n hn)

theorem Listed.addRegion (h : b.Listed) {name : String} {kind : RegionKind}
    {parent : Option RegionId} : (b.addRegion name kind parent).2.Listed := by
  have hpush : Listed { b with
      regions := b.regions.push { id := b.regions.size, name, kind, parent } } := by
    intro i region hi
    simp only [Array.getElem?_push] at hi
    split at hi
    · obtain rfl := Option.some.inj hi
      simp
    · exact h i region hi
  exact hpush.addNode.addNode.modify fun _ => rfl

theorem Listed.addLoop (h : b.Listed) {name : String} {once : Bool} :
    (b.addLoop r name once).2.Listed := by
  have hbegin : (b.beginLoop r name once).Listed := h.addRegion.addNode
  rw [addLoop_eq]
  generalize b.beginLoop r name once = begun at hbegin
  have hstand : Listed { begun with
      regions := begun.regions.modify b.regions.size
        fun region => { region with standIn := some (b.nodes.size + 2) } } :=
    hbegin.modify fun _ => rfl
  exact hstand.modify fun _ => rfl

theorem listed_new (routine : String) : (TreeBuilder.new routine).Listed := by
  have hempty : ({ routine, regions := #[], nodes := #[] } : TreeBuilder).Listed := by
    intro r region hr
    cases hr
  exact hempty.addRegion

theorem Listed.addEdge (h : b.Listed) {m j : NodeId} : (b.addEdge m j).Listed := by
  intro i region hi
  simpa [TreeBuilder.addEdge] using h i region hi

theorem Listed.run (h : b.Listed) (steps : List Step) : (b.run steps).Listed :=
  run_induction h (fun _ _ _ _ h => h.addLoop) (fun _ _ _ h => h.addNode)
    (fun _ _ _ h => h.addEdge) steps

/-- No edge leaves an exit so far. -/
def DeadEnds (b : TreeBuilder) : Prop :=
  ∀ (n : NodeId) (node : Node), b.nodes[n]? = some node → node.kind = .exit → node.succs = []

/- The finished tree. -/

@[simp] theorem kind_fallThrough (n : Node) : (b.fallThrough n).kind = n.kind := by
  unfold fallThrough; split <;> rfl

@[simp] theorem id_fallThrough (n : Node) : (b.fallThrough n).id = n.id := by
  unfold fallThrough; split <;> rfl

@[simp] theorem region_fallThrough (n : Node) : (b.fallThrough n).region = n.region := by
  unfold fallThrough; split <;> rfl

@[simp] theorem kind_closeLoop (n : Node) : (b.closeLoop n).kind = n.kind := by
  unfold closeLoop
  split
  · rfl
  · exact (Node.addSucc_all_kept _ n).2.2

@[simp] theorem id_closeLoop (n : Node) : (b.closeLoop n).id = n.id := by
  unfold closeLoop
  split
  · rfl
  · exact (Node.addSucc_all_kept _ n).1

@[simp] theorem region_closeLoop (n : Node) : (b.closeLoop n).region = n.region := by
  unfold closeLoop
  split
  · rfl
  · exact (Node.addSucc_all_kept _ n).2.1

theorem succs_closeLoop {n : Node} {k : NodeId} (h : k ∈ n.succs) : k ∈ (b.closeLoop n).succs := by
  unfold closeLoop
  split
  · exact h
  · exact Node.mem_succs_addSucc_all.2 (.inl h)

@[simp] theorem region?_finish (r : RegionId) : b.finish.region? r = b.regions[r]? := rfl

theorem node?_finish_eq_some {node : Node} : b.finish.node? n = some node ↔
    ∃ raw preds, b.nodes[n]? = some raw ∧
      node = { b.closeLoop (b.fallThrough raw) with preds := preds } ∧
      preds = RegionTree.predsOf (b.nodes.map fun n => b.closeLoop (b.fallThrough n)) n := by
  rw [finish, RegionTree.node?_ofParts, Array.getElem?_map]
  cases b.nodes[n]? <;> simp [eq_comm (a := node)]

theorem Formed.nested_finish (h : b.Formed) : b.finish.Nested := by
  intro n node c hn hk
  obtain ⟨raw, _, hraw, rfl, -⟩ := node?_finish_eq_some.1 hn
  have hkind : b.kind? n = some (.region c) := by
    simp only [kind_closeLoop, kind_fallThrough] at hk
    simp [kind?, hraw, hk]
  obtain ⟨region, hout, hs⟩ := h.stands n c hkind
  obtain ⟨inner, hc, rfl⟩ := Option.map_eq_some_iff.1 hout
  exact ⟨inner, hc, hs⟩

/-- The edges that then leave the exit of a finished region are back edges, to where its entry
leads. -/
theorem DeadEnds.succs_exit_subset (ends : b.DeadEnds) (hv : b.finish.Valid) {region : Region}
    {entry exit : Node}
    (hr : b.finish.region? r = some region) (he : b.finish.node? region.entry = some entry)
    (hx : b.finish.node? region.exit = some exit) : exit.succs ⊆ entry.succs := by
  obtain ⟨exit', hexit, hkind⟩ := (hv.region r region hr).graph.exit
  obtain rfl := Option.some.inj (hexit.symm.trans hx)
  obtain ⟨e, _, hraw, rfl, -⟩ := node?_finish_eq_some.1 he
  obtain ⟨x, _, hxraw, rfl, -⟩ := node?_finish_eq_some.1 hx
  have hxk : x.kind = .exit := by simpa using hkind
  have hid : x.id = region.exit := by simpa using hv.indexed _ _ hx
  have hfall : b.fallThrough x = x := by simp [fallThrough, hxk]
  intro k hk
  simp only [hfall, closeLoop] at hk
  split at hk
  · simp [ends _ x hxraw hxk] at hk
  · rename_i other hfind
    have hother := List.find?_some (Array.find?_toList ▸ hfind)
    have hmem : other ∈ b.regions := Array.mem_of_find?_eq_some hfind
    obtain ⟨i, hi⟩ := Array.getElem?_of_mem hmem
    simp only [Bool.and_eq_true, beq_iff_eq, hid] at hother
    have hmemx : region.exit ∈ other.nodes := hother.2 ▸ hv.exit_mem hi
    obtain rfl := hv.eq_of_mem hr hi (hv.exit_mem hr) hmemx
    obtain rfl : region = other := Option.some.inj (hr.symm.trans hi)
    rw [Node.mem_succs_addSucc_all, ends _ x hxraw hxk] at hk
    simp only [headers, hraw, List.not_mem_nil, false_or, List.mem_filter] at hk
    exact succs_closeLoop hk.1

end TreeBuilder
end LoopMemory
