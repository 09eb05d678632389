import LoopMemory.Proofs.Region.Valid
import LoopMemory.Proofs.Solver.Paths
import LoopMemory.Region.Builder

/-! The solution told node by node: what must reach a point was written on every way to it, and not
overwritten since. -/
namespace LoopMemory.Problem
variable {p : Problem} {n k : NodeId} {ns : List NodeId} {f : Footprint} {v : Reaching}
  {l : Location}

/-- The ways along edges from the region's entry to a node, each with the nodes that it leaves, in
order. -/
inductive Walk (p : Problem) : List NodeId → NodeId → Prop
  | enter : Walk p [] p.region.entry
  | step {ns : List NodeId} {n k : NodeId} (walk : Walk p ns n) (lead : p.tree.Leads n k) :
      Walk p (ns ++ [n]) k

def Defines (p : Problem) (n : NodeId) (l : Location) : Prop :=
  ∃ f, p.footprints.get? n = some f ∧ l ∈ f.defs

def MayDefine (p : Problem) (n : NodeId) (l : Location) : Prop :=
  ∃ f, p.footprints.get? n = some f ∧ (l ∈ f.defs ∨ l ∈ f.mayDefs)

/-- The node writes nothing unknown, and either it defines just this location or none of its
definitions may overlap it. -/
def Spares (p : Problem) (n : NodeId) (l : Location) : Prop :=
  ∃ f, p.footprints.get? n = some f ∧ f.hasUnknownWrites = false ∧
    (l ∈ f.defs ∨ ∀ d ∈ f.defs, p.aliases.meets d l = false)

/-- Some node on the way defines the location, and every later one spares it. -/
def Lasts (p : Problem) (l : Location) (ns : List NodeId) : Prop :=
  ∃ before n after, ns = before ++ n :: after ∧ p.Defines n l ∧ ∀ k ∈ after, p.Spares k l

theorem not_lasts_nil : ¬p.Lasts l [] := by
  rintro ⟨before, n, after, he, -⟩
  simp at he

theorem lasts_snoc : p.Lasts l (ns ++ [n]) ↔ p.Defines n l ∨ (p.Spares n l ∧ p.Lasts l ns) := by
  constructor
  · rintro ⟨before, k, after, he, hd, hs⟩
    rcases List.eq_nil_or_concat after with rfl | ⟨after, j, rfl⟩
    · obtain ⟨-, hnk⟩ := List.append_inj' he rfl
      obtain rfl := List.singleton_inj.1 hnk
      exact .inl hd
    · rw [List.concat_eq_append, ← List.cons_append, ← List.append_assoc] at he
      obtain ⟨hns, hnj⟩ := List.append_inj' he rfl
      obtain rfl := List.singleton_inj.1 hnj
      exact .inr ⟨hs n (by simp), before, k, after, hns, hd, fun i hi => hs i (by simp [hi])⟩
  · rintro (hd | ⟨hs, before, k, after, rfl, hd, hall⟩)
    · exact ⟨ns, n, [], rfl, hd, by simp⟩
    · refine ⟨before, k, after ++ [n], by simp, hd, fun j hj => ?_⟩
      rcases List.mem_append.1 hj with hj | hj
      · exact hall j hj
      · exact List.mem_singleton.1 hj ▸ hs

/- The value that a way carries, through the transfer of each node that it leaves. -/
structure Carries (p : Problem) (ns : List NodeId) (v : Reaching) : Prop where
  known : v.must.isFull = false
  must : ∀ l, l ∈ v.must ↔ p.Lasts l ns
  may : ∀ l, l ∈ v.may ↔ ∃ n ∈ ns, p.MayDefine n l

theorem carries_nil : p.Carries [] .start where
  known := rfl
  must l := by simp [not_lasts_nil]
  may l := by simp

theorem Carries.step (h : p.Carries ns v) (hf : p.footprints.get? n = some f) :
    p.Carries (ns ++ [n]) (v.transfer p.aliases f) where
  known := by
    rw [Bool.eq_false_iff, ne_eq, Reaching.isFull_must_transfer]
    simp [h.known]
  must l := by
    have hdef : p.Defines n l ↔ l ∈ f.defs := by simp [Defines, hf]
    have hspare : p.Spares n l ↔ f.hasUnknownWrites = false ∧
        (l ∈ f.defs ∨ f.defs.meets p.aliases l = false) := by
      simp [Spares, hf, SortedSet.meets_eq_false_iff]
    rw [Reaching.mem_must_transfer, h.must, h.known, lasts_snoc, hdef, hspare]
    simp only [Bool.false_eq_true, false_or]
    tauto
  may l := by
    have hmay : p.MayDefine n l ↔ l ∈ f.defs ∨ l ∈ f.mayDefs := by simp [MayDefine, hf]
    rw [Reaching.mem_may_transfer, h.may, ← hmay]
    simp [or_and_right, exists_or]

theorem Path.walk (h : p.Path n v) : ∃ ns, p.Walk ns n ∧ p.Carries ns v := by
  induction h with
  | enter => exact ⟨[], .enter, carries_nil⟩
  | step path hn hf hk ih =>
    obtain ⟨ns, walk, hc⟩ := ih
    exact ⟨_, walk.step ⟨_, hn, hk⟩, hc.step hf⟩

theorem Walk.path (hp : p.Traversed) (h : p.Walk ns n) : ∃ v, p.Path n v ∧ p.Carries ns v := by
  induction h with
  | enter => exact ⟨.start, .enter, carries_nil⟩
  | step walk lead ih =>
    obtain ⟨v, path, hc⟩ := ih
    obtain ⟨node, hn, hk⟩ := lead
    obtain ⟨f, hf⟩ := hp.footprint _ (path.mem hp)
    exact ⟨_, path.step hn hf hk, hc.step hf⟩

theorem traversed_of_closed (hc : p.Closed) (hl : p.tree.Linked)
    (he : p.region.entry ∈ p.region.nodes)
    (hfirst : ∀ node, p.tree.node? p.region.entry = some node → node.preds = [])
    (hreach : ∀ n ∈ p.region.nodes, Relation.ReflTransGen p.tree.Leads p.region.entry n) :
    p.Traversed := by
  refine { hc with linked := hl, entry := he, fresh := fun n node hn hs => ?_,
                   reached := fun n hn => hc.path he (hreach n hn) }
  obtain ⟨entry, hentry⟩ := hc.node _ he
  have hpred := (hl _ entry hentry n).2 ⟨node, hn, hs⟩
  simp [hfirst entry hentry] at hpred

/-- Two blocks that lead to each other. -/
def weaving : TreeBuilder :=
  (TreeBuilder.new "routine").run
    [.block 0 [0], .block 0 [1], .path 0 [2], .edge 2 3, .edge 3 2]

def wholeVar : Location := { base := 1, offset := 0, size := .bytes 8 }

def upperPart : Location := { base := 1, offset := 4, size := .bytes 4 }

/-- One block writes a variable, the other one a part of it. -/
def overwriting : Problem where
  tree := weaving.finish
  region := weaving.finish.regions[0]!
  footprints := ⟨[(0, {}), (1, {}), (2, { defs := .ofList [wholeVar] }),
    (3, { defs := .ofList [upperPart] })]⟩
  aliases := ({} : AliasModel).overlap

theorem linked_weaving : weaving.finish.Linked :=
  RegionTree.linked_ofParts (RegionTree.validate_eq_ok.1 (by decide +kernel)).indexed

/-- In a region graph that no edge leaves and no edge enters again, and whose nodes can all be
reached along its edges, a location must be written in front of a node just if every way there
defines it and later spares it, and may be written there just if some way meets a possible
definition. -/
theorem solve_exact_over_walks (hl : p.tree.Linked) (hc : p.Closed)
    (he : p.region.entry ∈ p.region.nodes)
    (hfirst : ∀ node, p.tree.node? p.region.entry = some node → node.preds = [])
    (hreach : ∀ n ∈ p.region.nodes, Relation.ReflTransGen p.tree.Leads p.region.entry n) :
    ∃ sol, p.solve = .ok sol ∧ ∀ n ∈ p.region.nodes, ∃ x, sol.inputs.get? n = some x ∧
      ∀ l, (l ∈ x.must ↔ ∀ ns, p.Walk ns n → p.Lasts l ns) ∧
        (l ∈ x.may ↔ ∃ ns, p.Walk ns n ∧ ∃ k ∈ ns, p.MayDefine k l) := by
  have hp := traversed_of_closed hc hl he hfirst hreach
  obtain ⟨sol, hsol⟩ := solve_ok hc
  refine ⟨sol, hsol, fun n hn => ?_⟩
  obtain ⟨_, _, x, -, -, hx, -⟩ := (solves_of_solve hl hsol).flow n hn
  have hex := exact_of_solve hp hsol hn hx
  refine ⟨x, hx, fun l => ⟨?_, ?_⟩⟩
  · rw [hex.must]
    constructor
    · intro h ns walk
      obtain ⟨v, path, hcar⟩ := walk.path hp
      exact (hcar.must l).1 (h v path)
    · intro h v path
      obtain ⟨ns, walk, hcar⟩ := path.walk
      exact (hcar.must l).2 (h ns walk)
  · rw [hex.may]
    constructor
    · rintro ⟨v, path, hl⟩
      obtain ⟨ns, walk, hcar⟩ := path.walk
      exact ⟨ns, walk, (hcar.may l).1 hl⟩
    · rintro ⟨ns, walk, hl⟩
      obtain ⟨v, path, hcar⟩ := walk.path hp
      exact ⟨v, path, (hcar.may l).2 hl⟩

theorem solve_exact_over_walks_overwriting : ∃ sol x y,
    overwriting.solve = .ok sol ∧ sol.inputs.get? 1 = some x ∧ x.must = .only (.ofList [wholeVar]) ∧
    sol.inputs.get? 2 = some y ∧ y.must = .empty ∧
    (∀ ns, overwriting.Walk ns 1 → overwriting.Lasts wholeVar ns) ∧
    ∃ ns, overwriting.Walk ns 2 ∧ ∃ k ∈ ns, overwriting.MayDefine k upperPart := by
  have hleads : ∀ n k, (n, k) ∈ [(0, 2), (2, 1), (2, 3)] → overwriting.tree.Leads n k := by
    have hall : ∀ e ∈ [(0, 2), (2, 1), (2, 3)],
        ∃ node ∈ overwriting.tree.node? e.1, e.2 ∈ node.succs := by
      decide +kernel
    exact fun n k h => hall (n, k) h
  have hreach : ∀ n ∈ overwriting.region.nodes,
      Relation.ReflTransGen overwriting.tree.Leads overwriting.region.entry n := by
    have htwo : Relation.ReflTransGen overwriting.tree.Leads 0 2 :=
      .single (hleads 0 2 (by simp))
    intro n hn
    have hn : n ∈ [0, 1, 2, 3] := hn
    simp only [List.mem_cons, List.not_mem_nil, or_false] at hn
    rcases hn with rfl | rfl | rfl | rfl
    · exact .refl
    · exact htwo.tail (hleads 2 1 (by simp))
    · exact htwo
    · exact htwo.tail (hleads 2 3 (by simp))
  obtain ⟨sol, hsol, hall⟩ := solve_exact_over_walks linked_weaving (by decide +kernel)
    (by decide +kernel) (by decide +kernel) hreach
  obtain ⟨x, hx, hxl⟩ := hall 1 (by decide +kernel)
  obtain ⟨y, hy, hyl⟩ := hall 2 (by decide +kernel)
  have hvalues : (overwriting.solve.toOption.bind fun sol =>
      (sol.inputs.get? 1).bind fun x => (sol.inputs.get? 2).map fun y => (x.must, y)) =
      some (.only (.ofList [wholeVar]), ⟨.empty, .only (.ofList [wholeVar, upperPart])⟩) := by
    decide +kernel
  rw [hsol] at hvalues
  simp only [Except.toOption, Option.bind_some, hx, hy, Option.map_some, Option.some.injEq,
    Prod.mk.injEq] at hvalues
  obtain ⟨hxm, rfl⟩ := hvalues
  refine ⟨sol, x, _, hsol, hx, hxm, hy, rfl, (hxl wholeVar).1.1 (by simp [hxm]), ?_⟩
  exact (hyl upperPart).2.1 (by simp)

end LoopMemory.Problem
