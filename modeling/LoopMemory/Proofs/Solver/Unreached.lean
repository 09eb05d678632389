import LoopMemory.Proofs.Solver.Greatest
import LoopMemory.Proofs.Solver.Walks

/-! Values that stay at the top. A node that nothing reaches holds no definition back, unless it
follows an unknown write. -/
namespace LoopMemory
open Relation

theorem Reach.eq_full_iff {r : Reach} : r = .full ↔ r.isFull = true := by
  cases r <;> simp

namespace Reaching
variable {x y : Reaching} {f : Footprint} {aliases : Aliasing}

/-- The value with nothing left that need not reach. -/
def raised (x : Reaching) : Reaching := ⟨.full, x.may⟩

theorem le_raised (x : Reaching) : x ≤ x.raised := ⟨(le_top x).1, Reach.le_refl _⟩

theorem raised_mono (h : x ≤ y) : x.raised ≤ y.raised := ⟨Reach.le_refl _, h.2⟩

theorem transfer_raised (hw : f.hasUnknownWrites = false) :
    x.raised.transfer aliases f = (x.transfer aliases f).raised := by
  simp [transfer, raised, hw, Reach.kill, Reach.insertAll]

/-- The value with nothing said of what may reach. -/
def mustOnly (x : Reaching) : Reaching := ⟨x.must, .full⟩

theorem mustOnly_mono (h : x.must ≤ y.must) : x.mustOnly ≤ y.mustOnly := ⟨h, Reach.le_refl _⟩

theorem mustOnly_le (h : x ≤ y) : x.mustOnly ≤ y := ⟨h.1, ⟨fun _ _ => rfl, fun _ => rfl⟩⟩

theorem transfer_mustOnly : x.mustOnly.transfer aliases f = (x.transfer aliases f).mustOnly := rfl

end Reaching

namespace Problem
variable {p : Problem} {n k : NodeId} {inp out : NodeId → Reaching} {dead : List NodeId}

/-- What is behind these nodes is known, whatever leads to them. -/
def Source (p : Problem) (n : NodeId) : Prop :=
  n = p.region.entry ∨
    n ∈ p.region.nodes ∧ ∃ f, p.footprints.get? n = some f ∧ f.hasUnknownWrites = true

/-- A source leads to the node or is the node itself. -/
def Fed (p : Problem) (n : NodeId) : Prop := ∃ s, p.Source s ∧ ReflTransGen p.tree.Leads s n

/-- A source leads to the node by an edge at least. The entry always has a value in front. -/
def FedBefore (p : Problem) (n : NodeId) : Prop :=
  n = p.region.entry ∨ ∃ k, p.Fed k ∧ p.tree.Leads k n

theorem Fed.step (h : p.Fed n) (hk : p.tree.Leads n k) : p.Fed k := by
  obtain ⟨s, hs, hpath⟩ := h
  exact ⟨s, hs, hpath.tail hk⟩

theorem FedBefore.fed (h : p.FedBefore n) : p.Fed n := by
  rcases h with rfl | ⟨k, hk, hlead⟩
  · exact ⟨_, .inl rfl, .refl⟩
  · exact hk.step hlead

theorem Fed.source_or_before (h : p.Fed n) : p.Source n ∨ p.FedBefore n := by
  obtain ⟨s, hs, hpath⟩ := h
  rcases hpath.cases_tail with rfl | ⟨k, hk, hlead⟩
  · exact .inl hs
  · exact .inr (.inr ⟨k, ⟨s, hs, hk⟩, hlead⟩)

theorem Fed.mem (hc : p.Closed) (he : p.region.entry ∈ p.region.nodes) (h : p.Fed n) :
    n ∈ p.region.nodes := by
  obtain ⟨s, hs, hpath⟩ := h
  induction hpath with
  | refl =>
    rcases hs with rfl | ⟨hs, -⟩
    · exact he
    · exact hs
  | tail _ hlead ih =>
    obtain ⟨node, hnode, hk⟩ := hlead
    exact hc.stays _ ih node hnode _ hk

/-- Where every node that may write unknown memory is reached, just the reached nodes are fed. -/
theorem fed_iff_reached (hreached : ∀ n, p.Source n → ReflTransGen p.tree.Leads p.region.entry n) :
    p.Fed n ↔ ReflTransGen p.tree.Leads p.region.entry n := by
  constructor
  · rintro ⟨s, hs, hpath⟩
    exact (hreached s hs).trans hpath
  · exact fun h => ⟨_, .inl rfl, h⟩

theorem fedBefore_iff_reached
    (hreached : ∀ n, p.Source n → ReflTransGen p.tree.Leads p.region.entry n) :
    p.FedBefore n ↔ ReflTransGen p.tree.Leads p.region.entry n := by
  constructor
  · exact fun h => (fed_iff_reached hreached).1 h.fed
  · intro h
    rcases h.cases_tail with rfl | ⟨k, hk, hlead⟩
    · exact .inl rfl
    · exact .inr ⟨k, (fed_iff_reached hreached).2 hk, hlead⟩

/- Behind what is fed the value is below the top, since each edge passes that on. -/

section Full
variable (hl : p.tree.Linked) (hc : p.Closed) (he : p.region.entry ∈ p.region.nodes)
  (hb : p.Balanced inp out)
include hl hc hb

theorem Balanced.input_le_output (hn : n ∈ p.region.nodes) (hlead : p.tree.Leads n k)
    (hk : k ≠ p.region.entry) : inp k ≤ out n := by
  obtain ⟨node, hnode, hsucc⟩ := hlead
  have hmem := hc.stays n hn node hnode k hsucc
  obtain ⟨node', hnode'⟩ := hc.node k hmem
  exact (hb.supported hc).edge k hmem node' hnode' hk n ((hl k node' hnode' n).2 ⟨_, hnode, hsucc⟩)
    hn

include he

theorem Balanced.not_full_output (h : p.Fed n) : (out n).must.isFull = false := by
  obtain ⟨s, hs, hpath⟩ := h
  have hmem : ∀ {n}, ReflTransGen p.tree.Leads s n → n ∈ p.region.nodes := fun hpath =>
    Fed.mem hc he ⟨s, hs, hpath⟩
  induction hpath with
  | refl =>
    obtain ⟨node, hnode⟩ := hc.node s (hmem .refl)
    obtain ⟨f, hf⟩ := hc.footprint s (hmem .refl)
    rw [hb.output s (hmem .refl) f hf, Bool.eq_false_iff, ne_eq, Reaching.isFull_must_transfer]
    rintro ⟨hw, hfull⟩
    rcases hs with rfl | ⟨-, g, hg, hwrite⟩
    · rw [hb.input _ he node hnode, if_pos rfl] at hfull
      cases hfull
    · obtain rfl := Option.some.inj (hf.symm.trans hg)
      exact Bool.false_ne_true (hw.symm.trans hwrite)
  | @tail n k hpath hlead ih =>
    have hk := hmem (hpath.tail hlead)
    obtain ⟨f, hf⟩ := hc.footprint k hk
    rw [hb.output k hk f hf, Bool.eq_false_iff, ne_eq, Reaching.isFull_must_transfer]
    rintro ⟨-, hfull⟩
    by_cases hentry : k = p.region.entry
    · exact absurd (((hb.supported hc).entry k hk hentry).1.2 hfull) (by simp)
    · rw [(hb.input_le_output hl hc (hmem hpath) hlead hentry).1.2 hfull] at ih
      cases ih

theorem Balanced.not_full_input (h : p.FedBefore n) : (inp n).must.isFull = false := by
  rw [Bool.eq_false_iff]
  intro hfull
  rcases h with rfl | ⟨k, hk, hlead⟩
  · exact absurd (((hb.supported hc).entry _ he rfl).1.2 hfull) (by simp)
  · by_cases hentry : n = p.region.entry
    · exact absurd (((hb.supported hc).entry n (hentry ▸ he) hentry).1.2 hfull) (by simp)
    · have hle := hb.input_le_output hl hc (hk.mem hc he) hlead hentry
      exact Bool.false_ne_true ((hb.not_full_output hl hc he hk).symm.trans (hle.1.2 hfull))

end Full

/- Raising the values of nodes that are not fed takes the support from no other ones. -/

open Classical in
theorem Supported.raise (hl : p.tree.Linked) (hs : p.Supported inp out) : p.Supported
    (fun n => if p.FedBefore n then inp n else (inp n).raised)
    (fun n => if p.Fed n then out n else (out n).raised) where
  entry n hn hentry := by
    rw [if_pos (.inl hentry)]
    exact hs.entry n hn hentry
  edge n hn node hnode hentry k hk hmem := by
    have hle := hs.edge n hn node hnode hentry k hk hmem
    have hlead : p.tree.Leads k n := (hl n node hnode k).1 hk
    by_cases hfed : p.Fed k
    · rw [if_pos hfed, if_pos (.inr ⟨k, hfed, hlead⟩)]
      exact hle
    · rw [if_neg hfed]
      split
      · exact Reaching.le_trans hle (Reaching.le_raised _)
      · exact Reaching.raised_mono hle
  output n hn f hf := by
    have hle := hs.output n hn f hf
    by_cases hbefore : p.FedBefore n
    · rw [if_pos hbefore, if_pos hbefore.fed]
      exact hle
    rw [if_neg hbefore]
    by_cases hfed : p.Fed n
    · rw [if_pos hfed]
      exact Reaching.le_trans hle (Reaching.transfer_mono (Reaching.le_raised _))
    · have hw : f.hasUnknownWrites = false := by
        rw [Bool.eq_false_iff]
        exact fun hw => hfed ⟨n, .inr ⟨hn, f, hf, hw⟩, .refl⟩
      rw [if_neg hfed, Reaching.transfer_raised hw]
      exact Reaching.raised_mono hle

/-- The solver's values are full just where nothing is fed. -/
theorem Greatest.full (hl : p.tree.Linked) (he : p.region.entry ∈ p.region.nodes)
    (hg : p.Greatest inp out) (hn : n ∈ p.region.nodes) :
    ((inp n).must = .full ↔ ¬p.FedBefore n) ∧ ((out n).must = .full ↔ ¬p.Fed n) := by
  classical
  have hraised := hg.largest _ _ (hg.toSupported.raise hl) n hn
  rw [Reach.eq_full_iff, Reach.eq_full_iff]
  refine ⟨⟨fun hfull h => ?_, fun h => ?_⟩, ⟨fun hfull h => ?_, fun h => ?_⟩⟩
  · exact Bool.false_ne_true ((hg.not_full_input hl hg.closed he h).symm.trans hfull)
  · rw [if_neg h] at hraised
    exact hraised.1.1.2 rfl
  · exact Bool.false_ne_true ((hg.not_full_output hl hg.closed he h).symm.trans hfull)
  · rw [if_neg h] at hraised
    exact hraised.2.1.2 rfl

/-- The node without its edges, if it is one of the dead ones. -/
def severed (dead : List NodeId) (node : Node) : Node :=
  { node with succs := if node.id ∈ dead then [] else node.succs }

/-- The graph without the edges that leave some of its nodes. -/
def cut (p : Problem) (dead : List NodeId) : Problem :=
  { p with tree := .ofParts p.tree.routine p.tree.regions (p.tree.nodes.map (severed dead)) }

theorem node?_cut : (p.cut dead).tree.node? n = (p.tree.node? n).map fun node =>
    { severed dead node with
      preds := RegionTree.predsOf (p.tree.nodes.map (severed dead)) n } := by
  refine (RegionTree.node?_ofParts n).trans ?_
  rw [Array.getElem?_map, Option.map_map]
  rfl

section Cut
variable (hi : p.tree.Indexed)
include hi

theorem leads_cut : (p.cut dead).tree.Leads n k ↔ n ∉ dead ∧ p.tree.Leads n k := by
  unfold RegionTree.Leads
  rw [node?_cut]
  cases hn : p.tree.node? n with
  | none => simp
  | some node => by_cases hdead : n ∈ dead <;> simp [severed, hi n node hn, hdead]

theorem linked_cut : (p.cut dead).tree.Linked := by
  refine RegionTree.linked_ofParts fun n node hn => ?_
  obtain ⟨raw, hraw, rfl⟩ := Option.map_eq_some_iff.1 (node?_cut.symm.trans hn)
  exact hi n raw hraw

theorem closed_cut (hc : p.Closed) : (p.cut dead).Closed where
  node n hn := by
    obtain ⟨node, hnode⟩ := hc.node n hn
    exact ⟨_, by rw [node?_cut, hnode]; rfl⟩
  footprint := hc.footprint
  stays n hn node hnode k hk := by
    obtain ⟨-, raw, hraw, hk⟩ := (leads_cut hi).1 ⟨node, hnode, hk⟩
    exact hc.stays n hn raw hraw k hk

/- The values for the whole graph are supported without the edges, too. -/
theorem Greatest.supported_cut (hl : p.tree.Linked) (hg : p.Greatest inp out) :
    (p.cut dead).Supported inp out where
  entry := hg.toSupported.entry
  edge n hn node hnode hentry k hk hmem := by
    have hlead := ((linked_cut hi) n node hnode k).1 hk
    exact hg.input_le_output hl hg.closed hmem ((leads_cut hi).1 hlead).2 hentry
  output := hg.toSupported.output

/- And the other way round, as far as the definitions that must reach go: the edges that are missing
   come from nodes behind which the value is full. -/
theorem Greatest.supported_of_cut (hl : p.tree.Linked) (he : p.region.entry ∈ p.region.nodes)
    (hdead : ∀ n ∈ dead, ¬p.Fed n) (hg : (p.cut dead).Greatest inp out) :
    p.Supported (Reaching.mustOnly ∘ inp) (Reaching.mustOnly ∘ out) where
  entry n hn hentry := Reaching.mustOnly_le (hg.toSupported.entry n hn hentry)
  edge n hn node hnode hentry k hk hmem := by
    have hlead : p.tree.Leads k n := (hl n node hnode k).1 hk
    refine Reaching.mustOnly_mono ?_
    by_cases hkd : k ∈ dead
    · have hfed : ¬(p.cut dead).Fed k := by
        rintro ⟨s, hs, hpath⟩
        exact hdead k hkd ⟨s, hs, hpath.lift id fun _ _ h => ((leads_cut hi).1 h).2⟩
      rw [((hg.full (linked_cut hi) he hmem).2).2 hfed]
      exact (Reaching.le_top _).1
    · exact (hg.input_le_output (linked_cut hi) hg.closed hmem ((leads_cut hi).2 ⟨hkd, hlead⟩)
        hentry).1
  output n hn f hf := by
    rw [Function.comp, Function.comp, Reaching.transfer_mustOnly]
    exact Reaching.mustOnly_mono (hg.toSupported.output n hn f hf).1

end Cut

/-- A block that is reached and two that are not, of which one calls what may write anything. -/
def stranded : Problem where
  tree := ((TreeBuilder.new "routine").run
    [.block 0 [0], .block 0 [1], .block 0 [2], .path 0 [2]]).finish
  region := { id := 0, name := "routine", kind := .body, entry := 0, exit := 1,
              nodes := [0, 1, 2, 3, 4] }
  footprints := ⟨[(0, {}), (1, {}), (2, { defs := .ofList [wholeVar] }),
    (3, { unknown := [(1, ⟨.no, .may⟩)] }), (4, { mayDefs := .ofList [upperPart] })]⟩
  aliases := ({} : AliasModel).overlap

theorem indexed_stranded : stranded.tree.Indexed :=
  (RegionTree.validate_eq_ok.1 (by decide +kernel)).indexed

theorem linked_stranded : stranded.tree.Linked := RegionTree.linked_ofParts indexed_stranded

theorem not_leads_stranded (hn : n = 3 ∨ n = 4) : ¬stranded.tree.Leads k n := by
  intro hlead
  have hpreds : ∀ n ∈ [3, 4], ∃ node ∈ stranded.tree.node? n, node.preds = [] := by
    decide +kernel
  obtain ⟨node, hnode, hnone⟩ := hpreds n (by simpa using hn)
  have hmem := (linked_stranded n node hnode k).2 hlead
  simp [hnone] at hmem

/-- What a node that nothing reaches leaves behind is not full if it may write unknown memory, and
the exit, which is reached, then loses a definition that it keeps without the edges of such nodes. -/
theorem not_full_stranded : ∃ sol sol', stranded.Closed ∧
    (∀ node ∈ stranded.tree.node? stranded.region.entry, node.preds = []) ∧
    stranded.solve = .ok sol ∧ ¬ReflTransGen stranded.tree.Leads stranded.region.entry 3 ∧
    ¬ReflTransGen stranded.tree.Leads stranded.region.entry 4 ∧
    sol.outputs.get? 3 = some .start ∧ ReflTransGen stranded.tree.Leads stranded.region.entry 1 ∧
    (sol.inputs.get? 1).map Reaching.must = some .empty ∧
    (stranded.cut [3, 4]).solve = .ok sol' ∧
    (sol'.inputs.get? 1).map Reaching.must = some (.only (.ofList [wholeVar])) := by
  have hreach : ∀ n, n = 3 ∨ n = 4 →
      ¬ReflTransGen stranded.tree.Leads stranded.region.entry n := by
    intro n hn hpath
    rcases hpath.cases_tail with rfl | ⟨k, -, hlead⟩
    · revert hn
      decide +kernel
    · exact not_leads_stranded hn hlead
  have hexit : ReflTransGen stranded.tree.Leads stranded.region.entry 1 :=
    .tail (b := 2) (.single (by decide +kernel)) (by decide +kernel)
  have hvalues : (stranded.solve.toOption.map fun sol =>
      (sol.outputs.get? 3, (sol.inputs.get? 1).map Reaching.must)) =
        some (some .start, some .empty) := by
    decide +kernel
  have hvalues' : ((stranded.cut [3, 4]).solve.toOption.map fun sol =>
      (sol.inputs.get? 1).map Reaching.must) = some (some (.only (.ofList [wholeVar]))) := by
    decide +kernel
  obtain ⟨sol, hsol⟩ := solve_ok (p := stranded) (by decide +kernel)
  obtain ⟨sol', hsol'⟩ := solve_ok (p := stranded.cut [3, 4]) (by decide +kernel)
  rw [hsol] at hvalues
  rw [hsol'] at hvalues'
  obtain ⟨hout, hin⟩ := Prod.mk.inj (Option.some.inj hvalues)
  exact ⟨sol, sol', by decide +kernel, by decide +kernel, hsol, hreach 3 (.inl rfl),
    hreach 4 (.inr rfl), hout, hexit, hin, hsol', Option.some.inj hvalues'⟩

/-- In a region graph that no edge leaves, the definitions that must reach behind a node are full
just if no path leads there from the entry or from a node that may write unknown memory; in front of
a node the same holds of the paths with an edge at least, and the entry is never full. Without the
edges of nodes behind which they are full, no definitions that must reach a node change. Where the
entry leads to every node that may write unknown memory, the full nodes are the unreached ones. -/
theorem solve_unreached (hi : p.tree.Indexed) (hl : p.tree.Linked) (hc : p.Closed)
    (he : p.region.entry ∈ p.region.nodes) :
    ∃ sol inp out, p.solve = .ok sol ∧ p.Assigns sol inp out ∧
      (∀ n ∈ p.region.nodes, ((inp n).must = .full ↔ ¬p.FedBefore n) ∧
        ((out n).must = .full ↔ ¬p.Fed n)) ∧
      (∀ dead, (∀ n ∈ dead, ¬p.Fed n) → ∃ sol' inp' out', (p.cut dead).solve = .ok sol' ∧
        (p.cut dead).Assigns sol' inp' out' ∧
        ∀ n ∈ p.region.nodes, (inp' n).must = (inp n).must ∧ (out' n).must = (out n).must) ∧
      ((∀ n, p.Source n → ReflTransGen p.tree.Leads p.region.entry n) → ∀ n,
        (p.FedBefore n ↔ ReflTransGen p.tree.Leads p.region.entry n) ∧
        (p.Fed n ↔ ReflTransGen p.tree.Leads p.region.entry n)) := by
  obtain ⟨sol, inp, out, hsol, hass, hg⟩ := exists_greatest hl hc
  refine ⟨sol, inp, out, hsol, hass, fun n hn => hg.full hl he hn, fun dead hdead => ?_,
    fun hreached n => ⟨fedBefore_iff_reached hreached, fed_iff_reached hreached⟩⟩
  obtain ⟨sol', inp', out', hsol', hass', hg'⟩ :=
    exists_greatest (p := p.cut dead) (linked_cut hi) (closed_cut hi hc)
  refine ⟨sol', inp', out', hsol', hass', fun n hn => ?_⟩
  obtain ⟨hin, hout⟩ := hg'.largest _ _ (hg.supported_cut hi hl) n hn
  obtain ⟨hin', hout'⟩ := hg.largest _ _ (hg'.supported_of_cut hi hl he hdead) n hn
  exact ⟨Reach.le_antisymm hin'.1 hin.1, Reach.le_antisymm hout'.1 hout.1⟩

theorem solve_unreached_stranded :
    (∃ sol sol' inp out inp' out', stranded.solve = .ok sol ∧ stranded.Assigns sol inp out ∧
      (out 3).must ≠ .full ∧ (out 4).must = .full ∧ (stranded.cut [4]).solve = .ok sol' ∧
      (stranded.cut [4]).Assigns sol' inp' out' ∧ (inp' 1).must = (inp 1).must) ∧
    ∃ sol inp out, spinning.solve = .ok sol ∧ spinning.Assigns sol inp out ∧
      ((inp 2).must = .full ↔ ¬ReflTransGen spinning.tree.Leads spinning.region.entry 2) := by
  constructor
  · obtain ⟨sol, inp, out, hsol, hass, hfull, hcut, -⟩ := solve_unreached indexed_stranded
      linked_stranded (by decide +kernel) (by decide +kernel)
    have hthree : stranded.Source 3 := .inr ⟨by decide +kernel, _, rfl, by decide +kernel⟩
    have hfour : ¬stranded.Fed 4 := by
      intro h
      rcases h.source_or_before with (h | ⟨-, f, hf, hw⟩) | (h | ⟨k, -, hlead⟩)
      · revert h
        decide +kernel
      · obtain rfl := Option.some.inj hf
        revert hw
        decide +kernel
      · revert h
        decide +kernel
      · exact not_leads_stranded (.inr rfl) hlead
    obtain ⟨sol', inp', out', hsol', hass', hsame⟩ := hcut [4] (by simpa using hfour)
    have hknown := (hfull 3 (by decide +kernel)).2.not.2 (not_not.2 ⟨3, hthree, .refl⟩)
    have hfree := (hfull 4 (by decide +kernel)).2.2 hfour
    exact ⟨sol, sol', inp, out, inp', out', hsol, hass, hknown, hfree, hsol', hass',
      (hsame 1 (by decide +kernel)).1⟩
  · have hindexed : spinning.tree.Indexed :=
      (RegionTree.validate_eq_ok.1 (by decide +kernel)).indexed
    obtain ⟨sol, inp, out, hsol, hass, hfull, -, hreached⟩ := solve_unreached hindexed
      (RegionTree.linked_ofParts hindexed) (by decide +kernel) (by decide +kernel)
    have hsource : ∀ n, spinning.Source n →
        ReflTransGen spinning.tree.Leads spinning.region.entry n := by
      rintro n (rfl | ⟨hn, f, hf, hw⟩)
      · exact .refl
      · have hcalm : ∀ n ∈ spinning.region.nodes, ∀ f ∈ spinning.footprints.get? n,
            f.hasUnknownWrites = false := by
          decide +kernel
        exact absurd hw (by simp [hcalm n hn f hf])
    refine ⟨sol, inp, out, hsol, hass, ?_⟩
    rw [(hfull 2 (by decide +kernel)).1, (hreached hsource 2).1]

end Problem
end LoopMemory
