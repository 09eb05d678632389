import LoopMemory.Proofs.Footprint.Composed
import LoopMemory.Proofs.Solver.Unreached

/-! A region in which one node is cut in two. The values around the halves fit those around the
whole node, and the region has the same summary. -/
namespace LoopMemory.Problem
variable {p q : Problem} {A : Location → Prop} {b c n k : NodeId} {f g h s s' u u' : Footprint}
  {inp out inp' out' : NodeId → Reaching} {sol sol' : Solution} {x y exiting : Reaching}
  {settings : Settings} {ns : List NodeId}

/-- The node has the same value in front of it in both problems, and footprints that match. -/
def Agree (A : Location → Prop) (p : Problem) (sol : Solution) (q : Problem) (sol' : Solution)
    (n : NodeId) : Prop :=
  ∃ f g x, p.Has sol n f x ∧ q.Has sol' n g x ∧ f.Matches p.aliases A g

section Agree
variable (hap : p.aliases.Apart A) (ha : q.aliases = p.aliases)
  (hns : ∀ n ∈ ns, p.Agree A sol q sol' n)
  (hu : ns.foldlM (p.absorbNode sol exiting) s = .ok u)
  (hu' : ns.foldlM (q.absorbNode sol' exiting) s' = .ok u')
include hap ha hns hu hu'

/- Summaries that match before nodes that agree do so behind them. -/
theorem absorb_agreeing (hs : s.Matches p.aliases A s') : u.Matches p.aliases A u' := by
  refine foldlM_inv₂ (Footprint.Matches p.aliases A) hu hu' hs ?_
  intro n hn s u s' u' hs hu hu'
  obtain ⟨f, g, x, hf, hg, hfg⟩ := hns n hn
  obtain rfl := Except.ok.inj (hf.absorbNode_eq.symm.trans hu)
  obtain rfl := Except.ok.inj (hg.absorbNode_eq.symm.trans hu')
  rw [ha]
  exact hfg.absorb hap hs

/- So do summaries of which the second one is still to take in another footprint. -/
theorem absorb_agreeing_before (hh : h.Flat p.aliases A) (hs' : s'.Flat p.aliases A)
    (hs : s.Matches p.aliases A (s'.absorb p.aliases exiting y h)) :
    u.Matches p.aliases A (u'.absorb p.aliases exiting y h) := by
  refine (foldlM_inv₂ (fun s s' => s'.Flat p.aliases A ∧
    s.Matches p.aliases A (s'.absorb p.aliases exiting y h)) hu hu' ⟨hs', hs⟩ ?_).2
  rintro n hn s u s' u' ⟨hs', hs⟩ hu hu'
  obtain ⟨f, g, x, hf, hg, hfg⟩ := hns n hn
  obtain rfl := Except.ok.inj (hf.absorbNode_eq.symm.trans hu)
  obtain rfl := Except.ok.inj (hg.absorbNode_eq.symm.trans hu')
  rw [ha]
  exact ⟨hfg.right.absorb hap hs', (hfg.absorb hap hs).trans (hs'.absorb_comm hap hh hfg.right)⟩

end Agree

/-- Regions of one kind with the same value at their exits have the same summary, if their nodes add
up to the same. -/
theorem collapse_of_sums (hkind : q.region.kind = p.region.kind)
    (hexit : sol'.outputs.get? q.region.exit = sol.outputs.get? p.region.exit)
    (hsums : ∀ exiting s s', p.region.nodes.foldlM (p.absorbNode sol exiting) {} = .ok s →
      q.region.nodes.foldlM (q.absorbNode sol' exiting) {} = .ok s' → s.Matches p.aliases A s')
    (hf : p.collapse sol settings = .ok f) (hg : q.collapse sol' settings = .ok g) :
    f.Matches p.aliases A g := by
  obtain ⟨exiting, s, hy, hs, rfl⟩ := collapse_eq_ok.1 hf
  obtain ⟨exiting', s', hy', hs', rfl⟩ := collapse_eq_ok.1 hg
  obtain rfl : exiting = exiting' := by
    rw [hexit, hy] at hy'
    exact Option.some.inj hy'
  have hruns : q.region.runsOnce settings = p.region.runsOnce settings := by
    rw [Region.runsOnce, hkind, ← Region.runsOnce]
  have hloop : q.region.isLoop = p.region.isLoop := congrArg RegionKind.isLoop hkind
  have hmatch := hsums exiting s s' hs hs'
  rw [hruns, hloop]
  split
  · exact hmatch.widen _
  · exact hmatch.downgrade.widen _

/-- Edges to the node lead to its first half, which leads to the second half alone, and that one
leads where the node did. The rest of the graph stays. -/
structure Halved (A : Location → Prop) (b c : NodeId) (p q : Problem) : Prop where
  aliases : q.aliases = p.aliases
  kind : q.region.kind = p.region.kind
  entry : q.region.entry = p.region.entry
  exit : q.region.exit = p.region.exit
  nodes : q.region.nodes = p.region.nodes ++ [c]
  once : p.region.nodes.Nodup
  begins : p.region.entry ∈ p.region.nodes
  ends : p.region.exit ∈ p.region.nodes
  block : b ∈ p.region.nodes
  inner : b ≠ p.region.exit
  fresh : c ∉ p.region.nodes
  leads : ∀ n k, q.tree.Leads n k ↔
    if n = b then k = c else p.tree.Leads (if n = c then b else n) k
  others : ∀ n ∈ p.region.nodes, n ≠ b → ∃ f g, p.footprints.get? n = some f ∧
    q.footprints.get? n = some g ∧ f.Matches p.aliases A g
  halves : ∃ f g h, p.footprints.get? b = some f ∧ q.footprints.get? b = some g ∧
    q.footprints.get? c = some h ∧ f.Composed p.aliases A g h

namespace Halved
variable (hcut : p.Halved A b c q)
include hcut

theorem mem_nodes : n ∈ q.region.nodes ↔ n ∈ p.region.nodes ∨ n = c := by
  rw [hcut.nodes, List.mem_append, List.mem_singleton]

theorem ne_fresh (hn : n ∈ p.region.nodes) : n ≠ c := fun he => hcut.fresh (he ▸ hn)

theorem leads_halves : q.tree.Leads b c := by
  rw [hcut.leads, if_pos rfl]

theorem leads_onward (hn : p.tree.Leads b n) : q.tree.Leads c n := by
  rwa [hcut.leads, if_neg (hcut.ne_fresh hcut.block).symm, if_pos rfl]

theorem leads_other (hn : n ∈ p.region.nodes) (hb : n ≠ b) :
    q.tree.Leads n k ↔ p.tree.Leads n k := by
  rw [hcut.leads, if_neg hb, if_neg (hcut.ne_fresh hn)]

/- The footprints define locations of the kind only. -/

theorem defs_whole (hn : n ∈ p.region.nodes) (hf : p.footprints.get? n = some f) :
    ∀ l ∈ f.defs, A l := by
  by_cases hb : n = b
  · subst hb
    obtain ⟨_, _, _, hf', -, -, hc⟩ := hcut.halves
    obtain rfl := Option.some.inj (hf.symm.trans hf')
    exact hc.whole.defs
  · obtain ⟨_, _, hf', -, hmatch⟩ := hcut.others n hn hb
    obtain rfl := Option.some.inj (hf.symm.trans hf')
    exact hmatch.left.defs

theorem defs_halves (hn : n ∈ q.region.nodes) (hf : q.footprints.get? n = some f) :
    ∀ l ∈ f.defs, A l := by
  obtain ⟨_, g, h, -, hg, hh, hc⟩ := hcut.halves
  rcases hcut.mem_nodes.1 hn with hn | rfl
  · by_cases hb : n = b
    · subst hb
      obtain rfl := Option.some.inj (hf.symm.trans hg)
      exact hc.first.defs
    · obtain ⟨_, g', -, hg', hmatch⟩ := hcut.others n hn hb
      obtain rfl := Option.some.inj (hf.symm.trans hg')
      exact hmatch.right.defs
  · obtain rfl := Option.some.inj (hf.symm.trans hh)
    exact hc.second.defs

theorem within_whole (hl : p.tree.Linked) (hp : p.Greatest inp out) (hn : n ∈ p.region.nodes) :
    (inp n).Within A fun _ => True :=
  (hp.within hl (fun _ hn _ hf => ⟨hcut.defs_whole hn hf, fun _ _ => trivial⟩) hn).1

theorem within_halves (hl' : q.tree.Linked) (hq : q.Greatest inp' out')
    (hn : n ∈ q.region.nodes) : (inp' n).Within A fun _ => True :=
  (hq.within hl' (fun _ hn _ hf => ⟨hcut.defs_halves hn hf, fun _ _ => trivial⟩) hn).1

section Values
variable (hl : p.tree.Linked) (hl' : q.tree.Linked) (hap : p.aliases.Apart A)
  (hp : p.Greatest inp out) (hq : q.Greatest inp' out')
include hl hl' hap

include hq in
/- The values of the cut region support the whole one, where the value behind the second half is
the one behind the node. -/
theorem supported_whole : p.Supported inp' (fun n => if n = b then out' c else out' n) where
  entry n hn he := hq.toSupported.entry n (hcut.mem_nodes.2 (.inl hn)) (he.trans hcut.entry.symm)
  edge n hn node hnode he k hk hmem := by
    have hlead : p.tree.Leads k n := (hl n node hnode k).1 hk
    have hentry : n ≠ q.region.entry := hcut.entry ▸ he
    split
    · rename_i hkb
      exact hq.toBalanced.input_le_output hl' hq.closed (hcut.mem_nodes.2 (.inr rfl))
        (hcut.leads_onward (hkb ▸ hlead)) hentry
    · rename_i hkb
      exact hq.toBalanced.input_le_output hl' hq.closed (hcut.mem_nodes.2 (.inl hmem))
        ((hcut.leads_other hmem hkb).2 hlead) hentry
  output n hn f hf := by
    have hn' := hcut.mem_nodes.2 (.inl hn)
    have hc := hcut.mem_nodes.2 (.inr rfl)
    split
    · rename_i hb
      subst hb
      obtain ⟨f', g, h, hf', hg, hh, hcomp⟩ := hcut.halves
      obtain rfl := Option.some.inj (hf.symm.trans hf')
      have hwithin := hcut.within_halves hl' hq hn'
      have hentry : c ≠ q.region.entry := hcut.entry ▸ (hcut.ne_fresh hcut.begins).symm
      have hle := hq.toBalanced.input_le_output hl' hq.closed hn' hcut.leads_halves hentry
      rw [hq.output _ hc h hh, ← hcomp.transfer hap hwithin, hcut.aliases]
      rw [hq.output _ hn' g hg, hcut.aliases] at hle
      exact Reaching.transfer_mono hle
    · rename_i hb
      obtain ⟨f', g, hf', hg, hmatch⟩ := hcut.others n hn hb
      obtain rfl := Option.some.inj (hf.symm.trans hf')
      rw [hq.output n hn' g hg, hcut.aliases, hmatch.transfer]
      exact Reaching.le_refl _

include hp in
/- The values of the whole region support the cut one, with what the first half makes of the value
in front of the node between the halves. No edge but that from the first half leads to the second
one. -/
theorem supported_halves (hf : p.footprints.get? b = some f) (hg : q.footprints.get? b = some g)
    (hh : q.footprints.get? c = some h) (hcomp : f.Composed p.aliases A g h) :
    q.Supported (fun n => if n = c then (inp b).transfer p.aliases g else inp n)
      (fun n => if n = b then (inp b).transfer p.aliases g else
        if n = c then out b else out n) := by
  have hfresh := hcut.ne_fresh hcut.block
  constructor
  · intro n hn he
    have hmem : n ∈ p.region.nodes := he ▸ hcut.entry ▸ hcut.begins
    rw [if_neg (hcut.ne_fresh hmem)]
    exact hp.toSupported.entry n hmem (he.trans hcut.entry)
  · intro n hn node hnode he k hk hmem
    have hlead : q.tree.Leads k n := (hl' n node hnode k).1 hk
    have he : n ≠ p.region.entry := hcut.entry ▸ he
    by_cases hkb : k = b
    · have hnc : n = c := by
        rwa [hkb, hcut.leads, if_pos rfl] at hlead
      rw [if_pos hnc, if_pos hkb]
      exact Reaching.le_refl _
    have hto : ∀ {j}, j ∈ p.region.nodes → p.tree.Leads j n → n ≠ c ∧ inp n ≤ out j := by
      intro j hj hlead
      have hn : n ∈ p.region.nodes := by
        obtain ⟨source, hsource, hsucc⟩ := hlead
        exact hp.closed.stays j hj source hsource n hsucc
      exact ⟨hcut.ne_fresh hn, hp.toBalanced.input_le_output hl hp.closed hj hlead he⟩
    rw [if_neg hkb]
    by_cases hkc : k = c
    · rw [hcut.leads, if_neg hkb, if_pos hkc] at hlead
      obtain ⟨hn, hle⟩ := hto hcut.block hlead
      rwa [if_neg hn, if_pos hkc]
    · have hk := (hcut.mem_nodes.1 hmem).resolve_right hkc
      obtain ⟨hn, hle⟩ := hto hk ((hcut.leads_other hk hkb).1 hlead)
      rwa [if_neg hn, if_neg hkc]
  · intro n hn f' hf'
    rw [hcut.aliases]
    by_cases hb : n = b
    · subst hb
      obtain rfl := Option.some.inj (hf'.symm.trans hg)
      rw [if_pos rfl, if_neg hfresh]
      exact Reaching.le_refl _
    rw [if_neg hb]
    by_cases hc : n = c
    · subst hc
      obtain rfl := Option.some.inj (hf'.symm.trans hh)
      have hwithin := hcut.within_whole hl hp hcut.block
      rw [if_pos rfl, if_pos rfl, hcomp.transfer hap hwithin, hp.output b hcut.block f hf]
      exact Reaching.le_refl _
    · have hn := (hcut.mem_nodes.1 hn).resolve_right hc
      obtain ⟨f₀, g', hf₀, hg', hmatch⟩ := hcut.others n hn hb
      obtain rfl := Option.some.inj (hf'.symm.trans hg')
      rw [if_neg hc, if_neg hc, hmatch.transfer, hp.output n hn f₀ hf₀]
      exact Reaching.le_refl _

include hp hq in
/-- The greatest values of the two regions agree. -/
theorem greatest_eq : (∀ n ∈ p.region.nodes, inp' n = inp n ∧ (n ≠ b → out' n = out n)) ∧
    inp' c = out' b ∧ out' c = out b := by
  obtain ⟨f, g, h, hf, hg, hh, hcomp⟩ := hcut.halves
  have hwhole := hp.largest _ _ (hcut.supported_whole hl hl' hap hq)
  have hhalves := hq.largest _ _ (hcut.supported_halves hl hl' hap hp hf hg hh hcomp)
  have hb' := hcut.mem_nodes.2 (.inl hcut.block)
  have hc' := hcut.mem_nodes.2 (.inr rfl)
  have hin : ∀ n ∈ p.region.nodes, inp' n = inp n := by
    intro n hn
    have hle := (hhalves n (hcut.mem_nodes.2 (.inl hn))).1
    rw [if_neg (hcut.ne_fresh hn)] at hle
    exact Reaching.le_antisymm (hwhole n hn).1 hle
  have hbetween : out' b = (inp b).transfer p.aliases g := by
    rw [hq.output b hb' g hg, hin b hcut.block, hcut.aliases]
  refine ⟨fun n hn => ⟨hin n hn, fun hb => ?_⟩, ?_, ?_⟩
  · have hle := (hwhole n hn).2
    have hle' := (hhalves n (hcut.mem_nodes.2 (.inl hn))).2
    rw [if_neg hb] at hle
    rw [if_neg hb, if_neg (hcut.ne_fresh hn)] at hle'
    exact Reaching.le_antisymm hle hle'
  · have hle := (hhalves c hc').1
    rw [if_pos rfl, ← hbetween] at hle
    refine Reaching.le_antisymm ?_ hle
    exact hq.toBalanced.input_le_output hl' hq.closed hb' hcut.leads_halves
      (hcut.entry ▸ (hcut.ne_fresh hcut.begins).symm)
  · have hle := (hwhole b hcut.block).2
    have hle' := (hhalves c hc').2
    rw [if_pos rfl] at hle
    rw [if_neg (hcut.ne_fresh hcut.block).symm, if_pos rfl] at hle'
    exact Reaching.le_antisymm hle hle'

end Values

/-- So the solver finds the same values around whole nodes and around the two halves. -/
theorem solve_eq (hl : p.tree.Linked) (hl' : q.tree.Linked) (hap : p.aliases.Apart A)
    (hc : p.Closed) (hc' : q.Closed) (hsol : p.solve = .ok sol) (hsol' : q.solve = .ok sol') :
    (∀ n ∈ p.region.nodes, sol'.inputs.get? n = sol.inputs.get? n ∧
      (n ≠ b → sol'.outputs.get? n = sol.outputs.get? n)) ∧
    sol'.inputs.get? c = sol'.outputs.get? b ∧ sol'.outputs.get? c = sol.outputs.get? b := by
  obtain ⟨sol₁, inp, out, hsol₁, hass, hp⟩ := exists_greatest hl hc
  obtain ⟨sol₁', inp', out', hsol₁', hass', hq⟩ := exists_greatest hl' hc'
  obtain rfl := Except.ok.inj (hsol.symm.trans hsol₁)
  obtain rfl := Except.ok.inj (hsol'.symm.trans hsol₁')
  obtain ⟨hsame, hbetween, hbehind⟩ := hcut.greatest_eq hl hl' hap hp hq
  have hb' := hcut.mem_nodes.2 (.inl hcut.block)
  have hc' := hcut.mem_nodes.2 (.inr rfl)
  simp only [hass.input, hass.output, hass'.input, hass'.output]
  refine ⟨fun n hn => ?_, ?_, ?_⟩
  · obtain ⟨hin, hout⟩ := hsame n hn
    simp only [if_pos hn, if_pos (hcut.mem_nodes.2 (.inl hn)), hin, true_and]
    exact fun hb => congrArg some (hout hb)
  · rw [if_pos hc', if_pos hb', hbetween]
  · rw [if_pos hc', if_pos hcut.block, hbehind]

section Collapse
variable (hl : p.tree.Linked) (hap : p.aliases.Apart A) (hc : p.Closed)
  (hsol : p.solve = .ok sol) (hbefore : p.FedBefore b)
include hl hc hsol hbefore

/- Where the node is reached, the value in front of it is known. -/
theorem exists_input : ∃ x, sol.inputs.get? b = some x ∧ x.Within A (fun _ => True) ∧
    x.must.isFull = false := by
  obtain ⟨sol₁, inp, out, hsol₁, hass, hp⟩ := exists_greatest hl hc
  obtain rfl := Except.ok.inj (hsol.symm.trans hsol₁)
  exact ⟨inp b, (hass.input b).trans (if_pos hcut.block),
    hcut.within_whole hl hp hcut.block,
    hp.not_full_input hl hc hcut.begins hbefore⟩

variable (hl' : q.tree.Linked) (hc' : q.Closed) (hsol' : q.solve = .ok sol')
include hap hl' hc' hsol'

omit hbefore in
theorem agree_of_ne (hn : n ∈ p.region.nodes) (hb : n ≠ b) : p.Agree A sol q sol' n := by
  obtain ⟨f, g, hf, hg, hfg⟩ := hcut.others n hn hb
  obtain ⟨_, _, x, -, -, hx, -⟩ := (solves_of_solve hl hsol).flow n hn
  obtain ⟨hin, -⟩ := (hcut.solve_eq hl hl' hap hc hc' hsol hsol').1 n hn
  exact ⟨f, g, x, ⟨hf, hx⟩, ⟨hg, hin.trans hx⟩, hfg⟩

/- What is in front of the node and of its halves. -/
theorem exists_has : ∃ x f g h, p.Has sol b f x ∧ q.Has sol' b g x ∧
    q.Has sol' c h (x.transfer p.aliases g) ∧ f.Composed p.aliases A g h ∧
    x.Within A (fun _ => True) ∧ x.must.isFull = false := by
  obtain ⟨hsame, hbetween, -⟩ := hcut.solve_eq hl hl' hap hc hc' hsol hsol'
  obtain ⟨x, hx, hwithin, hfull⟩ := hcut.exists_input hl hc hsol hbefore
  obtain ⟨f, g, h, hf, hg, hh, hcomp⟩ := hcut.halves
  have hx' : sol'.inputs.get? b = some x := (hsame b hcut.block).1.trans hx
  obtain ⟨_, g₁, x₁, -, hg₁, hx₁, hout⟩ :=
    (solves_of_solve hl' hsol').flow b (hcut.mem_nodes.2 (.inl hcut.block))
  obtain rfl := Option.some.inj (hg.symm.trans hg₁)
  obtain rfl := Option.some.inj (hx'.symm.trans hx₁)
  rw [← hbetween, hcut.aliases] at hout
  exact ⟨x, f, g, h, ⟨hf, hx⟩, ⟨hg, hx'⟩, ⟨hh, hout⟩, hcomp, hwithin, hfull⟩

/- The footprints of the nodes add up to the same. What follows the node in the list comes between
the two halves, so the second one is moved past it. -/
theorem sums_match (hsum : p.region.nodes.foldlM (p.absorbNode sol exiting) {} = .ok u)
    (hsum' : q.region.nodes.foldlM (q.absorbNode sol' exiting) {} = .ok u') :
    u.Matches p.aliases A u' := by
  obtain ⟨x, f, g, h, hwhole, hfirst, hsecond, hcomp, hwithin, hfull⟩ :=
    hcut.exists_has hl hap hc hsol hbefore hl' hc' hsol'
  obtain ⟨before, after, hsplit⟩ := List.append_of_mem hcut.block
  have hagree : ∀ n ∈ before ++ after, p.Agree A sol q sol' n := by
    intro n hn
    have honce := hcut.once
    rw [hsplit, List.nodup_middle] at honce
    refine hcut.agree_of_ne hl hap hc hsol hl' hc' hsol' ?_ fun hb => ?_
    · rw [hsplit]
      exact List.mem_append.2 ((List.mem_append.1 hn).imp_right (.tail _))
    · exact (List.nodup_cons.1 honce).1 (hb ▸ hn)
  rw [hsplit, List.foldlM_append, bind_eq_ok] at hsum
  obtain ⟨s, hs, hsum⟩ := hsum
  rw [List.foldlM_cons, hwhole.absorbNode_eq] at hsum
  rw [hcut.nodes, hsplit, List.append_assoc, List.foldlM_append, bind_eq_ok] at hsum'
  obtain ⟨s', hs', hsum'⟩ := hsum'
  rw [List.cons_append, List.foldlM_cons, hfirst.absorbNode_eq] at hsum'
  have hafter : after.foldlM (p.absorbNode sol exiting) (s.absorb p.aliases exiting x f) = .ok u :=
    hsum
  have hafter' : (after ++ [c]).foldlM (q.absorbNode sol' exiting)
      (s'.absorb q.aliases exiting x g) = .ok u' := hsum'
  rw [List.foldlM_append, bind_eq_ok, hcut.aliases] at hafter'
  obtain ⟨v', hafter', hlast⟩ := hafter'
  rw [List.foldlM_cons, hsecond.absorbNode_eq, hcut.aliases] at hlast
  obtain rfl := Except.ok.inj hlast
  have hstart := absorb_agreeing hap hcut.aliases
    (fun n hn => hagree n (List.mem_append_left _ hn)) hs hs' Footprint.flat_empty.matches_self
  have hnode : (s.absorb p.aliases exiting x f).Matches p.aliases A
      ((s'.absorb p.aliases exiting x g).absorb p.aliases exiting (x.transfer p.aliases g) h) :=
    (hcomp.whole.matches_self.absorb hap hstart).trans
      (hcomp.absorb hap hwithin hstart.right hfull)
  exact absorb_agreeing_before hap hcut.aliases
    (fun n hn => hagree n (List.mem_append_right _ hn)) hafter hafter' hcomp.second
    (hcomp.first.absorb hap hstart.right) hnode

/-- The summary of the region stays, up to the order of its alias classes. -/
theorem collapse_matches (hf : p.collapse sol settings = .ok f)
    (hg : q.collapse sol' settings = .ok g) : f.Matches p.aliases A g := by
  obtain ⟨hsame, -⟩ := hcut.solve_eq hl hl' hap hc hc' hsol hsol'
  refine collapse_of_sums hcut.kind ?_ (fun exiting s s' hs hs' => ?_) hf hg
  · rw [hcut.exit]
    exact (hsame _ hcut.ends).2 hcut.inner.symm
  · exact hcut.sums_match hl hap hc hsol hbefore hl' hc' hsol' hs hs'

end Collapse
end Halved
end LoopMemory.Problem
