import LoopMemory.Proofs.Apart
import LoopMemory.Proofs.Footprint.Summary
import LoopMemory.Proofs.Footprint.Tally
import LoopMemory.Proofs.Solver.Unreached

/-! Footprints that promise more of the same writes, and what follows for the values of a region and
for its summary. -/
namespace LoopMemory

/-- The second footprint has the same writes, and promises more and exposes less of them. -/
structure Footprint.Sharper (f g : Footprint) : Prop where
  defs : f.defs ⊆ g.defs
  writes : ∀ l, g.Writes l ↔ f.Writes l
  uses : g.uses ⊆ f.uses
  explicit : g.explicit = f.explicit
  addresses : g.addresses = f.addresses
  unknown : g.unknown = f.unknown

/-- The second value promises more, and is full only where the first one is. -/
structure Reaching.Sharper (x y : Reaching) : Prop where
  must : x.must ≤ y.must
  full : y.must.isFull = x.must.isFull
  may : y.may = x.may

theorem Reaching.Sharper.covers {x y : Reaching} (h : x.Sharper y) {l : Location}
    (hc : x.must.covers l = true) : y.must.covers l = true := by
  rw [Reach.covers_iff] at hc ⊢
  obtain ⟨hfull, k, hk, hc⟩ := hc
  exact ⟨h.full.trans hfull, k, h.must.1 k hk, hc⟩

/-- The value with nothing promised. -/
def Reaching.mayOnly (x : Reaching) : Reaching := ⟨.empty, x.may⟩

theorem Reaching.mayOnly_mono {x y : Reaching} (h : y.may ≤ x.may) : x.mayOnly ≤ y.mayOnly :=
  ⟨Reach.le_refl _, h⟩

theorem Reaching.mayOnly_le {x y : Reaching} (h : y.may ≤ x.may) : x.mayOnly ≤ y :=
  ⟨⟨fun _ hl => absurd hl (Reach.not_mem_empty _), fun hf => by simp [mayOnly] at hf⟩, h⟩

namespace Footprint.Sharper
variable {f g sum sum' : Footprint} {aliases : Aliasing} {A W : Location → Prop}
  {x x' y y' : Reaching}

theorem refl (f : Footprint) : f.Sharper f :=
  ⟨fun _ => id, fun _ => Iff.rfl, fun _ => id, rfl, rfl, rfl⟩

theorem hasUnknownWrites (h : f.Sharper g) : g.hasUnknownWrites = f.hasUnknownWrites := by
  rw [Footprint.hasUnknownWrites, h.unknown, ← Footprint.hasUnknownWrites]

theorem mem_tracked (h : f.Sharper g) {l : Location} : l ∈ g.tracked ↔ l ∈ f.tracked := by
  rw [Footprint.mem_tracked, Footprint.mem_tracked, h.explicit, h.writes]

/-- Nothing that a sharper footprint promises ends another promise. -/
theorem transfer (h : f.Sharper g) (hap : aliases.Apart A) (hf : ∀ l, f.Writes l → A l)
    (hx : x.Within A W) : (x.transfer aliases f).must ≤ (x.transfer aliases g).must := by
  have hdefs : ∀ l ∈ f.defs, A l := fun l hl => hf l (.inl hl)
  have hdefs' : ∀ l ∈ g.defs, A l := fun l hl => hf l ((h.writes l).1 (.inl hl))
  refine ⟨fun l hl => ?_, fun hfull => ?_⟩
  · rw [hap.mem_must_transfer_iff hx hdefs] at hl
    rw [hap.mem_must_transfer_iff hx hdefs', h.hasUnknownWrites]
    exact hl.imp_left (h.defs l)
  · rw [Reaching.isFull_must_transfer] at hfull ⊢
    rwa [h.hasUnknownWrites]

theorem may_transfer (h : f.Sharper g) : (x.transfer aliases g).may = (x.transfer aliases f).may :=
  Reach.ext (by rw [Reaching.isFull_may_transfer, Reaching.isFull_may_transfer]) fun l => by
    rw [Reaching.mem_may_transfer, Reaching.mem_may_transfer]
    exact or_congr_right (h.writes l)

theorem absorb (h : sum.Sharper sum') (hfg : f.Sharper g) (hx : x.Sharper x') (hy : y.Sharper y') :
    (sum.absorb aliases y x f).Sharper (sum'.absorb aliases y' x' g) where
  defs l hl := by
    rw [mem_defs_absorb] at hl ⊢
    exact hl.imp (h.defs l) fun hl => ⟨hfg.defs l hl.1, hy.covers hl.2⟩
  writes l := by rw [writes_absorb, writes_absorb, h.writes, hfg.writes]
  uses l hl := by
    rw [mem_uses_absorb] at hl ⊢
    refine hl.imp (h.uses l) fun hl => ⟨hfg.uses l hl.1, ?_⟩
    rw [Bool.eq_false_iff]
    exact fun hc => Bool.false_ne_true (hl.2.symm.trans (hx.covers hc))
  explicit := by
    change sum'.explicit.addAll aliases g.explicit = sum.explicit.addAll aliases f.explicit
    rw [h.explicit, hfg.explicit]
  addresses := by
    change sum'.addresses ∪ g.addresses = sum.addresses ∪ f.addresses
    rw [h.addresses, hfg.addresses]
  unknown := by rw [unknown_absorb, unknown_absorb, h.unknown, hfg.unknown]

/-- A summary that keeps its promises is sharper than one that takes them back. -/
theorem downgrade (h : f.Sharper g) : f.downgrade.Sharper g where
  defs _ hl := absurd hl (SortedSet.not_mem_empty _)
  writes l := (h.writes l).trans writes_downgrade.symm
  uses := h.uses
  explicit := h.explicit
  addresses := h.addresses
  unknown := h.unknown

theorem widen (h : f.Sharper g) (repeats : Bool) : (f.widen repeats).Sharper (g.widen repeats) where
  defs := by
    rw [defs_widen, defs_widen]
    exact h.defs
  writes l := by rw [writes_widen, writes_widen, h.writes, h.hasUnknownWrites, h.explicit]
  uses l hl := by
    rw [mem_uses_widen_iff] at hl ⊢
    rw [h.mem_tracked, hasUnknownReads, h.unknown] at hl
    exact hl.imp_left (h.uses l)
  explicit := by rw [explicit_widen, explicit_widen, h.explicit]
  addresses := by rw [addresses_widen, addresses_widen, h.addresses]
  unknown := by rw [unknown_widen, unknown_widen, h.unknown]

end Footprint.Sharper

namespace Problem
variable {p : Problem} {fps : NodeMap Footprint} {A : Location → Prop} {n : NodeId}
  {inp out inp' out' : NodeId → Reaching} {sol sol' : Solution} {settings settings' : Settings}
  {f g : Footprint}

/-- Each node of the region has a sharper footprint, too, and its writes are of one kind. -/
def Sharpened (p : Problem) (fps : NodeMap Footprint) (A : Location → Prop) : Prop :=
  ∀ n ∈ p.region.nodes, ∃ f g, p.footprints.get? n = some f ∧ fps.get? n = some g ∧ f.Sharper g ∧
    ∀ l, f.Writes l → A l

section Sharpened
variable (h : p.Sharpened fps A)
include h

theorem fed_sharpened_iff : Fed { p with footprints := fps } n ↔ p.Fed n := by
  have hsource : ∀ s, Source { p with footprints := fps } s ↔ p.Source s := by
    refine fun s => or_congr_right (and_congr_right fun hs => ?_)
    obtain ⟨f, g, hf, hg, hfg, -⟩ := h s hs
    simp [hf, hg, hfg.hasUnknownWrites]
  exact exists_congr fun s => and_congr_left fun _ => hsource s

theorem fedBefore_sharpened_iff : FedBefore { p with footprints := fps } n ↔ p.FedBefore n :=
  or_congr_right (exists_congr fun _ => and_congr_left fun _ => fed_sharpened_iff h)

/- With sharper footprints the promises stay supported, and the possible writes both ways. -/

theorem Greatest.supported_must (hl : p.tree.Linked) (hap : p.aliases.Apart A)
    (hg : p.Greatest inp out) : Supported { p with footprints := fps }
      (Reaching.mustOnly ∘ inp) (Reaching.mustOnly ∘ out) where
  entry n hn he := Reaching.mustOnly_le (hg.toSupported.entry n hn he)
  edge n hn node hnode he k hk hmem :=
    Reaching.mustOnly_mono (hg.toSupported.edge n hn node hnode he k hk hmem).1
  output n hn g hgn := by
    obtain ⟨f, g', hf, hgn', hfg, hA⟩ := h n hn
    obtain rfl := Option.some.inj (hgn.symm.trans hgn')
    have hwithin : (inp n).Within A A := by
      refine (hg.within hl (fun n hn f hf => ?_) hn).1
      obtain ⟨f', _, hf', -, -, hA⟩ := h n hn
      obtain rfl := Option.some.inj (hf.symm.trans hf')
      exact ⟨fun l hl => hA l (.inl hl), hA⟩
    rw [Function.comp, Function.comp, Reaching.transfer_mustOnly, hg.output n hn f hf]
    exact Reaching.mustOnly_mono (hfg.transfer hap hA hwithin)

theorem Greatest.supported_may (hg : p.Greatest inp out) :
    Supported { p with footprints := fps } (Reaching.mayOnly ∘ inp) (Reaching.mayOnly ∘ out) where
  entry n hn he := Reaching.mayOnly_le (hg.toSupported.entry n hn he).2
  edge n hn node hnode he k hk hmem :=
    Reaching.mayOnly_mono (hg.toSupported.edge n hn node hnode he k hk hmem).2
  output n hn g hgn := by
    obtain ⟨f, g', hf, hgn', hfg, -⟩ := h n hn
    obtain rfl := Option.some.inj (hgn.symm.trans hgn')
    refine Reaching.mayOnly_le ?_
    rw [hfg.may_transfer, hg.output n hn f hf]
    exact Reach.le_refl _

theorem Greatest.supported_may_of_sharpened
    (hg : Greatest { p with footprints := fps } inp out) :
    p.Supported (Reaching.mayOnly ∘ inp) (Reaching.mayOnly ∘ out) where
  entry n hn he := Reaching.mayOnly_le (hg.toSupported.entry n hn he).2
  edge n hn node hnode he k hk hmem :=
    Reaching.mayOnly_mono (hg.toSupported.edge n hn node hnode he k hk hmem).2
  output n hn f hf := by
    obtain ⟨f', g, hf', hgn, hfg, -⟩ := h n hn
    obtain rfl := Option.some.inj (hf.symm.trans hf')
    refine Reaching.mayOnly_le ?_
    rw [hg.output n hn g hgn, hfg.may_transfer]
    exact Reach.le_refl _

/-- Sharper footprints make for sharper values. -/
theorem Greatest.sharper (hl : p.tree.Linked) (he : p.region.entry ∈ p.region.nodes)
    (hap : p.aliases.Apart A) (hg : p.Greatest inp out)
    (hg' : Greatest { p with footprints := fps } inp' out') (hn : n ∈ p.region.nodes) :
    (inp n).Sharper (inp' n) ∧ (out n).Sharper (out' n) := by
  obtain ⟨hmi, hmo⟩ := hg'.largest _ _ (hg.supported_must h hl hap) n hn
  obtain ⟨hyi, hyo⟩ := hg'.largest _ _ (hg.supported_may h) n hn
  obtain ⟨hyi', hyo'⟩ := hg.largest _ _ (hg'.supported_may_of_sharpened h) n hn
  obtain ⟨hfi, hfo⟩ := hg.full hl he hn
  obtain ⟨hfi', hfo'⟩ := Greatest.full (p := { p with footprints := fps }) hl he hg' hn
  rw [fed_sharpened_iff h] at hfo'
  rw [fedBefore_sharpened_iff h] at hfi'
  refine ⟨⟨hmi.1, Bool.eq_iff_iff.2 ?_, Reach.le_antisymm hyi.2 hyi'.2⟩,
    ⟨hmo.1, Bool.eq_iff_iff.2 ?_, Reach.le_antisymm hyo.2 hyo'.2⟩⟩
  · rw [← Reach.eq_full_iff, ← Reach.eq_full_iff, hfi, hfi']
  · rw [← Reach.eq_full_iff, ← Reach.eq_full_iff, hfo, hfo']

theorem closed_sharpened (hc : p.Closed) : Closed { p with footprints := fps } where
  node := hc.node
  footprint n hn := by
    obtain ⟨_, g, -, hg, -⟩ := h n hn
    exact ⟨g, hg⟩
  stays := hc.stays

/-- So the solver comes to sharper values. -/
theorem solve_sharper (hl : p.tree.Linked) (hc : p.Closed) (he : p.region.entry ∈ p.region.nodes)
    (hap : p.aliases.Apart A) (hsol : p.solve = .ok sol)
    (hsol' : solve { p with footprints := fps } = .ok sol') (hn : n ∈ p.region.nodes) :
    ∃ x x' y y', sol.inputs.get? n = some x ∧ sol'.inputs.get? n = some x' ∧
      sol.outputs.get? n = some y ∧ sol'.outputs.get? n = some y' ∧ x.Sharper x' ∧
      y.Sharper y' := by
  obtain ⟨sol₁, inp, out, hsol₁, hass, hg⟩ := exists_greatest hl hc
  obtain ⟨sol₁', inp', out', hsol₁', hass', hg'⟩ :=
    exists_greatest (p := { p with footprints := fps }) hl (closed_sharpened h hc)
  obtain rfl := Except.ok.inj (hsol.symm.trans hsol₁)
  obtain rfl := Except.ok.inj (hsol'.symm.trans hsol₁')
  obtain ⟨hin, hout⟩ := hg.sharper h hl he hap hg' hn
  exact ⟨_, _, _, _, (hass.input n).trans (if_pos hn), (hass'.input n).trans (if_pos hn),
    (hass.output n).trans (if_pos hn), (hass'.output n).trans (if_pos hn), hin, hout⟩

/-- And a region that surely runs has a sharper summary. -/
theorem collapse_sharper
    (hin : ∀ n ∈ p.region.nodes, ∀ x x', sol.inputs.get? n = some x →
      sol'.inputs.get? n = some x' → x.Sharper x')
    (hexit : ∀ y y', sol.outputs.get? p.region.exit = some y →
      sol'.outputs.get? p.region.exit = some y' → y.Sharper y')
    (hruns : p.region.runsOnce settings' = true) (hf : p.collapse sol settings = .ok f)
    (hg : collapse { p with footprints := fps } sol' settings' = .ok g) : f.Sharper g := by
  obtain ⟨y, sum, hy, hsum, rfl⟩ := collapse_eq_ok.1 hf
  obtain ⟨y', sum', hy', hsum', rfl⟩ := collapse_eq_ok.1 hg
  have hsums : sum.Sharper sum' := by
    refine foldlM_inv₂ Footprint.Sharper hsum hsum' (.refl _) ?_
    intro n hn s u s' u' hs hu hu'
    obtain ⟨f, x, ⟨hfn, hx⟩, rfl⟩ := absorbNode_eq_ok.1 hu
    obtain ⟨g, x', ⟨hgn, hx'⟩, rfl⟩ := absorbNode_eq_ok.1 hu'
    obtain ⟨f', g', hf', hg', hfg, -⟩ := h n hn
    obtain rfl := Option.some.inj (hfn.symm.trans hf')
    obtain rfl := Option.some.inj (hgn.symm.trans hg')
    exact hs.absorb hfg (hin n hn x x' hx hx') (hexit y y' hy hy')
  rw [if_pos hruns]
  split
  · exact hsums.widen _
  · exact hsums.downgrade.widen _

end Sharpened
end Problem
end LoopMemory
