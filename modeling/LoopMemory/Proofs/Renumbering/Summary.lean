import LoopMemory.Proofs.Footprint.Summary
import LoopMemory.Proofs.Renumbering.Footprint

/-! The footprints of blocks and the summaries of regions under other numbers of the instructions
and the nodes. -/
namespace LoopMemory
open Relator

/-- The same event, of an instruction that has another number. -/
inductive Event.Alike (I : Inst → Inst → Prop) : Event → Event → Prop
  | access (a : Access) : Alike I (.access a) (.access a)
  | unknown {i j : Inst} (h : I i j) (u : UnknownAccess) : Alike I (.unknown i u) (.unknown j u)

namespace Memory
variable {m : Memory} {effects : Effects} {I : Inst → Inst → Prop} {i j : Inst}
  {insts insts' : List Inst} {es es' : List Event} {f g s : Footprint} {us : UnknownInsts}
  {a : Access} {u : UnknownAccess}

/- What is unknown about other instructions changes nothing about an access. -/

theorem recordAccess_unknown :
    m.recordAccess { f with unknown := us } a = { m.recordAccess f a with unknown := us } := by
  unfold recordAccess
  cases a.isAddressOnly
  · cases he : m.escapes a.location <;> cases a.read.isAny <;>
      cases hc : f.defs.covers a.location <;> cases m.writeOf a <;>
      simp [Footprint.addExplicit, Footprint.addAddress, Footprint.addUse, Footprint.addDef,
        Footprint.addMayDef, recordWrite, he, hc]
  · rfl

theorem instEvents_alike (hij : I i j) (he : m.effects i = effects j) :
    List.Forall₂ (Event.Alike I) (m.instEvents i) (instEvents { m with effects } j) := by
  simp only [instEvents, ← he]
  cases m.effects i with
  | none => exact .cons (.unknown hij _) .nil
  | some e =>
    refine List.rel_append (List.forall₂_map_left_iff.2 (List.forall₂_map_right_iff.2
      (List.forall₂_same.2 fun a _ => .access a))) ?_
    cases e.unknown with
    | none => exact .nil
    | some u => exact .cons (.unknown hij u) .nil

theorem blockEvents_alike (heffects : ∀ i j, I i j → m.effects i = effects j)
    (h : List.Forall₂ I insts insts') :
    List.Forall₂ (Event.Alike I) (m.blockEvents insts)
      (blockEvents { m with effects } insts') :=
  List.rel_flatMap h fun _ _ hij => instEvents_alike hij (heffects _ _ hij)

/-- The events of a block leave the same footprint, but for the numbers. -/
theorem recordEvents_alike (hI : BiUnique I) (h : List.Forall₂ (Event.Alike I) es es')
    (hs : s.unknown.Alike I us) (hf : es.foldlM m.recordEvent s = .ok f) :
    ∃ vs, es'.foldlM m.recordEvent { s with unknown := us } = .ok { f with unknown := vs } ∧
      f.unknown.Alike I vs := by
  induction h generalizing s us with
  | nil =>
    obtain rfl := Except.ok.inj hf
    exact ⟨us, rfl, hs⟩
  | cons he _ ih =>
    simp only [List.foldlM_cons, bind_eq_ok] at hf ⊢
    obtain ⟨v, hv, hf⟩ := hf
    cases he with
    | access a =>
      obtain rfl := Except.ok.inj hv
      obtain ⟨vs, hvs, hfvs⟩ := ih ((unknown_recordAccess (m := m) (a := a)) ▸ hs) hf
      exact ⟨vs, ⟨_, congrArg Except.ok recordAccess_unknown, hvs⟩, hfvs⟩
    | @unknown i j hij u =>
      obtain ⟨hu, rfl⟩ := recordUnknown_eq_ok.1 hv
      have hrecord : (Footprint.applyUnknown
          { s with unknown := UnknownInsts.record i u s.unknown } u).unknown.Alike I
          (UnknownInsts.record j u us) := by
        rw [Footprint.unknown_applyUnknown]
        exact hs.record hI hij
      obtain ⟨vs, hvs, hfvs⟩ := ih hrecord hf
      refine ⟨vs, ⟨_, recordUnknown_eq_ok.2 ⟨hu, ?_⟩, hvs⟩, hfvs⟩
      simp only [Footprint.applyUnknown_unknown]

theorem blockFootprint_alike (hI : BiUnique I) (heffects : ∀ i j, I i j → m.effects i = effects j)
    (h : List.Forall₂ I insts insts') (hf : m.blockFootprint insts = .ok f)
    (hg : blockFootprint { m with effects } insts' = .ok g) : f.Alike I g := by
  rw [blockFootprint_eq] at hf hg
  obtain ⟨vs, hvs, hfvs⟩ := recordEvents_alike hI (blockEvents_alike heffects h)
    UnknownInsts.alike_nil hf
  obtain rfl := Except.ok.inj (hvs.symm.trans hg)
  exact Footprint.alike_of_unknown hfvs

end Memory

namespace Problem
variable {p q : Problem} {sol sol' : Solution} {exiting : Reaching} {nodes nodes' : List NodeId}
  {I : Inst → Inst → Prop} {sum sum' f g : Footprint} {settings : Settings} {n : NodeId}

/-- What is unknown of an instruction is the surest of what the nodes have of it. -/
theorem unknown_of_absorbed (h : nodes.foldlM (p.absorbNode sol exiting) {} = .ok sum)
    (ho : ∀ n ∈ nodes, ∀ f x, p.Has sol n f x → f.unknown.Ordered) : sum.unknown.Ordered ∧
      ∀ i, UnknownAccess.Peak {u | ∃ n ∈ nodes, ∃ f x, p.Has sol n f x ∧
        f.unknown.lookup i = some u} (sum.unknown.lookup i) := by
  refine foldlM_inv (fun done sum => sum.unknown.Ordered ∧ ∀ i, UnknownAccess.Peak
    {u | ∃ n ∈ done, ∃ f x, p.Has sol n f x ∧ f.unknown.lookup i = some u}
    (sum.unknown.lookup i)) h ⟨UnknownInsts.ordered_nil, fun i => by simp [UnknownAccess.Peak]⟩ ?_
  rintro before n after s t hl ⟨hs, hpeak⟩ ht
  obtain ⟨f, x, hfx, rfl⟩ := absorbNode_eq_ok.1 ht
  obtain ⟨hord, hlook⟩ := UnknownInsts.lookup_foldl_record hs (ho n (by simp [hl]) f x hfx)
  refine ⟨hord, fun i => ?_⟩
  have hown : UnknownAccess.Peak {u | f.unknown.lookup i = some u} (f.unknown.lookup i) := by
    cases hu : f.unknown.lookup i with
    | none => simp [UnknownAccess.Peak]
    | some u =>
      have hset : {v | some u = some v} = {u} := by
        ext v
        simp [eq_comm]
      rw [hset]
      exact UnknownAccess.strongest_singleton u
  rw [Footprint.unknown_absorb, hlook]
  convert (hpeak i).union hown using 1
  ext u
  simp only [List.mem_append, List.mem_singleton, or_and_right, exists_or, exists_eq_left,
    Set.mem_union, Set.mem_ofPred_eq]
  refine or_congr_right ⟨?_, fun hu => ⟨f, x, hfx, hu⟩⟩
  rintro ⟨f', x', hfx', hu⟩
  rwa [Option.some.inj (hfx.1.symm.trans hfx'.1)]

/-- What nodes of one problem have, nodes of the other one have as well. -/
def Mirrors (I : Inst → Inst → Prop) (p : Problem) (sol : Solution) (q : Problem)
    (sol' : Solution) : Prop :=
  ∀ n ∈ p.region.nodes, ∀ f x, p.Has sol n f x →
    ∃ k ∈ q.region.nodes, ∃ g, q.Has sol' k g x ∧ f.Alike I g

section Mirrored
variable (hforth : Mirrors I p sol q sol') (hback : Mirrors (flip I) q sol' p sol)
include hforth hback

theorem exists_node_congr {Q Q' : Footprint → Reaching → Prop}
    (hQ : ∀ f g x, f.Alike I g → (Q f x ↔ Q' g x)) :
    (∃ n ∈ p.region.nodes, ∃ f x, p.Has sol n f x ∧ Q f x) ↔
      ∃ k ∈ q.region.nodes, ∃ g x, q.Has sol' k g x ∧ Q' g x := by
  constructor
  · rintro ⟨n, hn, f, x, hfx, hq⟩
    obtain ⟨k, hk, g, hgx, hfg⟩ := hforth n hn f x hfx
    exact ⟨k, hk, g, x, hgx, (hQ f g x hfg).1 hq⟩
  · rintro ⟨k, hk, g, x, hgx, hq⟩
    obtain ⟨n, hn, f, hfx, hgf⟩ := hback k hk g x hgx
    exact ⟨n, hn, f, x, hfx, (hQ f g x hgf.symm).2 hq⟩

section Absorbed
variable (h : p.region.nodes.foldlM (p.absorbNode sol exiting) {} = .ok sum)
  (h' : q.region.nodes.foldlM (q.absorbNode sol' exiting) {} = .ok sum')
include h h'

theorem absorbed_congr {P : Footprint → Prop} {Q : Footprint → Reaching → Prop} (start : ¬P {})
    (step : ∀ aliases sum f x,
      P (Footprint.absorb aliases exiting x sum f) ↔ P sum ∨ Q f x)
    (hQ : ∀ f g x, f.Alike I g → (Q f x ↔ Q g x)) : P sum ↔ P sum' := by
  rw [absorbed_iff h start (step p.aliases), absorbed_iff h' start (step q.aliases)]
  exact exists_node_congr hforth hback hQ

theorem alike_of_absorbed : sum.Alike I sum' where
  defs := SortedSet.ext fun l =>
    absorbed_congr hforth hback h h' (P := fun s => l ∈ s.defs) (by simp)
      (fun _ _ _ _ => Footprint.mem_defs_absorb) fun f g x hfg => by rw [hfg.defs]
  mayDefs := SortedSet.ext fun l =>
    absorbed_congr hforth hback h h' (P := fun s => l ∈ s.mayDefs) (by simp)
      (fun _ _ _ _ => Footprint.mem_mayDefs_absorb) fun f g x hfg => by rw [hfg.defs, hfg.mayDefs]
  uses := SortedSet.ext fun l =>
    absorbed_congr hforth hback h h' (P := fun s => l ∈ s.uses) (by simp)
      (fun _ _ _ _ => Footprint.mem_uses_absorb) fun f g x hfg => by rw [hfg.uses]
  addresses := SortedSet.ext fun b =>
    absorbed_congr hforth hback h h' (P := fun s => b ∈ s.addresses) (by simp)
      (fun _ _ _ _ => Footprint.mem_addresses_absorb) fun f g x hfg => by rw [hfg.addresses]
  locations l :=
    absorbed_congr hforth hback h h' (P := fun s => l ∈ s.explicit.locations)
      (by simp [AliasClasses.locations]) (fun _ _ _ _ => Footprint.mem_explicit_absorb)
      fun f g x hfg => hfg.locations l
  unknown := by
    obtain ⟨hleft, hpeak⟩ := unknown_of_absorbed h fun n hn f x hfx => by
      obtain ⟨_, -, g, -, hfg⟩ := hforth n hn f x hfx
      exact hfg.unknown.left
    obtain ⟨hright, hpeak'⟩ := unknown_of_absorbed h' fun k hk g x hgx => by
      obtain ⟨_, -, f, -, hgf⟩ := hback k hk g x hgx
      exact hgf.unknown.left
    refine ⟨hleft, hright, fun i j hij => ?_, ?_, ?_⟩
    · refine (hpeak i).unique ?_
      convert hpeak' j using 1
      ext u
      exact exists_node_congr hforth hback fun f g x hfg => by rw [hfg.unknown.lookup i j hij]
    · rintro ⟨i, u⟩ hu
      obtain ⟨v, n, hn, f, x, hfx, hv⟩ := (hpeak i).exists_of_some (hleft.mem_iff.1 hu)
      obtain ⟨_, -, g, -, hfg⟩ := hforth n hn f x hfx
      exact hfg.unknown.forth (i, v) (hfg.unknown.left.mem_iff.2 hv)
    · rintro ⟨j, u⟩ hu
      obtain ⟨v, k, hk, g, x, hgx, hv⟩ := (hpeak' j).exists_of_some (hright.mem_iff.1 hu)
      obtain ⟨_, -, f, -, hgf⟩ := hback k hk g x hgx
      exact hgf.unknown.forth (j, v) (hgf.unknown.left.mem_iff.2 hv)

end Absorbed

/-- The summaries are the same as well. -/
theorem collapse_alike (hkind : p.region.kind = q.region.kind)
    (hexit : sol.outputs.get? p.region.exit = sol'.outputs.get? q.region.exit)
    (h : p.collapse sol settings = .ok f) (h' : q.collapse sol' settings = .ok g) :
    f.Alike I g := by
  obtain ⟨exiting, sum, hx, hsum, rfl⟩ := collapse_eq_ok.1 h
  obtain ⟨exiting', sum', hx', hsum', rfl⟩ := collapse_eq_ok.1 h'
  obtain rfl := Option.some.inj (hx.symm.trans (hexit.trans hx'))
  have hsums := alike_of_absorbed hforth hback hsum hsum'
  have hruns : p.region.runsOnce settings = q.region.runsOnce settings := by
    rw [Region.runsOnce, Region.runsOnce, hkind]
  have hloop : p.region.isLoop = q.region.isLoop := congrArg RegionKind.isLoop hkind
  rw [← hruns, ← hloop]
  split
  · exact hsums.widen _
  · exact hsums.downgrade.widen _

end Mirrored

/-- The alias classes of a summary are the components of its locations. -/
theorem grouped_of_collapse (ha : p.aliases.Regular) (h : p.collapse sol settings = .ok f) :
    f.explicit.Grouped p.aliases := by
  obtain ⟨exiting, sum, -, hsum, rfl⟩ := collapse_eq_ok.1 h
  have hgrouped : sum.explicit.Grouped p.aliases := by
    refine foldlM_inv (fun _ s => s.explicit.Grouped p.aliases) hsum AliasClasses.grouped_empty ?_
    rintro _ n _ s t - hs ht
    obtain ⟨f, x, -, rfl⟩ := absorbNode_eq_ok.1 ht
    exact hs.addAll ha
  rw [Footprint.explicit_widen]
  split <;> exact hgrouped

end Problem
end LoopMemory
