import LoopMemory.Proofs.Footprint.ClosedForm
import Mathlib.Data.List.Perm.Subperm

/-! The accesses of an instruction in another order. All that a block's footprint says stays the
same, but for the uses of a location that one access surely writes and another one reads. -/
namespace LoopMemory

/- Two lists with every instruction in its place are equal when they say the same. -/
theorem UnknownInsts.Ordered.ext {us vs : UnknownInsts} (hu : us.Ordered) (hv : vs.Ordered)
    (h : ∀ e, e ∈ us ↔ e ∈ vs) : us = vs := by
  have hnodup : ∀ ws : UnknownInsts, ws.Ordered → ws.Nodup := by
    intro ws hw
    exact hw.imp fun hlt he => (lt_irrefl _ (he ▸ hlt)).elim
  have hperm : us.Perm vs := (List.perm_ext_iff_of_nodup (hnodup us hu) (hnodup vs hv)).2 h
  exact hperm.eq_of_pairwise (fun a b _ _ hab hba => (lt_asymm hab hba).elim) hu hv

namespace Memory
variable {m m' : Memory} {f g : Footprint} {as bs : List Access} {l : Location} {i : Inst}
  {e : Effect} {insts : List Inst}

/-- The same memory, but one instruction lists other accesses. -/
def relist (m : Memory) (i : Inst) (as : List Access) : Memory :=
  { m with
    effects := fun j =>
      if j = i then (m.effects i).map fun e => { e with accesses := as } else m.effects j }

/-- One of the accesses surely writes what another one of them reads. -/
def Contested (m : Memory) (as : List Access) (l : Location) : Prop :=
  ∃ a b, [a, b].Subperm as ∧ m.writeOf a = .must ∧ a.location.covers l = true ∧
    b.read.isAny = true ∧ b.location = l

/-- Two memories in which each instruction makes the same accesses, in whatever order. -/
structure Reordering (m m' : Memory) : Prop where
  accesses : ∀ i, (m.accessesOf i).Perm (m'.accessesOf i)
  unknown : ∀ i, m.unknownOf i = m'.unknownOf i
  writes : ∀ a, m.writeOf a = m'.writeOf a
  escapes : m.escapes = m'.escapes

theorem reordering_relist (he : m.effects i = some e) (hp : as.Perm e.accesses) :
    m.Reordering (m.relist i as) where
  accesses j := by
    by_cases hj : j = i
    · subst hj
      simpa [accessesOf, relist, he] using hp.symm
    · simp [accessesOf, relist, hj]
  unknown j := by
    by_cases hj : j = i
    · subst hj
      simp [unknownOf, relist, he]
    · simp [unknownOf, relist, hj]
  writes _ := rfl
  escapes := rfl

/-- Where no access writes what another one reads, each read sees what came before the
instruction. -/
theorem exposes_iff (h : ¬m.Contested as l) :
    m.Exposes as l ↔ ∃ a ∈ as, a.read.isAny = true ∧ a.location = l := by
  constructor
  · intro hl
    obtain ⟨pre, a, post, rfl, hr, hl, -⟩ := hl
    exact ⟨a, by simp, hr, hl⟩
  · intro hl
    obtain ⟨b, hb, hr, hl⟩ := hl
    obtain ⟨pre, post, rfl⟩ := List.append_of_mem hb
    refine ⟨pre, b, post, rfl, hr, hl, fun hs => ?_⟩
    obtain ⟨a, ha, hw, hc⟩ := hs
    have hpair : [a, b].Sublist (pre ++ b :: post) :=
      (List.singleton_sublist.2 ha).append ((List.nil_sublist post).cons_cons b)
    exact h ⟨a, b, hpair.subperm, hw, hc, hr, hl⟩

namespace Reordering
variable (h : m.Reordering m')
include h

theorem mem_accesses {a : Access} : a ∈ m.accessesOf i ↔ a ∈ m'.accessesOf i :=
  (h.accesses i).mem_iff

theorem peeks_eq : m.peeks i = m'.peeks i := by rw [peeks, peeks, h.unknown]

theorem spoils_eq : m.spoils i = m'.spoils i := by rw [spoils, spoils, h.unknown]

theorem touches_iff : m.Touches insts l ↔ m'.Touches insts l := by
  simp only [Touches, h.mem_accesses]

theorem secures_iff : m.Secures (m.accessesOf i) l ↔ m'.Secures (m'.accessesOf i) l := by
  simp only [Secures, h.mem_accesses, h.writes]

theorem lately_iff {Q : Inst → Prop} : m.Lately insts Q ↔ m'.Lately insts Q := by
  simp only [Lately, h.spoils_eq]

theorem secured_iff : m.Secured insts l ↔ m'.Secured insts l := by
  simp only [Secured, h.lately_iff, h.secures_iff]

theorem contested_iff : m.Contested (m.accessesOf i) l ↔ m'.Contested (m'.accessesOf i) l := by
  simp only [Contested, (h.accesses i).subperm_left, h.writes]

/-- An instruction exposes the same reads when nothing is contested, or when its accesses stand in
the same order. -/
theorem exposes_iff (hl : ¬m.Contested (m.accessesOf i) l ∨ m.accessesOf i = m'.accessesOf i) :
    m.Exposes (m.accessesOf i) l ↔ m'.Exposes (m'.accessesOf i) l := by
  cases hl with
  | inl hl =>
    rw [Memory.exposes_iff hl, Memory.exposes_iff (h.contested_iff.not.1 hl)]
    simp only [h.mem_accesses]
  | inr hl => simp only [hl, Exposes, Secures, h.writes]

theorem exists_blockFootprint_iff : (∃ f, m.blockFootprint insts = .ok f) ↔
    ∃ g, m'.blockFootprint insts = .ok g := by
  rw [exists_blockFootprint, exists_blockFootprint]
  simp only [h.unknown]

section Block
variable (hf : m.blockFootprint insts = .ok f) (hg : m'.blockFootprint insts = .ok g)
include hf hg

theorem defs_eq : f.defs = g.defs := by
  ext l
  rw [mem_defs_block hf, mem_defs_block hg, h.lately_iff]
  simp only [h.mem_accesses, h.writes]

theorem mayDefs_eq : f.mayDefs = g.mayDefs := by
  ext l
  rw [mem_mayDefs_block hf, mem_mayDefs_block hg]
  simp only [h.mem_accesses, h.writes, h.spoils_eq, h.touches_iff]

theorem addresses_eq : f.addresses = g.addresses := by
  ext b
  rw [mem_addresses_block hf, mem_addresses_block hg]
  simp only [h.mem_accesses, h.escapes]

theorem mem_explicit_iff : l ∈ f.explicit.locations ↔ l ∈ g.explicit.locations := by
  rw [mem_explicit_block hf, mem_explicit_block hg, h.touches_iff]

theorem unknown_eq : f.unknown = g.unknown := by
  refine (tallies_of_blockFootprint hf).ordered.ext (tallies_of_blockFootprint hg).ordered ?_
  rintro ⟨i, u⟩
  rw [mem_unknown_block hf, mem_unknown_block hg, h.unknown]

theorem mem_uses_iff (hl : ∀ i ∈ insts,
    ¬m.Contested (m.accessesOf i) l ∨ m.accessesOf i = m'.accessesOf i) :
    l ∈ f.uses ↔ l ∈ g.uses := by
  rw [mem_uses_block hf, mem_uses_block hg]
  simp only [h.secured_iff, h.peeks_eq, h.touches_iff, h.secures_iff]
  refine or_congr_left ?_
  refine exists_congr fun done => exists_congr fun i => exists_congr fun rest => ?_
  refine and_congr_right fun he => and_congr_right fun _ => h.exposes_iff (hl i ?_)
  simp [he]

end Block
end Reordering

/-- An instruction that copies the second of two variables to the first, which it lists before the
read, and something unresolved. -/
def transferring : Memory where
  effects
    | 0 => some { accesses :=
        [⟨⟨1, 0, .bytes 8, none⟩, 0, .no, .must⟩, ⟨⟨2, 0, .bytes 8, none⟩, 1, .must, .no⟩] }
    | _ => none
  aliases := AliasModel.overlap {}
  escapes _ := false
  settings := {}

/-- With the accesses of one instruction in another order, a block is refused just as before, and
its footprint defines and touches the same. A location may become a use, or be one no more, only
where the instruction surely writes it by one of its accesses and reads it by another. -/
theorem blockFootprint_relist (he : m.effects i = some e) (hp : as.Perm e.accesses) :
    ((∃ f, m.blockFootprint insts = .ok f) ↔
      ∃ g, (m.relist i as).blockFootprint insts = .ok g) ∧
    ∀ f g, m.blockFootprint insts = .ok f → (m.relist i as).blockFootprint insts = .ok g →
      f.defs = g.defs ∧ f.mayDefs = g.mayDefs ∧ f.addresses = g.addresses ∧
      f.unknown = g.unknown ∧ (∀ l, l ∈ f.explicit.locations ↔ l ∈ g.explicit.locations) ∧
      ∀ l, ¬m.Contested e.accesses l → (l ∈ f.uses ↔ l ∈ g.uses) := by
  have h := reordering_relist he hp
  refine ⟨h.exists_blockFootprint_iff, fun f g hf hg => ?_⟩
  refine ⟨h.defs_eq hf hg, h.mayDefs_eq hf hg, h.addresses_eq hf hg, h.unknown_eq hf hg,
    fun l => h.mem_explicit_iff hf hg, fun l hl => h.mem_uses_iff hf hg fun j _ => ?_⟩
  by_cases hj : j = i
  · subst hj
    exact .inl (by simpa [accessesOf, he] using hl)
  · exact .inr (by simp [accessesOf, relist, hj])

theorem blockFootprint_relist_transferring : ∃ f g, transferring.blockFootprint [0, 1] = .ok f ∧
    (transferring.relist 0 [⟨⟨2, 0, .bytes 8, none⟩, 1, .must, .no⟩,
      ⟨⟨1, 0, .bytes 8, none⟩, 0, .no, .must⟩]).blockFootprint [0, 1] = .ok g ∧
    f.mayDefs = g.mayDefs ∧
    ((⟨2, 0, .bytes 8, none⟩ : Location) ∈ f.uses ↔ ⟨2, 0, .bytes 8, none⟩ ∈ g.uses) := by
  have hsome : (transferring.blockFootprint [0, 1]).isOk = true := by decide +kernel
  cases hf : transferring.blockFootprint [0, 1] with
  | error b =>
    rw [hf] at hsome
    cases hsome
  | ok f =>
    have hperm : ([⟨⟨2, 0, .bytes 8, none⟩, 1, .must, .no⟩,
        ⟨⟨1, 0, .bytes 8, none⟩, 0, .no, .must⟩] : List Access).Perm (transferring.accessesOf 0) :=
      .swap _ _ _
    have he : transferring.effects 0 = some { accesses := transferring.accessesOf 0 } := rfl
    obtain ⟨g, hg⟩ := (blockFootprint_relist he hperm).1.1 ⟨f, hf⟩
    obtain ⟨-, hmay, -, -, -, huses⟩ := (blockFootprint_relist he hperm).2 f g hf hg
    refine ⟨f, g, rfl, hg, hmay, huses _ ?_⟩
    rintro ⟨a, b, hpair, hw, hc, -, -⟩
    have hwrites : ∀ a ∈ transferring.accessesOf 0, transferring.writeOf a = .must →
        a.location.covers ⟨2, 0, .bytes 8, none⟩ = false := by decide
    rw [hwrites a (hpair.subset (List.mem_cons_self ..)) hw] at hc
    cases hc

/-- An instruction that lists a store before a load of the same variable. -/
def exchanging : Memory :=
  { transferring with
    effects := fun _ => some { accesses :=
      [⟨⟨1, 0, .bytes 8, none⟩, 0, .no, .must⟩, ⟨⟨1, 0, .bytes 8, none⟩, 1, .must, .no⟩] } }

/-- The load is hidden by the store of its own instruction, unless it is listed first. -/
theorem uses_differ_exchanging :
    ([⟨⟨1, 0, .bytes 8, none⟩, 1, .must, .no⟩, ⟨⟨1, 0, .bytes 8, none⟩, 0, .no, .must⟩] :
      List Access).Perm (exchanging.accessesOf 0) ∧
    Footprint.uses <$> exchanging.blockFootprint [0] = .ok ∅ ∧
    Footprint.uses <$> (exchanging.relist 0 [⟨⟨1, 0, .bytes 8, none⟩, 1, .must, .no⟩,
      ⟨⟨1, 0, .bytes 8, none⟩, 0, .no, .must⟩]).blockFootprint [0] =
        .ok (.ofList [⟨1, 0, .bytes 8, none⟩]) := by
  refine ⟨List.Perm.swap _ _ _, ?_, ?_⟩
  · exact eq_ok_of_toOption (by decide +kernel)
  · exact eq_ok_of_toOption (by decide +kernel)

end Memory
end LoopMemory
