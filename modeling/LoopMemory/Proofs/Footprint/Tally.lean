import LoopMemory.Proofs.AliasClasses
import LoopMemory.Proofs.Footprint.Block
import LoopMemory.Proofs.Footprint.Unknown

/-! Footprints that tally with a set of events: no effect is lost, and none is made up. -/
namespace LoopMemory

theorem Access.isAddressOnly_eq_false {a : Access} :
    a.isAddressOnly = false ↔ a.read.isAny = true ∨ a.write.isAny = true := by
  cases hr : a.read.isAny <;> simp [isAddressOnly, hr]

namespace Footprint
variable {aliases : Aliasing} {f : Footprint} {l : Location} {u : UnknownAccess}

/-- The footprint has the location as one that may be written. -/
def Writes (f : Footprint) (l : Location) : Prop := l ∈ f.defs ∨ l ∈ f.mayDefs

@[simp] theorem not_writes_empty : ¬({} : Footprint).Writes l := by simp [Writes]

theorem mem_tracked : l ∈ f.tracked ↔ l ∈ f.explicit.locations ∨ f.Writes l := by
  simp [tracked, Writes, SortedSet.mem_toList]

theorem writes_downgrade : f.downgrade.Writes l ↔ f.Writes l := by
  simp [Writes, or_comm]

/- An unknown access at its place in program order. -/

theorem mem_uses_exposeTracked : l ∈ f.exposeTracked.uses ↔
    l ∈ f.uses ∨ (l ∈ f.tracked ∧ f.defs.covers l = false) := by
  simp [exposeTracked]

theorem writes_exposeTracked : f.exposeTracked.Writes l ↔ f.Writes l := Iff.rfl

@[simp] theorem explicit_exposeTracked : f.exposeTracked.explicit = f.explicit := rfl

theorem writes_clobberTracked :
    f.clobberTracked.Writes l ↔ f.Writes l ∨ l ∈ f.explicit.locations := by
  have hw : f.clobberTracked.Writes l ↔ f.downgrade.Writes l ∨ l ∈ f.tracked := by
    simp [clobberTracked, Writes]
  rw [hw, writes_downgrade, mem_tracked]
  tauto

@[simp] theorem explicit_applyUnknown : (f.applyUnknown u).explicit = f.explicit := by
  cases hr : u.read.isAny <;> cases hw : u.write.isAny <;>
    simp [applyUnknown, hr, hw, exposeTracked, clobberTracked, downgrade]

theorem writes_applyUnknown : (f.applyUnknown u).Writes l ↔
    f.Writes l ∨ (u.write.isAny = true ∧ l ∈ f.explicit.locations) := by
  cases hr : u.read.isAny <;> cases hw : u.write.isAny <;>
    simp [applyUnknown, hr, hw, writes_clobberTracked, writes_exposeTracked]

theorem mem_uses_applyUnknown_iff : l ∈ (f.applyUnknown u).uses ↔
    l ∈ f.uses ∨ (u.read.isAny = true ∧ l ∈ f.tracked ∧ f.defs.covers l = false) := by
  have huses : (f.applyUnknown u).uses = (if u.read.isAny then f.exposeTracked else f).uses := by
    cases hw : u.write.isAny <;> simp [applyUnknown, hw, clobberTracked]
  rw [huses]
  split
  · rename_i hr
    simp [mem_uses_exposeTracked, hr]
  · rename_i hr
    simp [hr]

/- A whole region. -/

section Widen
variable {repeats : Bool}

@[simp] theorem explicit_widen : (f.widen repeats).explicit = f.explicit := by
  unfold widen
  split <;> split <;> rfl

theorem mem_mayDefs_widen_iff : l ∈ (f.widen repeats).mayDefs ↔
    l ∈ f.mayDefs ∨ (f.hasUnknownWrites = true ∧ l ∈ f.tracked ∧ l ∉ f.defs) := by
  unfold widen
  cases f.hasUnknownWrites <;> simp <;> split <;> simp

theorem writes_widen : (f.widen repeats).Writes l ↔
    f.Writes l ∨ (f.hasUnknownWrites = true ∧ l ∈ f.explicit.locations) := by
  rw [Writes, defs_widen, mem_mayDefs_widen_iff, mem_tracked, Writes]
  tauto

theorem mem_uses_widen_iff : l ∈ (f.widen repeats).uses ↔
    l ∈ f.uses ∨ (f.hasUnknownReads = true ∧ repeats = true ∧ l ∈ f.tracked) := by
  unfold widen
  cases f.hasUnknownReads <;> cases repeats <;> simp <;> split <;> simp

end Widen

section Absorb
variable {exiting input : Reaching} {sum : Footprint}

theorem mem_explicit_absorb : l ∈ (sum.absorb aliases exiting input f).explicit.locations ↔
    l ∈ sum.explicit.locations ∨ l ∈ f.explicit.locations := by
  simp [absorb, mergeAccesses, absorbDefs, absorbUses, AliasClasses.mem_locations_addAll]

theorem writes_absorb :
    (sum.absorb aliases exiting input f).Writes l ↔ sum.Writes l ∨ f.Writes l := by
  simp only [Writes, mem_defs_absorb, mem_mayDefs_absorb]
  cases exiting.must.covers l <;> simp <;> tauto

theorem unknown_absorb : (sum.absorb aliases exiting input f).unknown =
    f.unknown.foldl (fun us u => UnknownInsts.record u.1 u.2 us) sum.unknown := rfl

end Absorb
end Footprint

namespace Memory
variable {m : Memory} {f g : Footprint} {a : Access} {l : Location} {b : Base} {i : Inst}
  {u : UnknownAccess} {insts : List Inst} {E E' : Set Event}

theorem mem_explicit_recordAccess : l ∈ (m.recordAccess f a).explicit.locations ↔
    l ∈ f.explicit.locations ∨ (a.isAddressOnly = false ∧ l = a.location) := by
  unfold recordAccess
  by_cases ha : a.isAddressOnly = true
  · simp [ha, Footprint.addAddress]
  · simp only [ha, Bool.false_eq_true, if_false]
    cases m.writeOf a <;> simp only [recordWrite] <;> split <;> split <;>
      simp [Footprint.addExplicit, Footprint.addAddress, Footprint.addUse, Footprint.addDef,
        Footprint.addMayDef, AliasClasses.mem_locations_add, or_comm]

theorem writes_recordAccess : (m.recordAccess f a).Writes l ↔
    f.Writes l ∨ (a.write.isAny = true ∧ l = a.location) := by
  rw [Footprint.Writes, mem_defs_recordAccess, mem_mayDefs_recordAccess, ← writeOf_isAny (m := m)]
  cases m.writeOf a <;> simp [Footprint.Writes, Assurance.isAny] <;> tauto

/- What a footprint has of a set of events. It has every write as a possible one at least, and
   others only where something unknown may write, and then only to what is touched. -/
structure Tallies (m : Memory) (E : Set Event) (f : Footprint) : Prop where
  explicit : ∀ l, l ∈ f.explicit.locations ↔
    ∃ a, .access a ∈ E ∧ a.isAddressOnly = false ∧ a.location = l
  addresses : ∀ b, b ∈ f.addresses ↔ ∃ a, .access a ∈ E ∧
    (a.isAddressOnly = true ∨ m.escapes a.location = true) ∧ a.location.base = b
  ordered : f.unknown.Ordered
  unknown : ∀ i, UnknownAccess.Peak {u | .unknown i u ∈ E} (f.unknown.lookup i)
  uses : ∀ l ∈ f.uses, l ∈ f.explicit.locations
  touched : ∀ l, f.Writes l → l ∈ f.explicit.locations
  writes : ∀ a, .access a ∈ E → a.write.isAny = true → f.Writes a.location
  written : f.hasUnknownWrites = false → ∀ l, f.Writes l →
    ∃ a, .access a ∈ E ∧ a.write.isAny = true ∧ a.location = l

theorem tallies_empty : m.Tallies ∅ {} where
  explicit l := by simp [AliasClasses.locations]
  addresses b := by simp
  ordered := UnknownInsts.ordered_nil
  unknown i := by simp [UnknownAccess.Peak]
  uses l hl := absurd hl (SortedSet.not_mem_empty l)
  touched l hl := absurd hl Footprint.not_writes_empty
  writes a ha := absurd ha (Set.notMem_empty _)
  written _ l hl := absurd hl Footprint.not_writes_empty

theorem Tallies.mem_tracked (h : m.Tallies E f) : l ∈ f.tracked ↔ l ∈ f.explicit.locations := by
  rw [Footprint.mem_tracked, or_iff_left_of_imp (h.touched l)]

theorem Tallies.access (h : m.Tallies E f) (a : Access) :
    m.Tallies (insert (.access a) E) (m.recordAccess f a) where
  explicit l := by
    rw [mem_explicit_recordAccess, h.explicit]
    simp [or_and_right, exists_or, or_comm, eq_comm (a := l)]
  addresses b := by
    rw [mem_addresses_recordAccess, h.addresses]
    simp [or_and_right, exists_or, or_comm, eq_comm (a := b)]
  ordered := by
    rw [unknown_recordAccess]
    exact h.ordered
  unknown i := by
    rw [unknown_recordAccess]
    simpa using h.unknown i
  uses l hl := by
    rw [mem_explicit_recordAccess]
    rcases mem_uses_recordAccess.1 hl with hl | ⟨hr, -, rfl⟩
    · exact .inl (h.uses l hl)
    · exact .inr ⟨Access.isAddressOnly_eq_false.2 (.inl hr), rfl⟩
  touched l hl := by
    rw [mem_explicit_recordAccess]
    rcases writes_recordAccess.1 hl with hl | ⟨hw, rfl⟩
    · exact .inl (h.touched l hl)
    · exact .inr ⟨Access.isAddressOnly_eq_false.2 (.inr hw), rfl⟩
  writes c hc hw := by
    rw [writes_recordAccess]
    rcases Set.mem_insert_iff.1 hc with hc | hc
    · obtain rfl := Event.access.inj hc
      exact .inr ⟨hw, rfl⟩
    · exact .inl (h.writes c hc hw)
  written hu l hl := by
    rw [Footprint.hasUnknownWrites, unknown_recordAccess] at hu
    rcases writes_recordAccess.1 hl with hl | ⟨hw, rfl⟩
    · obtain ⟨c, hc, hcw, hcl⟩ := h.written hu l hl
      exact ⟨c, .inr hc, hcw, hcl⟩
    · exact ⟨a, .inl rfl, hw, rfl⟩

theorem Tallies.unknownAccess (h : m.Tallies E f) (i : Inst) (u : UnknownAccess) :
    m.Tallies (insert (.unknown i u) E)
      ({ f with unknown := UnknownInsts.record i u f.unknown }.applyUnknown u) where
  explicit l := by
    rw [Footprint.explicit_applyUnknown, h.explicit]
    simp
  addresses b := by
    rw [Footprint.addresses_applyUnknown, h.addresses]
    simp
  ordered := by
    rw [Footprint.unknown_applyUnknown]
    exact h.ordered.record i u
  unknown j := by
    rw [Footprint.unknown_applyUnknown, UnknownInsts.lookup_record h.ordered]
    by_cases hj : j = i
    · have hset : {v | Event.unknown j v ∈ insert (.unknown i u) E} =
          {v | Event.unknown i v ∈ E} ∪ {u} := by
        ext v
        simp [hj]
      rw [if_pos hj, hset]
      exact (h.unknown i).union (UnknownAccess.strongest_singleton u)
    · rw [if_neg hj]
      simpa [hj] using h.unknown j
  uses l hl := by
    rw [Footprint.explicit_applyUnknown]
    rcases Footprint.mem_uses_applyUnknown_iff.1 hl with hl | ⟨-, hl, -⟩
    · exact h.uses l hl
    · exact h.mem_tracked.1 hl
  touched l hl := by
    rw [Footprint.explicit_applyUnknown]
    rcases Footprint.writes_applyUnknown.1 hl with hl | ⟨-, hl⟩
    · exact h.touched l hl
    · exact hl
  writes c hc hw := by
    rw [Footprint.writes_applyUnknown]
    have hc : .access c ∈ E := by simpa using hc
    exact .inl (h.writes c hc hw)
  written hu l hl := by
    rw [Footprint.hasUnknownWrites, Footprint.unknown_applyUnknown,
      UnknownInsts.any_record (q := fun u => u.write.isAny) (by simp), Bool.or_eq_false_iff] at hu
    obtain ⟨hw, hu⟩ := hu
    rcases Footprint.writes_applyUnknown.1 hl with hl | ⟨hw', -⟩
    · obtain ⟨c, hc, hcw, hcl⟩ := h.written hu l hl
      exact ⟨c, .inr hc, hcw, hcl⟩
    · simp [hw] at hw'

theorem Tallies.mem_unknown (h : m.Tallies E f) :
    (i, u) ∈ f.unknown ↔ UnknownAccess.Strongest {v | .unknown i v ∈ E} u :=
  h.ordered.mem_iff.trans (h.unknown i).eq_some_iff

theorem Tallies.exists_unknown (h : m.Tallies E f) (hu : .unknown i u ∈ E) :
    ∃ v, (i, v) ∈ f.unknown := by
  obtain ⟨v, hv⟩ := (h.unknown i).eq_some_of_mem hu
  exact ⟨v, h.ordered.mem_iff.2 hv⟩

theorem Tallies.hasUnknownInst_iff (h : m.Tallies E f) :
    f.hasUnknownInst i = true ↔ ∃ u, .unknown i u ∈ E := by
  rw [Footprint.hasUnknownInst, List.any_eq_true]
  constructor
  · rintro ⟨⟨j, u⟩, hu, hj⟩
    obtain rfl : j = i := by simpa using hj
    exact (h.mem_unknown.1 hu).nonempty
  · rintro ⟨u, hu⟩
    obtain ⟨v, hv⟩ := h.exists_unknown hu
    exact ⟨(i, v), hv, beq_self_eq_true i⟩

/-- Some event does on one side what the footprint says that something unknown does. -/
theorem Tallies.any_unknown (h : m.Tallies E f) {side : UnknownAccess → Assurance}
    (hside : ∀ {s u}, UnknownAccess.Strongest s u → IsGreatest (side '' s) (side u)) :
    (f.unknown.any fun e => (side e.2).isAny) = true ↔
      ∃ i u, .unknown i u ∈ E ∧ (side u).isAny = true := by
  rw [List.any_eq_true]
  constructor
  · rintro ⟨⟨i, u⟩, hu, hany⟩
    obtain ⟨v, hv, hvu⟩ := (hside (h.mem_unknown.1 hu)).1
    exact ⟨i, v, hv, hvu ▸ hany⟩
  · rintro ⟨i, v, hv, hany⟩
    obtain ⟨u, hu⟩ := h.exists_unknown hv
    have hle := (hside (h.mem_unknown.1 hu)).2 ⟨v, hv, rfl⟩
    exact ⟨(i, u), hu, Assurance.isAny_mono hle hany⟩

theorem Tallies.hasUnknownWrites_iff (h : m.Tallies E f) : f.hasUnknownWrites = true ↔
    ∃ i u, .unknown i u ∈ E ∧ u.write.isAny = true :=
  h.any_unknown fun hs => hs.write

theorem Tallies.hasUnknownReads_iff (h : m.Tallies E f) : f.hasUnknownReads = true ↔
    ∃ i u, .unknown i u ∈ E ∧ u.read.isAny = true :=
  h.any_unknown fun hs => hs.read

theorem tallies_of_events {es : List Event} (h : es.foldlM m.recordEvent {} = .ok f) :
    m.Tallies {e | e ∈ es} f := by
  refine foldlM_inv (fun es f => m.Tallies {e | e ∈ es} f) h (by simpa using tallies_empty) ?_
  rintro before e after s u - ih hu
  have hset : {d | d ∈ before ++ [e]} = insert e {d | d ∈ before} := by
    ext d
    simp [or_comm]
  rw [hset]
  cases e with
  | access a =>
    obtain rfl : m.recordAccess s a = u := Except.ok.inj hu
    exact ih.access a
  | unknown i w =>
    obtain ⟨-, rfl⟩ := recordUnknown_eq_ok.1 hu
    exact ih.unknownAccess i w

theorem tallies_of_blockFootprint (h : m.blockFootprint insts = .ok f) :
    m.Tallies {e | e ∈ m.blockEvents insts} f :=
  tallies_of_events (by rwa [blockFootprint_eq] at h)

/- The footprints of a region's nodes add up. -/

theorem Tallies.absorb (h : m.Tallies E f) (h' : m.Tallies E' g) (exiting input : Reaching) :
    m.Tallies (E ∪ E') (f.absorb m.aliases exiting input g) where
  explicit l := by
    rw [Footprint.mem_explicit_absorb, h.explicit, h'.explicit]
    simp [or_and_right, exists_or]
  addresses b := by
    rw [Footprint.mem_addresses_absorb, h.addresses, h'.addresses]
    simp only [Set.mem_union, or_and_right, exists_or]
  ordered := (UnknownInsts.lookup_foldl_record h.ordered h'.ordered).1
  unknown i := by
    rw [Footprint.unknown_absorb,
      (UnknownInsts.lookup_foldl_record h.ordered h'.ordered).2]
    exact (h.unknown i).union (h'.unknown i)
  uses l hl := by
    rw [Footprint.mem_explicit_absorb]
    exact (Footprint.mem_uses_absorb.1 hl).imp (h.uses l) fun hl => h'.uses l hl.1
  touched l hl := by
    rw [Footprint.mem_explicit_absorb]
    exact (Footprint.writes_absorb.1 hl).imp (h.touched l) (h'.touched l)
  writes a ha hw := by
    rw [Footprint.writes_absorb]
    exact ha.imp (h.writes a · hw) (h'.writes a · hw)
  written hu l hl := by
    rw [Footprint.hasUnknownWrites_absorb, Bool.or_eq_false_iff] at hu
    rcases Footprint.writes_absorb.1 hl with hl | hl
    · obtain ⟨a, ha, hw⟩ := h.written hu.1 l hl
      exact ⟨a, .inl ha, hw⟩
    · obtain ⟨a, ha, hw⟩ := h'.written hu.2 l hl
      exact ⟨a, .inr ha, hw⟩

theorem Tallies.downgrade (h : m.Tallies E f) : m.Tallies E f.downgrade where
  explicit := h.explicit
  addresses := h.addresses
  ordered := h.ordered
  unknown := h.unknown
  uses := h.uses
  touched l hl := h.touched l (Footprint.writes_downgrade.1 hl)
  writes a ha hw := Footprint.writes_downgrade.2 (h.writes a ha hw)
  written hu l hl := h.written hu l (Footprint.writes_downgrade.1 hl)

theorem Tallies.widen {repeats : Bool} (h : m.Tallies E f) : m.Tallies E (f.widen repeats) where
  explicit := by simpa using h.explicit
  addresses := by simpa using h.addresses
  ordered := by simpa using h.ordered
  unknown := by simpa using h.unknown
  uses l hl := by
    rw [Footprint.explicit_widen]
    rcases Footprint.mem_uses_widen_iff.1 hl with hl | ⟨-, -, hl⟩
    · exact h.uses l hl
    · exact h.mem_tracked.1 hl
  touched l hl := by
    rw [Footprint.explicit_widen]
    exact (Footprint.writes_widen.1 hl).elim (h.touched l) And.right
  writes a ha hw := Footprint.writes_widen.2 (.inl (h.writes a ha hw))
  written hu l hl := by
    rw [Footprint.hasUnknownWrites, Footprint.unknown_widen] at hu
    rcases Footprint.writes_widen.1 hl with hl | ⟨hw, -⟩
    · exact h.written hu l hl
    · simp [Footprint.hasUnknownWrites, hu] at hw

end Memory
end LoopMemory
