import LoopMemory.Proofs.Footprint.Tally
import Mathlib.Data.List.Induction

/-! The footprint of a block in closed form. Each of its sets is read off the instructions by their
positions, without the footprints of the shorter blocks that it was built through. -/
namespace LoopMemory

/- A position in a list with one more item is the new one, or one of the old list. -/
theorem exists_split_snoc {α : Type} {P : List α → α → List α → Prop} {l : List α} {b : α} :
    (∃ before a after, l ++ [b] = before ++ a :: after ∧ P before a after) ↔
      P l b [] ∨ ∃ before a after, l = before ++ a :: after ∧ P before a (after ++ [b]) := by
  constructor
  · rintro ⟨before, a, after, h, hP⟩
    cases List.eq_nil_or_concat after with
    | inl hnil =>
      subst hnil
      obtain ⟨hl, hb⟩ := List.append_inj' h rfl
      obtain rfl := List.singleton_inj.1 hb
      exact .inl (hl ▸ hP)
    | inr hconcat =>
      obtain ⟨after', c, rfl⟩ := hconcat
      have h' : l ++ [b] = (before ++ a :: after') ++ [c] := by simpa using h
      obtain ⟨hl, hb⟩ := List.append_inj' h' rfl
      obtain rfl := List.singleton_inj.1 hb
      exact .inr ⟨before, a, after', hl, by simpa using hP⟩
  · intro h
    cases h with
    | inl hP => exact ⟨l, b, [], rfl, hP⟩
    | inr h =>
      obtain ⟨before, a, after, rfl, hP⟩ := h
      exact ⟨before, a, after ++ [b], by simp, hP⟩

namespace Memory
variable {m : Memory} {f g : Footprint} {a : Access} {as : List Access} {l : Location} {b : Base}
  {i j : Inst} {u : UnknownAccess} {insts done : List Inst}

/- What an instruction does, in parts. -/

/-- The accesses of an instruction, in order. One that is not resolved has none. -/
def accessesOf (m : Memory) (i : Inst) : List Access := ((m.effects i).map Effect.accesses).getD []

/-- What an instruction may do to memory that no location pins down, after its accesses. -/
def unknownOf (m : Memory) (i : Inst) : Option UnknownAccess :=
  match m.effects i with
  | none => some .conservative
  | some e => e.unknown

/-- The instruction may read memory that no location pins down. -/
def peeks (m : Memory) (i : Inst) : Bool := (m.unknownOf i).any fun u => u.read.isAny

/-- The instruction may write memory that no location pins down. -/
def spoils (m : Memory) (i : Inst) : Bool := (m.unknownOf i).any fun u => u.write.isAny

/-- One of the instructions reads or writes the location. -/
def Touches (m : Memory) (insts : List Inst) (l : Location) : Prop :=
  ∃ i ∈ insts, ∃ a ∈ m.accessesOf i, a.isAddressOnly = false ∧ a.location = l

/-- One of the accesses is a certain write that covers the location. -/
def Secures (m : Memory) (as : List Access) (l : Location) : Prop :=
  ∃ a ∈ as, m.writeOf a = .must ∧ a.location.covers l = true

/-- One of the accesses reads the location, and no certain write before it covers it. -/
def Exposes (m : Memory) (as : List Access) (l : Location) : Prop :=
  ∃ pre a post, as = pre ++ a :: post ∧ a.read.isAny = true ∧ a.location = l ∧ ¬m.Secures pre l

/-- An instruction with the property stands behind the last one that writes unknown memory. -/
def Lately (m : Memory) (insts : List Inst) (Q : Inst → Prop) : Prop :=
  ∃ done i rest, insts = done ++ i :: rest ∧ (∀ j ∈ i :: rest, m.spoils j = false) ∧ Q i

/-- A certain write covers the location, behind the last instruction that writes unknown memory. -/
def Secured (m : Memory) (insts : List Inst) (l : Location) : Prop :=
  m.Lately insts fun i => m.Secures (m.accessesOf i) l

theorem instEvents_eq (m : Memory) (i : Inst) : m.instEvents i =
    (m.accessesOf i).map .access ++ ((m.unknownOf i).map (.unknown i)).toList := by
  unfold instEvents accessesOf unknownOf
  cases m.effects i <;> rfl

theorem access_mem_blockEvents :
    .access a ∈ m.blockEvents insts ↔ ∃ i ∈ insts, a ∈ m.accessesOf i := by
  simp [blockEvents, instEvents_eq]

theorem unknown_mem_blockEvents :
    .unknown i u ∈ m.blockEvents insts ↔ i ∈ insts ∧ m.unknownOf i = some u := by
  simp [blockEvents, instEvents_eq]

theorem lately_snoc {Q : Inst → Prop} :
    m.Lately (insts ++ [i]) Q ↔ m.spoils i = false ∧ (m.Lately insts Q ∨ Q i) := by
  unfold Lately
  rw [exists_split_snoc]
  simp only [← List.cons_append, List.forall_mem_append, List.forall_mem_singleton]
  constructor
  · intro h
    cases h with
    | inl h => exact ⟨h.1, .inr h.2⟩
    | inr h =>
      obtain ⟨done, k, rest, he, ⟨hs, hi⟩, hk⟩ := h
      exact ⟨hi, .inl ⟨done, k, rest, he, hs, hk⟩⟩
  · intro h
    obtain ⟨hi, h⟩ := h
    cases h with
    | inl h =>
      obtain ⟨done, k, rest, he, hs, hk⟩ := h
      exact .inr ⟨done, k, rest, he, ⟨hs, hi⟩, hk⟩
    | inr hk => exact .inl ⟨hi, hk⟩

/- The accesses of one instruction, taken into a footprint in their order. -/

/- What accesses put into a footprint, whatever their order, some of them put there. -/
theorem accesses_iff {P : Footprint → Prop} {Q : Access → Prop}
    (step : ∀ f a, P (m.recordAccess f a) ↔ P f ∨ Q a) :
    P (as.foldl m.recordAccess f) ↔ P f ∨ ∃ a ∈ as, Q a := by
  induction as generalizing f with
  | nil => simp
  | cons a as ih =>
    rw [List.foldl_cons, ih, step, or_assoc]
    simp

theorem mem_defs_accesses : l ∈ (as.foldl m.recordAccess f).defs ↔
    l ∈ f.defs ∨ ∃ a ∈ as, m.writeOf a = .must ∧ l = a.location :=
  accesses_iff (P := fun f => l ∈ f.defs) fun _ _ => mem_defs_recordAccess

theorem mem_mayDefs_accesses : l ∈ (as.foldl m.recordAccess f).mayDefs ↔
    l ∈ f.mayDefs ∨ ∃ a ∈ as, m.writeOf a = .may ∧ l = a.location :=
  accesses_iff (P := fun f => l ∈ f.mayDefs) fun _ _ => mem_mayDefs_recordAccess

theorem mem_explicit_accesses : l ∈ (as.foldl m.recordAccess f).explicit.locations ↔
    l ∈ f.explicit.locations ∨ ∃ a ∈ as, a.isAddressOnly = false ∧ l = a.location :=
  accesses_iff (P := fun f => l ∈ f.explicit.locations) fun _ _ => mem_explicit_recordAccess

theorem writes_accesses : (as.foldl m.recordAccess f).Writes l ↔
    f.Writes l ∨ ∃ a ∈ as, a.write.isAny = true ∧ l = a.location :=
  accesses_iff (P := fun f => f.Writes l) fun _ _ => writes_recordAccess

theorem covers_accesses : (as.foldl m.recordAccess f).defs.covers l = false ↔
    f.defs.covers l = false ∧ ¬m.Secures as l := by
  have hcovers : (as.foldl m.recordAccess f).defs.covers l = true ↔
      f.defs.covers l = true ∨ m.Secures as l := by
    simp only [SortedSet.covers_iff, mem_defs_accesses, or_and_right, exists_or, Secures]
    refine or_congr_right ⟨fun h => ?_, fun h => ?_⟩
    · obtain ⟨_, ⟨a, ha, hw, rfl⟩, hc⟩ := h
      exact ⟨a, ha, hw, hc⟩
    · obtain ⟨a, ha, hw, hc⟩ := h
      exact ⟨a.location, ⟨a, ha, hw, rfl⟩, hc⟩
  rw [← Bool.not_eq_true, hcovers, not_or, Bool.not_eq_true]

/-- A read is exposed unless something covers it by then, also within its instruction. -/
theorem mem_uses_accesses : l ∈ (as.foldl m.recordAccess f).uses ↔
    l ∈ f.uses ∨ (f.defs.covers l = false ∧ m.Exposes as l) := by
  unfold Exposes
  induction as using List.reverseRecOn with
  | nil => simp
  | append_singleton as a ih =>
    rw [List.foldl_append, List.foldl_cons, List.foldl_nil, mem_uses_recordAccess, ih,
      exists_split_snoc, and_or_left, or_assoc, or_comm (a := f.defs.covers l = false ∧ ∃ pre, _)]
    refine or_congr_right (or_congr_left ?_)
    rw [covers_accesses]
    constructor
    · intro h
      obtain ⟨hr, ⟨hf, hs⟩, rfl⟩ := h
      exact ⟨hf, hr, rfl, hs⟩
    · intro h
      obtain ⟨hf, hr, rfl, hs⟩ := h
      exact ⟨hr, ⟨hf, hs⟩, rfl⟩

theorem touched_accesses (ht : ∀ k, f.Writes k → k ∈ f.explicit.locations) :
    (as.foldl m.recordAccess f).Writes l → l ∈ (as.foldl m.recordAccess f).explicit.locations := by
  rw [writes_accesses, mem_explicit_accesses]
  intro h
  cases h with
  | inl h => exact .inl (ht l h)
  | inr h =>
    obtain ⟨a, ha, hw, hl⟩ := h
    exact .inr ⟨a, ha, Access.isAddressOnly_eq_false.2 (.inr hw), hl⟩

/- One instruction: its accesses first, and then what it does to unknown memory. -/

theorem exists_of_recordEffect (h : m.recordEffect f i (m.effects i) = .ok g) :
    ∃ u, u.read.isAny = m.peeks i ∧ u.write.isAny = m.spoils i ∧ g =
      { ((m.accessesOf i).foldl m.recordAccess f).applyUnknown u with unknown := g.unknown } := by
  unfold peeks spoils accessesOf
  unfold unknownOf
  cases he : m.effects i with
  | none =>
    rw [he] at h
    obtain ⟨-, rfl⟩ := recordUnknown_eq_ok.1 h
    exact ⟨.conservative, rfl, rfl, rfl⟩
  | some e =>
    simp only [he, recordEffect] at h
    cases hu : e.unknown with
    | none =>
      rw [hu] at h
      obtain rfl := Except.ok.inj h
      exact ⟨⟨.no, .no⟩, by simp [hu, Assurance.isAny], by simp [hu, Assurance.isAny], rfl⟩
    | some u =>
      rw [hu] at h
      obtain ⟨-, rfl⟩ := recordUnknown_eq_ok.1 h
      refine ⟨u, by simp [hu], by simp [hu], ?_⟩
      rw [Footprint.applyUnknown_unknown]
      rfl

section Step
variable (h : m.recordEffect f i (m.effects i) = .ok g)
include h

theorem mem_defs_inst : l ∈ g.defs ↔ m.spoils i = false ∧
    (l ∈ f.defs ∨ ∃ a ∈ m.accessesOf i, m.writeOf a = .must ∧ l = a.location) := by
  obtain ⟨u, -, hw, hg⟩ := exists_of_recordEffect h
  rw [hg, Footprint.defs_applyUnknown, hw, ← mem_defs_accesses]
  cases m.spoils i <;> simp

theorem mem_mayDefs_inst (ht : ∀ k, f.Writes k → k ∈ f.explicit.locations) :
    l ∈ g.mayDefs ↔ l ∈ f.mayDefs ∨ (∃ a ∈ m.accessesOf i, m.writeOf a = .may ∧ l = a.location) ∨
      (m.spoils i = true ∧ l ∈ g.explicit.locations) := by
  obtain ⟨u, -, hw, hg⟩ := exists_of_recordEffect h
  rw [hg, Footprint.mem_mayDefs_applyUnknown, hw, Footprint.explicit_applyUnknown,
    mem_mayDefs_accesses, or_assoc, Footprint.mem_tracked,
    or_iff_left_of_imp (touched_accesses ht)]

theorem mem_uses_inst (ht : ∀ k, f.Writes k → k ∈ f.explicit.locations) :
    l ∈ g.uses ↔ l ∈ f.uses ∨ (f.defs.covers l = false ∧ m.Exposes (m.accessesOf i) l) ∨
      (m.peeks i = true ∧ l ∈ g.explicit.locations ∧ f.defs.covers l = false ∧
        ¬m.Secures (m.accessesOf i) l) := by
  obtain ⟨u, hr, -, hg⟩ := exists_of_recordEffect h
  rw [hg, Footprint.mem_uses_applyUnknown_iff, hr, Footprint.explicit_applyUnknown,
    mem_uses_accesses, or_assoc, Footprint.mem_tracked, or_iff_left_of_imp (touched_accesses ht),
    covers_accesses]

end Step

/- A block, one instruction after the other. -/

theorem blockFootprint_snoc : m.blockFootprint (insts ++ [i]) = .ok g ↔
    ∃ f, m.blockFootprint insts = .ok f ∧ m.recordEffect f i (m.effects i) = .ok g := by
  simp only [blockFootprint_eq, blockEvents, List.flatMap_append, List.flatMap_singleton,
    List.foldlM_append, bind_eq_ok, recordEffect_eq]

/-- A block is refused just where an instruction has an unknown access that does nothing. -/
theorem exists_blockFootprint : (∃ f, m.blockFootprint insts = .ok f) ↔
    ∀ i ∈ insts, ∀ u, m.unknownOf i = some u → u.isIdle = false := by
  constructor
  · intro h i hi u hu
    obtain ⟨f, h⟩ := h
    rw [blockFootprint_eq] at h
    refine foldlM_inv (fun es _ => ∀ i u, .unknown i u ∈ es → u.isIdle = false) h (by simp) ?_ i u
      (unknown_mem_blockEvents.2 ⟨hi, hu⟩)
    intro before e after s t _ ih ht i u hu
    cases List.mem_append.1 hu with
    | inl hu => exact ih i u hu
    | inr hu =>
      rw [← List.mem_singleton.1 hu] at ht
      exact (recordUnknown_eq_ok.1 ht).1
  · intro h
    refine blockFootprint_ok fun i u hu => ?_
    obtain ⟨hi, hu⟩ := unknown_mem_blockEvents.1 hu
    exact h i hi u hu

theorem exists_access_block {Q : Access → Prop} :
    (∃ a, .access a ∈ m.blockEvents insts ∧ Q a) ↔ ∃ i ∈ insts, ∃ a ∈ m.accessesOf i, Q a := by
  constructor
  · intro h
    obtain ⟨a, ha, hq⟩ := h
    obtain ⟨i, hi, ha⟩ := access_mem_blockEvents.1 ha
    exact ⟨i, hi, a, ha, hq⟩
  · intro h
    obtain ⟨i, hi, a, ha, hq⟩ := h
    exact ⟨a, access_mem_blockEvents.2 ⟨i, hi, ha⟩, hq⟩

section Block
variable (h : m.blockFootprint insts = .ok f)
include h

theorem mem_explicit_block : l ∈ f.explicit.locations ↔ m.Touches insts l := by
  rw [(tallies_of_blockFootprint h).explicit]
  exact exists_access_block

theorem mem_addresses_block : b ∈ f.addresses ↔ ∃ i ∈ insts, ∃ a ∈ m.accessesOf i,
    (a.isAddressOnly = true ∨ m.escapes a.location = true) ∧ a.location.base = b := by
  rw [(tallies_of_blockFootprint h).addresses]
  exact exists_access_block

theorem mem_unknown_block : (i, u) ∈ f.unknown ↔ i ∈ insts ∧ m.unknownOf i = some u := by
  rw [(tallies_of_blockFootprint h).mem_unknown]
  have hset : {v | Event.unknown i v ∈ {e | e ∈ m.blockEvents insts}} =
      {v | i ∈ insts ∧ m.unknownOf i = some v} := by
    ext v
    exact unknown_mem_blockEvents
  rw [hset]
  constructor
  · intro hu
    obtain ⟨v, hi, hv⟩ := hu.nonempty
    have hone : {w | i ∈ insts ∧ m.unknownOf i = some w} = {v} := by
      ext w
      simp [hi, hv, eq_comm (a := v)]
    rw [hone] at hu
    exact ⟨hi, hv.trans (congrArg some ((UnknownAccess.strongest_singleton v).unique hu))⟩
  · intro hu
    have hone : {v | i ∈ insts ∧ m.unknownOf i = some v} = {u} := by
      ext v
      simp [hu.1, hu.2, eq_comm (a := u)]
    rw [hone]
    exact UnknownAccess.strongest_singleton u

theorem mem_defs_block : l ∈ f.defs ↔
    m.Lately insts fun i => ∃ a ∈ m.accessesOf i, m.writeOf a = .must ∧ l = a.location := by
  induction insts using List.reverseRecOn generalizing f with
  | nil =>
    obtain rfl : {} = f := Except.ok.inj h
    simp [Lately]
  | append_singleton insts i ih =>
    obtain ⟨g, hg, hf⟩ := blockFootprint_snoc.1 h
    rw [mem_defs_inst hf, ih hg, lately_snoc]

theorem covers_block : f.defs.covers l = false ↔ ¬m.Secured insts l := by
  rw [← Bool.not_eq_true, SortedSet.covers_iff]
  refine not_congr ⟨fun hl => ?_, fun hl => ?_⟩
  · obtain ⟨d, hd, hc⟩ := hl
    obtain ⟨done, i, rest, he, hs, a, ha, hw, rfl⟩ := (mem_defs_block h).1 hd
    exact ⟨done, i, rest, he, hs, a, ha, hw, hc⟩
  · obtain ⟨done, i, rest, he, hs, a, ha, hw, hc⟩ := hl
    exact ⟨a.location, (mem_defs_block h).2 ⟨done, i, rest, he, hs, a, ha, hw, rfl⟩, hc⟩

theorem mem_mayDefs_block : l ∈ f.mayDefs ↔
    (∃ i ∈ insts, ∃ a ∈ m.accessesOf i, m.writeOf a = .may ∧ l = a.location) ∨
      ∃ done i rest, insts = done ++ i :: rest ∧ m.spoils i = true ∧ m.Touches (done ++ [i]) l := by
  induction insts using List.reverseRecOn generalizing f with
  | nil =>
    obtain rfl : {} = f := Except.ok.inj h
    simp
  | append_singleton insts i ih =>
    obtain ⟨g, hg, hf⟩ := blockFootprint_snoc.1 h
    have htouched := (tallies_of_blockFootprint hg).touched
    rw [mem_mayDefs_inst hf htouched, ih hg, mem_explicit_block h, exists_split_snoc]
    simp only [List.mem_append, List.mem_singleton, or_and_right, exists_or, exists_eq_left]
    exact or_or_or_comm.trans (or_congr_right or_comm)

theorem mem_uses_block : l ∈ f.uses ↔
    (∃ done i rest, insts = done ++ i :: rest ∧ ¬m.Secured done l ∧
      m.Exposes (m.accessesOf i) l) ∨
    ∃ done i rest, insts = done ++ i :: rest ∧ m.peeks i = true ∧ m.Touches (done ++ [i]) l ∧
      ¬m.Secured done l ∧ ¬m.Secures (m.accessesOf i) l := by
  induction insts using List.reverseRecOn generalizing f with
  | nil =>
    obtain rfl : {} = f := Except.ok.inj h
    simp
  | append_singleton insts i ih =>
    obtain ⟨g, hg, hf⟩ := blockFootprint_snoc.1 h
    have htouched := (tallies_of_blockFootprint hg).touched
    rw [mem_uses_inst hf htouched, ih hg, mem_explicit_block h, covers_block hg, exists_split_snoc,
      exists_split_snoc]
    exact or_or_or_comm.trans (or_congr or_comm or_comm)

end Block

/-- What a footprint says of a list of instructions.

Definitions are the certain writes behind the last instruction that writes unknown memory. Possible
definitions are the uncertain writes, and all that is read or written up to that instruction, its
own accesses included. A use is a read that no certain write covers which stands before it and
behind the last unknown write; and where an instruction reads unknown memory, a use is also every
location touched up to there that no such write covers. -/
structure ClosedForm (m : Memory) (insts : List Inst) (f : Footprint) : Prop where
  defs : ∀ l, l ∈ f.defs ↔
    m.Lately insts fun i => ∃ a ∈ m.accessesOf i, m.writeOf a = .must ∧ l = a.location
  mayDefs : ∀ l, l ∈ f.mayDefs ↔
    (∃ i ∈ insts, ∃ a ∈ m.accessesOf i, m.writeOf a = .may ∧ l = a.location) ∨
      ∃ done i rest, insts = done ++ i :: rest ∧ m.spoils i = true ∧ m.Touches (done ++ [i]) l
  uses : ∀ l, l ∈ f.uses ↔
    (∃ done i rest, insts = done ++ i :: rest ∧ ¬m.Secured done l ∧
      m.Exposes (m.accessesOf i) l) ∨
    ∃ done i rest, insts = done ++ i :: rest ∧ m.peeks i = true ∧ m.Touches (done ++ [i]) l ∧
      ¬m.Secured done l ∧ ¬m.Secures (m.accessesOf i) l
  explicit : ∀ l, l ∈ f.explicit.locations ↔ m.Touches insts l
  addresses : ∀ b, b ∈ f.addresses ↔ ∃ i ∈ insts, ∃ a ∈ m.accessesOf i,
    (a.isAddressOnly = true ∨ m.escapes a.location = true) ∧ a.location.base = b
  unknown : ∀ i u, (i, u) ∈ f.unknown ↔ i ∈ insts ∧ m.unknownOf i = some u

theorem closedForm_of_blockFootprint (h : m.blockFootprint insts = .ok f) :
    m.ClosedForm insts f where
  defs _ := mem_defs_block h
  mayDefs _ := mem_mayDefs_block h
  uses _ := mem_uses_block h
  explicit _ := mem_explicit_block h
  addresses _ := mem_addresses_block h
  unknown _ _ := mem_unknown_block h

theorem unknownOf_idle : (∃ u, m.unknownOf i = some u ∧ u.isIdle = true) ↔
    ∃ e u, m.effects i = some e ∧ e.unknown = some u ∧ u.isIdle = true := by
  unfold unknownOf
  cases m.effects i with
  | none => simp [UnknownAccess.conservative, UnknownAccess.isIdle, Assurance.isAny]
  | some e => simp

/-- A block is refused where an instruction that is resolved has an unknown access that neither
reads nor writes. Any other block has its footprint in closed form. -/
theorem blockFootprint_closed (m : Memory) (insts : List Inst) :
    ((∃ b, m.blockFootprint insts = .error b) ↔
      ∃ i ∈ insts, ∃ e u, m.effects i = some e ∧ e.unknown = some u ∧ u.isIdle = true) ∧
    ∀ f, m.blockFootprint insts = .ok f → m.ClosedForm insts f := by
  refine ⟨?_, fun f hf => closedForm_of_blockFootprint hf⟩
  simp only [← unknownOf_idle]
  have hrefused : (∃ b, m.blockFootprint insts = .error b) ↔
      ¬∃ f, m.blockFootprint insts = .ok f := by
    cases m.blockFootprint insts <;> simp
  rw [hrefused, exists_blockFootprint]
  push Not
  simp only [ne_eq, Bool.not_eq_false]

/-- A store to the first of two variables, something unresolved, a load of the first variable, and
a store to the second one. -/
def interrupted : Memory where
  effects
    | 0 => some { accesses := [⟨⟨1, 0, .bytes 8, none⟩, 0, .no, .must⟩] }
    | 1 => none
    | 2 => some { accesses := [⟨⟨1, 0, .bytes 8, none⟩, 0, .must, .no⟩] }
    | _ => some { accesses := [⟨⟨2, 0, .bytes 8, none⟩, 0, .no, .must⟩] }
  aliases := AliasModel.overlap {}
  escapes _ := false
  settings := {}

theorem blockFootprint_closed_interrupted : ∃ f, interrupted.blockFootprint [0, 1, 2, 3] = .ok f ∧
    interrupted.ClosedForm [0, 1, 2, 3] f ∧ f.defs = .ofList [⟨2, 0, .bytes 8, none⟩] ∧
    f.mayDefs = .ofList [⟨1, 0, .bytes 8, none⟩] ∧
    f.uses = .ofList [⟨1, 0, .bytes 8, none⟩] := by
  have hsets : ((interrupted.blockFootprint [0, 1, 2, 3]).toOption.map fun f =>
      (f.defs, f.mayDefs, f.uses)) = some (.ofList [⟨2, 0, .bytes 8, none⟩],
        .ofList [⟨1, 0, .bytes 8, none⟩], .ofList [⟨1, 0, .bytes 8, none⟩]) := by
    decide +kernel
  obtain ⟨f, hf, hsets⟩ := Option.map_eq_some_iff.1 hsets
  have hf := eq_ok_of_toOption hf
  simp only [Prod.mk.injEq] at hsets
  exact ⟨f, hf, (blockFootprint_closed interrupted [0, 1, 2, 3]).2 f hf, hsets⟩

end Memory
end LoopMemory
