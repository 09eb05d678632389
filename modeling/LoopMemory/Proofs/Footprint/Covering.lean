import LoopMemory.Proofs.Addresses
import LoopMemory.Proofs.Footprint.ClosedForm

/-! Reads that a block does not expose. Each of them has a definition before it that covers it; what
the alias model says about the two depends on their tags alone. -/
namespace LoopMemory.Memory
variable {m : Memory} {f : Footprint} {a d : Access} {l : Location} {i : Inst}
  {insts done rest : List Inst} {pre post : List Access}

/-- The access is a definition at a place in a block, behind the instructions `done` and the
accesses `pre` of the next one: it surely writes, stands before that place, and no instruction in
between writes unknown memory. -/
def Standing (m : Memory) (done : List Inst) (pre : List Access) (d : Access) : Prop :=
  m.writeOf d = .must ∧ (d ∈ pre ∨ m.Lately done fun i => d ∈ m.accessesOf i)

theorem Standing.mem (h : m.Standing done pre d) : d ∈ pre ∨ ∃ i ∈ done, d ∈ m.accessesOf i := by
  cases h.2 with
  | inl hd => exact .inl hd
  | inr hd =>
    obtain ⟨before, i, behind, rfl, -, hd⟩ := hd
    exact .inr ⟨i, by simp, hd⟩

theorem standing_of_secures (h : m.Secures pre l) :
    ∃ d, m.Standing done pre d ∧ d.location.covers l = true := by
  obtain ⟨d, hd, hw, hc⟩ := h
  exact ⟨d, ⟨hw, .inl hd⟩, hc⟩

theorem standing_of_secured (h : m.Secured done l) :
    ∃ d, m.Standing done pre d ∧ d.location.covers l = true := by
  obtain ⟨before, i, behind, he, hs, d, hd, hw, hc⟩ := h
  exact ⟨d, ⟨hw, .inr ⟨before, i, behind, he, hs, hd⟩⟩, hc⟩

/-- At a place in a block, the definitions so far cover the location: a read of it there is passed
over and makes it no use. -/
def PassedOver (m : Memory) (done : List Inst) (pre : List Access) (l : Location) : Prop :=
  ∃ g, m.blockFootprint done = .ok g ∧ (pre.foldl m.recordAccess g).defs.covers l = true

theorem exists_standing (h : m.PassedOver done pre l) :
    ∃ d, m.Standing done pre d ∧ d.location.covers l = true := by
  obtain ⟨g, hg, hc⟩ := h
  by_cases hdone : m.Secured done l
  · exact standing_of_secured hdone
  by_cases hpre : m.Secures pre l
  · exact standing_of_secures hpre
  have hopen := covers_accesses.2 ⟨(covers_block hg).2 hdone, hpre⟩
  rw [hc] at hopen
  cases hopen

/-- A read whose location is no use in the end was passed over. -/
theorem passedOver_of_not_mem_uses (h : m.blockFootprint insts = .ok f)
    (hi : insts = done ++ i :: rest) (ha : m.accessesOf i = pre ++ a :: post)
    (hr : a.read.isAny = true) (hu : a.location ∉ f.uses) : m.PassedOver done pre a.location := by
  have hbusy := exists_blockFootprint.1 ⟨f, h⟩
  obtain ⟨g, hg⟩ : ∃ g, m.blockFootprint done = .ok g :=
    exists_blockFootprint.2 fun j hj => hbusy j (by simp [hi, hj])
  refine ⟨g, hg, ?_⟩
  by_contra hopen
  obtain ⟨hdone, hpre⟩ := covers_accesses.1 (Bool.eq_false_iff.2 hopen)
  have hexposed : m.Exposes (m.accessesOf i) a.location := ⟨pre, a, post, ha, hr, rfl, hpre⟩
  exact hu ((mem_uses_block h).2
    (.inl ⟨done, i, rest, hi, (covers_block hg).1 hdone, hexposed⟩))

/-- What covers a location that is not empty may overlap it, unless their tags tell the two apart.
So does a definition behind which a block passes over a read, and each read that the uses leave out
is passed over. -/
theorem covering_overlaps (model : AliasModel) :
    (∀ a b : Location, b.size ≠ .bytes 0 → a.covers b = true →
      (model.overlap a b ≠ .none ↔ a.Compatible b)) ∧
    ∀ (m : Memory) (insts done rest : List Inst) (i : Inst) (pre post : List Access) (a : Access)
      (f : Footprint), m.aliases = model.overlap → m.blockFootprint insts = .ok f →
      insts = done ++ i :: rest → m.accessesOf i = pre ++ a :: post → a.read.isAny = true →
      a.location.size ≠ .bytes 0 →
      (a.location ∉ f.uses → m.PassedOver done pre a.location) ∧
      (m.PassedOver done pre a.location →
        ∃ d, m.Standing done pre d ∧ d.location.covers a.location = true ∧
          (m.aliases d.location a.location ≠ .none ↔ d.location.Compatible a.location)) := by
  have hoverlap : ∀ a b : Location, b.size ≠ .bytes 0 → a.covers b = true →
      (model.overlap a b ≠ .none ↔ a.Compatible b) := by
    intro a b hb hc
    rw [ne_eq, AliasModel.overlap_eq_none_iff_of_covers hb hc, not_not]
  refine ⟨hoverlap, ?_⟩
  intro m insts done rest i pre post a f hm h hi ha hr hsize
  constructor
  · exact passedOver_of_not_mem_uses h hi ha hr
  · intro hpassed
    obtain ⟨d, hd, hc⟩ := exists_standing hpassed
    exact ⟨d, hd, hc, hm ▸ hoverlap d.location a.location hsize hc⟩

/-- Instruction 0 stores to one location, any other one loads from another location. -/
def storeThenLoad (k l : Location) : Memory where
  effects
    | 0 => some { accesses := [⟨k, 0, .no, .must⟩] }
    | _ => some { accesses := [⟨l, 0, .must, .no⟩] }
  aliases := AliasModel.overlap {}
  escapes _ := false
  settings := {}

theorem unexposed_storeThenLoad {k : Location} (hc : k.covers l = true) :
    ∃ f, (storeThenLoad k l).blockFootprint [0, 1] = .ok f ∧ l ∉ f.uses := by
  let m := storeThenLoad k l
  let stored := m.recordAccess {} ⟨k, 0, .no, .must⟩
  refine ⟨m.recordAccess stored ⟨l, 0, .must, .no⟩, rfl, fun hl => ?_⟩
  cases mem_uses_recordAccess.1 hl with
  | inl hl => simp [stored, mem_uses_recordAccess, Assurance.isAny] at hl
  | inr hl =>
    have hcovered : stored.defs.covers l = true :=
      SortedSet.covers_iff.2 ⟨k, mem_defs_recordAccess.2 (.inr ⟨rfl, rfl⟩), hc⟩
    rw [hl.2.1] at hcovered
    cases hcovered

theorem Standing.eq_of_storeThenLoad {k : Location} (h : (storeThenLoad k l).Standing [0] [] d) :
    d.location = k := by
  cases h.mem with
  | inl hd => cases hd
  | inr hd =>
    obtain ⟨i, hi, hd⟩ := hd
    cases List.mem_singleton.1 hi
    cases List.mem_singleton.1 hd
    rfl

def eightBytes : Location := ⟨1, 0, .bytes 8, none⟩

def upperHalf : Location := ⟨1, 4, .bytes 4, some 3⟩

theorem covering_overlaps_upperHalf : upperHalf.size ≠ .bytes 0 ∧
    eightBytes.covers upperHalf = true ∧ AliasModel.overlap {} eightBytes upperHalf ≠ .none ∧
    (∃ f, (storeThenLoad eightBytes upperHalf).blockFootprint [0, 1] = .ok f ∧
      upperHalf ∉ f.uses) ∧
    ∃ d, (storeThenLoad eightBytes upperHalf).Standing [0] [] d ∧
      d.location.covers upperHalf = true ∧ AliasModel.overlap {} d.location upperHalf ≠ .none := by
  have hsize : upperHalf.size ≠ .bytes 0 := by decide
  have hcovers : eightBytes.covers upperHalf = true := by decide
  have hwhole : eightBytes.Compatible upperHalf := .inr (.inl rfl)
  obtain ⟨f, hf, hu⟩ := unexposed_storeThenLoad hcovers
  obtain ⟨hpassed, hstands⟩ := (covering_overlaps {}).2 (storeThenLoad eightBytes upperHalf)
    [0, 1] [0] [] 1 [] [] ⟨upperHalf, 0, .must, .no⟩ f rfl hf rfl rfl rfl hsize
  obtain ⟨d, hd, hc, hoverlap⟩ := hstands (hpassed hu)
  refine ⟨hsize, hcovers, ((covering_overlaps {}).1 eightBytes upperHalf hsize hcovers).2 hwhole,
    ⟨f, hf, hu⟩, d, hd, hc, hoverlap.2 ?_⟩
  rw [hd.eq_of_storeThenLoad]
  exact hwhole

def eightBytesAs (tag : Nat) : Location := ⟨1, 0, .bytes 8, some tag⟩

/-- The store covers the load although different tags keep them apart. So the load is not exposed,
and no definition before it may overlap it. -/
theorem covering_apart_retagged : (eightBytesAs 2).size ≠ .bytes 0 ∧
    (eightBytesAs 1).covers (eightBytesAs 2) = true ∧
    AliasModel.overlap {} (eightBytesAs 1) (eightBytesAs 2) = .none ∧
    (∃ f, (storeThenLoad (eightBytesAs 1) (eightBytesAs 2)).blockFootprint [0, 1] = .ok f ∧
      eightBytesAs 2 ∉ f.uses) ∧
    ∀ d, (storeThenLoad (eightBytesAs 1) (eightBytesAs 2)).Standing [0] [] d →
      AliasModel.overlap {} d.location (eightBytesAs 2) = .none := by
  have hnone : AliasModel.overlap {} (eightBytesAs 1) (eightBytesAs 2) = .none := by decide
  refine ⟨by decide, by decide, hnone, unexposed_storeThenLoad (by decide), fun d hd => ?_⟩
  rw [hd.eq_of_storeThenLoad]
  exact hnone

end LoopMemory.Memory
