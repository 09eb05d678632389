import LoopMemory.Proofs.Footprint
import LoopMemory.Proofs.Run

/-! The footprint of a block against the events of its instructions. -/
namespace LoopMemory.Memory
variable {m : Memory} {f g : Footprint} {a : Access} {l : Location} {b : Base} {insts : List Inst}

theorem writeOf_isAny : (m.writeOf a).isAny = a.write.isAny := by
  unfold writeOf
  split
  · cases a.write <;> rfl
  · rfl

theorem writeOf_addressOnly (h : a.isAddressOnly = true) : m.writeOf a = .no := by
  simp only [Access.isAddressOnly, Bool.and_eq_true, Bool.not_eq_true'] at h
  have hw := h.2
  rw [← writeOf_isAny (m := m)] at hw
  cases hm : m.writeOf a <;> simp [hm, Assurance.isAny] at hw ⊢

/-- What is on record as written with this much certainty. -/
def writtenAs (f : Footprint) : Assurance → LocationSet
  | .no => ∅
  | .may => f.mayDefs
  | .must => f.defs

theorem mem_writtenAs_recordAccess {w : Assurance} (hw : w.isAny = true) :
    l ∈ writtenAs (m.recordAccess f a) w ↔
      l ∈ writtenAs f w ∨ (m.writeOf a = w ∧ l = a.location) := by
  have hno : w ≠ .no := by
    rintro rfl
    cases hw
  unfold recordAccess
  by_cases ha : a.isAddressOnly = true
  · cases w <;> simp [ha, writtenAs, Footprint.addAddress, writeOf_addressOnly ha] at hno ⊢
  · simp only [ha, Bool.false_eq_true, if_false]
    cases w with
    | no => exact absurd rfl hno
    | may | must =>
      cases m.writeOf a <;> simp only [recordWrite] <;> split <;> split <;>
        simp [writtenAs, Footprint.addExplicit, Footprint.addAddress, Footprint.addUse,
          Footprint.addDef, Footprint.addMayDef, or_comm]

theorem mem_defs_recordAccess : l ∈ (m.recordAccess f a).defs ↔
    l ∈ f.defs ∨ (m.writeOf a = .must ∧ l = a.location) :=
  mem_writtenAs_recordAccess (w := .must) rfl

theorem mem_mayDefs_recordAccess : l ∈ (m.recordAccess f a).mayDefs ↔
    l ∈ f.mayDefs ∨ (m.writeOf a = .may ∧ l = a.location) :=
  mem_writtenAs_recordAccess (w := .may) rfl

theorem mem_uses_recordAccess : l ∈ (m.recordAccess f a).uses ↔ l ∈ f.uses ∨
    (a.read.isAny = true ∧ f.defs.covers a.location = false ∧ l = a.location) := by
  unfold recordAccess
  by_cases ha : a.isAddressOnly = true
  · have hr : a.read.isAny = false := by
      simp only [Access.isAddressOnly, Bool.and_eq_true, Bool.not_eq_true'] at ha
      exact ha.1
    simp [ha, Footprint.addAddress, hr]
  · simp only [ha, Bool.false_eq_true, if_false]
    cases a.read.isAny <;> cases m.writeOf a <;> simp only [recordWrite] <;> split <;>
      cases hc : f.defs.covers a.location <;>
      simp [Footprint.addExplicit, Footprint.addAddress, Footprint.addUse, Footprint.addDef,
        Footprint.addMayDef, or_comm, hc]

theorem mem_addresses_recordAccess : b ∈ (m.recordAccess f a).addresses ↔ b ∈ f.addresses ∨
    ((a.isAddressOnly = true ∨ m.escapes a.location = true) ∧ b = a.location.base) := by
  unfold recordAccess
  by_cases ha : a.isAddressOnly = true
  · simp [ha, Footprint.addAddress, or_comm]
  · simp only [ha, Bool.false_eq_true, if_false, false_or]
    cases m.escapes a.location <;> cases m.writeOf a <;>
      simp only [recordWrite, Bool.false_eq_true, if_true, if_false] <;> split <;>
      simp [Footprint.addExplicit, Footprint.addAddress, Footprint.addUse, Footprint.addDef,
        Footprint.addMayDef, or_comm]

@[simp] theorem unknown_recordAccess : (m.recordAccess f a).unknown = f.unknown := by
  unfold recordAccess
  split
  · rfl
  · cases m.writeOf a <;> simp only [recordWrite] <;> split <;> split <;> rfl

/-- Takes one event into a footprint. -/
def recordEvent (m : Memory) (f : Footprint) : Event → Except Breach Footprint
  | .access a => .ok (m.recordAccess f a)
  | .unknown i u => recordUnknown f i u

theorem recordUnknown_eq_ok {i : Inst} {u : UnknownAccess} : recordUnknown f i u = .ok g ↔
    u.isIdle = false ∧
      g = { f with unknown := UnknownInsts.record i u f.unknown }.applyUnknown u := by
  simp only [recordUnknown, bind_eq_ok, Footprint.addUnknown_eq_ok, pure_eq_ok]
  constructor
  · rintro ⟨_, ⟨hu, rfl⟩, rfl⟩
    exact ⟨hu, rfl⟩
  · rintro ⟨hu, rfl⟩
    exact ⟨_, ⟨hu, rfl⟩, rfl⟩

theorem foldlM_recordAccess (as : List Access) (f : Footprint) (es : List Event) :
    (as.map Event.access ++ es).foldlM m.recordEvent f =
      es.foldlM m.recordEvent (as.foldl m.recordAccess f) := by
  induction as generalizing f with
  | nil => rfl
  | cons a as ih => exact ih (m.recordAccess f a)

theorem recordEffect_eq (i : Inst) (f : Footprint) :
    m.recordEffect f i (m.effects i) = (m.instEvents i).foldlM m.recordEvent f := by
  unfold instEvents
  cases m.effects i with
  | none =>
    rw [List.foldlM_cons]
    exact (bind_pure (recordUnknown f i .conservative)).symm
  | some e =>
    simp only [recordEffect, foldlM_recordAccess]
    cases e.unknown with
    | none => rfl
    | some u => exact (bind_pure (recordUnknown _ i u)).symm

theorem surveyInst_footprint (s : Survey) (i : Inst) : Survey.footprint <$> m.surveyInst s i =
    (m.instEvents i).foldlM m.recordEvent s.footprint := by
  rw [← recordEffect_eq, surveyInst]
  cases m.recordEffect s.footprint i (m.effects i) <;> rfl

/-- A block is surveyed event by event. -/
theorem blockFootprint_eq (insts : List Inst) :
    m.blockFootprint insts = (m.blockEvents insts).foldlM m.recordEvent {} := by
  suffices H : ∀ s : Survey, Survey.footprint <$> insts.foldlM m.surveyInst s =
      (insts.flatMap m.instEvents).foldlM m.recordEvent s.footprint from H {}
  induction insts with
  | nil => exact fun s => rfl
  | cons i insts ih =>
    intro s
    rw [List.foldlM_cons, List.flatMap_cons, List.foldlM_append, ← surveyInst_footprint]
    cases m.surveyInst s i with
    | error e => rfl
    | ok s' => exact ih s'

/-- Only unknown accesses that do nothing at all are refused. -/
theorem blockFootprint_ok (h : ∀ i u, .unknown i u ∈ m.blockEvents insts → u.isIdle = false) :
    ∃ f, m.blockFootprint insts = .ok f := by
  rw [blockFootprint_eq]
  obtain ⟨f, hf, -⟩ := foldlM_ok (l := m.blockEvents insts) (f := m.recordEvent) (s := {})
    (fun _ _ => True) trivial (fun before e after s hes _ => by
      cases e with
      | access a => exact ⟨_, rfl, trivial⟩
      | unknown i u =>
        exact ⟨_, recordUnknown_eq_ok.2 ⟨h i u (by simp [hes]), rfl⟩, trivial⟩)
  exact ⟨f, hf⟩

/- What a footprint holds of the events that it took in. -/
structure Recorded (m : Memory) (es : List Event) (f : Footprint) : Prop where
  defs : ∀ l ∈ f.defs, m.Written l es
  clobbered : ∀ e ∈ es, e.clobbers = true → f.hasUnknownWrites = true
  exposed : ∀ l, m.Exposed l es → l ∈ f.uses
  writes : ∀ a, .access a ∈ es → a.write.isAny = true → a.location ∈ f.defs ∨ a.location ∈ f.mayDefs
  addresses : ∀ a, .access a ∈ es → a.isAddressOnly = true ∨ m.escapes a.location = true →
    a.location.base ∈ f.addresses
  unknown : ∀ i u, .unknown i u ∈ es → f.hasUnknown = true

theorem recorded_nil : m.Recorded [] {} where
  defs l h := absurd h (SortedSet.not_mem_empty l)
  clobbered _ h := absurd h List.not_mem_nil
  exposed _ h := absurd h not_exposed_nil
  writes _ h := absurd h List.not_mem_nil
  addresses _ h := absurd h List.not_mem_nil
  unknown _ _ h := absurd h List.not_mem_nil

theorem Recorded.access {es : List Event} (h : m.Recorded es f) (a : Access) :
    m.Recorded (es ++ [.access a]) (m.recordAccess f a) where
  defs l hl := by
    rcases mem_defs_recordAccess.1 hl with hl | ⟨hw, rfl⟩
    · exact (h.defs l hl).append (by simp [Event.clobbers])
    · exact ⟨es, a, [], rfl, hw, Location.covers_refl _, by simp⟩
  clobbered e he hc := by
    rcases List.mem_append.1 he with he | he
    · simpa [Footprint.hasUnknownWrites] using h.clobbered e he hc
    · rw [List.mem_singleton.1 he] at hc
      simp [Event.clobbers] at hc
  exposed l he := by
    rw [mem_uses_recordAccess]
    rcases he.of_append with he | ⟨hn, he⟩
    · exact .inl (h.exposed l he)
    · obtain ⟨_, ha, hr, rfl⟩ := exposed_singleton he
      cases ha
      refine .inr ⟨hr, Bool.eq_false_iff.2 fun hc => hn ?_, rfl⟩
      obtain ⟨d, hd, hdc⟩ := SortedSet.covers_iff.1 hc
      exact ((h.defs d hd).covers hdc).covered
  writes c hc hw := by
    rw [mem_defs_recordAccess, mem_mayDefs_recordAccess]
    rcases List.mem_append.1 hc with hc | hc
    · exact (h.writes c hc hw).imp .inl .inl
    · obtain rfl : c = a := Event.access.inj (List.mem_singleton.1 hc)
      rw [← writeOf_isAny (m := m)] at hw
      cases hwc : m.writeOf c with
      | no => simp [hwc, Assurance.isAny] at hw
      | may => exact .inr (.inr ⟨rfl, rfl⟩)
      | must => exact .inl (.inr ⟨rfl, rfl⟩)
  addresses c hc hs := by
    rw [mem_addresses_recordAccess]
    rcases List.mem_append.1 hc with hc | hc
    · exact .inl (h.addresses c hc hs)
    · obtain rfl : c = a := Event.access.inj (List.mem_singleton.1 hc)
      exact .inr ⟨hs, rfl⟩
  unknown i u hu := by
    have hu : .unknown i u ∈ es := by simpa using hu
    simpa [Footprint.hasUnknown] using h.unknown i u hu

theorem Recorded.unknownAccess {es : List Event} (h : m.Recorded es f) (i : Inst)
    (u : UnknownAccess) : m.Recorded (es ++ [.unknown i u])
      ({ f with unknown := UnknownInsts.record i u f.unknown }.applyUnknown u) where
  defs l hl := by
    rw [Footprint.defs_applyUnknown] at hl
    cases hw : u.write.isAny with
    | true => simp [hw] at hl
    | false =>
      rw [hw] at hl
      exact (h.defs l hl).append (by simp [Event.clobbers, hw])
  clobbered e he hc := by
    simp only [Footprint.hasUnknownWrites, Footprint.unknown_applyUnknown]
    rw [UnknownInsts.any_record (q := fun u => u.write.isAny) (by simp), Bool.or_eq_true]
    rcases List.mem_append.1 he with he | he
    · exact .inr (h.clobbered e he hc)
    · rw [List.mem_singleton.1 he] at hc
      exact .inl hc
  exposed l he := by
    rcases he.of_append with he | ⟨-, he⟩
    · exact Footprint.mem_uses_applyUnknown (h.exposed l he)
    · obtain ⟨_, ha, -⟩ := exposed_singleton he
      cases ha
  writes c hc hw := by
    have hc : .access c ∈ es := by simpa using hc
    exact Footprint.mem_written_applyUnknown (h.writes c hc hw)
  addresses c hc hs := by
    have hc : .access c ∈ es := by simpa using hc
    rw [Footprint.addresses_applyUnknown]
    exact h.addresses c hc hs
  unknown j v hv := by
    rw [Footprint.hasUnknown_iff, Footprint.unknown_applyUnknown]
    exact UnknownInsts.record_ne_nil i u f.unknown

theorem recorded_of_events {es : List Event} (h : es.foldlM m.recordEvent {} = .ok f) :
    m.Recorded es f := by
  refine foldlM_inv m.Recorded h recorded_nil ?_
  rintro before e after s u - ih hu
  cases e with
  | access a =>
    obtain rfl : m.recordAccess s a = u := Except.ok.inj hu
    exact ih.access a
  | unknown i w =>
    obtain ⟨-, rfl⟩ := recordUnknown_eq_ok.1 hu
    exact ih.unknownAccess i w

theorem recorded_of_blockFootprint (h : m.blockFootprint insts = .ok f) :
    m.Recorded (m.blockEvents insts) f :=
  recorded_of_events (by rwa [blockFootprint_eq] at h)

end LoopMemory.Memory
