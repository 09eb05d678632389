import LoopMemory.Proofs.Description.Spelling

/-! What an instruction does to the variables of its routine, said without the tables of the lowering.
Main statement: an instruction is lowered to no effect but the one that it is described to have. -/
namespace LoopMemory.Description
open Names

/- The part of a declared variable that starts at an offset. Without a size it goes to the end of the
variable, and has no byte where it starts behind the end. Bases count the variables from 1. -/
inductive Routine.Part (r : Routine) (x : String) (o : Int64) : Option UInt64 → Location → Prop
  | sized {k : Nat} {v : VariableEntry} {n : UInt64} (hv : r.vars[k]? = some v) (hx : v.name = x)
      (ho : 0 ≤ o.toInt) : Part r x o (some n) ⟨k + 1, o, .bytes n, none⟩
  | rest {k : Nat} {v : VariableEntry} {n : UInt64} (hv : r.vars[k]? = some v) (hx : v.name = x)
      (ho : 0 ≤ o.toInt) (hn : v.size = some n) :
      Part r x o none ⟨k + 1, o, .bytes (.ofNat (n.toNat - o.toInt.toNat)), none⟩
  | endless {k : Nat} {v : VariableEntry} (hv : r.vars[k]? = some v) (hx : v.name = x)
      (ho : 0 ≤ o.toInt) (hn : v.size = none) : Part r x o none ⟨k + 1, o, .unknown, none⟩

/- How sure an operation reads its target, and how sure it writes it. -/
inductive Operation.Touches : Operation → Assurance → Assurance → Prop
  | load : Touches .load .must .no
  | store : Touches .store .no .must
  | update : Touches .update .must .must
  | mayLoad : Touches .mayLoad .may .no
  | mayStore : Touches .mayStore .no .may
  | address : Touches .address .no .no

/- The effect of an instruction. One with a target accesses a part of it. A call may read through its
first arguments and write through the others, each of them a whole variable, and a wild one may do so
anywhere. Nothing is known of an instruction that is not resolved. -/
inductive Routine.Does (r : Routine) (i : InstructionEntry) : Option Effect → Prop
  | access {x : String} {l : Location} {read write : Assurance}
      (hi : i.operation.Touches read write) (hx : i.target = some x)
      (hl : r.Part x i.offset i.size l) :
      Does r i (some { accesses := [⟨l, 0, read, write⟩], unknown := none })
  | call {reads writes : List Location} (hi : i.operation = .call)
      (hr : List.Forall₂ (fun x l => r.Part x 0 none l) i.reads reads)
      (hw : List.Forall₂ (fun x l => r.Part x 0 none l) i.writes writes) :
      Does r i (some {
        accesses := (reads.mapIdx fun k l => ⟨l, k, .may, .no⟩) ++
          writes.mapIdx fun k l => ⟨l, reads.length + k, .no, .may⟩
        unknown := if i.wild then some ⟨.may, .may⟩ else none })
  | unresolved (hi : i.operation = .unresolved) : Does r i none

/- Each access is to a part of a variable. -/
theorem Routine.Does.exists_part {r : Routine} {i : InstructionEntry} {e : Effect} {a : Access}
    (h : r.Does i (some e)) (ha : a ∈ e.accesses) :
    ∃ x, r.Part x i.offset i.size a.location ∨ r.Part x 0 none a.location := by
  have hargument : ∀ {xs : List String} {ls : List Location} {l : Location},
      List.Forall₂ (fun x l => r.Part x 0 none l) xs ls → l ∈ ls → ∃ x, r.Part x 0 none l := by
    intro xs ls l hls hl
    induction hls with
    | nil => cases hl
    | cons hx _ ih =>
      rcases List.mem_cons.1 hl with rfl | hl
      · exact ⟨_, hx⟩
      · exact ih hl
  cases h with
  | @access x l _ _ _ _ hl =>
    obtain rfl := List.mem_singleton.1 ha
    exact ⟨x, .inl hl⟩
  | call _ hr hw =>
    rcases List.mem_append.1 ha with ha | ha
    · obtain ⟨k, hk, rfl⟩ := List.mem_mapIdx.1 ha
      obtain ⟨x, hx⟩ := hargument hr (List.getElem_mem hk)
      exact ⟨x, .inr hx⟩
    · obtain ⟨k, hk, rfl⟩ := List.mem_mapIdx.1 ha
      obtain ⟨x, hx⟩ := hargument hw (List.getElem_mem hk)
      exact ⟨x, .inr hx⟩

section Lowering
variable {names : Names} {r : Routine} {x : String} {o : Int64} {s : Option UInt64} {l : Location}
  {i : InstructionEntry} {e : Option Effect}

theorem locate_eq_ok : locate names x o s = .ok l ↔ ∃ b size, names.baseOf? x = some b ∧
    names.entry? b = some (x, size) ∧ 0 ≤ o.toInt ∧ l = ⟨b, o, extent (s.orElse fun _ =>
      size.map fun n => .ofNat (n.toNat - o.toInt.toNat)), none⟩ := by
  simp only [locate, bind_eq_ok, require_eq_ok, pure_eq_ok]
  constructor
  · rintro ⟨b, hb, _, ho, rfl⟩
    have hbase : names.baseOf? x = some b := by
      cases h : names.baseOf? x <;> simp_all [baseOf]
    obtain ⟨size, he⟩ := entry?_of_baseOf? hbase
    exact ⟨b, size, hbase, he, ho, by rw [sizeOf?, he]; rfl⟩
  · rintro ⟨b, size, hb, he, ho, rfl⟩
    exact ⟨b, by rw [baseOf, hb], (), ho, by rw [sizeOf?, he]; rfl⟩

theorem part_of_locate (h : locate ⟨r.variables⟩ x o s = .ok l) : r.Part x o s l := by
  obtain ⟨b, size, -, he, ho, rfl⟩ := locate_eq_ok.1 h
  cases b with
  | zero => cases he
  | succ k =>
    have he : (r.vars.map fun v => (v.name, v.size))[k]? = some (x, size) := he
    rw [List.getElem?_map] at he
    obtain ⟨v, hv, hsame⟩ := Option.map_eq_some_iff.1 he
    obtain ⟨hx, hsize⟩ := Prod.mk.inj hsame
    cases s with
    | some n => exact .sized hv hx ho
    | none =>
      cases size with
      | some n => exact .rest hv hx ho hsize
      | none => exact .endless hv hx ho hsize

theorem parts_of_wholes {xs : List String} {ls : List Location}
    (h : wholes ⟨r.variables⟩ xs = .ok ls) : List.Forall₂ (fun x l => r.Part x 0 none l) xs ls :=
  (mapM_eq_ok.1 h).imp fun _ _ => part_of_locate

theorem touches_assurances {op : Operation} (hcall : op ≠ .call) (hopen : op ≠ .unresolved) :
    op.Touches op.assurances.1 op.assurances.2 := by
  cases op with
  | load => exact .load
  | store => exact .store
  | update => exact .update
  | mayLoad => exact .mayLoad
  | mayStore => exact .mayStore
  | address => exact .address
  | call => exact absurd rfl hcall
  | unresolved => exact absurd rfl hopen

/- The arguments of a call are numbered through. -/
theorem accesses_of_args (reads writes : List Location) :
    ((reads.map (·, Assurance.may, Assurance.no) ++
        writes.map (·, Assurance.no, Assurance.may)).zipIdx.map
          fun ((l, r, w), operand) => (⟨l, operand, r, w⟩ : Access)) =
      (reads.mapIdx fun k l => ⟨l, k, .may, .no⟩) ++
        writes.mapIdx fun k l => ⟨l, reads.length + k, .no, .may⟩ := by
  rw [List.zipIdx_append, List.map_append, List.length_map, Nat.zero_add]
  congr 1
  · exact List.ext_getElem? fun k => by simp [Function.comp_def]
  · exact List.ext_getElem? fun k => by simp [Function.comp_def]

theorem does_of_effect (h : effect ⟨r.variables⟩ i = .ok e) : r.Does i e := by
  unfold effect at h
  split at h
  · obtain rfl := Except.ok.inj h
    exact .unresolved ‹_›
  · obtain ⟨_, hcall, rfl⟩ := map_eq_ok.1 h
    simp only [callEffect, bind_eq_ok, pure_eq_ok] at hcall
    obtain ⟨reads, hr, writes, hw, rfl⟩ := hcall
    rw [accesses_of_args]
    exact .call ‹_› (parts_of_wholes hr) (parts_of_wholes hw)
  · rename_i hopen hcall
    split at h
    · cases h
    · rename_i x hx
      obtain ⟨l, hl, he⟩ := bind_eq_ok.1 h
      obtain rfl := pure_eq_ok.1 he
      exact .access (touches_assurances hcall hopen) hx (part_of_locate hl)

end Lowering
end LoopMemory.Description
