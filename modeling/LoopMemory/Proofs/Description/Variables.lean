import LoopMemory.Proofs.Description.Lowering
import LoopMemory.Proofs.Description.WellFormed
import Mathlib.Data.List.Induction

/-! The passes over variables, alias pairs and instructions: which of them lowering accepts, and the
names that it declares. -/
namespace LoopMemory

namespace Names
variable {names : Names} {x : String}

theorem baseOf?_eq_none : names.baseOf? x = none ↔ x ∉ names.vars.map (·.1) := by
  have h : names.vars.map (·.1) = (names.vars.zipIdx 1).map (·.1.1) := by
    conv_lhs => rw [← List.zipIdx_map_fst 1 names.vars, List.map_map]
    rfl
  rw [baseOf?, Option.map_eq_none_iff, List.find?_eq_none, h]
  simp only [List.mem_reverse, beq_iff_eq, List.mem_map, not_exists, not_and]

theorem exists_baseOf? : (∃ b, names.baseOf? x = some b) ↔ x ∈ names.vars.map (·.1) := by
  rw [← Option.isSome_iff_exists, ← Option.ne_none_iff_isSome, ne_eq, baseOf?_eq_none, not_not]

end Names

namespace Description
variable {names : Names} {name : String} {r : Routine}

/-- A name occurs only once when it does not occur before itself. -/
theorem nodup_map_iff {α β : Type} {f : α → β} {l : List α} : (l.map f).Nodup ↔
    ∀ before a after, l = before ++ a :: after → f a ∉ before.map f := by
  constructor
  · rintro h before a after rfl hmem
    rw [List.map_append, List.map_cons, List.nodup_append] at h
    exact h.2.2 _ hmem _ (.head _) rfl
  · intro h
    induction l using List.reverseRecOn with
    | nil => simp
    | append_singleton l a ih =>
      have hl := ih fun before b after he => h before b (after ++ [a]) (by simp [he])
      rw [List.map_append, List.nodup_append]
      refine ⟨hl, by simp, ?_⟩
      rintro _ hx _ hy rfl
      obtain rfl := List.mem_singleton.1 hy
      exact h l a [] rfl hx

/- Variables. -/

/-- The variables under their names, with their sizes. -/
def Routine.variables (r : Routine) : List Variable := r.vars.map fun v => (v.name, v.size)

theorem names_eq_ok : r.names = .ok names → names = ⟨r.variables⟩ := by
  intro h
  refine foldlM_inv (fun done (s : Names) => s = ⟨done.map fun v => (v.name, v.size)⟩) h rfl ?_
  rintro before v after s t - rfl ht
  simp only [declareVariable, bind_eq_ok, require_eq_ok, pure_eq_ok] at ht
  obtain ⟨-, -, rfl⟩ := ht
  simp [Names.declare]

theorem exists_names : (∃ names, r.names = .ok names) ↔
    (r.vars.map (·.name)).Nodup ∧ ¬r.Declares exitName := by
  rw [Routine.names, foldlM_accepts
    (fun done (s : Names) => s = ⟨done.map fun v => (v.name, v.size)⟩)
    (fun before v => v.name ≠ exitName ∧ v.name ∉ before.map (·.name)) rfl ?_]
  · rw [nodup_map_iff, Routine.Declares]
    constructor
    · intro h
      refine ⟨fun before v after he => (h before v after he).2, ?_⟩
      simp only [List.mem_map, not_exists, not_and]
      intro v hv
      obtain ⟨before, after, he⟩ := List.append_of_mem hv
      exact (h before v after he).1
    · rintro ⟨hnodup, hexit⟩ before v after he
      refine ⟨fun hv => hexit ?_, hnodup before v after he⟩
      exact List.mem_map.2 ⟨v, by simp [he], hv⟩
  · rintro before v after s - rfl
    have hfree : Names.baseOf? ⟨before.map fun v => (v.name, v.size)⟩ v.name = none ↔
        v.name ∉ before.map (·.name) := by
      rw [Names.baseOf?_eq_none]
      simp
    simp only [declareVariable, bind_eq_ok, require_eq_ok, pure_eq_ok, hfree]
    refine ⟨by simp, ?_⟩
    rintro t ⟨-, -, rfl⟩
    simp [Names.declare]

section Declared
variable (hn : names = ⟨r.variables⟩)
include hn

theorem exists_base : (∃ b, baseOf names name = .ok b) ↔ r.Declares name := by
  have h : (∃ b, baseOf names name = .ok b) ↔ ∃ b, names.baseOf? name = some b := by
    cases hb : names.baseOf? name <;> simp [baseOf, hb]
  rw [h, Names.exists_baseOf?, hn, Routine.Declares, Routine.variables]
  simp

theorem exists_aliasModel : (∃ m, r.aliasModel names = .ok m) ↔
    ∀ a ∈ r.aliases, r.Declares a.pair.1 ∧ r.Declares a.pair.2 := by
  rw [Routine.aliasModel, foldlM_accepts (fun _ _ => True)
    (fun _ a => r.Declares a.pair.1 ∧ r.Declares a.pair.2) trivial ?_]
  · constructor
    · intro h a ha
      obtain ⟨before, after, he⟩ := List.append_of_mem ha
      exact h before a after he
    · rintro h before a after he
      exact h a (by simp [he])
  · rintro before a after m - -
    refine ⟨?_, fun _ _ => trivial⟩
    rw [← exists_base hn, ← exists_base hn]
    simp only [addAlias, bind_eq_ok, pure_eq_ok]
    constructor
    · rintro ⟨_, b, hb, c, hc, -⟩
      exact ⟨⟨b, hb⟩, c, hc⟩
    · rintro ⟨⟨b, hb⟩, c, hc⟩
      exact ⟨_, b, hb, c, hc, rfl⟩

theorem exists_locate {o : Int64} {s : Option UInt64} :
    (∃ l, locate names name o s = .ok l) ↔ r.Declares name ∧ 0 ≤ o.toInt := by
  rw [← exists_base hn]
  simp only [locate, bind_eq_ok, require_eq_ok, pure_eq_ok]
  constructor
  · rintro ⟨_, b, hb, _, ho, -⟩
    exact ⟨⟨b, hb⟩, ho⟩
  · rintro ⟨⟨b, hb⟩, ho⟩
    exact ⟨_, b, hb, (), ho, rfl⟩

theorem exists_wholes {l : List String} :
    (∃ s, wholes names l = .ok s) ↔ ∀ name ∈ l, r.Declares name := by
  rw [wholes, exists_mapM_ok]
  refine forall₂_congr fun name _ => ?_
  rw [exists_locate hn]
  simp

/-- The access of an operation on one variable is found just when the variable is declared and the
offset is not below it. -/
theorem exists_access {i : InstructionEntry} (op : Operation) : (∃ e, (match i.target with
      | none => (.error (.noTarget op) : Except Defect (Option Effect))
      | some target => do
        let l ← locate names target i.offset i.size
        return some { accesses := [⟨l, 0, op.assurances.1, op.assurances.2⟩] }) = .ok e) ↔
    ∃ name, i.target = some name ∧ r.Declares name ∧ 0 ≤ i.offset.toInt := by
  cases ht : i.target with
  | none => simp
  | some name =>
    have hlocate : _ ↔ r.Declares name ∧ 0 ≤ i.offset.toInt := exists_locate hn (s := i.size)
    simp only [Option.some.injEq, exists_eq_left', ← hlocate, bind_eq_ok, pure_eq_ok]
    constructor
    · rintro ⟨_, l, hl, -⟩
      exact ⟨l, hl⟩
    · rintro ⟨l, hl⟩
      exact ⟨_, l, hl, rfl⟩

theorem exists_effect {i : InstructionEntry} :
    (∃ e, effect names i = .ok e) ↔ r.Resolves i := by
  unfold effect Routine.Resolves
  cases hop : i.operation with
  | unresolved => simp
  | call =>
    simp only [map_eq_ok, callEffect, bind_eq_ok, pure_eq_ok, List.forall_mem_append]
    rw [← exists_wholes hn, ← exists_wholes hn]
    constructor
    · rintro ⟨_, _, ⟨reads, hr, writes, hw, -⟩, -⟩
      exact ⟨⟨reads, hr⟩, writes, hw⟩
    · rintro ⟨⟨reads, hr⟩, writes, hw⟩
      exact ⟨_, _, ⟨reads, hr, writes, hw, rfl⟩, rfl⟩
  | load | store | update | mayLoad | mayStore | address => exact exists_access hn _

end Declared
end Description
end LoopMemory
