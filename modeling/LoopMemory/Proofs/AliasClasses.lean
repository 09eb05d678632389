import LoopMemory.AliasClasses
import Mathlib.Data.List.TakeWhile
import Mathlib.Logic.Basic
import Mathlib.Tactic.Tauto

/-! Alias classes hold just the locations that were put into them. -/
namespace LoopMemory.AliasClasses
variable {aliases : Aliasing} {c d : AliasClasses} {k l : Location}

theorem mem_fuse {first : List Location} {later : List (List Location)} :
    k ∈ fuse l first later ↔ k = l ∨ ∃ cls ∈ first :: later, k ∈ cls := by
  have hmerged : k ∈ first ++ later.reverse.flatten ↔ ∃ cls ∈ first :: later, k ∈ cls := by
    simp
  by_cases hl : l ∈ first ++ later.reverse.flatten
  · rw [fuse, if_pos hl, ← hmerged]
    constructor
    · exact .inr
    · rintro (rfl | hk)
      · exact hl
      · exact hk
  · rw [fuse, if_neg hl, List.mem_append, hmerged, List.mem_singleton, or_comm]

/- A class that is not hit keeps its place, before or after the first one that is. -/
theorem perm_classes (hit : List Location → Bool) (cs : List (List Location)) :
    (cs.takeWhile (!hit ·) ++ (cs.filter hit ++
      (cs.drop (cs.takeWhile (!hit ·)).length).filter (!hit ·))).Perm cs := by
  have hsplit : cs.takeWhile (!hit ·) ++ cs.drop (cs.takeWhile (!hit ·)).length = cs := by
    obtain ⟨rest, hrest⟩ := List.takeWhile_prefix (l := cs) (!hit ·)
    have hdrop : cs.drop (cs.takeWhile (!hit ·)).length = rest :=
      (congrArg (List.drop _) hrest).symm.trans List.drop_left
    rw [hdrop, hrest]
  have hbefore : (cs.takeWhile (!hit ·)).filter hit = [] := by
    rw [List.filter_eq_nil_iff]
    intro cls hcls
    simpa using List.mem_takeWhile_imp hcls
  have hhit : cs.filter hit = (cs.drop (cs.takeWhile (!hit ·)).length).filter hit := by
    have hfilter := congrArg (List.filter hit) hsplit
    rw [List.filter_append, hbefore, List.nil_append] at hfilter
    exact hfilter.symm
  rw [hhit]
  exact ((List.filter_append_perm hit _).append_left _).trans (.of_eq hsplit)

theorem mem_classes_iff (hit : List Location → Bool) {cs : List (List Location)}
    {cls : List Location} : cls ∈ cs ↔ cls ∈ cs.takeWhile (!hit ·) ∨ cls ∈ cs.filter hit ∨
      cls ∈ (cs.drop (cs.takeWhile (!hit ·)).length).filter (!hit ·) := by
  rw [← (perm_classes hit cs).mem_iff, List.mem_append, List.mem_append]

theorem mem_locations_add : k ∈ (c.add aliases l).locations ↔ k = l ∨ k ∈ c.locations := by
  rw [add]
  split
  · simp [locations, or_comm]
  · rename_i first later hhit
    have hold : k ∈ c.locations ↔ ∃ cls, (_ ∨ _ ∨ _) ∧ k ∈ cls := List.mem_flatten.trans
      (exists_congr fun _ => and_congr_left' (mem_classes_iff (classMeets aliases l)))
    rw [hhit] at hold
    simp only [or_and_right, exists_or] at hold
    rw [hold, locations, List.mem_flatten]
    simp only [List.mem_append, List.mem_cons, or_and_right, exists_or, exists_eq_left, mem_fuse,
      or_assoc]
    exact or_left_comm

theorem mem_locations_addAll :
    k ∈ (c.addAll aliases d).locations ↔ k ∈ c.locations ∨ k ∈ d.locations := by
  unfold addAll
  generalize d.locations = ls
  induction ls generalizing c with
  | nil => simp
  | cons l ls ih => rw [List.foldl_cons, ih, mem_locations_add, List.mem_cons]; tauto

end LoopMemory.AliasClasses
