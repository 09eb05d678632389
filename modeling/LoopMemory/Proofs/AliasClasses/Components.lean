import LoopMemory.Proofs.AliasClasses
import LoopMemory.Proofs.Aliasing
import Mathlib.Data.List.Perm.Basic
import Mathlib.Logic.Relation

/-! Alias classes are the components of their locations under "may share a byte", so that they do
not depend on the order in which the locations were put in. -/
namespace LoopMemory
open Relation

namespace AliasClasses
variable {aliases : Aliasing} {c d : AliasClasses} {k l : Location} {cls cls' : List Location}
  {s t : Set Location}

/-- A chain of locations from the set, in which each may share a byte with the next. -/
def Chained (aliases : Aliasing) (s : Set Location) : Location → Location → Prop :=
  ReflTransGen fun a b => a ∈ s ∧ b ∈ s ∧ aliases.meets a b = true

theorem Chained.mono (hst : s ⊆ t) (h : Chained aliases s k l) : Chained aliases t k l :=
  h.lift id fun _ _ hab => ⟨hst hab.1, hst hab.2.1, hab.2.2⟩

theorem Chained.symm (ha : aliases.Regular) (h : Chained aliases s k l) :
    Chained aliases s l k := by
  induction h with
  | refl => exact .refl
  | tail _ hab ih => exact .head ⟨hab.2.1, hab.1, ha.comm .. ▸ hab.2.2⟩ ih

/-- No location is in two classes, each class hangs together, and no two classes meet. -/
structure Grouped (aliases : Aliasing) (c : AliasClasses) : Prop where
  nodup : c.locations.Nodup
  chained : ∀ cls ∈ c.classes, ∀ k ∈ cls, ∀ l ∈ cls, Chained aliases {l | l ∈ c.locations} k l
  apart : ∀ cls ∈ c.classes, ∀ cls' ∈ c.classes, ∀ k ∈ cls, ∀ l ∈ cls',
    aliases.meets k l = true → cls = cls'

theorem grouped_empty : Grouped aliases {} := by
  constructor <;> simp [locations]

theorem mem_locations (hc : cls ∈ c.classes) (hl : l ∈ cls) : l ∈ c.locations :=
  List.mem_flatten.2 ⟨cls, hc, hl⟩

/-- The class of a location is its component. -/
theorem Grouped.mem_iff (h : c.Grouped aliases) (hc : cls ∈ c.classes) (hl : l ∈ cls) :
    k ∈ cls ↔ Chained aliases {l | l ∈ c.locations} l k := by
  constructor
  · exact h.chained cls hc l hl k
  · intro hk
    induction hk with
    | refl => exact hl
    | tail _ hab ih =>
      obtain ⟨cls', hc', hb⟩ := List.mem_flatten.1 hab.2.1
      exact h.apart cls hc cls' hc' _ ih _ hb hab.2.2 ▸ hb

/-- Two ways to group the same locations have the same classes. -/
theorem Grouped.mem_class_iff (h : c.Grouped aliases) (h' : d.Grouped aliases)
    (hcd : ∀ l, l ∈ c.locations ↔ l ∈ d.locations) (hc : cls ∈ c.classes)
    (hc' : cls' ∈ d.classes) (hl : l ∈ cls) (hl' : l ∈ cls') : k ∈ cls ↔ k ∈ cls' := by
  have hset : {l | l ∈ c.locations} = {l | l ∈ d.locations} := Set.ext hcd
  rw [h.mem_iff hc hl, h'.mem_iff hc' hl', hset]

/- One more location. -/

theorem classMeets_iff :
    classMeets aliases l cls = true ↔ ∃ k ∈ cls, aliases.meets k l = true := by
  rw [classMeets, List.any_eq_true]

theorem perm_fuse {first : List Location} {later : List (List Location)} :
    (fuse l first later).Perm (if l ∈ (first :: later).flatten then (first :: later).flatten
      else l :: (first :: later).flatten) := by
  have hmerged : (first ++ later.reverse.flatten).Perm (first :: later).flatten :=
    (List.reverse_perm later).flatten.append_left first
  simp only [fuse, hmerged.mem_iff]
  split
  · exact hmerged
  · exact List.perm_append_comm.trans (hmerged.cons l)

theorem perm_locations_add (ha : aliases.Regular) : (c.add aliases l).locations.Perm
    (if l ∈ c.locations then c.locations else l :: c.locations) := by
  have hhit : ∀ cls ∈ c.classes, l ∈ cls → classMeets aliases l cls = true :=
    fun cls _ hl => classMeets_iff.2 ⟨l, hl, ha.refl l⟩
  have hperm := (perm_classes (classMeets aliases l) c.classes).flatten
  rw [List.flatten_append, List.flatten_append] at hperm
  rw [add]
  split
  · rename_i hnone
    have hnew : l ∉ c.locations := by
      rintro hl
      obtain ⟨cls, hc, hl⟩ := List.mem_flatten.1 hl
      exact List.filter_eq_nil_iff.1 hnone cls hc (hhit cls hc hl)
    rw [if_neg hnew, locations, List.flatten_append]
    exact List.perm_append_comm
  · rename_i first later hsome
    rw [hsome] at hperm
    have hmem : l ∈ c.locations ↔ l ∈ (first :: later).flatten := by
      rw [← hsome, locations, List.mem_flatten, List.mem_flatten]
      refine exists_congr fun cls => ?_
      rw [List.mem_filter]
      exact ⟨fun h => ⟨⟨h.1, hhit cls h.1 h.2⟩, h.2⟩, fun h => ⟨h.1.1, h.2⟩⟩
    have hfuse := @perm_fuse l first later
    rw [locations, List.flatten_append, List.flatten_cons]
    refine ((hfuse.append_right _).append_left _).trans ?_
    by_cases hl : l ∈ c.locations
    · rw [if_pos hl, if_pos (hmem.1 hl)]
      exact hperm
    · rw [if_neg hl, if_neg (mt hmem.2 hl)]
      exact List.perm_middle.trans (hperm.cons l)

/-- The classes that the new location meets become one with it, and the others stay. -/
theorem classes_add (aliases : Aliasing) (l : Location) (c : AliasClasses) : ∃ joined,
    (∀ k, k ∈ joined ↔ k = l ∨ ∃ cls ∈ c.classes, classMeets aliases l cls = true ∧ k ∈ cls) ∧
    ∀ cls, cls ∈ (c.add aliases l).classes ↔
      cls = joined ∨ (cls ∈ c.classes ∧ classMeets aliases l cls = false) := by
  rw [add]
  split
  · rename_i hnone
    rw [List.filter_eq_nil_iff] at hnone
    refine ⟨[l], fun k => ?_, fun cls => ?_⟩
    · rw [List.mem_singleton, or_iff_left]
      rintro ⟨cls, hc, hhit, -⟩
      exact hnone cls hc hhit
    · rw [List.mem_append, List.mem_singleton, or_comm]
      refine or_congr_right (iff_self_and.2 fun hc => Bool.eq_false_iff.2 (hnone cls hc))
  · rename_i first later hsome
    refine ⟨fuse l first later, fun k => ?_, fun cls => ?_⟩
    · rw [mem_fuse, ← hsome]
      simp only [List.mem_filter, and_assoc]
    · have hold := @mem_classes_iff (classMeets aliases l) c.classes cls
      simp only [List.mem_append, List.mem_cons, List.mem_filter, Bool.not_eq_true'] at hold ⊢
      rw [hold]
      have hbefore : cls ∈ c.classes.takeWhile (!classMeets aliases l ·) →
          classMeets aliases l cls = false := fun h => by simpa using List.mem_takeWhile_imp h
      grind

/- What is joined hangs together by way of the new location, and a class that the location does not
meet meets nothing that is joined. -/
theorem Grouped.add (ha : aliases.Regular) (h : c.Grouped aliases) :
    (c.add aliases l).Grouped aliases := by
  have hsub : {k | k ∈ c.locations} ⊆ {k | k ∈ (c.add aliases l).locations} :=
    fun k hk => mem_locations_add.2 (.inr hk)
  have hnew : l ∈ (c.add aliases l).locations := mem_locations_add.2 (.inl rfl)
  obtain ⟨joined, hjoined, hclasses⟩ := classes_add aliases l c
  have hlink : ∀ k ∈ joined, Chained aliases {k | k ∈ (c.add aliases l).locations} k l := by
    intro k hk
    rcases (hjoined k).1 hk with rfl | ⟨cls, hc, hhit, hk⟩
    · exact .refl
    · obtain ⟨j, hj, hmeet⟩ := classMeets_iff.1 hhit
      have hchain : Chained aliases _ k j := (h.chained cls hc k hk j hj).mono hsub
      exact hchain.tail ⟨hsub (mem_locations hc hj), hnew, hmeet⟩
  have hfresh : ∀ cls ∈ c.classes, classMeets aliases l cls = false → ∀ k ∈ cls, ∀ j ∈ joined,
      aliases.meets k j = false := by
    intro cls hc hmiss k hk j hj
    rw [Bool.eq_false_iff] at hmiss ⊢
    intro hmeet
    rcases (hjoined j).1 hj with rfl | ⟨cls', hc', hhit, hj⟩
    · exact hmiss (classMeets_iff.2 ⟨k, hk, hmeet⟩)
    · exact hmiss (h.apart cls hc cls' hc' k hk j hj hmeet ▸ hhit)
  refine ⟨?_, fun cls hc k hk j hj => ?_, fun cls hc cls' hc' k hk j hj hmeet => ?_⟩
  · rw [(perm_locations_add ha).nodup_iff]
    split
    · exact h.nodup
    · rename_i hl
      exact List.nodup_cons.2 ⟨hl, h.nodup⟩
  · rcases (hclasses cls).1 hc with rfl | ⟨hc, -⟩
    · exact (hlink k hk).trans ((hlink j hj).symm ha)
    · exact (h.chained cls hc k hk j hj).mono hsub
  · rcases (hclasses cls).1 hc with rfl | ⟨hc, hmiss⟩ <;>
      rcases (hclasses cls').1 hc' with rfl | ⟨hc', hmiss'⟩
    · rfl
    · rw [ha.comm, hfresh cls' hc' hmiss' j hj k hk] at hmeet
      cases hmeet
    · rw [hfresh cls hc hmiss k hk j hj] at hmeet
      cases hmeet
    · exact h.apart cls hc cls' hc' k hk j hj hmeet

theorem Grouped.addAll (ha : aliases.Regular) (h : c.Grouped aliases) :
    (c.addAll aliases d).Grouped aliases := by
  unfold AliasClasses.addAll
  generalize d.locations = ls
  induction ls generalizing c with
  | nil => exact h
  | cons l ls ih => exact ih (h.add ha)

end AliasClasses
end LoopMemory
