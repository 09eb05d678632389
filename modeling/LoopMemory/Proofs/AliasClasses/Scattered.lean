import LoopMemory.Proofs.AliasClasses
import LoopMemory.Proofs.Apart
import Mathlib.Data.List.Count

/-! Alias classes of locations that lie apart: each class is one location. How often a location has
a class then depends on how often it was put in, but not on when. -/
namespace LoopMemory.AliasClasses
variable {aliases : Aliasing} {A : Location → Prop} {c d : AliasClasses} {k l : Location}
  {x y : Nat}

/-- How many classes a location gets that is put in a number of times. -/
def weigh (aliases : Aliasing) (k : Location) (x : Nat) : Nat :=
  if aliases.meets k k then min x 1 else x

theorem weigh_weigh_add : weigh aliases k (weigh aliases k x + y) = weigh aliases k (x + y) := by
  unfold weigh
  split <;> omega

theorem weigh_add_weigh : weigh aliases k (x + weigh aliases k y) = weigh aliases k (x + y) := by
  rw [Nat.add_comm, weigh_weigh_add, Nat.add_comm]

/-- Each class is one location of a kind, and one that meets itself has one class only. -/
structure Scattered (aliases : Aliasing) (A : Location → Prop) (c : AliasClasses) : Prop where
  single : ∀ cls ∈ c.classes, ∃ l, A l ∧ cls = [l]
  once : ∀ l, aliases.meets l l = true → c.locations.count l ≤ 1

theorem scattered_nil : Scattered aliases A {} := ⟨by simp, by simp [locations]⟩

namespace Scattered
variable (hc : c.Scattered aliases A)
include hc

theorem mem (hl : l ∈ c.locations) : A l := by
  obtain ⟨cls, hcls, hl⟩ := List.mem_flatten.1 hl
  obtain ⟨k, hk, rfl⟩ := hc.single cls hcls
  exact List.mem_singleton.1 hl ▸ hk

theorem mem_classes_iff : [l] ∈ c.classes ↔ l ∈ c.locations := by
  constructor
  · exact fun h => List.mem_flatten.2 ⟨_, h, .head _⟩
  · intro hl
    obtain ⟨cls, hcls, hl⟩ := List.mem_flatten.1 hl
    obtain ⟨k, -, rfl⟩ := hc.single cls hcls
    rwa [List.mem_singleton.1 hl]

theorem classes_eq : c.classes = c.locations.map fun l => [l] := by
  have hall : ∀ cs : List (List Location), (∀ cls ∈ cs, ∃ l, A l ∧ cls = [l]) →
      cs = cs.flatten.map fun l => [l] := by
    intro cs
    induction cs with
    | nil => exact fun _ => rfl
    | cons cls cs ih =>
      intro h
      obtain ⟨l, -, rfl⟩ := h cls (.head _)
      rw [List.flatten_cons, List.map_append, ← ih fun cls hcls => h cls (.tail _ hcls)]
      rfl
  exact hall _ hc.single

theorem weigh_count : weigh aliases k (c.locations.count k) = c.locations.count k := by
  unfold weigh
  split
  · rename_i hk
    exact Nat.min_eq_left (hc.once k hk)
  · rfl

variable (hap : aliases.Apart A) (hl : A l)
include hap hl

/-- Only the class of the location itself is hit, and only if the location meets itself. -/
theorem classMeets_iff {cls : List Location} (hcls : cls ∈ c.classes) :
    classMeets aliases l cls = true ↔ cls = [l] ∧ aliases.meets l l = true := by
  obtain ⟨k, hk, rfl⟩ := hc.single cls hcls
  simp only [classMeets, List.any_cons, List.any_nil, Bool.or_false, List.cons.injEq, and_true]
  constructor
  · intro hm
    by_cases hkl : k = l
    · exact ⟨hkl, hkl ▸ hm⟩
    · simp [Aliasing.meets, (hap k l hk hl hkl).1, Overlap.meets] at hm
  · rintro ⟨rfl, hm⟩
    exact hm

theorem filter_classMeets : c.classes.filter (classMeets aliases l) =
    if aliases.meets l l = true ∧ l ∈ c.locations then [[l]] else [] := by
  have hhit : ∀ cls ∈ c.classes.filter (classMeets aliases l),
      cls = [l] ∧ aliases.meets l l = true := by
    intro cls hcls
    obtain ⟨hmem, hm⟩ := List.mem_filter.1 hcls
    exact (hc.classMeets_iff hap hl hmem).1 hm
  cases hfilter : c.classes.filter (classMeets aliases l) with
  | nil =>
    rw [if_neg]
    rintro ⟨hm, hmem⟩
    have hcls := hc.mem_classes_iff.2 hmem
    have hin := List.mem_filter.2 ⟨hcls, (hc.classMeets_iff hap hl hcls).2 ⟨rfl, hm⟩⟩
    rw [hfilter] at hin
    cases hin
  | cons first later =>
    rw [hfilter] at hhit
    obtain ⟨rfl, hm⟩ := hhit first (.head _)
    have hcls : [l] ∈ c.classes.filter (classMeets aliases l) := hfilter ▸ .head _
    have hmem : l ∈ c.locations := hc.mem_classes_iff.1 (List.mem_filter.1 hcls).1
    have hlength : ([l] :: later).length ≤ 1 := by
      rw [← List.count_eq_length.2 fun cls h => (hhit cls h).1.symm, ← hfilter]
      refine ((List.filter_sublist).count_le _).trans ?_
      rw [hc.classes_eq, List.count_map_of_injective _ _ fun _ _ h => List.singleton_inj.1 h]
      exact hc.once l hm
    obtain rfl : later = [] := List.eq_nil_of_length_eq_zero (by simpa using hlength)
    rw [if_pos ⟨hm, hmem⟩]

theorem perm_add : (c.add aliases l).classes.Perm
    (if aliases.meets l l = true ∧ l ∈ c.locations then c.classes else c.classes ++ [[l]]) := by
  have hfilter := hc.filter_classMeets hap hl
  by_cases h : aliases.meets l l = true ∧ l ∈ c.locations
  · rw [if_pos h] at hfilter ⊢
    have hperm := perm_classes (classMeets aliases l) c.classes
    have hfuse : fuse l [l] [] = [l] := by simp [fuse]
    simpa only [AliasClasses.add, hfilter, hfuse, List.singleton_append] using hperm
  · rw [if_neg h] at hfilter ⊢
    simp only [AliasClasses.add, hfilter]
    exact .refl _

theorem count_add : (c.add aliases l).locations.count k =
    weigh aliases k (c.locations.count k + [l].count k) := by
  have hcount := (hc.perm_add hap hl).flatten.count_eq k
  rw [← locations] at hcount
  rw [hcount]
  by_cases hkl : k = l
  · subst hkl
    rw [List.count_singleton_self]
    by_cases hm : aliases.meets k k = true
    · have honce := hc.once k hm
      by_cases hmem : k ∈ c.locations
      · have hpos := List.count_pos_iff.2 hmem
        rw [if_pos ⟨hm, hmem⟩, ← locations, weigh, if_pos hm]
        omega
      · rw [if_neg (by simp [hmem]), List.flatten_append, List.count_append, ← locations, weigh,
          if_pos hm, List.count_eq_zero_of_not_mem hmem]
        simp
    · rw [if_neg (by simp [hm]), List.flatten_append, List.count_append, ← locations, weigh,
        if_neg hm]
      simp
  · have hzero : [l].count k = 0 := List.count_eq_zero_of_not_mem (by simpa using hkl)
    rw [hzero, Nat.add_zero, hc.weigh_count]
    split
    · rfl
    · rw [List.flatten_append, List.count_append, ← locations, List.flatten_singleton, hzero,
        Nat.add_zero]

theorem add : (c.add aliases l).Scattered aliases A where
  single cls hcls := by
    have hcls := (hc.perm_add hap hl).mem_iff.1 hcls
    split at hcls
    · exact hc.single cls hcls
    · rcases List.mem_append.1 hcls with hcls | hcls
      · exact hc.single cls hcls
      · exact ⟨l, hl, List.mem_singleton.1 hcls⟩
  once k hk := by
    rw [hc.count_add hap hl, weigh, if_pos hk]
    exact Nat.min_le_right _ _

end Scattered

/-- Taking over the locations of other classes. -/
theorem Scattered.addAll (hc : c.Scattered aliases A) (hap : aliases.Apart A)
    (hd : ∀ l ∈ d.locations, A l) : (c.addAll aliases d).Scattered aliases A ∧
      ∀ k, (c.addAll aliases d).locations.count k =
        weigh aliases k (c.locations.count k + d.locations.count k) := by
  unfold AliasClasses.addAll
  revert hd
  generalize d.locations = ls
  intro hd
  induction ls generalizing c with
  | nil => exact ⟨hc, fun k => by simpa using hc.weigh_count.symm⟩
  | cons l ls ih =>
    obtain ⟨hscat, hcount⟩ := ih (hc.add hap (hd l (.head _))) fun k hk => hd k (.tail _ hk)
    refine ⟨hscat, fun k => ?_⟩
    rw [List.foldl_cons, hcount, hc.count_add hap (hd l (.head _)), weigh_weigh_add,
      Nat.add_assoc, ← List.count_append, List.singleton_append]

end LoopMemory.AliasClasses
