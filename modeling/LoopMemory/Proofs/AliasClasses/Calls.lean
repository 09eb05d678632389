import LoopMemory.Proofs.AliasClasses.Components
import Mathlib.Data.List.Nodup
import Mathlib.Data.Set.Insert
import Mathlib.Logic.Function.Basic

/-! What alias classes are after any calls. Main statement: they are the connected components of all
locations that were put in, in whatever order and however often that was done. -/
namespace LoopMemory.AliasClasses
open Relation

/-- A call on one of several groupings, which are numbered. -/
inductive Call
  | add (i : Nat) (l : Location)
  /-- The first takes in all that the second has. -/
  | addAll (i j : Nat)

def Call.apply (aliases : Aliasing) (cs : Nat → AliasClasses) : Call → Nat → AliasClasses
  | add i l => Function.update cs i ((cs i).add aliases l)
  | addAll i j => Function.update cs i ((cs i).addAll aliases (cs j))

/-- The groupings after the calls; all of them start empty. -/
def track (aliases : Aliasing) (calls : List Call) : Nat → AliasClasses :=
  calls.foldl (Call.apply aliases) fun _ => {}

def Call.record (given : Nat → Set Location) : Call → Nat → Set Location
  | add i l => Function.update given i (insert l (given i))
  | addAll i j => Function.update given i (given i ∪ given j)

/-- All locations that the calls put into each grouping. -/
def given (calls : List Call) : Nat → Set Location := calls.foldl Call.record fun _ => ∅

/-- The classes are the connected components of the locations, each listed once. -/
structure Components (aliases : Aliasing) (s : Set Location) (classes : List (List Location)) :
    Prop where
  mem_iff : ∀ l, l ∈ s ↔ ∃ cls ∈ classes, l ∈ cls
  once : classes.flatten.Nodup
  nonempty : ∀ cls ∈ classes, cls ≠ []
  apart : classes.Pairwise fun cls cls' => ∀ k ∈ cls, ∀ l ∈ cls', aliases k l = .none
  connected : ∀ cls ∈ classes, ∀ k ∈ cls, ∀ l ∈ cls, Chained aliases {l | l ∈ cls} k l

variable {aliases : Aliasing} {c d : AliasClasses} {k l : Location} {cls : List Location}
  {s t : Set Location} {calls calls' : List Call} {i j : Nat}

/- What every call keeps. -/
structure Tracks (aliases : Aliasing) (c : AliasClasses) (s : Set Location) : Prop where
  grouped : c.Grouped aliases
  nonempty : ∀ cls ∈ c.classes, cls ≠ []
  mem_iff : ∀ l, l ∈ c.locations ↔ l ∈ s

theorem tracks_empty : Tracks aliases {} ∅ where
  grouped := grouped_empty
  nonempty := by simp
  mem_iff := by simp [locations]

theorem nonempty_add (h : ∀ cls ∈ c.classes, cls ≠ []) :
    ∀ cls ∈ (c.add aliases l).classes, cls ≠ [] := by
  obtain ⟨joined, hjoined, hclasses⟩ := classes_add aliases l c
  intro cls hc
  cases (hclasses cls).1 hc with
  | inl he => exact he ▸ List.ne_nil_of_mem ((hjoined l).2 (.inl rfl))
  | inr hold => exact h cls hold.1

theorem nonempty_addAll (h : ∀ cls ∈ c.classes, cls ≠ []) :
    ∀ cls ∈ (c.addAll aliases d).classes, cls ≠ [] := by
  unfold addAll
  generalize d.locations = ls
  induction ls generalizing c with
  | nil => exact h
  | cons l ls ih => exact ih (nonempty_add h)

theorem Tracks.add (ha : aliases.Regular) (h : Tracks aliases c s) :
    Tracks aliases (c.add aliases l) (insert l s) where
  grouped := h.grouped.add ha
  nonempty := nonempty_add h.nonempty
  mem_iff k := by rw [mem_locations_add, h.mem_iff, Set.mem_insert_iff]

theorem Tracks.addAll (ha : aliases.Regular) (h : Tracks aliases c s) (h' : Tracks aliases d t) :
    Tracks aliases (c.addAll aliases d) (s ∪ t) where
  grouped := h.grouped.addAll ha
  nonempty := nonempty_addAll h.nonempty
  mem_iff k := by rw [mem_locations_addAll, h.mem_iff, h'.mem_iff, Set.mem_union]

/-- One call keeps each grouping in step with what it was given. -/
theorem Tracks.call (ha : aliases.Regular) {cs : Nat → AliasClasses} {sets : Nat → Set Location}
    (h : ∀ i, Tracks aliases (cs i) (sets i)) (call : Call) (i : Nat) :
    Tracks aliases (call.apply aliases cs i) (call.record sets i) := by
  cases call with
  | add j l =>
    by_cases hi : i = j
    · subst hi
      simpa [Call.apply, Call.record] using (h i).add ha
    · simpa [Call.apply, Call.record, hi] using h i
  | addAll j k =>
    by_cases hi : i = j
    · subst hi
      simpa [Call.apply, Call.record] using (h i).addAll ha (h k)
    · simpa [Call.apply, Call.record, hi] using h i

theorem tracks_of_calls (ha : aliases.Regular) (calls : List Call) (i : Nat) :
    Tracks aliases (track aliases calls i) (given calls i) := by
  unfold track given
  have hstart : ∀ i : Nat, Tracks aliases ((fun _ => {}) i) ((fun _ => ∅) i) :=
    fun _ => tracks_empty
  generalize (fun _ : Nat => ({} : AliasClasses)) = cs at *
  generalize (fun _ : Nat => (∅ : Set Location)) = sets at *
  induction calls generalizing cs sets with
  | nil => exact hstart i
  | cons call calls ih => exact ih _ _ (Tracks.call ha hstart call)

/- A chain that starts in a class stays in it. -/
theorem Grouped.chained_class (h : c.Grouped aliases) (hc : cls ∈ c.classes) (hk : k ∈ cls)
    (hchain : Chained aliases {l | l ∈ c.locations} k l) :
    Chained aliases {l | l ∈ cls} k l := by
  induction hchain with
  | refl => exact .refl
  | @tail a b hka hab ih =>
    have hmem : a ∈ cls := (h.mem_iff hc hk).2 hka
    have hmem' : b ∈ cls := (h.mem_iff hc hk).2 (hka.tail hab)
    exact ih.tail ⟨hmem, hmem', hab.2.2⟩

/- Two classes at different places share no member. -/
theorem Tracks.components (h : Tracks aliases c s) : Components aliases s c.classes where
  mem_iff l := by rw [← h.mem_iff, locations, List.mem_flatten]
  once := h.grouped.nodup
  nonempty := h.nonempty
  apart := by
    have hdisjoint := (List.nodup_flatten.1 h.grouped.nodup).2
    refine hdisjoint.imp_of_mem fun {cls cls'} hc hc' hdis k hk l hl => ?_
    rw [← Aliasing.meets_eq_false, Bool.eq_false_iff]
    intro hmeet
    have hsame := h.grouped.apart cls hc cls' hc' k hk l hl hmeet
    exact hdis hk (hsame ▸ hk)
  connected cls hc k hk l hl :=
    h.grouped.chained_class hc hk (h.grouped.chained cls hc k hk l hl)

/-- No location that is there meets the new one just when it gets a class of its own. -/
theorem Tracks.isNew_iff (h : Tracks aliases c s) :
    c.isNew aliases l = true ↔ ∀ k ∈ s, aliases k l = .none := by
  have hany : c.classes.any (classMeets aliases l) = true ↔ ∃ k ∈ s, aliases.meets k l = true := by
    simp only [List.any_eq_true, classMeets_iff, ← h.mem_iff, locations, List.mem_flatten]
    constructor
    · rintro ⟨cls, hc, k, hk, hmeet⟩
      exact ⟨k, ⟨cls, hc, hk⟩, hmeet⟩
    · rintro ⟨k, ⟨cls, hc, hk⟩, hmeet⟩
      exact ⟨cls, hc, k, hk, hmeet⟩
  rw [isNew, Bool.not_eq_true', Bool.eq_false_iff, ne_eq, hany]
  push Not
  exact forall₂_congr fun k _ => by rw [← Aliasing.meets_eq_false, Bool.eq_false_iff]

/-- Two ways to put in the same locations give the same classes, up to the order in each. -/
theorem Tracks.perm_class (h : Tracks aliases c s) (h' : Tracks aliases d s)
    (hc : cls ∈ c.classes) : ∃ cls' ∈ d.classes, cls.Perm cls' := by
  have hsame : ∀ l, l ∈ c.locations ↔ l ∈ d.locations := fun l => by rw [h.mem_iff, h'.mem_iff]
  obtain ⟨k, hk⟩ := List.exists_mem_of_ne_nil cls (h.nonempty cls hc)
  obtain ⟨cls', hc', hk'⟩ := List.mem_flatten.1 ((hsame k).1 (mem_locations hc hk))
  have hnodup : cls.Nodup := (List.nodup_flatten.1 h.grouped.nodup).1 cls hc
  have hnodup' : cls'.Nodup := (List.nodup_flatten.1 h'.grouped.nodup).1 cls' hc'
  refine ⟨cls', hc', (List.perm_ext_iff_of_nodup hnodup hnodup').2 fun l => ?_⟩
  exact h.grouped.mem_class_iff h'.grouped hsame hc hc' hk hk'

/-- After any calls the classes are the connected components of the locations that were put in, so
that they depend on nothing else; and a location opens a class of its own just when it meets none of
those before it. -/
theorem track_components (m : AliasModel) (calls : List Call) (i : Nat) :
    Components m.overlap (given calls i) (track m.overlap calls i).classes ∧
    (∀ calls' j, given calls' j = given calls i → ∀ cls ∈ (track m.overlap calls i).classes,
      ∃ cls' ∈ (track m.overlap calls' j).classes, cls.Perm cls') ∧
    ∀ l, (track m.overlap calls i).isNew m.overlap l = true ↔
      ∀ k ∈ given calls i, m.overlap k l = .none := by
  have h := tracks_of_calls m.regular calls i
  refine ⟨h.components, fun calls' j hsame cls hc => ?_, fun l => h.isNew_iff⟩
  have h' := tracks_of_calls m.regular calls' j
  exact h.perm_class (hsame ▸ h') hc

/-- A range across two others joins their classes when it comes last, and it makes no difference when
it comes first. -/
theorem track_components_bridging :
    let low : Location := { base := 1, offset := 0, size := .bytes 4 }
    let high : Location := { base := 1, offset := 4, size := .bytes 4 }
    let across : Location := { base := 1, offset := 2, size := .bytes 4 }
    let calls := [Call.add 0 low, .add 0 high, .add 0 across, .add 1 across, .addAll 1 0]
    given calls 1 = given calls 0 ∧
    (track ({} : AliasModel).overlap (calls.take 2) 0).classes = [[low], [high]] ∧
    (track ({} : AliasModel).overlap calls 0).classes = [[low, high, across]] ∧
    ∃ cls ∈ (track ({} : AliasModel).overlap calls 1).classes, [low, high, across].Perm cls := by
  intro low high across calls
  have hgiven : given calls 1 = given calls 0 := by
    ext l
    simp only [calls, given, List.foldl_cons, List.foldl_nil, Call.record]
    simp
    tauto
  have hclasses : (track ({} : AliasModel).overlap calls 0).classes = [[low, high, across]] := by
    decide +kernel
  obtain ⟨-, hsame, -⟩ := track_components {} calls 0
  exact ⟨hgiven, by decide +kernel, hclasses, hsame calls 1 hgiven _ (by simp [hclasses])⟩

end LoopMemory.AliasClasses
