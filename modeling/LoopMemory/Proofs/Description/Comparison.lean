import LoopMemory.Proofs.Description.Order
import LoopMemory.Proofs.Description.Spelling

/-! What a report says when a region is expected to have just what was found. -/
namespace LoopMemory.Description

/- Sorted lists without repetitions. -/
section Dedup
variable {a : String} {l : List String}

theorem mem_dedup : a ∈ dedup l ↔ a ∈ l := by
  induction l with
  | nil => simp [dedup]
  | cons b r ih =>
    rw [dedup]
    split
    · rename_i hb
      rw [ih, List.mem_cons, iff_or_self]
      rintro rfl
      exact List.mem_of_mem_head? hb
    · rw [List.mem_cons, List.mem_cons, ih]

/- Equal texts stand together. -/
theorem nodup_dedup (h : l.Pairwise (· ≤ ·)) : (dedup l).Nodup := by
  induction l with
  | nil => exact List.nodup_nil
  | cons b r ih =>
    obtain ⟨hb, hr⟩ := List.pairwise_cons.1 h
    rw [dedup]
    split
    · exact ih hr
    · rename_i hhead
      refine List.nodup_cons.2 ⟨fun hmem => hhead ?_, ih hr⟩
      rw [mem_dedup] at hmem
      cases r with
      | nil => cases hmem
      | cons c s =>
        have hcb : c ≤ b := by
          rcases List.mem_cons.1 hmem with rfl | hmem
          · exact le_rfl
          · exact (List.pairwise_cons.1 hr).1 b hmem
        exact congrArg some (le_antisymm hcb (hb c (.head _)))

theorem dedup_of_nodup (h : l.Nodup) : dedup l = l := by
  induction l with
  | nil => rfl
  | cons b r ih =>
    obtain ⟨hb, hr⟩ := List.nodup_cons.1 h
    have hhead : r.head? ≠ some b := fun hhead => hb (List.mem_of_mem_head? hhead)
    rw [dedup, if_neg hhead, ih hr]

end Dedup

/-- Each text of the list stands there once, and would be reported as it stands there. -/
structure Legible (names : Names) (l : List String) : Prop where
  nodup : l.Nodup
  normal : ∀ t ∈ l, ∀ arith, normal arith names t = .ok t

section Compare
variable {names : Names} {region field : String} {expected found l l' : List String}
  {arith : Arithmetic}

theorem Legible.perm (h : Legible names l) (hp : l.Perm l') : Legible names l' :=
  ⟨hp.nodup_iff.1 h.nodup, fun t ht => h.normal t (hp.mem_iff.2 ht)⟩

theorem legible_everything : Legible names [everything] := by
  refine ⟨List.nodup_singleton _, fun t ht arith => ?_⟩
  obtain rfl := List.mem_singleton.1 ht
  rw [normal, if_pos rfl]

/-- A list that was found meets an expectation of its own texts just when it is legible. -/
theorem compare_eq_none (hn : (names.vars.map (·.1)).Nodup) (hp : expected.Perm found)
    (hs : found.Pairwise (· ≤ ·)) :
    compare arith names region field expected (some found) = .ok none ↔ Legible names found := by
  have hread : Legible names found → expected.mapM (normal arith names) = .ok expected :=
    fun h => mapM_eq_self fun t ht => h.normal t (hp.mem_iff.1 ht) arith
  rw [compare]
  split
  · rename_i hmap
    refine iff_of_false (by simp) fun h => ?_
    rw [hread h] at hmap
    cases hmap
  · rename_i hmap
    refine iff_of_false (by simp) fun h => ?_
    rw [hread h] at hmap
    cases hmap
  · rename_i texts hmap
    simp only [Option.getD_some, Except.ok.injEq]
    split
    · rename_i he
      refine iff_of_true rfl ⟨?_, fun t ht arith' => ?_⟩
      · rw [← he]
        exact nodup_dedup (Text.pairwise_sort _)
      · rw [← he, mem_dedup, (Text.perm_sort _).mem_iff] at ht
        obtain ⟨u, -, hu⟩ := (mem_of_mapM hmap).1 ht
        exact normal_normal hn hu
    · rename_i he
      refine iff_of_false (by simp) fun h => he ?_
      rw [hread h] at hmap
      obtain rfl := Except.ok.inj hmap
      rw [Text.sort_eq_of_perm hp hs, dedup_of_nodup h.nodup]

theorem compareField_eq_nil {found : Option (List String)} (hn : (names.vars.map (·.1)).Nodup)
    (hp : expected.Perm (found.getD [everything]))
    (hs : (found.getD [everything]).Pairwise (· ≤ ·)) :
    Expectation.compareField arith names region ⟨field, some expected, found⟩ = .ok [] ↔
      Legible names (found.getD [everything]) := by
  have hcompare : compare arith names region field expected found = .ok none ↔
      Legible names (found.getD [everything]) := by
    rw [← compare_eq_none hn hp hs]
    rfl
  rw [← hcompare, Expectation.compareField, map_eq_ok]
  simp only [Option.toList_eq_nil_iff, exists_eq_right]

/-- Nothing is missed where no list differs and verdicts are asked of a loop only. -/
theorem mismatches_eq_nil {e : Expectation} {r : RegionReport} :
    e.mismatches arith names r = .ok [] ↔
      (∀ c ∈ e.comparisons r, Expectation.compareField arith names r.name c = .ok []) ∧
        (e.asksVerdicts = true → r.isLoop = true) := by
  have hlast : ∀ ds : List (List String), (ds.flatten ++
      if e.asksVerdicts && !r.isLoop then
        [s!"'{r.name}' is the routine body, only loops are privatized"] else []) = [] ↔
      (∀ d ∈ ds, d = []) ∧ (e.asksVerdicts = true → r.isLoop = true) := by
    intro ds
    cases e.asksVerdicts <;> cases r.isLoop <;> simp
  simp only [Expectation.mismatches, bind_eq_ok, pure_eq_ok, hlast]
  constructor
  · rintro ⟨ds, hds, hnil, hverdicts⟩
    refine ⟨fun c hc => ?_, hverdicts⟩
    obtain ⟨d, hd⟩ := exists_mapM_ok.1 ⟨ds, hds⟩ c hc
    rw [hd, hnil d ((mem_of_mapM hds).2 ⟨c, hc, hd⟩)]
  · rintro ⟨hnil, hverdicts⟩
    obtain ⟨ds, hds⟩ := mapM_ok fun c hc => ⟨[], hnil c hc⟩
    refine ⟨ds, hds, fun d hd => ?_, hverdicts⟩
    obtain ⟨c, hc, hd⟩ := (mem_of_mapM hds).1 hd
    exact (Except.ok.inj ((hnil c hc).symm.trans hd)).symm

end Compare

namespace RegionReport
variable {m : Model} {results : Results} {region : Region} {report : RegionReport}

/-- The locations of the candidates with certain verdicts, in the order of the report. -/
def placesWhere (r : RegionReport) (p : Verdict → Bool) : List String :=
  (r.privatization.filter fun c => p c.verdict).map (·.location)

/-- The expectation that the region has just what was found, where `*` stands for a list of all
locations. Only a loop is expected to have verdicts. -/
def expectation (r : RegionReport) : Expectation where
  defs := some r.defs
  mayDefs := some r.mayDefs
  uses := some r.uses
  mustReachOut := some (r.mustReachOut.getD [everything])
  mayReachOut := some (r.mayReachOut.getD [everything])
  priv := if r.isLoop then some (r.placesWhere Verdict.isPrivate) else none
  shared := if r.isLoop then some (r.placesWhere (· == .shared)) else none

/-- All lists of locations of which something may be expected. -/
def lists (r : RegionReport) : List (List String) :=
  [r.defs, r.mayDefs, r.uses, r.mustReachOut.getD [everything], r.mayReachOut.getD [everything],
    r.placesWhere Verdict.isPrivate, r.placesWhere (· == .shared)]

/-- What is reported is in order, and verdicts only on loops. -/
structure Tidy (r : RegionReport) : Prop where
  defs : r.defs.Pairwise (· ≤ ·)
  mayDefs : r.mayDefs.Pairwise (· ≤ ·)
  uses : r.uses.Pairwise (· ≤ ·)
  mustReachOut : (r.mustReachOut.getD [everything]).Pairwise (· ≤ ·)
  mayReachOut : (r.mayReachOut.getD [everything]).Pairwise (· ≤ ·)
  bare : r.isLoop = false → r.privatization = []

theorem pairwise_listReach? (names : Names) (r : Reach) :
    ((names.listReach? r).getD [everything]).Pairwise (· ≤ ·) := by
  cases r with
  | full => exact List.pairwise_singleton _ _
  | only s => exact Text.pairwise_sort _

theorem tidy_of_ofResults (h : ofResults m results region = .ok report) : report.Tidy := by
  obtain ⟨f, flow, cs, -, -, hcs, hreport⟩ := of_ofResults h
  suffices htidy : report.findings.Tidy from
    ⟨htidy.defs, htidy.mayDefs, htidy.uses, htidy.mustReachOut, htidy.mayReachOut, htidy.bare⟩
  rw [hreport]
  refine ⟨Text.pairwise_sort _, Text.pairwise_sort _, Text.pairwise_sort _,
    pairwise_listReach? _ _, pairwise_listReach? _ _, fun hloop => ?_⟩
  simp only at hloop
  rw [hloop] at hcs
  obtain rfl := Except.ok.inj hcs
  rfl

/-- A region meets the expectation of what was found just when all that was found is legible. -/
theorem Tidy.mismatches_eq_nil {names : Names} {arith : Arithmetic} {r : RegionReport} (h : r.Tidy)
    (hn : (names.vars.map (·.1)).Nodup) :
    r.expectation.mismatches arith names r = .ok [] ↔ ∀ l ∈ r.lists, Legible names l := by
  have hfield : ∀ field found, (found.getD [everything]).Pairwise (· ≤ ·) →
      (Expectation.compareField arith names r.name
        ⟨field, some (found.getD [everything]), found⟩ = .ok [] ↔
          Legible names (found.getD [everything])) :=
    fun field found hs => compareField_eq_nil hn (.refl _) hs
  have hdefs := hfield "defs" (some r.defs) h.defs
  have hmayDefs := hfield "may_defs" (some r.mayDefs) h.mayDefs
  have huses := hfield "uses" (some r.uses) h.uses
  have hmust := hfield "must_reach_out" r.mustReachOut h.mustReachOut
  have hmay := hfield "may_reach_out" r.mayReachOut h.mayReachOut
  have hplaces : ∀ field p, Expectation.compareField arith names r.name
      ⟨field, some (r.placesWhere p), some (r.locationsWhere p)⟩ = .ok [] ↔
        Legible names (r.placesWhere p) := by
    intro field p
    have hperm : (r.locationsWhere p).Perm (r.placesWhere p) := Text.perm_sort _
    have hsorted : (r.locationsWhere p).Pairwise (· ≤ ·) := Text.pairwise_sort _
    have hlegible : Legible names (r.locationsWhere p) ↔ Legible names (r.placesWhere p) :=
      ⟨fun hl => hl.perm hperm, fun hl => hl.perm hperm.symm⟩
    rw [← hlegible]
    exact compareField_eq_nil hn hperm.symm hsorted
  have hpriv := hplaces "private" Verdict.isPrivate
  have hshared := hplaces "shared" (· == .shared)
  simp only [Option.getD_some] at hdefs hmayDefs huses
  rw [Description.mismatches_eq_nil]
  simp only [lists, List.mem_cons, List.not_mem_nil, or_false, forall_eq_or_imp, forall_eq]
  cases hloop : r.isLoop with
  | true =>
    simp [Expectation.comparisons, Expectation.flow, Expectation.verdicts, expectation, hloop,
      hdefs, hmayDefs, huses, hmust, hmay, hpriv, hshared]
  | false =>
    have hnone : ∀ p, r.placesWhere p = [] := fun p => by rw [placesWhere, h.bare hloop]; rfl
    have hnil : Legible names [] := ⟨List.nodup_nil, fun _ ht => absurd ht List.not_mem_nil⟩
    simp [Expectation.comparisons, Expectation.flow, expectation, hloop, Expectation.asksVerdicts,
      hdefs, hmayDefs, huses, hmust, hmay, hnone, hnil]

end RegionReport
end LoopMemory.Description
