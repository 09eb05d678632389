import LoopMemory.Proofs.Description.Spelling
import Mathlib.Data.List.ReduceOption

/-! Ranges that no offset can count. A program that checks its arithmetic ends where it reads one,
and only there: the expectations of a routine are compared to the end unless one of the texts that
are read is such a range. -/
namespace LoopMemory

/-- A computation that can only end in one way has a result when it does not end so. -/
theorem Overflow.exists_ok {α : Type} {x : Except Overflow α} :
    (∃ a, x = .ok a) ↔ x ≠ .error {} := by
  cases x <;> simp

namespace Names
variable {names : Names} {text : String} {b : Base} {arith : Arithmetic}

/-- Where the text gives a range by both of its ends, an offset can count the bytes in between. -/
def RangeFits (text : String) : Prop :=
  ∀ start stop, Spans text start stop → stop.toInt - start.toInt ≤ Int64.maxValue.toInt

/-- The text gives a part of a declared variable, and no offset can count the bytes of its range. -/
def Overlong (names : Names) (text : String) : Prop :=
  (∃ name range, Text.trim text.toList = name ++ '[' :: range ∧ '[' ∉ name ∧
    String.ofList (Text.trim name) ∈ names.vars.map (·.1)) ∧ ¬RangeFits text

theorem parseRange_eq_error {range : List Char} {overflow : Overflow} :
    parseRange arith b range = .error overflow ↔ arith = .checked ∧ ∃ start stop,
      bounds? range = some (start, some stop) ∧
      Int64.maxValue.toInt < stop.toInt - start.toInt := by
  unfold parseRange
  split
  · rename_i hbounds
    exact iff_of_false nofun fun h => by simp [hbounds] at h
  · rename_i hbounds
    exact iff_of_false nofun fun h => by simp [hbounds] at h
  · rename_i start stop hbounds
    split
    · rename_i hlt
      refine iff_of_false nofun fun h => ?_
      obtain ⟨-, start', stop', hbounds', hlong⟩ := h
      obtain ⟨rfl, hstop⟩ := Prod.mk.inj (Option.some.inj (hbounds.symm.trans hbounds'))
      obtain rfl := Option.some.inj hstop
      rw [Int64.lt_iff_toInt_lt] at hlt
      rw [Int64.toInt_maxValue] at hlong
      omega
    · rename_i hle
      simp only [bind_eq_error, Arithmetic.sub_eq_error hle, pure, Except.pure, reduceCtorEq,
        and_false, exists_false, or_false, hbounds, Option.some.injEq, Prod.mk.injEq]
      refine and_congr_right' ⟨fun hlong => ⟨start, stop, ⟨rfl, rfl⟩, hlong⟩, ?_⟩
      rintro ⟨start', stop', ⟨rfl, rfl⟩, hlong⟩
      exact hlong

/-- Reading a text ends the program just when that is built to check its results and the range is
too long. -/
theorem parse_eq_error {overflow : Overflow} :
    names.parse arith text = .error overflow ↔ arith = .checked ∧ names.Overlong text := by
  simp only [parse, Overlong]
  split
  · rename_i hsplit
    refine iff_of_false (by simp) fun h => ?_
    obtain ⟨-, ⟨name, range, htext, -⟩, -⟩ := h
    refine Text.not_mem_of_splitAt?_none hsplit ?_
    rw [htext]
    simp
  · rename_i name range hsplit
    have hdeclared : (∃ name range, Text.trim text.toList = name ++ '[' :: range ∧ '[' ∉ name ∧
        String.ofList (Text.trim name) ∈ names.vars.map (·.1)) ↔
          ∃ b, names.baseOf? (.ofList (Text.trim name)) = some b := by
      simp only [← and_assoc, ← Text.splitAt?_eq_some, hsplit, Option.some.injEq, Prod.mk.injEq,
        exists_baseOf?]
      constructor
      · rintro ⟨_, _, ⟨rfl, rfl⟩, hmem⟩
        exact hmem
      · exact fun hmem => ⟨name, range, ⟨rfl, rfl⟩, hmem⟩
    rw [hdeclared]
    split
    · rename_i hb
      refine iff_of_false (by simp) fun h => ?_
      obtain ⟨-, ⟨b, hb'⟩, -⟩ := h
      rw [hb] at hb'
      cases hb'
    · rename_i b hb
      have hb' : ∃ b, names.baseOf? (.ofList (Text.trim name)) = some b := ⟨b, hb⟩
      rw [parseRange_eq_error, and_iff_right hb']
      simp only [RangeFits, not_forall, not_le, exists_prop]
      refine and_congr_right' ⟨?_, ?_⟩
      · rintro ⟨start, stop, hbounds, hlong⟩
        exact ⟨start, stop, spans_of_bounds? hsplit hbounds, hlong⟩
      · rintro ⟨start, stop, hspans, hlong⟩
        exact ⟨start, stop, bounds?_of_spans hsplit hspans, hlong⟩

theorem exists_parse : (∃ l, names.parse arith text = .ok l) ↔
    (arith = .checked → ¬names.Overlong text) := by
  rw [Overflow.exists_ok, ne_eq, parse_eq_error, not_and]

end Names

namespace Description
variable {names : Names} {arith : Arithmetic} {t region field : String} {texts : List String}
  {found : Option (List String)} {e : Expectation} {r : RegionReport}

/- Texts. -/

theorem not_overlong_everything : ¬names.Overlong everything := by
  rintro ⟨⟨name, range, htext, -⟩, -⟩
  have hmark : '[' ∈ Text.trim everything.toList := by
    rw [htext]
    simp
  revert hmark
  decide

theorem normal_eq_overflow {overflow : Overflow} :
    normal arith names t = .error (.overflow overflow) ↔
      arith = .checked ∧ names.Overlong t := by
  have hparse : names.parse arith t = .error overflow ↔ arith = .checked ∧ names.Overlong t :=
    Names.parse_eq_error
  rw [normal]
  split
  · rename_i ht
    exact iff_of_false (by simp) fun h => not_overlong_everything (ht ▸ h.2)
  · rw [← hparse]
    rcases names.parse arith t with overflow' | (_ | l) <;> simp

/-- Of the texts, which are read in order, one is too long, and all before it are read. -/
def Overruns (names : Names) (texts : List String) : Prop :=
  ∃ before t after, texts = before ++ t :: after ∧
    (∀ u ∈ before, ∃ v, normal .checked names u = .ok v) ∧ names.Overlong t

theorem mapM_eq_overflow (overflow : Overflow) :
    texts.mapM (normal arith names) = .error (.overflow overflow) ↔
      arith = .checked ∧ Overruns names texts := by
  rw [mapM_eq_error]
  constructor
  · rintro ⟨before, t, after, he, hbefore, ht⟩
    obtain ⟨rfl, hlong⟩ := normal_eq_overflow.1 ht
    exact ⟨rfl, before, t, after, he, hbefore, hlong⟩
  · rintro ⟨rfl, before, t, after, he, hbefore, hlong⟩
    exact ⟨before, t, after, he, hbefore, normal_eq_overflow.2 ⟨rfl, hlong⟩⟩

theorem exists_compare :
    (∃ difference, compare arith names region field texts found = .ok difference) ↔
      (arith = .checked → ¬Overruns names texts) := by
  rw [← not_and, ← mapM_eq_overflow {}, compare]
  split
  · rename_i hmap
    exact iff_of_false nofun fun h => h hmap
  · rename_i hmap
    exact iff_of_true ⟨_, rfl⟩ (by simp [hmap])
  · rename_i hmap
    exact iff_of_true ⟨_, rfl⟩ (by simp [hmap])

/- Expectations. -/

/-- The lists of an expectation that are compared; those about verdicts are, for a loop. -/
def Expectation.asked (e : Expectation) (isLoop : Bool) : List (List String) :=
  ([e.defs, e.mayDefs, e.uses, e.mustReachOut, e.mayReachOut] ++
    if isLoop then [e.priv, e.shared] else []).reduceOption

theorem Expectation.mem_asked : texts ∈ e.asked r.isLoop ↔
    ∃ c ∈ e.comparisons r, c.expected = some texts := by
  have hasked : e.asked r.isLoop = ((e.comparisons r).map (·.expected)).reduceOption := by
    cases hloop : r.isLoop <;> simp [asked, comparisons, flow, verdicts, hloop]
  rw [hasked, List.reduceOption_mem_iff, List.mem_map]

theorem Expectation.exists_compareField {c : Comparison} :
    (∃ lines, compareField arith names region c = .ok lines) ↔
      (arith = .checked → ∀ texts, c.expected = some texts → ¬Overruns names texts) := by
  rw [compareField]
  cases c.expected with
  | none => exact iff_of_true ⟨_, rfl⟩ nofun
  | some texts =>
    simp only [map_eq_pure_bind, exists_bind_pure, exists_compare, Option.some.injEq, forall_eq']

theorem Expectation.exists_mismatches : (∃ ms, e.mismatches arith names r = .ok ms) ↔
    (arith = .checked → ∀ texts ∈ e.asked r.isLoop, ¬Overruns names texts) := by
  rw [mismatches, exists_bind_pure, exists_mapM_ok]
  simp only [exists_compareField, mem_asked]
  constructor
  · rintro h hc texts ⟨c, hmem, he⟩
    exact h c hmem hc texts he
  · intro h c hmem hc texts he
    exact h hc texts ⟨c, hmem, he⟩

theorem exists_mismatchesOf {regions : List RegionReport} {e : String × Expectation} :
    (∃ ms, mismatchesOf arith names regions e = .ok ms) ↔
      (arith = .checked → ∀ r, regions.find? (·.name == e.1) = some r →
        ∀ texts ∈ e.2.asked r.isLoop, ¬Overruns names texts) := by
  rw [mismatchesOf]
  cases regions.find? (·.name == e.1) with
  | none => exact iff_of_true ⟨_, rfl⟩ nofun
  | some r => simpa using Expectation.exists_mismatches

/- Routines. -/

/-- What is expected of some region of the routine has a range that no offset can count. -/
def Model.Overruns (m : Model) : Prop :=
  ∃ e ∈ m.expect, ∃ region, m.tree.regionNamed? e.1 = some region ∧
    ∃ texts ∈ e.2.asked region.isLoop, Description.Overruns m.names texts

theorem RegionReport.region_of_ofResults {m : Model} {results : Results} {region : Region}
    {report : RegionReport} (h : ofResults m results region = .ok report) :
    report.name = region.name ∧ report.isLoop = region.isLoop := by
  simp only [ofResults, bind_eq_ok] at h
  obtain ⟨f, -, flow, -, h⟩ := h
  split at h
  · obtain ⟨cs, -, h⟩ := bind_eq_ok.1 h
    obtain rfl := pure_eq_ok.1 h
    exact ⟨rfl, rfl⟩
  · obtain ⟨cs, -, h⟩ := bind_eq_ok.1 h
    obtain rfl := pure_eq_ok.1 h
    exact ⟨rfl, rfl⟩

section Report
variable {m : Model} {results : Results} {regions : List RegionReport}
  (h : m.tree.regions.toList.mapM (RegionReport.ofResults m results) = .ok regions)
include h

theorem Model.exists_mismatches :
    (∃ ms, m.expect.mapM (mismatchesOf arith m.names regions) = .ok ms) ↔
      (arith = .checked → ¬m.Overruns) := by
  have hfind : ∀ (name : String) (report : RegionReport),
      regions.find? (·.name == name) = some report ↔
        ∃ region, m.tree.regionNamed? name = some region ∧
          RegionReport.ofResults m results region = .ok report := by
    intro name report
    rw [RegionTree.regionNamed?, ← Array.find?_toList]
    exact find?_of_mapM h fun region report hreport =>
      congrArg (· == name) (RegionReport.region_of_ofResults hreport).1
  rw [exists_mapM_ok]
  simp only [exists_mismatchesOf, hfind]
  constructor
  · rintro h' hc ⟨e, he, region, hregion, texts, htexts, hlong⟩
    have hmem : region ∈ m.tree.regions.toList :=
      Array.mem_toList_iff.2 (Array.mem_of_find?_eq_some hregion)
    obtain ⟨report, hreport⟩ := exists_mapM_ok.1 ⟨regions, h⟩ region hmem
    refine h' e he hc report ⟨region, hregion, hreport⟩ texts ?_ hlong
    rwa [(RegionReport.region_of_ofResults hreport).2]
  · rintro h' e he hc report ⟨region, hregion, hreport⟩ texts htexts hlong
    rw [(RegionReport.region_of_ofResults hreport).2] at htexts
    exact h' hc ⟨e, he, region, hregion, texts, htexts, hlong⟩

theorem Model.report_eq : m.report arith results = do
    let mismatches ← (m.expect.mapM (mismatchesOf arith m.names regions)).mapError .overflow
    return { routine := m.name, regions, mismatches := mismatches.flatten } := by
  rw [report, h]
  rfl

end Report

end Description
end LoopMemory
