import LoopMemory.Proofs.Description.Overlong

/-! Locations and their names, there and back. Among the locations on plainly named variables the
nameable ones are just those that are read back from their own name, and reading yields no others
unless a range is longer than an offset can count. Such a range ends a program that checks its
arithmetic. -/
namespace LoopMemory.Names
variable {names : Names} {vars : List Variable} {k l : Location} {text : String}
  {arith : Arithmetic}

/-- The names that a list of declarations leaves. -/
def declared (vars : List Variable) : Names :=
  vars.foldl (fun names v => names.declare v.1 v.2) {}

theorem foldl_declare :
    vars.foldl (fun names v => names.declare v.1 v.2) names = ⟨names.vars ++ vars⟩ := by
  induction vars generalizing names with
  | nil => rw [List.foldl_nil, List.append_nil]
  | cons v vars ih =>
    rw [List.foldl_cons, ih, declare, List.append_assoc, List.singleton_append]

theorem declared_eq (vars : List Variable) : declared vars = ⟨vars⟩ := foldl_declare

/-- The whole of a declared variable, or a part of it that has no end, or one whose end is an
offset. -/
structure Nameable (names : Names) (l : Location) : Prop where
  part : ∃ x size, names.entry? l.base = some (x, size) ∧
    (l.offset = 0 ∧ l.size = extent size ∨ l.size = .unknown ∨ ∃ e, l.stop = some e)
  untagged : l.tag = none

theorem spelled_iff_nameable (hx : ∀ v ∈ names.vars, Plain v.1) :
    names.Spelled l ↔ names.Nameable l := by
  constructor
  · intro h
    obtain ⟨x, size, he, -, hform⟩ := h.entry
    exact ⟨⟨x, size, he, hform⟩, h.untagged⟩
  · intro h
    obtain ⟨x, size, he, hform⟩ := h.part
    obtain ⟨v, hv, hname⟩ := List.mem_map.1 (name_mem he)
    have hplain : Plain x := hname ▸ hx v hv
    exact ⟨⟨x, size, he, hplain, hform⟩, h.untagged⟩

/- A part whose end is left out is read back without one, and so is not read back as itself. -/
theorem parse_name_iff (hn : (names.vars.map (·.1)).Nodup) :
    names.parse arith (names.name l) = .ok (some l) ↔ names.Spelled l := by
  constructor
  · intro h
    cases spelled_of_parse h with
    | inl hl => exact hl
    | inr hcut =>
      obtain ⟨hl, hname⟩ := hcut
      have hback : names.parse arith (names.name { l with size := .unknown }) =
          .ok (some { l with size := .unknown }) := parse_name hn hl
      rw [← hname, h] at hback
      have hsame : l = { l with size := .unknown } := Option.some.inj (Except.ok.inj hback)
      exact hsame ▸ hl
  · exact parse_name hn

theorem spelled_of_rangeFits (h : names.parse arith text = .ok (some l)) (hm : RangeFits text) :
    names.Spelled l := by
  obtain ⟨htag, x, size, he, hx, hform⟩ := of_parse h
  refine ⟨⟨x, size, he, hx, hform.imp_right fun hpart => hpart.imp_right fun hspan => ?_⟩, htag⟩
  obtain ⟨stop, hspan, hle, hsize⟩ := hspan
  have hcount := Arithmetic.toNat_length hle
  have hfits := hm l.offset stop hspan
  have hmax := stop.toInt_le
  exact ⟨stop.toInt, Location.stop_eq_some.2 ⟨_, hsize, by omega, by omega, hmax⟩⟩

/-- After declarations of distinct plain names, a location is read back from its name just where it
is nameable. So is whatever a text is read as, if its range fits. Two nameable locations never share
a name. All this holds of programs with either arithmetic, and reading a text comes to an end unless
results are checked and a range in a declared variable does not fit. -/
theorem name_round_trip (vars : List Variable) (hn : (vars.map (·.1)).Nodup)
    (hx : ∀ v ∈ vars, Plain v.1) :
    (∀ arith l, (declared vars).parse arith ((declared vars).name l) = .ok (some l) ↔
      (declared vars).Nameable l) ∧
    (∀ arith text l, RangeFits text → (declared vars).parse arith text = .ok (some l) →
      (declared vars).Nameable l ∧
        (declared vars).parse arith ((declared vars).name l) = .ok (some l)) ∧
    (∀ k l, (declared vars).Nameable k → (declared vars).Nameable l →
      (declared vars).name k = (declared vars).name l → k = l) ∧
    ∀ arith text, (∃ l, (declared vars).parse arith text = .ok l) ↔
      (arith = .checked → ¬(declared vars).Overlong text) := by
  rw [declared_eq]
  have hspelled : ∀ l, Spelled ⟨vars⟩ l ↔ Nameable ⟨vars⟩ l := fun l => spelled_iff_nameable hx
  refine ⟨fun arith l => ?_, fun arith text l hm h => ?_, fun k l hk hl h => ?_,
    fun arith text => ?_⟩
  · rw [← hspelled, parse_name_iff hn]
  · have hl := spelled_of_rangeFits h hm
    exact ⟨(hspelled l).1 hl, parse_name hn hl⟩
  · exact name_inj hn ((hspelled k).2 hk) ((hspelled l).2 hl) h
  · exact exists_parse

/-- A variable of eight bytes, one of no known size whose name has dots and a bracket in it, and one
without letters whose size is no offset. -/
def oddNames : List Variable :=
  [("x", some 8), ("a..b]", none), ("", some 18446744073709551615)]

theorem name_round_trip_oddNames : (oddNames.map (·.1)).Nodup ∧ (∀ v ∈ oddNames, Plain v.1) ∧
    (declared oddNames).name ⟨2, -4, .bytes 4, none⟩ = "a..b][-4..0]" ∧
    (declared oddNames).parse .checked "a..b][-4..0]" = .ok (some ⟨2, -4, .bytes 4, none⟩) ∧
    (declared oddNames).parse .wrapping
        ((declared oddNames).name ⟨3, 0, .bytes 18446744073709551615, none⟩) =
      .ok (some ⟨3, 0, .bytes 18446744073709551615, none⟩) ∧
    (declared oddNames).parse .checked " x " = .ok (some ⟨1, 0, .bytes 8, none⟩) ∧
    (declared oddNames).Nameable ⟨1, 0, .bytes 8, none⟩ ∧
    (declared oddNames).Overlong "x[-1..9223372036854775807]" := by
  have hn : (oddNames.map (·.1)).Nodup := by decide
  have hx : ∀ v ∈ oddNames, Plain v.1 := by decide
  obtain ⟨hback, hread, -, hended⟩ := name_round_trip oddNames hn hx
  have hname : (declared oddNames).name ⟨2, -4, .bytes 4, none⟩ = "a..b][-4..0]" := by
    decide +kernel
  have hpart : (declared oddNames).Nameable ⟨2, -4, .bytes 4, none⟩ :=
    ⟨⟨"a..b]", none, rfl, .inr (.inr ⟨0, by decide⟩)⟩, rfl⟩
  have hwhole : (declared oddNames).Nameable ⟨3, 0, .bytes 18446744073709551615, none⟩ :=
    ⟨⟨"", some 18446744073709551615, rfl, .inl ⟨rfl, rfl⟩⟩, rfl⟩
  have hblanks : (declared oddNames).parse .checked " x " = .ok (some ⟨1, 0, .bytes 8, none⟩) := by
    decide +kernel
  have hfits : RangeFits " x " := by
    intro start stop h
    obtain ⟨name, first, last, he, -⟩ := h
    have hmark : '[' ∈ Text.trim " x ".toList := by
      rw [he]
      simp
    exact absurd hmark (by decide)
  have hlong : (declared oddNames).Overlong "x[-1..9223372036854775807]" := by
    by_contra hfits
    obtain ⟨l, hl⟩ := (hended .checked "x[-1..9223372036854775807]").2 fun _ => hfits
    have hstopped : ((declared oddNames).parse .checked "x[-1..9223372036854775807]").isOk =
        false := by
      decide +kernel
    rw [hl] at hstopped
    cases hstopped
  exact ⟨hn, hx, hname, hname ▸ (hback _ _).2 hpart, (hback _ _).2 hwhole, hblanks,
    (hread .checked " x " _ hfits hblanks).1, hlong⟩

end LoopMemory.Names
