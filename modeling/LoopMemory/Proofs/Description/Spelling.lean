import LoopMemory.Description.Report
import LoopMemory.Proofs.Addresses
import LoopMemory.Proofs.Description.Variables
import LoopMemory.Proofs.Text
import Mathlib.Algebra.Group.Basic
import Mathlib.Algebra.Group.Int.Defs

/-! Locations that are written by name and read back. -/
namespace LoopMemory

/- The length of a range. -/

namespace Arithmetic
variable {arith : Arithmetic} {start stop length : Int64}

theorem eq_of_sub (h : arith.sub stop start = .ok length) : length = stop - start := by
  simp only [sub] at h
  split at h
  · cases h
  · exact (Except.ok.inj h).symm

theorem sub_of_fits (hle : ¬stop < start)
    (h : stop.toInt - start.toInt ≤ Int64.maxValue.toInt) :
    arith.sub stop start = .ok (stop - start) := by
  rw [Int64.lt_iff_toInt_lt] at hle
  have hmin : Int64.minValue.toInt ≤ stop.toInt - start.toInt := by
    rw [Int64.toInt_minValue]
    omega
  exact if_neg fun h' => h'.2 ⟨hmin, h⟩

/-- A range ends the program where it is checked and no offset can count its bytes. -/
theorem sub_eq_error (hle : ¬stop < start) {overflow : Overflow} :
    arith.sub stop start = .error overflow ↔
      arith = .checked ∧ Int64.maxValue.toInt < stop.toInt - start.toInt := by
  by_cases h : stop.toInt - start.toInt ≤ Int64.maxValue.toInt
  · rw [sub_of_fits hle h]
    exact iff_of_false nofun fun h' => h'.2.not_ge h
  · have hfits : ¬(Int64.minValue.toInt ≤ stop.toInt - start.toInt ∧
        stop.toInt - start.toInt ≤ Int64.maxValue.toInt) := fun h' => h h'.2
    simp only [sub, hfits, not_false_eq_true, and_true, not_le.1 h]
    split
    · exact iff_of_true rfl ‹_›
    · exact iff_of_false nofun ‹_›

theorem toNat_length (hle : ¬stop < start) :
    ((stop - start).toUInt64.toNat : Int) = stop.toInt - start.toInt := by
  have hstart : start.toInt = if 2 * start.toUInt64.toNat < 2 ^ 64 then (start.toUInt64.toNat : Int)
      else start.toUInt64.toNat - ((2 ^ 64 : Nat) : Int) := BitVec.toInt_eq_toNat_cond _
  have hstop : stop.toInt = if 2 * stop.toUInt64.toNat < 2 ^ 64 then (stop.toUInt64.toNat : Int)
      else stop.toUInt64.toNat - ((2 ^ 64 : Nat) : Int) := BitVec.toInt_eq_toNat_cond _
  have hstart' := start.toUInt64.toNat_lt
  have hstop' := stop.toUInt64.toNat_lt
  rw [Int64.lt_iff_toInt_lt] at hle
  rw [Int64.toUInt64_sub, UInt64.toNat_sub]
  omega

end Arithmetic

/-- A name that nothing inside or around it keeps from being read. -/
def Names.Plain (x : String) : Prop := '[' ∉ x.toList ∧ Text.trim x.toList = x.toList

instance (x : String) : Decidable (Names.Plain x) := inferInstanceAs (Decidable (_ ∧ _))

namespace Names
variable {names : Names} {x text : String} {size : Option UInt64} {b : Base} {k l : Location}
  {o start stop : Int64} {e : Int} {arith : Arithmetic}

/- Declarations and their names. -/

theorem entry?_of_baseOf? (h : names.baseOf? x = some b) :
    ∃ size, names.entry? b = some (x, size) := by
  obtain ⟨⟨v, i⟩, hv, rfl⟩ := Option.map_eq_some_iff.1 h
  have hx := List.find?_some hv
  have hmem := List.mem_reverse.1 (List.mem_of_find?_eq_some hv)
  obtain ⟨hi, hget⟩ := List.mk_mem_zipIdx_iff_le_and_getElem?_sub.1 hmem
  obtain ⟨y, size⟩ := v
  obtain rfl := beq_iff_eq.1 hx
  obtain ⟨j, rfl⟩ := Nat.exists_eq_add_of_le' hi
  exact ⟨size, hget⟩

theorem name_mem (h : names.entry? b = some (x, size)) : x ∈ names.vars.map (·.1) := by
  cases b with
  | zero => cases h
  | succ i => exact List.mem_map.2 ⟨(x, size), List.mem_of_getElem? h, rfl⟩

section Distinct
variable (hn : (names.vars.map (·.1)).Nodup)
include hn

theorem baseOf?_of_entry? (h : names.entry? b = some (x, size)) : names.baseOf? x = some b := by
  obtain ⟨c, hc⟩ := exists_baseOf?.2 (name_mem h)
  obtain ⟨size', h'⟩ := entry?_of_baseOf? hc
  cases b with
  | zero => cases h
  | succ i =>
    cases c with
    | zero => cases h'
    | succ j =>
      have hi : (names.vars.map (·.1))[i]? = some x := by
        rw [List.getElem?_map, show names.vars[i]? = some (x, size) from h]
        rfl
      have hj : (names.vars.map (·.1))[j]? = some x := by
        rw [List.getElem?_map, show names.vars[j]? = some (x, size') from h']
        rfl
      have hlt := (List.getElem?_eq_some_iff.1 hi).1
      rw [hc, (List.getElem?_inj hlt hn).1 (hi.trans hj.symm)]

end Distinct

/- Reading. -/

theorem whole?_eq (hb : names.baseOf? x = some b) (he : names.entry? b = some (x, size)) :
    names.whole? x = some ⟨b, 0, extent size, none⟩ := by
  simp only [whole?, hb, sizeOf?, he, Option.map_some, Option.bind_some]

theorem bounds?_eq_some {range : List Char} {start : Int64} {stop? : Option Int64} :
    bounds? range = some (start, stop?) ↔ ∃ first last,
      range = first ++ ['.', '.'] ++ last ++ [']'] ∧ Text.int64? (Text.trim first) = some start ∧
      (Text.trim last = [] ∧ stop? = none ∨
        ∃ stop, Text.int64? (Text.trim last) = some stop ∧ stop? = some stop) := by
  constructor
  · intro h
    simp only [bounds?, Option.bind_eq_bind, Option.pure_def] at h
    split at h
    · rename_i hclosed
      rw [Option.bind_some] at h
      obtain ⟨⟨first, last⟩, hsplit, h⟩ := Option.bind_eq_some_iff.1 h
      obtain ⟨start', hstart, h⟩ := Option.bind_eq_some_iff.1 h
      have hrange : range = first ++ ['.', '.'] ++ last ++ [']'] := by
        rw [List.append_assoc first, ← Text.eq_of_splitAt? hsplit]
        exact (List.dropLast_append_getLast? _ hclosed).symm
      split at h
      · rename_i hlast
        obtain ⟨rfl, rfl⟩ := Prod.mk.inj (Option.some.inj h)
        exact ⟨first, last, hrange, hstart, .inl ⟨List.isEmpty_iff.1 hlast, rfl⟩⟩
      · obtain ⟨stop, hstop, h⟩ := Option.bind_eq_some_iff.1 h
        obtain ⟨rfl, rfl⟩ := Prod.mk.inj (Option.some.inj h)
        exact ⟨first, last, hrange, hstart, .inr ⟨stop, hstop, rfl⟩⟩
    · cases h
  · rintro ⟨first, last, rfl, hstart, hend⟩
    have hsplit := Text.splitAt?_append (m := ['.']) (r := last) (Text.dot_notMem_of_int64? hstart)
    rw [← List.append_assoc] at hsplit
    simp only [bounds?, Option.bind_eq_bind, Option.pure_def, List.getLast?_concat, if_true,
      List.dropLast_concat, Option.bind_some, hsplit, hstart]
    rcases hend with ⟨hlast, rfl⟩ | ⟨stop, hstop, rfl⟩
    · rw [hlast, List.isEmpty_nil, if_pos rfl]
    · rw [if_neg (by simpa using Text.ne_nil_of_int64? hstop), hstop, Option.bind_some]

/-- A plain name with a range behind it comes apart before the range. -/
theorem parse_part (hx : Plain x) (hb : names.baseOf? x = some b) {inner : List Char}
    (ht : text.toList = x.toList ++ '[' :: (inner ++ [']'])) :
    names.parse arith text = parseRange arith b (inner ++ [']']) := by
  have htrim : Text.trim text.toList = text.toList := by
    rw [ht, Text.trim_eq_self_iff]
    refine ⟨fun c hc => ?_, fun c hc => ?_⟩
    · cases hxs : x.toList with
      | nil =>
        rw [hxs, List.nil_append, List.head?_cons, Option.mem_some_iff] at hc
        subst hc
        rfl
      | cons d s =>
        refine (Text.trim_eq_self_iff.1 hx.2).1 c ?_
        rw [hxs] at hc ⊢
        exact hc
    · rw [← List.cons_append, ← List.append_assoc, List.getLast?_concat, Option.mem_some_iff] at hc
      subst hc
      rfl
  have hsplit := Text.splitAt?_eq_some.2 ⟨ht, hx.1⟩
  simp only [parse, htrim, hsplit, hx.2, String.ofList_toList, hb]

/- Writing. -/

theorem name_eq (he : names.entry? l.base = some (x, size)) : names.name l =
    if l.offset = 0 ∧ l.size = extent size then x
    else match l.stop with
      | some e => s!"{x}[{l.offset.toInt}..{e}]"
      | none => s!"{x}[{l.offset.toInt}..]" := by
  unfold name
  generalize names.entry? l.base = v at he ⊢
  subst he
  rfl

theorem toList_closed (x : String) (i e : Int) : (s!"{x}[{i}..{e}]").toList = x.toList ++
    '[' :: ((toString i).toList ++ ['.', '.'] ++ (toString e).toList ++ [']']) := by
  change (x ++ "[" ++ toString i ++ ".." ++ toString e ++ "]").toList = _
  simp [String.toList_append]

theorem toList_open (x : String) (i : Int) : (s!"{x}[{i}..]").toList = x.toList ++
    '[' :: ((toString i).toList ++ ['.', '.'] ++ [] ++ [']']) := by
  change (x ++ "[" ++ toString i ++ "..]").toList = _
  simp [String.toList_append]

theorem parse_open (hx : Plain x) (hb : names.baseOf? x = some b) :
    names.parse arith s!"{x}[{o.toInt}..]" =
      .ok (some { base := b, offset := o, size := .unknown }) := by
  have ho : Text.int64? (Text.trim (toString o.toInt).toList) = some o := by
    rw [Text.trim_toString, Text.int64?_toString o.minValue_le_toInt o.toInt_le, Int64.ofInt_toInt]
  rw [parse_part hx hb (toList_open x o.toInt), parseRange,
    bounds?_eq_some.2 ⟨_, _, rfl, ho, .inl ⟨rfl, rfl⟩⟩]

theorem parse_closed (hx : Plain x) (hb : names.baseOf? x = some b) (hle : o.toInt ≤ e)
    (he : e ≤ Int64.maxValue.toInt) (hfits : e - o.toInt ≤ Int64.maxValue.toInt) :
    names.parse arith s!"{x}[{o.toInt}..{e}]" =
      .ok (some { base := b, offset := o, size := .bytes (.ofNat (e - o.toInt).toNat) }) := by
  have ho : Text.int64? (Text.trim (toString o.toInt).toList) = some o := by
    rw [Text.trim_toString, Text.int64?_toString o.minValue_le_toInt o.toInt_le, Int64.ofInt_toInt]
  have hmin := o.minValue_le_toInt.trans hle
  have hstop : Text.int64? (Text.trim (toString e).toList) = some (.ofInt e) := by
    rw [Text.trim_toString, Text.int64?_toString hmin he]
  have hvalue : (Int64.ofInt e).toInt = e := by
    rw [Int64.toInt_minValue] at hmin
    rw [Int64.toInt_maxValue] at he
    exact Int64.toInt_ofInt_of_le hmin (by omega)
  have hlt : ¬Int64.ofInt e < o := by
    rw [Int64.lt_iff_toInt_lt, hvalue]
    omega
  have hlength : (Int64.ofInt e - o).toUInt64 = .ofNat (e - o.toInt).toNat := by
    have hspan := Arithmetic.toNat_length hlt
    rw [hvalue] at hspan
    rw [← UInt64.ofNat_toNat (x := (Int64.ofInt e - o).toUInt64), ← hspan, Int.toNat_natCast]
  rw [← hvalue] at hfits
  rw [parse_part hx hb (toList_closed x o.toInt e), parseRange,
    bounds?_eq_some.2 ⟨_, _, rfl, ho, .inr ⟨_, hstop, rfl⟩⟩]
  simp only [if_neg hlt, Arithmetic.sub_of_fits hlt hfits, ← hlength]
  rfl

/-- What is written for the location tells all about it: it is the whole of a variable with a plain
name, or a part of it that has no end, or one whose end can be written. -/
structure Spelled (names : Names) (l : Location) : Prop where
  entry : ∃ x size, names.entry? l.base = some (x, size) ∧ Plain x ∧
    (l.offset = 0 ∧ l.size = extent size ∨ l.size = .unknown ∨ ∃ e, l.stop = some e)
  untagged : l.tag = none

theorem stop_eq_some {n : UInt64} : (⟨b, o, .bytes n, none⟩ : Location).stop = some e ↔
    e = o.toInt + n.toNat ∧ (n.toNat : Int) ≤ Int64.maxValue.toInt ∧ e ≤ Int64.maxValue.toInt := by
  rw [Location.stop_eq_some]
  constructor
  · intro h
    obtain ⟨k, hk, hsize, he, hmax⟩ := h
    cases hk
    exact ⟨he.symm, hsize, hmax⟩
  · intro h
    exact ⟨n, rfl, h.2.1, h.1.symm, h.2.2⟩

theorem parse_name (hn : (names.vars.map (·.1)).Nodup) (h : names.Spelled l) :
    names.parse arith (names.name l) = .ok (some l) := by
  obtain ⟨⟨x, size, he, hx, hform⟩, htag⟩ := h
  have hb := baseOf?_of_entry? hn he
  obtain ⟨base, offset, extent, tag⟩ := l
  obtain rfl : tag = none := htag
  rw [name_eq he]
  split
  · rename_i hwhole
    obtain ⟨rfl, rfl⟩ := hwhole
    have hsplit := Text.splitAt?_eq_none (m := []) hx.1
    simp only [parse, hx.2, hsplit, String.ofList_toList, whole?_eq hb he]
  · rename_i hpart
    cases hs : extent with
    | unknown =>
      simp only [Location.stop]
      exact parse_open hx hb
    | bytes n =>
      subst hs
      obtain ⟨e, hstop⟩ := (hform.resolve_left hpart).resolve_left (by simp)
      obtain ⟨rfl, hfits, hmax⟩ := stop_eq_some.1 hstop
      simp only [hstop]
      rw [parse_closed hx hb (by omega) hmax (by omega)]
      simp

/-- Two locations that are told by their names have different ones. -/
theorem name_inj (hn : (names.vars.map (·.1)).Nodup) (hk : names.Spelled k) (hl : names.Spelled l)
    (h : names.name k = names.name l) : k = l := by
  have hparse : names.parse .wrapping (names.name k) = .ok (some k) := parse_name hn hk
  rw [h, parse_name hn hl] at hparse
  exact (Option.some.inj (Except.ok.inj hparse)).symm

/- What was read has a name. -/

/-- The text gives a range by both of its ends, as in `x[start..stop]`. Blanks may stand around the
name and around either number. -/
def Spans (text : String) (start stop : Int64) : Prop :=
  ∃ name first last, Text.trim text.toList =
      name ++ '[' :: (first ++ ['.', '.'] ++ last ++ [']']) ∧ '[' ∉ name ∧
    Text.int64? (Text.trim first) = some start ∧ Text.int64? (Text.trim last) = some stop

theorem spans_of_bounds? {name range : List Char}
    (hsplit : Text.splitAt? ['['] (Text.trim text.toList) = some (name, range))
    (h : bounds? range = some (start, some stop)) : Spans text start stop := by
  obtain ⟨first, last, rfl, hstart, ⟨-, hstop⟩ | ⟨stop', hstop, hsame⟩⟩ := bounds?_eq_some.1 h
  · cases hstop
  · obtain rfl := Option.some.inj hsame
    exact ⟨name, first, last, Text.eq_of_splitAt? hsplit, Text.not_mem_of_splitAt? hsplit, hstart,
      hstop⟩

theorem bounds?_of_spans {name range : List Char}
    (hsplit : Text.splitAt? ['['] (Text.trim text.toList) = some (name, range))
    (h : Spans text start stop) : bounds? range = some (start, some stop) := by
  obtain ⟨name', first, last, htext, hname, hstart, hstop⟩ := h
  have hsplit' := Text.splitAt?_eq_some.2 ⟨htext, hname⟩
  rw [hsplit] at hsplit'
  obtain ⟨-, rfl⟩ := Prod.mk.inj (Option.some.inj hsplit')
  exact bounds?_eq_some.2 ⟨first, last, rfl, hstart, .inr ⟨stop, hstop, rfl⟩⟩

theorem of_parseRange {range : List Char} (h : parseRange arith b range = .ok (some l)) :
    l.base = b ∧ l.tag = none ∧ (l.size = .unknown ∨ ∃ stop,
      bounds? range = some (l.offset, some stop) ∧ ¬stop < l.offset ∧
      l.size = .bytes (stop - l.offset).toUInt64) := by
  unfold parseRange at h
  split at h
  · cases h
  · obtain rfl := Option.some.inj (Except.ok.inj h)
    exact ⟨rfl, rfl, .inl rfl⟩
  · rename_i start stop hbounds
    split at h
    · cases h
    · rename_i hle
      obtain ⟨length, hlength, h⟩ := bind_eq_ok.1 h
      obtain rfl := Option.some.inj (pure_eq_ok.1 h)
      exact ⟨rfl, rfl, .inr ⟨stop, hbounds, hle, by rw [Arithmetic.eq_of_sub hlength]⟩⟩

theorem of_parse (h : names.parse arith text = .ok (some l)) : l.tag = none ∧
    ∃ x size, names.entry? l.base = some (x, size) ∧ Plain x ∧
      (l.offset = 0 ∧ l.size = extent size ∨ l.size = .unknown ∨
        ∃ stop : Int64, Spans text l.offset stop ∧ ¬stop < l.offset ∧
          l.size = .bytes (stop - l.offset).toUInt64) := by
  simp only [parse] at h
  split at h
  · rename_i hsplit
    obtain ⟨b, hb, rfl⟩ := Option.map_eq_some_iff.1 (Except.ok.inj h)
    obtain ⟨size, he⟩ := entry?_of_baseOf? hb
    refine ⟨rfl, _, size, he, ⟨?_, ?_⟩, .inl ⟨rfl, ?_⟩⟩
    · rw [String.toList_ofList]
      exact Text.not_mem_of_splitAt?_none hsplit
    · rw [String.toList_ofList, Text.trim_trim]
    · simp only [sizeOf?, he, Option.bind_some]
  · rename_i s range hsplit
    split at h
    · cases h
    · rename_i b hb
      obtain ⟨rfl, htag, hform⟩ := of_parseRange h
      obtain ⟨size, he⟩ := entry?_of_baseOf? hb
      refine ⟨htag, _, size, he, ⟨?_, ?_⟩, .inr (hform.imp_right fun hrange => ?_)⟩
      · rw [String.toList_ofList]
        exact fun hc => Text.not_mem_of_splitAt? hsplit (Text.mem_of_mem_trim hc)
      · rw [String.toList_ofList, Text.trim_trim]
      · obtain ⟨stop, hbounds, hle, hsize⟩ := hrange
        exact ⟨stop, spans_of_bounds? hsplit hbounds, hle, hsize⟩

/-- What is read is written so that it is read again, except for a part that is too long: its end
is left out. -/
theorem spelled_of_parse (h : names.parse arith text = .ok (some l)) : names.Spelled l ∨
    names.Spelled { l with size := .unknown } ∧
      names.name l = names.name { l with size := .unknown } := by
  obtain ⟨base, o, extent, tag⟩ := l
  obtain ⟨htag, x, size, he, hx, hform⟩ := of_parse h
  simp only at htag hform
  subst htag
  rcases hform with hwhole | hopen | ⟨stop, -, hle, rfl⟩
  · exact .inl ⟨⟨x, size, he, hx, .inl hwhole⟩, rfl⟩
  · exact .inl ⟨⟨x, size, he, hx, .inr (.inl hopen)⟩, rfl⟩
  have hspan := Arithmetic.toNat_length hle
  have hmax := stop.toInt_le
  by_cases hlong : stop.toInt - o.toInt ≤ Int64.maxValue.toInt
  · refine .inl ⟨⟨x, size, he, hx, .inr (.inr ⟨stop.toInt, ?_⟩)⟩, rfl⟩
    rw [stop_eq_some, hspan]
    omega
  · refine .inr ⟨⟨⟨x, size, he, hx, .inr (.inl rfl)⟩, rfl⟩, ?_⟩
    have ho : o ≠ 0 := by
      rintro rfl
      rw [Int64.toInt_zero] at hlong
      omega
    rw [name_eq he, name_eq (l := ⟨base, o, .unknown, none⟩) he, if_neg fun h => ho h.1,
      if_neg fun h => ho h.1]
    simp only [Location.stop, hspan, if_neg fun h => hlong (And.left h)]

end Names

namespace Description
variable {names : Names} {t u : String} {l : Location} {arith arith' : Arithmetic}

theorem normal_name (hn : (names.vars.map (·.1)).Nodup) (h : names.Spelled l) :
    normal arith names (names.name l) = .ok (names.name l) := by
  rw [normal]
  split
  · rfl
  · rw [Names.parse_name hn h]

/-- What an expected text would be reported as is reported as itself, in whatever program. -/
theorem normal_normal (hn : (names.vars.map (·.1)).Nodup) (h : normal arith names t = .ok u) :
    normal arith' names u = .ok u := by
  unfold normal at h
  split at h
  · rename_i ht
    obtain rfl := Except.ok.inj h
    rw [normal, if_pos ht]
  · split at h
    · cases h
    · cases h
    · rename_i l hl
      obtain rfl := Except.ok.inj h
      rcases Names.spelled_of_parse hl with hl | ⟨hl, hname⟩
      · exact normal_name hn hl
      · rw [hname]
        exact normal_name hn hl

end Description
end LoopMemory
