import LoopMemory.Text
import Mathlib.Data.List.DropRight
import Mathlib.Data.String.Basic

/-! Texts that are cut apart and read as numbers, and the numbers that are printed into them. -/
namespace LoopMemory.Text
variable {s r a b m : List Char} {c : Char} {e : Int}

/- White space around a text. -/

theorem trim_eq (s : List Char) : trim s = (s.dropWhile isBlank).rdropWhile isBlank := rfl

theorem trim_eq_self_iff : trim s = s ↔
    (∀ c ∈ s.head?, isBlank c = false) ∧ ∀ c ∈ s.getLast?, isBlank c = false := by
  have hhead : s.dropWhile isBlank = s ↔ ∀ c ∈ s.head?, isBlank c = false := by
    cases s with
    | nil => simp
    | cons c r => rw [List.dropWhile_eq_self_iff]; simp
  have hlast : s.rdropWhile isBlank = s ↔ ∀ c ∈ s.getLast?, isBlank c = false := by
    rw [List.rdropWhile_eq_self_iff]
    constructor
    · intro h c hc
      obtain ⟨hne, rfl⟩ := List.mem_getLast?_eq_getLast hc
      simpa using h hne
    · intro h hne
      simpa using h _ (List.getLast?_eq_some_getLast hne)
  rw [← hhead, ← hlast, trim_eq]
  constructor
  · intro h
    have hpre := List.rdropWhile_prefix isBlank (s.dropWhile isBlank)
    have hsuf := List.dropWhile_suffix (l := s) isBlank
    have hlen : s.length ≤ (s.dropWhile isBlank).length := by
      simpa [h] using hpre.length_le
    have hdrop := hsuf.eq_of_length_le hlen
    exact ⟨hdrop, by rwa [hdrop] at h⟩
  · rintro ⟨h, h'⟩
    rw [h, h']

theorem trim_trim (s : List Char) : trim (trim s) = trim s := by
  have hdrop : (trim s).dropWhile isBlank = trim s := by
    obtain ⟨rest, hrest⟩ := List.rdropWhile_prefix isBlank (s.dropWhile isBlank)
    rw [← trim_eq] at hrest
    cases ht : trim s with
    | nil => rfl
    | cons c r =>
      rw [ht] at hrest
      have hc := List.dropWhile_idempotent isBlank s
      rw [← hrest, List.cons_append, List.dropWhile_eq_self_iff] at hc
      rw [List.dropWhile_eq_self_iff]
      simpa using hc
  rw [trim_eq (trim s), hdrop, trim_eq s, List.rdropWhile_idempotent]

theorem mem_of_mem_trim (h : c ∈ trim s) : c ∈ s :=
  (List.dropWhile_suffix _).subset ((List.rdropWhile_prefix _ _).subset h)

theorem mem_trim (hc : c ∈ s) (hb : isBlank c = false) : c ∈ trim s := by
  have hdrop : ∀ r : List Char, c ∈ r → c ∈ r.dropWhile isBlank := by
    intro r hr
    rw [← List.takeWhile_append_dropWhile (p := isBlank) (l := r), List.mem_append] at hr
    refine hr.resolve_left fun hblank => ?_
    rw [List.mem_takeWhile_imp hblank] at hb
    cases hb
  exact List.mem_reverse.2 (hdrop _ (List.mem_reverse.2 (hdrop s hc)))

/- The first mark in a text. -/

theorem splitAt?_append (hs : c ∉ s) :
    splitAt? (c :: m) (s ++ (c :: m ++ r)) = some (s, r) := by
  induction s with
  | nil =>
    rw [List.nil_append, List.cons_append, splitAt?, if_pos (by simp)]
    simp
  | cons d s ih =>
    obtain ⟨hd, hs⟩ := not_or.1 (mt List.mem_cons.2 hs)
    rw [List.cons_append, splitAt?, if_neg (by simp [hd]), ih hs]
    rfl

theorem splitAt?_eq_none (hs : c ∉ s) : splitAt? (c :: m) s = none := by
  induction s with
  | nil => rfl
  | cons d s ih =>
    obtain ⟨hd, hs⟩ := not_or.1 (mt List.mem_cons.2 hs)
    rw [splitAt?, if_neg (by simp [hd]), ih hs]
    rfl

theorem eq_of_splitAt? (h : splitAt? m s = some (a, b)) : s = a ++ (m ++ b) := by
  induction s generalizing a with
  | nil =>
    rw [splitAt?] at h
    split at h
    · rename_i hm
      obtain ⟨rfl, rfl⟩ := Prod.mk.inj (Option.some.inj h)
      simpa using hm.symm
    · cases h
  | cons d s ih =>
    rw [splitAt?] at h
    split at h
    · rename_i hm
      obtain ⟨rfl, rfl⟩ := Prod.mk.inj (Option.some.inj h)
      exact (List.prefix_iff_eq_append.1 (List.isPrefixOf_iff_prefix.1 hm)).symm
    · obtain ⟨⟨a', b'⟩, hsplit, hab⟩ := Option.map_eq_some_iff.1 h
      obtain ⟨rfl, rfl⟩ := Prod.mk.inj hab
      rw [ih hsplit, List.cons_append]

/-- What comes before a mark of one character does not have it. -/
theorem not_mem_of_splitAt? (h : splitAt? [c] s = some (a, b)) : c ∉ a := by
  induction s generalizing a with
  | nil => simp [splitAt?] at h
  | cons d s ih =>
    rw [splitAt?] at h
    split at h
    · obtain ⟨rfl, -⟩ := Prod.mk.inj (Option.some.inj h)
      exact List.not_mem_nil
    · rename_i hd
      obtain ⟨⟨a', b'⟩, hsplit, hab⟩ := Option.map_eq_some_iff.1 h
      obtain ⟨rfl, rfl⟩ := Prod.mk.inj hab
      have hne : c ≠ d := by simpa using hd
      exact mt List.mem_cons.1 (not_or.2 ⟨hne, ih hsplit⟩)

theorem splitAt?_eq_some : splitAt? [c] s = some (a, b) ↔ s = a ++ c :: b ∧ c ∉ a := by
  constructor
  · exact fun h => ⟨eq_of_splitAt? h, not_mem_of_splitAt? h⟩
  · rintro ⟨rfl, ha⟩
    exact splitAt?_append ha

theorem not_mem_of_splitAt?_none (h : splitAt? [c] s = none) : c ∉ s := by
  induction s with
  | nil => exact List.not_mem_nil
  | cons d s ih =>
    rw [splitAt?] at h
    split at h
    · cases h
    · rename_i hd
      have hne : c ≠ d := by simpa using hd
      exact mt List.mem_cons.1 (not_or.2 ⟨hne, ih (Option.map_eq_none_iff.1 h)⟩)

/- Numbers that are read. -/

theorem isDigit_of_digits? {n : Nat} (h : digits? s = some n) (hc : c ∈ s) : c.isDigit = true := by
  have hfold : ∀ (s : List Char) k, s.foldlM (fun n c =>
      if c.isDigit then some (10 * n + (c.toNat - 48)) else none) k = some n →
        ∀ c ∈ s, c.isDigit = true := by
    intro s
    induction s with
    | nil => intro _ _ c hc; cases hc
    | cons d s ih =>
      intro k hk
      rw [List.foldlM_cons] at hk
      obtain ⟨j, hj, hk⟩ := Option.bind_eq_some_iff.1 hk
      split at hj
      · rename_i hd
        exact List.forall_mem_cons.2 ⟨hd, ih j hk⟩
      · cases hj
  cases s with
  | nil => cases hc
  | cons d s => exact hfold (d :: s) 0 h c hc

theorem isDigit_of_int64? {n : Int64} (h : int64? s = some n) (hc : c ∈ s) :
    c.isDigit = true ∨ c = '-' ∨ c = '+' := by
  simp only [int64?] at h
  split at h
  · obtain ⟨k, hk, -⟩ := Option.bind_eq_some_iff.1 h
    obtain ⟨n, hn, -⟩ := Option.map_eq_some_iff.1 hk
    rcases List.mem_cons.1 hc with rfl | hc
    · exact .inr (.inl rfl)
    · exact .inl (isDigit_of_digits? hn hc)
  · obtain ⟨k, hk, -⟩ := Option.bind_eq_some_iff.1 h
    obtain ⟨n, hn, -⟩ := Option.map_eq_some_iff.1 hk
    rcases List.mem_cons.1 hc with rfl | hc
    · exact .inr (.inr rfl)
    · exact .inl (isDigit_of_digits? hn hc)
  · obtain ⟨k, hk, -⟩ := Option.bind_eq_some_iff.1 h
    obtain ⟨n, hn, -⟩ := Option.map_eq_some_iff.1 hk
    exact .inl (isDigit_of_digits? hn hc)

theorem dot_notMem_of_int64? {n : Int64} (h : int64? (trim s) = some n) : '.' ∉ s := by
  intro hc
  have hdot := isDigit_of_int64? h (mem_trim hc rfl)
  revert hdot
  decide

theorem ne_nil_of_int64? {n : Int64} (h : int64? s = some n) : s ≠ [] := by
  rintro rfl
  cases h

/- Printed numbers. -/

theorem isBlank_of_isDigit (h : c.isDigit = true) : isBlank c = false := by
  have hlow : '0'.val.toNat = 48 := rfl
  have hhigh : '9'.val.toNat = 57 := rfl
  have hn : c.toNat = c.val.toNat := rfl
  simp only [Char.isDigit, Bool.and_eq_true, decide_eq_true_eq, ge_iff_le,
    UInt32.le_iff_toNat_le] at h
  simp [isBlank]
  omega

theorem digits?_of_isDigit (hs : s ≠ []) (h : ∀ c ∈ s, c.isDigit = true) :
    digits? s = some (Nat.ofDigitChars 10 s 0) := by
  have hfold : ∀ (s : List Char) n, (∀ c ∈ s, c.isDigit = true) → s.foldlM (fun n c =>
      if c.isDigit then some (10 * n + (c.toNat - 48)) else none) n =
        some (Nat.ofDigitChars 10 s n) := by
    intro s
    induction s with
    | nil => intro n _; rfl
    | cons d s ih =>
      intro n h
      obtain ⟨hd, hs⟩ := List.forall_mem_cons.1 h
      rw [List.foldlM_cons, if_pos hd, Nat.ofDigitChars_cons]
      exact ih _ hs
  cases s with
  | nil => exact absurd rfl hs
  | cons d s => exact hfold (d :: s) 0 h

theorem digits?_toDigits (n : Nat) : digits? (Nat.toDigits 10 n) = some n := by
  rw [digits?_of_isDigit Nat.toDigits_ne_nil
    fun c => Nat.isDigit_of_mem_toDigits (by decide) (by decide), Nat.ofDigitChars_ten_toDigits]

theorem toList_toString (e : Int) : (toString e).toList =
    if 0 ≤ e then Nat.toDigits 10 e.toNat else '-' :: Nat.toDigits 10 (-e).toNat := by
  rw [Int.toString_eq_repr, Int.repr_eq_if]
  split <;> simp [Nat.repr_eq_ofList_toDigits]

theorem toString_ne_nil (e : Int) : (toString e).toList ≠ [] := by
  rw [toList_toString]
  split
  · exact Nat.toDigits_ne_nil
  · exact List.cons_ne_nil _ _

theorem isDigit_of_mem_toString (h : c ∈ (toString e).toList) : c.isDigit = true ∨ c = '-' := by
  rw [toList_toString] at h
  split at h
  · exact .inl (Nat.isDigit_of_mem_toDigits (by decide) (by decide) h)
  · rcases List.mem_cons.1 h with h | h
    · exact .inr h
    · exact .inl (Nat.isDigit_of_mem_toDigits (by decide) (by decide) h)

/-- A printed number is not touched when the text around it is taken apart. -/
theorem trim_toString (e : Int) : trim (toString e).toList = (toString e).toList := by
  have hblank : ∀ c ∈ (toString e).toList, isBlank c = false := by
    intro c hc
    rcases isDigit_of_mem_toString hc with hc | rfl
    · exact isBlank_of_isDigit hc
    · rfl
  exact trim_eq_self_iff.2 ⟨fun c hc => hblank c (List.mem_of_mem_head? hc),
    fun c hc => hblank c (List.mem_of_mem_getLast? hc)⟩

theorem dot_notMem_toString (e : Int) : '.' ∉ (toString e).toList := by
  intro h
  rcases isDigit_of_mem_toString h with h | h
  · exact absurd h (by decide)
  · exact absurd h (by decide)

theorem int64?_toString (hmin : Int64.minValue.toInt ≤ e) (hmax : e ≤ Int64.maxValue.toInt) :
    int64? (toString e).toList = some (.ofInt e) := by
  rw [toList_toString]
  split
  · rename_i he
    have hdigit : ∀ c ∈ Nat.toDigits 10 e.toNat, c.isDigit = true :=
      fun c => Nat.isDigit_of_mem_toDigits (by decide) (by decide)
    have hvalue : (e.toNat : Int) = e := Int.toNat_of_nonneg he
    unfold int64?
    split
    · rename_i r hr
      exact absurd (hdigit '-' (hr ▸ .head _)) (by decide)
    · rename_i r hr
      exact absurd (hdigit '+' (hr ▸ .head _)) (by decide)
    · simp only [digits?_toDigits, Option.map_eq_map, Option.map_some, Option.bind_eq_bind,
        Option.bind_some, hvalue]
      rw [if_pos ⟨hmin, hmax⟩]
  · rename_i he
    have hvalue : -((-e).toNat : Int) = e := by omega
    simp only [int64?, digits?_toDigits, Option.map_eq_map, Option.map_some, Option.bind_eq_bind,
      Option.bind_some, hvalue]
    rw [if_pos ⟨hmin, hmax⟩]

/- Sorted texts. -/

theorem perm_sort (l : List String) : (sort l).Perm l := List.mergeSort_perm _ _

theorem pairwise_sort (l : List String) : (sort l).Pairwise (· ≤ ·) := by
  have hsorted : (sort l).Pairwise fun a b => decide (a ≤ b) := List.pairwise_mergeSort
    (fun a b c hab hbc => by simpa using le_trans (by simpa using hab) (by simpa using hbc))
    (fun a b => by simpa using le_total a b) l
  simpa using hsorted

theorem sort_eq_of_perm {l l' : List String} (h : l.Perm l') (hs : l'.Pairwise (· ≤ ·)) :
    sort l = l' :=
  ((perm_sort l).trans h).eq_of_pairwise (fun _ _ _ _ hab hba => le_antisymm hab hba)
    (pairwise_sort l) hs

end LoopMemory.Text
