import LoopMemory.Breach
import Mathlib.Data.List.Forall2

/-! What it means for a chain of fallible steps to succeed. -/
namespace LoopMemory
variable {ε α β σ : Type}

theorem bind_eq_ok {x : Except ε α} {f : α → Except ε β} {b : β} :
    (x >>= f) = .ok b ↔ ∃ a, x = .ok a ∧ f a = .ok b := by
  cases x with
  | error e => simp [bind, Except.bind]
  | ok a => simp [bind, Except.bind]

theorem bind_eq_error {x : Except ε α} {f : α → Except ε β} {e : ε} :
    (x >>= f) = .error e ↔ x = .error e ∨ ∃ a, x = .ok a ∧ f a = .error e := by
  cases x with
  | error e' => simp [bind, Except.bind]
  | ok a => simp [bind, Except.bind]

theorem ok_bind {a : α} {f : α → Except ε β} : (Except.ok a >>= f) = f a := rfl

theorem map_eq_ok {x : Except ε α} {f : α → β} {b : β} :
    f <$> x = .ok b ↔ ∃ a, x = .ok a ∧ f a = b := by
  cases x with
  | error e => simp [Functor.map, Except.map]
  | ok a => simp [Functor.map, Except.map]

theorem pure_eq_ok {a b : α} : (pure a : Except ε α) = .ok b ↔ a = b := by
  simp [pure, Except.pure]

theorem exists_bind_pure {x : Except ε α} {f : α → β} :
    (∃ b, (x >>= fun a => pure (f a)) = .ok b) ↔ ∃ a, x = .ok a := by
  simp only [bind_eq_ok, pure_eq_ok]
  constructor
  · rintro ⟨_, a, ha, -⟩
    exact ⟨a, ha⟩
  · rintro ⟨a, ha⟩
    exact ⟨f a, a, ha, rfl⟩

theorem mapError_eq_ok {δ : Type} {x : Except ε α} {f : ε → δ} {a : α} :
    x.mapError f = .ok a ↔ x = .ok a := by
  cases x with
  | error e => exact iff_of_false nofun nofun
  | ok b => exact ⟨fun h => congrArg _ (Except.ok.inj h), fun h => congrArg _ (Except.ok.inj h)⟩

theorem eq_ok_of_toOption {x : Except ε α} {a : α} (h : x.toOption = some a) : x = .ok a := by
  cases x with
  | error e => simp [Except.toOption] at h
  | ok b => exact congrArg _ (Option.some.inj h)

@[simp] theorem require_eq_ok {p : Prop} [Decidable p] {e : ε} {u : Unit} :
    require p e = .ok u ↔ p := by
  by_cases h : p <;> simp [require, h]

theorem forM_eq_ok {l : List α} {f : α → Except ε Unit} {u : Unit} :
    l.forM f = .ok u ↔ ∀ a ∈ l, f a = .ok () := by
  induction l with
  | nil => simp [pure_eq_ok]
  | cons a l ih =>
    change (f a >>= fun _ => l.forM f) = .ok u ↔ _
    simp only [bind_eq_ok, ih, List.mem_cons, forall_eq_or_imp]
    constructor
    · rintro ⟨_, ha, hl⟩
      exact ⟨ha, hl⟩
    · rintro ⟨ha, hl⟩
      exact ⟨(), ha, hl⟩

theorem map_eq_map_ok {l : List α} {f : α → Except ε β} {bs : List β} :
    l.map f = bs.map .ok ↔ l.mapM f = .ok bs := by
  induction l generalizing bs with
  | nil => cases bs <;> simp [pure_eq_ok]
  | cons a l ih =>
    simp only [List.mapM_cons, bind_eq_ok, pure_eq_ok, ← ih]
    cases bs with
    | nil => simp
    | cons b bs => simp

/-- Two ways to compute agree on a list when they agree on each item. -/
theorem mapM_congr_ok {γ δ : Type} {l : List α} {f : α → Except ε β} {g : α → Except δ γ} {k : γ → β}
    (h : ∀ a c, f a = .ok (k c) ↔ g a = .ok c) {cs : List γ} :
    l.mapM f = .ok (cs.map k) ↔ l.mapM g = .ok cs := by
  rw [← map_eq_map_ok, ← map_eq_map_ok]
  induction l generalizing cs with
  | nil => cases cs <;> simp
  | cons a l ih =>
    cases cs with
    | nil => simp
    | cons c cs => simp only [List.map_cons, List.cons.injEq, h, ih]

/-- A list of results pairs each item with its own result. -/
theorem mapM_eq_ok {l : List α} {f : α → Except ε β} {bs : List β} :
    l.mapM f = .ok bs ↔ List.Forall₂ (fun a b => f a = .ok b) l bs := by
  induction l generalizing bs with
  | nil => rw [List.mapM_nil, pure_eq_ok, List.forall₂_nil_left_iff, eq_comm]
  | cons a l ih =>
    simp only [List.mapM_cons, bind_eq_ok, pure_eq_ok, List.forall₂_cons_left_iff, ih]
    constructor
    · rintro ⟨b, hb, bs', hbs', rfl⟩
      exact ⟨b, bs', hb, hbs', rfl⟩
    · rintro ⟨b, bs', hb, hbs', rfl⟩
      exact ⟨b, hb, bs', hbs', rfl⟩

theorem exists_of_mapM {l : List α} {f : α → Except ε β} {bs : List β} (h : l.mapM f = .ok bs) :
    ∀ b ∈ bs, ∃ a ∈ l, f a = .ok b := by
  rw [mapM_eq_ok] at h
  induction h with
  | nil => simp
  | cons hb _ ih =>
    intro c hc
    rcases List.mem_cons.1 hc with rfl | hc
    · exact ⟨_, .head _, hb⟩
    · obtain ⟨a, ha, hc⟩ := ih c hc
      exact ⟨a, .tail _ ha, hc⟩

theorem length_of_mapM {l : List α} {f : α → Except ε β} {bs : List β} (h : l.mapM f = .ok bs) :
    bs.length = l.length :=
  (mapM_eq_ok.1 h).length_eq.symm

theorem getElem?_of_mapM {l : List α} {f : α → Except ε β} {bs : List β} (h : l.mapM f = .ok bs)
    {i : Nat} {a : α} (ha : l[i]? = some a) : ∃ b, bs[i]? = some b ∧ f a = .ok b := by
  rw [mapM_eq_ok] at h
  induction h generalizing i with
  | nil => cases ha
  | cons hb _ ih =>
    cases i with
    | zero => exact ⟨_, rfl, Option.some.inj ha ▸ hb⟩
    | succ i => exact ih ha

theorem mem_of_mapM {l : List α} {f : α → Except ε β} {bs : List β} (h : l.mapM f = .ok bs)
    {b : β} : b ∈ bs ↔ ∃ a ∈ l, f a = .ok b := by
  refine ⟨exists_of_mapM h b, ?_⟩
  rintro ⟨a, ha, hb⟩
  obtain ⟨i, hi⟩ := List.mem_iff_getElem?.1 ha
  obtain ⟨b', hi', hb'⟩ := getElem?_of_mapM h hi
  exact Except.ok.inj (hb'.symm.trans hb) ▸ List.mem_of_getElem? hi'

theorem map_of_mapM {γ : Type} {l : List α} {f : α → Except ε β} {bs : List β}
    (h : l.mapM f = .ok bs) {g : α → γ} {k : β → γ} (hf : ∀ a b, f a = .ok b → k b = g a) :
    bs.map k = l.map g := by
  rw [mapM_eq_ok] at h
  induction h with
  | nil => rfl
  | cons hb _ ih => rw [List.map_cons, List.map_cons, hf _ _ hb, ih]

/-- A change to one item shows in its own result alone. -/
theorem mapM_modify {l : List α} {f : α → Except ε β} {bs : List β} (h : l.mapM f = .ok bs)
    {k : Nat} {a : α} (ha : l[k]? = some a) {g : α → α} {g' : β → β}
    (hg : ∀ b, f a = .ok b → f (g a) = .ok (g' b)) :
    (l.modify k g).mapM f = .ok (bs.modify k g') := by
  induction l generalizing bs k with
  | nil => cases ha
  | cons c l ih =>
    simp only [List.mapM_cons, bind_eq_ok, pure_eq_ok] at h
    obtain ⟨b, hb, bs', hbs', rfl⟩ := h
    cases k with
    | zero =>
      obtain rfl := Option.some.inj ha
      simp only [List.modify_zero_cons, List.mapM_cons, bind_eq_ok, pure_eq_ok]
      exact ⟨g' b, hg b hb, bs', hbs', rfl⟩
    | succ k =>
      simp only [List.modify_succ_cons, List.mapM_cons, bind_eq_ok, pure_eq_ok]
      exact ⟨b, hb, _, ih hbs' ha, rfl⟩

theorem mapM_append_eq_ok {l l' : List α} {f : α → Except ε β} {bs : List β} :
    (l ++ l').mapM f = .ok bs ↔ ∃ cs ds, l.mapM f = .ok cs ∧ l'.mapM f = .ok ds ∧ bs = cs ++ ds := by
  simp only [List.mapM_append, bind_eq_ok, pure_eq_ok]
  constructor
  · rintro ⟨cs, hcs, ds, hds, rfl⟩
    exact ⟨cs, ds, hcs, hds, rfl⟩
  · rintro ⟨cs, ds, hcs, hds, rfl⟩
    exact ⟨cs, hcs, ds, hds, rfl⟩

theorem mapM_ok {l : List α} {f : α → Except ε β} (h : ∀ a ∈ l, ∃ b, f a = .ok b) :
    ∃ bs, l.mapM f = .ok bs := by
  induction l with
  | nil => exact ⟨[], rfl⟩
  | cons a l ih =>
    obtain ⟨b, hb⟩ := h a (.head _)
    obtain ⟨bs, hbs⟩ := ih fun c hc => h c (.tail _ hc)
    simp only [List.mapM_cons, bind_eq_ok, pure_eq_ok]
    exact ⟨_, b, hb, bs, hbs, rfl⟩

theorem mapM_eq_self {l : List α} {f : α → Except ε α} (h : ∀ a ∈ l, f a = .ok a) :
    l.mapM f = .ok l := by
  induction l with
  | nil => rfl
  | cons a l ih =>
    rw [List.mapM_cons, h a (.head _), ih fun b hb => h b (.tail _ hb)]
    rfl

theorem exists_mapM_ok {l : List α} {f : α → Except ε β} :
    (∃ bs, l.mapM f = .ok bs) ↔ ∀ a ∈ l, ∃ b, f a = .ok b := by
  refine ⟨?_, mapM_ok⟩
  rintro ⟨bs, h⟩ a ha
  obtain ⟨i, hi⟩ := List.mem_iff_getElem?.1 ha
  obtain ⟨b, -, hb⟩ := getElem?_of_mapM h hi
  exact ⟨b, hb⟩

/-- A failure is that of one item, and all items before it succeed. -/
theorem mapM_eq_error {l : List α} {f : α → Except ε β} {e : ε} : l.mapM f = .error e ↔
    ∃ before a after, l = before ++ a :: after ∧ (∀ b ∈ before, ∃ c, f b = .ok c) ∧
      f a = .error e := by
  constructor
  · intro h
    induction l with
    | nil => cases h
    | cons a l ih =>
      rw [List.mapM_cons, bind_eq_error] at h
      rcases h with h | ⟨b, hb, h⟩
      · exact ⟨[], a, l, rfl, by simp, h⟩
      · rcases bind_eq_error.1 h with h | ⟨bs, -, h⟩
        · obtain ⟨before, c, after, rfl, hbefore, hc⟩ := ih h
          exact ⟨a :: before, c, after, rfl, List.forall_mem_cons.2 ⟨⟨b, hb⟩, hbefore⟩, hc⟩
        · cases h
  · rintro ⟨before, a, after, rfl, hbefore, ha⟩
    obtain ⟨bs, hbs⟩ := mapM_ok hbefore
    rw [List.mapM_append, bind_eq_error]
    exact .inr ⟨bs, hbs, by rw [List.mapM_cons, ha]; rfl⟩

/-- The first result with a property is that of the first item with the property it stands for. -/
theorem find?_of_mapM {l : List α} {f : α → Except ε β} {bs : List β} (h : l.mapM f = .ok bs)
    {p : α → Bool} {q : β → Bool} (hf : ∀ a b, f a = .ok b → q b = p a) {b : β} :
    bs.find? q = some b ↔ ∃ a, l.find? p = some a ∧ f a = .ok b := by
  rw [mapM_eq_ok] at h
  induction h with
  | nil => simp
  | @cons a c l cs hc _ ih =>
    rw [List.find?_cons, List.find?_cons, hf a c hc]
    cases p a with
    | true => simp [hc]
    | false => exact ih

/- A fold that succeeds keeps what each of its steps keeps; `P` may speak of the part of the list
   that is done. -/
theorem foldlM_inv {l : List α} {f : σ → α → Except ε σ} {s t : σ} (P : List α → σ → Prop)
    (h : l.foldlM f s = .ok t) (start : P [] s)
    (step : ∀ before a after s t, l = before ++ a :: after → P before s → f s a = .ok t →
      P (before ++ [a]) t) : P l t := by
  suffices H : ∀ before rest s, l = before ++ rest → P before s → rest.foldlM f s = .ok t → P l t
    from H [] l s rfl start h
  intro before rest
  induction rest generalizing before with
  | nil =>
    intro s hl hp hs
    have : s = t := by simpa [pure_eq_ok] using hs
    simpa [hl, ← this] using hp
  | cons a rest ih =>
    intro s hl hp hs
    rw [List.foldlM_cons, bind_eq_ok] at hs
    obtain ⟨u, hu, hs⟩ := hs
    exact ih (before ++ [a]) u (by simp [hl]) (step before a rest s u hl hp hu) hs

/- Two folds over one list that succeed keep what each two of their steps keep. -/
theorem foldlM_inv₂ {τ : Type} {l : List α} {f : σ → α → Except ε σ} {g : τ → α → Except ε τ}
    {s t : σ} {u v : τ} (R : σ → τ → Prop) (h : l.foldlM f s = .ok t) (h' : l.foldlM g u = .ok v)
    (start : R s u) (step : ∀ a ∈ l, ∀ s t u v, R s u → f s a = .ok t → g u a = .ok v → R t v) :
    R t v := by
  induction l generalizing s u with
  | nil =>
    obtain rfl := pure_eq_ok.1 h
    obtain rfl := pure_eq_ok.1 h'
    exact start
  | cons a l ih =>
    rw [List.foldlM_cons, bind_eq_ok] at h h'
    obtain ⟨s', hs, h⟩ := h
    obtain ⟨u', hu, h'⟩ := h'
    exact ih h h' (step a (.head _) s s' u u' start hs hu) fun b hb => step b (.tail _ hb)

theorem foldlM_ok {l : List α} {f : σ → α → Except ε σ} {s : σ} (P : List α → σ → Prop)
    (start : P [] s)
    (step : ∀ before a after s, l = before ++ a :: after → P before s →
      ∃ t, f s a = .ok t ∧ P (before ++ [a]) t) : ∃ t, l.foldlM f s = .ok t ∧ P l t := by
  suffices H : ∀ before rest s, l = before ++ rest → P before s →
      ∃ t, rest.foldlM f s = .ok t ∧ P l t from H [] l s rfl start
  intro before rest
  induction rest generalizing before with
  | nil =>
    intro s hl hp
    exact ⟨s, rfl, by simpa [hl] using hp⟩
  | cons a rest ih =>
    intro s hl hp
    obtain ⟨u, hu, hp'⟩ := step before a rest s hl hp
    obtain ⟨t, ht, hp''⟩ := ih (before ++ [a]) u (by simp [hl]) hp'
    exact ⟨t, by rw [List.foldlM_cons, hu]; exact ht, hp''⟩

/- A fold succeeds when every step does, and what a step asks may depend on the part of the list
   that is done; up to there the invariant holds, by the fold over that part. -/
theorem foldlM_accepts {l : List α} {f : σ → α → Except ε σ} {s : σ} (P : List α → σ → Prop)
    (ok : List α → α → Prop) (start : P [] s)
    (step : ∀ before a after s, l = before ++ a :: after → P before s →
      ((∃ t, f s a = .ok t) ↔ ok before a) ∧ ∀ t, f s a = .ok t → P (before ++ [a]) t) :
    (∃ t, l.foldlM f s = .ok t) ↔ ∀ before a after, l = before ++ a :: after → ok before a := by
  constructor
  · rintro ⟨t, h⟩ before a after rfl
    rw [List.foldlM_append, bind_eq_ok] at h
    obtain ⟨u, hu, h⟩ := h
    have hP : P before u := by
      refine (foldlM_inv (fun done s => done <+: before → P done s) hu (fun _ => start) ?_)
        (List.prefix_refl before)
      rintro done b rest s t he hs ht hpre
      exact (step done b (rest ++ a :: after) s (by simp [he])
        (hs ((List.prefix_append _ _).trans hpre))).2 t ht
    rw [List.foldlM_cons, bind_eq_ok] at h
    obtain ⟨v, hv, -⟩ := h
    exact (step before a after u rfl hP).1.1 ⟨v, hv⟩
  · intro h
    obtain ⟨t, ht, -⟩ := foldlM_ok P start fun before a after s he hs => by
      obtain ⟨hok, hkeep⟩ := step before a after s he hs
      obtain ⟨t, ht⟩ := hok.2 (h before a after he)
      exact ⟨t, ht, hkeep t ht⟩
    exact ⟨t, ht⟩

end LoopMemory
