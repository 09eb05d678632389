import LoopMemory.Proofs.Description.Tables
import LoopMemory.Proofs.Region.Edges

/-! The passes over loops and blocks: which of them lowering accepts. A loop that comes before its
parent waits for a later round, so that only the parents matter and not the order. -/
namespace LoopMemory.Description.Draft
variable {r : Routine} {names : Names} {ls : List LoopEntry} {d d' : Draft} {l : LoopEntry}
  {p : RegionId}

/- Loops. -/

/-- What the rounds keep: the loops that are placed belong to the routine, and their parents lead to
the body; no edge is drawn yet. -/
structure Rounds (r : Routine) (names : Names) (ls : List LoopEntry) (d : Draft) : Prop where
  holds : d.Holds r names ls []
  loop : ∀ l ∈ ls, l ∈ r.loops ∧ l.name ≠ exitName ∧ r.Rooted (some l.name)
  bare : d.builder.Bare

theorem Rounds.addLoop (h : d.Rounds r names ls) (hl : l ∈ r.loops)
    (hp : d.region? l.parent = some p) (hd : d.addLoop p l = .ok d') :
    d'.Rounds r names (ls ++ [l]) := by
  obtain ⟨⟨-, hexit⟩, he⟩ := addLoop_eq_ok.1 hd
  refine ⟨h.holds.addLoop hp hd, fun l' hl' => ?_, he ▸ h.bare.addLoop⟩
  rcases List.mem_append.1 hl' with hl' | hl'
  · exact h.loop l' hl'
  · obtain rfl := List.mem_singleton.1 hl'
    refine ⟨hl, hexit, .loop hl ?_⟩
    cases hhome : r.home l'.parent with
    | none => exact .body
    | some name =>
      obtain ⟨k, hk, rfl⟩ := List.mem_map.1 (h.holds.exists_region?.1 ⟨p, hp⟩ name hhome)
      exact (h.loop k hk).2.2

theorem perm_place {placed waiting done : List LoopEntry} (h : (placed ++ waiting).Perm done) :
    (placed ++ [l] ++ waiting).Perm (done ++ [l]) := by
  have hswap : ([l] ++ waiting).Perm (waiting ++ [l]) := List.perm_append_comm
  refine .trans ?_ (h.append_right [l])
  simpa using hswap.append_left placed

/- One round sorts the loops into those that are placed now and those that wait. -/
theorem Rounds.tryLoops (h : d.Rounds r names ls) {pending waiting : List LoopEntry}
    (hsub : pending ⊆ r.loops) (hd : pending.foldlM tryLoop (d, []) = .ok (d', waiting)) :
    ∃ placed, d'.Rounds r names (ls ++ placed) ∧ (placed ++ waiting).Perm pending := by
  refine foldlM_inv (fun done (s : Draft × List LoopEntry) => ∃ placed,
    s.1.Rounds r names (ls ++ placed) ∧ (placed ++ s.2).Perm done) hd
    ⟨[], by simpa using h, .nil⟩ ?_
  rintro before l after ⟨u, waiting⟩ ⟨u', waiting'⟩ rfl ⟨placed, hu, hperm⟩ hstep
  unfold tryLoop at hstep
  split at hstep
  · obtain ⟨rfl, rfl⟩ := Prod.mk.inj (Except.ok.inj hstep)
    exact ⟨placed, hu, by simpa using hperm.append_right [l]⟩
  · rename_i p hp
    simp only [bind_eq_ok, pure_eq_ok] at hstep
    obtain ⟨v, hv, he⟩ := hstep
    obtain ⟨rfl, rfl⟩ := Prod.mk.inj he
    exact ⟨placed ++ [l], by simpa using hu.addLoop (hsub (by simp)) hp hv, perm_place hperm⟩

theorem Rounds.addLoops (fuel : Nat) (h : d.Rounds r names ls) {pending : List LoopEntry}
    (hsub : pending ⊆ r.loops) (hlen : pending.length ≤ fuel)
    (hd : Draft.addLoops fuel d pending = .ok d') :
    ∃ ls', ls'.Perm (ls ++ pending) ∧ d'.Rounds r names ls' := by
  induction fuel generalizing d ls pending with
  | zero =>
    obtain rfl := List.length_eq_zero_iff.1 (Nat.le_zero.1 hlen)
    obtain rfl := Except.ok.inj hd
    exact ⟨ls, by simp, h⟩
  | succ fuel ih =>
    cases pending with
    | nil =>
      obtain rfl := Except.ok.inj hd
      exact ⟨ls, by simp, h⟩
    | cons l pending =>
      simp only [Draft.addLoops, bind_eq_ok, require_eq_ok] at hd
      obtain ⟨⟨u, waiting⟩, hu, _, hshort, hd⟩ := hd
      obtain ⟨placed, hrounds, hperm⟩ := h.tryLoops hsub hu
      have hlength := hperm.length_eq
      rw [List.length_append] at hlength
      have hlt : waiting.length < (l :: pending).length :=
        Nat.lt_of_le_of_ne (hlength ▸ Nat.le_add_left _ _) hshort
      obtain ⟨ls', hls', hd'⟩ := ih hrounds
        (fun k hk => hsub (hperm.mem_iff.1 (List.mem_append_right _ hk)))
        (Nat.le_of_lt_succ (Nat.lt_of_lt_of_le hlt hlen)) hd
      exact ⟨ls', hls'.trans (by simpa using hperm.append_left ls), hd'⟩

section Accepts
variable (hnodup : (r.loops.map (·.name)).Nodup)
  (hloop : ∀ l ∈ r.loops, l.name ≠ exitName ∧ l.name ≠ r.name ∧ r.Rooted (some l.name))
include hnodup hloop

/- A round fails at no loop, since names do not repeat, and one that places none has met no loop with
a known parent. -/
theorem Rounds.tryLoops_ok (h : d.Rounds r names ls) {pending : List LoopEntry}
    (hall : (ls ++ pending).Perm r.loops) : ∃ d' waiting,
      pending.foldlM tryLoop (d, []) = .ok (d', waiting) ∧
      (waiting.length = pending.length → ∀ l ∈ pending, d.region? l.parent = none) := by
  obtain ⟨⟨d', waiting⟩, hd, placed, -, hperm, hnone⟩ := foldlM_ok
    (l := pending) (f := tryLoop) (s := (d, []))
    (fun done (s : Draft × List LoopEntry) => ∃ placed,
      s.1.Rounds r names (ls ++ placed) ∧ (placed ++ s.2).Perm done ∧
      (placed = [] → s.1 = d ∧ ∀ l ∈ done, d.region? l.parent = none))
    ⟨[], by simpa using h, .nil, fun _ => ⟨rfl, by simp⟩⟩ (by
      rintro before l after ⟨u, waiting⟩ rfl ⟨placed, hu, hperm, hnone⟩
      have hl : l ∈ r.loops := hall.mem_iff.1 (by simp)
      cases hp : u.region? l.parent with
      | none =>
        refine ⟨(u, waiting ++ [l]), by simp [tryLoop, hp], placed, hu,
          by simpa using hperm.append_right [l], fun he => ?_⟩
        obtain ⟨rfl, hbefore⟩ := hnone he
        refine ⟨rfl, fun k hk => ?_⟩
        rcases List.mem_append.1 hk with hk | hk
        · exact hbefore k hk
        · exact List.mem_singleton.1 hk ▸ hp
      | some p =>
        have hfree : u.regions.lookup l.name = none := by
          rw [hu.holds.lookup_region_eq_none]
          refine ⟨(hloop l hl).2.1, fun hmem => ?_⟩
          have hnames := (hall.map (·.name)).nodup_iff.2 hnodup
          rw [← List.append_assoc, List.map_append, List.nodup_append] at hnames
          refine hnames.2.2 l.name ?_ l.name (by simp) rfl
          obtain ⟨k, hk, hname⟩ := List.mem_map.1 hmem
          refine List.mem_map.2 ⟨k, ?_, hname⟩
          rcases List.mem_append.1 hk with hk | hk
          · exact List.mem_append_left _ hk
          · exact List.mem_append_right _ (hperm.mem_iff.1 (List.mem_append_left _ hk))
        obtain ⟨v, hv⟩ : ∃ v, u.addLoop p l = .ok v :=
          ⟨_, addLoop_eq_ok.2 ⟨⟨hfree, (hloop l hl).1⟩, rfl⟩⟩
        refine ⟨(v, waiting), by simp only [tryLoop, hp, hv]; rfl, placed ++ [l],
          by simpa using hu.addLoop hl hp hv, perm_place hperm, by simp⟩)
  refine ⟨d', waiting, hd, fun hlen => (hnone ?_).2⟩
  have hlength := hperm.length_eq
  rw [List.length_append, hlen] at hlength
  exact List.length_eq_zero_iff.1 (Nat.add_eq_right.1 hlength)

/- Some waiting loop has a parent that is placed, as the parents of each lead to the body. -/
theorem Rounds.progress (h : d.Rounds r names ls) {pending : List LoopEntry}
    (hall : (ls ++ pending).Perm r.loops) (hl : l ∈ pending) :
    ¬∀ l ∈ pending, d.region? l.parent = none := by
  intro hstuck
  have hplaced : ∀ region, r.Rooted region → ∀ name, region = some name →
      name ∈ ls.map (·.name) := by
    intro region hregion
    induction hregion with
    | body => simp
    | @loop k hk _ ih =>
      rintro name rfl'
      obtain rfl := Option.some.inj rfl'
      rcases List.mem_append.1 (hall.mem_iff.2 hk) with hk | hk
      · exact List.mem_map_of_mem hk
      · obtain ⟨p, hp⟩ := h.holds.exists_region?.2 ih
        rw [hstuck k hk] at hp
        cases hp
  have hmem : l ∈ r.loops := hall.mem_iff.1 (List.mem_append_right _ hl)
  have hnames := (hall.map (·.name)).nodup_iff.2 hnodup
  rw [List.map_append, List.nodup_append] at hnames
  exact hnames.2.2 _ (hplaced _ (hloop l hmem).2.2 _ rfl) _ (List.mem_map_of_mem hl) rfl

theorem Rounds.addLoops_ok (fuel : Nat) (h : d.Rounds r names ls) {pending : List LoopEntry}
    (hall : (ls ++ pending).Perm r.loops) : ∃ d', Draft.addLoops fuel d pending = .ok d' := by
  induction fuel generalizing d ls pending with
  | zero => cases pending <;> exact ⟨d, rfl⟩
  | succ fuel ih =>
    cases pending with
    | nil => exact ⟨d, rfl⟩
    | cons l pending =>
      obtain ⟨u, waiting, hu, hstuck⟩ := h.tryLoops_ok hnodup hloop hall
      obtain ⟨placed, hrounds, hperm⟩ :=
        h.tryLoops (fun k hk => hall.mem_iff.1 (List.mem_append_right _ hk)) hu
      have hshort : waiting.length ≠ (l :: pending).length := fun he =>
        h.progress hnodup hloop hall (.head _) (hstuck he)
      obtain ⟨d', hd'⟩ := ih hrounds
        (.trans (by simpa using hperm.append_left ls) hall)
      refine ⟨d', ?_⟩
      simp only [Draft.addLoops, bind_eq_ok, require_eq_ok]
      exact ⟨(u, waiting), hu, (), hshort, hd'⟩

end Accepts

theorem rounds_start (r : Routine) (names : Names) : (start r).Rounds r names [] :=
  ⟨holds_start r names, by simp, TreeBuilder.bare_new r.name⟩

theorem rounds_of_addLoops (names : Names) (hd : addLoops r.loops.length (start r) r.loops = .ok d) :
    ∃ ls, ls.Perm r.loops ∧ d.Rounds r names ls :=
  (rounds_start r names).addLoops _ (fun _ => id) (Nat.le_refl _) hd

theorem exists_addLoops : (∃ d, addLoops r.loops.length (start r) r.loops = .ok d) ↔
    (r.loops.map (·.name)).Nodup ∧
      ∀ l ∈ r.loops, l.name ≠ exitName ∧ l.name ≠ r.name ∧ r.Rooted (some l.name) := by
  constructor
  · rintro ⟨d, hd⟩
    obtain ⟨ls, hperm, h⟩ := rounds_of_addLoops {} hd
    have hnames := List.nodup_cons.1 h.holds.regionNames
    refine ⟨(hperm.map _).nodup_iff.1 hnames.2, fun l hl => ?_⟩
    have hl' := hperm.mem_iff.2 hl
    obtain ⟨-, hexit, hrooted⟩ := h.loop l hl'
    exact ⟨hexit, fun he => hnames.1 (he ▸ List.mem_map_of_mem hl'), hrooted⟩
  · rintro ⟨hnodup, hloop⟩
    exact (rounds_start r {}).addLoops_ok hnodup hloop _ (.refl _)

/- Blocks. -/

theorem Holds.addBlocks (h : d.Holds r names ls []) (hb : d.builder.Bare)
    (hd : r.blocks.foldlM (Draft.addBlock names) d = .ok d') :
    d'.Holds r names ls r.blocks ∧ d'.builder.Bare := by
  refine foldlM_inv (fun done (s : Draft) => s.Holds r names ls done ∧ s.builder.Bare) hd ⟨h, hb⟩ ?_
  rintro before b after s t - ⟨hs, hbare⟩ ht
  obtain ⟨-, p, effects, -, -, he⟩ := addBlock_eq_ok.1 ht
  exact ⟨hs.addBlock ht, he ▸ hbare.addBlock⟩

theorem exists_addBlocks (hn : names = ⟨r.variables⟩) (h : d.Holds r names ls [])
    (hls : ls.Perm r.loops) : (∃ d', r.blocks.foldlM (addBlock names) d = .ok d') ↔
      (r.blocks.map (·.name)).Nodup ∧
      ∀ b ∈ r.blocks, (b.name ≠ exitName ∧ b.name ∉ r.loops.map (·.name) ∧
        ∀ name, r.home b.region = some name → name ∈ r.loops.map (·.name)) ∧
        ∀ i ∈ b.instructions, r.Resolves i := by
  have hmem : ∀ x, x ∈ ls.map (·.name) ↔ x ∈ r.loops.map (·.name) := fun x =>
    (hls.map _).mem_iff
  rw [foldlM_accepts (fun done (s : Draft) => s.Holds r names ls done)
    (fun before b => b.name ∉ before.map (·.name) ∧
      (b.name ≠ exitName ∧ b.name ∉ r.loops.map (·.name) ∧
        ∀ name, r.home b.region = some name → name ∈ r.loops.map (·.name)) ∧
        ∀ i ∈ b.instructions, r.Resolves i) h ?_]
  · rw [nodup_map_iff]
    constructor
    · intro hall
      refine ⟨fun before b after he => (hall before b after he).1, fun b hb => ?_⟩
      obtain ⟨before, after, he⟩ := List.append_of_mem hb
      exact (hall before b after he).2
    · rintro ⟨hnodup, hall⟩ before b after he
      exact ⟨hnodup before b after he, hall b (by simp [he])⟩
  · rintro before b after s - hs
    refine ⟨?_, fun t ht => hs.addBlock ht⟩
    have heffects : (∃ effects, b.instructions.mapM (effect names) = .ok effects) ↔
        ∀ i ∈ b.instructions, r.Resolves i := by
      rw [exists_mapM_ok]
      exact forall₂_congr fun i _ => exists_effect hn
    have hregion : (∃ p, s.region? b.region = some p) ↔
        ∀ name, r.home b.region = some name → name ∈ r.loops.map (·.name) := by
      rw [hs.exists_region?]
      exact forall₂_congr fun name _ => hmem name
    have hfree := hs.lookup_node_eq_none (x := b.name)
    rw [hmem] at hfree
    rw [← heffects, ← hregion]
    simp only [addBlock_eq_ok, hfree]
    constructor
    · rintro ⟨_, ⟨⟨hl, hb⟩, hexit⟩, p, effects, hp, he, -⟩
      exact ⟨hb, ⟨hexit, hl, p, hp⟩, effects, he⟩
    · rintro ⟨hb, ⟨hexit, hl, p, hp⟩, effects, he⟩
      exact ⟨_, ⟨⟨hl, hb⟩, hexit⟩, p, effects, hp, he, rfl⟩

end LoopMemory.Description.Draft
