import LoopMemory.Proofs.Description.Spots

/-! The pass over entries and successors. Each of its steps draws edges between the spots that the
description names, succeeds just when the names are those of the region, and changes nothing else. -/
namespace LoopMemory.Description
open TreeBuilder

namespace Draft
variable {r : Routine} {names : Names} {d d' : Draft} {l : LoopEntry} {b : BlockEntry}
  {p : RegionId} {n k : NodeId} {region e : Option String} {x : String} {s t : Spot}

/-- The drafts have the same tables, so that only edges can tell them apart. -/
structure Same (d d' : Draft) : Prop where
  regions : d'.regions = d.regions
  nodes : d'.nodes = d.nodes
  table : d'.builder.regions = d.builder.regions
  stem : ∀ n, d'.builder.stem? n = d.builder.stem? n

theorem Same.refl (d : Draft) : d.Same d := ⟨rfl, rfl, rfl, fun _ => rfl⟩

theorem Same.trans {d'' : Draft} (h : d.Same d') (h' : d'.Same d'') : d.Same d'' :=
  ⟨h'.regions.trans h.regions, h'.nodes.trans h.nodes, h'.table.trans h.table,
    fun n => (h'.stem n).trans (h.stem n)⟩

theorem Same.region? (h : d.Same d') (region : Option String) :
    d'.region? region = d.region? region := by
  cases region <;> simp [Draft.region?, h.regions]

theorem Same.at_iff (h : d.Same d') : d'.At r s n ↔ d.At r s n := by
  cases s <;> simp [At, h.region?, h.nodes, TreeBuilder.entry, TreeBuilder.exit, h.table]

theorem Whole.addEdge (h : d.Whole r names) {node : Node} {j : NodeId}
    (hn : d.builder.stem? n = some node) (hj : d.builder.Target node.region j) :
    Whole r names { d with builder := d.builder.addEdge n j } := by
  have keeps := keeps_addEdge d n j
  have hready := h.ready.addEdge hn hj
  obtain ⟨ls, hls, hh⟩ := h.holds
  refine ⟨ls, hls, { hh with
    ready := hready
    loops := fun l hl => ⟨(hh.loops l hl).1.keep keeps, (hh.loops l hl).2.keep keeps⟩
    blocks := fun before b after he => (hh.blocks before b after he).keep keeps
    covered := fun i node hi => ?_ }⟩
  rw [stem?_addEdge] at hi
  exact covered_grow hh.ready hh.covered keeps (fun _ => id) hi

/-- The step draws these edges if its names are right, and otherwise fails. -/
structure Drawing (r : Routine) (names : Names) (d : Draft) (step : Except Defect Draft)
    (right : Prop) (edges : Spot → Spot → Prop) : Prop where
  accepts : (∃ d', step = .ok d') ↔ right
  whole : ∀ d', step = .ok d' → d'.Whole r names
  same : ∀ d', step = .ok d' → d.Same d'
  draws : ∀ d', step = .ok d' → ∀ i k, d'.builder.Draws i k ↔
    d.builder.Draws i k ∨ ∃ s t, edges s t ∧ d.At r s i ∧ d.At r t k

namespace Drawing
variable {step : Except Defect Draft} {right right' : Prop} {edges edges' : Spot → Spot → Prop}

theorem congr (h : Drawing r names d step right edges) (hright : right ↔ right')
    (hedges : ∀ s t, edges s t ↔ edges' s t) : Drawing r names d step right' edges' where
  accepts := h.accepts.trans hright
  whole := h.whole
  same := h.same
  draws d' hd i k := by simp only [h.draws d' hd i k, hedges]

theorem skip (h : d.Whole r names) : Drawing r names d (.ok d) True fun _ _ => False where
  accepts := by simp
  whole d' hd := Except.ok.inj hd ▸ h
  same d' hd := Except.ok.inj hd ▸ .refl d
  draws d' hd i k := by
    obtain rfl := Except.ok.inj hd
    simp

theorem bind (h : Drawing r names d step right edges) {f : Draft → Except Defect Draft}
    (hf : ∀ d', d'.Whole r names → d.Same d' → Drawing r names d' (f d') right' edges') :
    Drawing r names d (step >>= f) (right ∧ right') fun s t => edges s t ∨ edges' s t where
  accepts := by
    rw [← h.accepts]
    simp only [bind_eq_ok]
    constructor
    · rintro ⟨d'', d', hd, hd'⟩
      exact ⟨⟨d', hd⟩, (hf d' (h.whole d' hd) (h.same d' hd)).accepts.1 ⟨d'', hd'⟩⟩
    · rintro ⟨⟨d', hd⟩, hright⟩
      obtain ⟨d'', hd'⟩ := (hf d' (h.whole d' hd) (h.same d' hd)).accepts.2 hright
      exact ⟨d'', d', hd, hd'⟩
  whole d'' hd := by
    obtain ⟨d', hd, hd'⟩ := bind_eq_ok.1 hd
    exact (hf d' (h.whole d' hd) (h.same d' hd)).whole d'' hd'
  same d'' hd := by
    obtain ⟨d', hd, hd'⟩ := bind_eq_ok.1 hd
    exact (h.same d' hd).trans ((hf d' (h.whole d' hd) (h.same d' hd)).same d'' hd')
  draws d'' hd i k := by
    obtain ⟨d', hd, hd'⟩ := bind_eq_ok.1 hd
    have hsame := h.same d' hd
    rw [(hf d' (h.whole d' hd) hsame).draws d'' hd' i k, h.draws d' hd i k, or_assoc]
    refine or_congr_right ?_
    simp only [hsame.at_iff, or_and_right, exists_or]

theorem foldlM {α : Type} {f : Draft → α → Except Defect Draft} {right : α → Prop}
    {edges : α → Spot → Spot → Prop} (l : List α) (h : d.Whole r names)
    (hf : ∀ a ∈ l, ∀ d', d'.Whole r names → d.Same d' →
      Drawing r names d' (f d' a) (right a) (edges a)) :
    Drawing r names d (l.foldlM f d) (∀ a ∈ l, right a) fun s t => ∃ a ∈ l, edges a s t := by
  induction l generalizing d with
  | nil => exact (skip h).congr (by simp) (by simp)
  | cons a l ih =>
    have hrest : ∀ d', d'.Whole r names → d.Same d' → Drawing r names d' (l.foldlM f d')
        (∀ a ∈ l, right a) fun s t => ∃ a ∈ l, edges a s t := fun d' hd hsame =>
      ih hd fun b hb d'' hd' hsame' => hf b (.tail _ hb) d'' hd' (hsame.trans hsame')
    rw [List.foldlM_cons]
    exact ((hf a (.head _) d h (.refl d)).bind hrest).congr List.forall_mem_cons.symm (by simp)

end Drawing

/- One edge. -/
theorem Whole.drawing_addEdge (h : d.Whole r names) (hs : d.At r s n) (ht : d.At r t k)
    {node : Node} (hn : d.builder.stem? n = some node) (hk : d.builder.Target node.region k) :
    Drawing r names d (.ok { d with builder := d.builder.addEdge n k }) True
      fun s' t' => s' = s ∧ t' = t where
  accepts := by simp
  whole d' hd := Except.ok.inj hd ▸ h.addEdge hn hk
  same d' hd := Except.ok.inj hd ▸ ⟨rfl, rfl, rfl, fun _ => stem?_addEdge⟩
  draws d' hd i j := by
    obtain rfl := Except.ok.inj hd
    rw [draws_addEdge hn]
    refine or_congr_right ?_
    constructor
    · rintro ⟨rfl, rfl⟩
      exact ⟨s, t, ⟨rfl, rfl⟩, hs, ht⟩
    · rintro ⟨_, _, ⟨rfl, rfl⟩, hi, hj⟩
      exact ⟨hi.unique hs, hj.unique ht⟩

section Region
variable (h : d.Whole r names) (hr : region ∈ r.regions) (hp : d.region? region = some p)
include h hr hp

/- The edge from a node of the region to a named one. -/
theorem drawing_connectTo (hs : d.At r s n) {kind : NodeKind}
    (hn : d.builder.stem? n = some { id := n, region := p, kind }) :
    Drawing r names d (connectTo p n d x) (r.Knows region x)
      fun s' t => s' = s ∧ t = .of region x := by
  by_cases hx : r.Knows region x
  · obtain ⟨k, hk⟩ := h.exists_at_of hr hp hx
    have hnode := (h.node_eq_ok hr hp).2 ⟨hx, hk⟩
    have hstep : connectTo p n d x = .ok { d with builder := d.builder.addEdge n k } := by
      rw [connectTo, hnode]
      rfl
    rw [hstep]
    exact (h.drawing_addEdge hs hk hn (h.ready.target_of_node hp hnode)).congr
      (iff_of_true trivial hx) fun _ _ => .rfl
  · have hfail : ∀ d', connectTo p n d x ≠ .ok d' := by
      intro d' hd
      simp only [connectTo, bind_eq_ok] at hd
      obtain ⟨k, hk, -⟩ := hd
      exact hx ((h.node_eq_ok hr hp).1 hk).1
    exact
      { accepts := iff_of_false (fun hd => hd.elim hfail) hx
        whole := fun d' hd => absurd hd (hfail d')
        same := fun d' hd => absurd hd (hfail d')
        draws := fun d' hd => absurd hd (hfail d') }

theorem drawing_connectEntry : Drawing r names d (d.connectEntry r p e)
    (∀ x, e = some x → r.Knows region x)
    fun s t => s = .entry region ∧ t = r.header region e := by
  have hentry : d.At r (.entry region) (d.builder.entry p) := ⟨hr, p, hp, rfl⟩
  obtain ⟨reg, hreg⟩ := h.ready.exists_region hp
  have hstem := h.ready.sound.entry hreg
  cases e with
  | some x =>
    have hstep : d.connectEntry r p (some x) = connectTo p (d.builder.entry p) d x := by
      simp only [connectEntry, connectTo]
      cases d.node x p <;> rfl
    rw [hstep]
    exact (drawing_connectTo h hr hp hentry hstem).congr (by simp) fun _ _ => .rfl
  | none =>
    have hfirst := h.at_firstNode? hr hp
    have htarget : d.builder.Target p ((d.firstNode? r p).getD (d.builder.exit p)) := by
      cases hq : d.firstNode? r p with
      | none => exact h.ready.sound.target_exit hreg
      | some k =>
        rw [hq, Option.getD_some, Routine.header] at hfirst
        split at hfirst
        · rename_i q hfind
          obtain ⟨q', hq', hname, -, p', kind, hp', hstem', he, -⟩ := h.stem_named hfirst
          obtain rfl := h.place_unique hq' (List.mem_of_find?_eq_some hfind) hname
          have hregion : q'.region = region := by simpa using List.find?_some hfind
          rw [hregion, hp] at hp'
          obtain rfl := Option.some.inj hp'
          exact ⟨kind, he, hstem'⟩
        · obtain ⟨p', hp', hstem'⟩ := h.stem_exit hfirst
          obtain rfl := Option.some.inj (hp.symm.trans hp')
          exact ⟨.exit, by simp, hstem'⟩
    exact (h.drawing_addEdge hentry hfirst hstem htarget).congr (by simp) fun _ _ => .rfl

theorem drawing_successors (hs : d.At r s n) {kind : NodeKind}
    (hn : d.builder.stem? n = some { id := n, region := p, kind }) (succs : List String) :
    Drawing r names d (succs.foldlM (connectTo p n) d) (∀ x ∈ succs, r.Knows region x)
      fun s' t => ∃ x ∈ succs, s' = s ∧ t = .of region x := by
  refine Drawing.foldlM succs h fun x _ d' hd hsame => ?_
  exact drawing_connectTo hd hr ((hsame.region? region).trans hp) (hsame.at_iff.2 hs)
    ((hsame.stem n).trans hn)

end Region

/- A loop draws from its entry, and from its node in the region around it. -/
theorem drawing_connectLoop (h : d.Whole r names) (hl : l ∈ r.loops) :
    Drawing r names d (connectLoop r d l)
      ((∀ x, l.entry = some x → r.Knows (some l.name) x) ∧
        ∀ x ∈ l.successors, r.Knows (r.home l.parent) x)
      fun s t => (s = .entry (some l.name) ∧ t = r.header (some l.name) l.entry) ∨
        ∃ x ∈ l.successors, s = .named l.name ∧ t = .of (r.home l.parent) x := by
  have hr := Routine.loop_mem_regions hl
  obtain ⟨ls, hls, hh⟩ := h.holds
  obtain ⟨⟨p, i, n, outline, hp, hi, ho, hs, hn, hstem⟩, -⟩ := hh.loops l (hls.mem_iff.2 hl)
  have hi : d.region? (some l.name) = some i := hi
  have hat : d.At r (.named l.name) n := hn
  have hstand : ∀ d', d.Same d' → d'.builder.standIn? i = some n := by
    intro d' hsame
    rw [TreeBuilder.standIn?, hsame.table, ← TreeBuilder.standIn?, standIn?_eq, ho]
    exact hs
  rw [connectLoop, region_eq_ok.2 hi]
  refine (drawing_connectEntry h hr hi).bind fun d' hd hsame => ?_
  have hparent : d'.region? l.parent = some p := (hsame.region? _).trans hp
  rw [region_eq_ok.2 hparent, hstand d' hsame]
  exact drawing_successors hd (hd.home_mem hparent) (hd.region?_home.trans hparent)
    (hsame.at_iff.2 hat) ((hsame.stem n).trans hstem) l.successors

theorem drawing_connectBlock (h : d.Whole r names) (hb : b ∈ r.blocks) :
    Drawing r names d (connectBlock d b) (∀ x ∈ b.successors, r.Knows (r.home b.region) x)
      fun s t => ∃ x ∈ b.successors, s = .named b.name ∧ t = .of (r.home b.region) x := by
  obtain ⟨before, after, he⟩ := List.append_of_mem hb
  obtain ⟨ls, -, hh⟩ := h.holds
  obtain ⟨p, n, hp, hn, hstem⟩ := hh.blocks before b after he
  have hstep : connectBlock d b = b.successors.foldlM (connectTo p n) d := by
    simp only [connectBlock, region_eq_ok.2 hp, hn]
    rfl
  rw [hstep]
  have hat : d.At r (.named b.name) n := hn
  exact drawing_successors h (h.home_mem hp) (h.region?_home.trans hp) hat hstem b.successors

/-- The whole pass draws what is written down, if every name is known where it stands. -/
theorem drawing_connect (h : d.Whole r names) : Drawing r names d (d.connect r)
    ((∀ o ∈ r.outlines, ∀ x, o.2 = some x → r.Knows o.1 x) ∧
      ∀ q ∈ r.places, ∀ x ∈ q.successors, r.Knows q.region x) r.Writes := by
  have hroot : none ∈ r.regions := by simp [Routine.regions, Routine.outlines]
  have hbody := drawing_connectEntry (e := r.entry) h hroot rfl
  have hloops : ∀ d', d'.Whole r names → Drawing r names d' (r.loops.foldlM (connectLoop r) d')
      (∀ l ∈ r.loops, (∀ x, l.entry = some x → r.Knows (some l.name) x) ∧
        ∀ x ∈ l.successors, r.Knows (r.home l.parent) x)
      fun s t => ∃ l ∈ r.loops,
        (s = .entry (some l.name) ∧ t = r.header (some l.name) l.entry) ∨
        ∃ x ∈ l.successors, s = .named l.name ∧ t = .of (r.home l.parent) x := fun d' hd =>
    Drawing.foldlM r.loops hd fun l hl d'' hd' _ => drawing_connectLoop hd' hl
  have hblocks : ∀ d', d'.Whole r names → Drawing r names d' (r.blocks.foldlM connectBlock d')
      (∀ b ∈ r.blocks, ∀ x ∈ b.successors, r.Knows (r.home b.region) x)
      fun s t => ∃ b ∈ r.blocks, ∃ x ∈ b.successors,
        s = .named b.name ∧ t = .of (r.home b.region) x := fun d' hd =>
    Drawing.foldlM r.blocks hd fun b hb d'' hd' _ => drawing_connectBlock hd' hb
  refine (hbody.bind fun d' hd _ => (hloops d' hd).bind fun d'' hd' _ => hblocks d'' hd').congr
    ?_ fun s t => ?_
  · simp only [Routine.outlines, Routine.places, List.forall_mem_cons, List.forall_mem_append,
      List.forall_mem_map, Routine.blockPlace, Routine.loopPlace, forall_and]
    tauto
  · constructor
    · rintro (⟨rfl, rfl⟩ | ⟨l, hl, ⟨rfl, rfl⟩ | ⟨x, hx, rfl, rfl⟩⟩ | ⟨b, hb, x, hx, rfl, rfl⟩)
      · exact .enter (.head _)
      · exact .enter (.tail _ (List.mem_map.2 ⟨l, hl, rfl⟩))
      · exact .next (p := r.loopPlace l) (Routine.mem_places.2 (.inr ⟨l, hl, rfl⟩)) hx
      · exact .next (p := r.blockPlace b) (Routine.mem_places.2 (.inl ⟨b, hb, rfl⟩)) hx
    · rintro (@⟨region, e, ho⟩ | @⟨q, x, hq, hx⟩)
      · rcases List.mem_cons.1 ho with he | ho
        · obtain ⟨rfl, rfl⟩ := Prod.mk.inj he
          exact .inl ⟨rfl, rfl⟩
        · obtain ⟨l, hl, he⟩ := List.mem_map.1 ho
          obtain ⟨rfl, rfl⟩ := Prod.mk.inj he
          exact .inr (.inl ⟨l, hl, .inl ⟨rfl, rfl⟩⟩)
      · rcases Routine.mem_places.1 hq with ⟨b, hb, rfl⟩ | ⟨l, hl, rfl⟩
        · exact .inr (.inr ⟨b, hb, x, hx, rfl, rfl⟩)
        · exact .inr (.inl ⟨l, hl, .inr ⟨x, hx, rfl, rfl⟩⟩)

end Draft
end LoopMemory.Description
