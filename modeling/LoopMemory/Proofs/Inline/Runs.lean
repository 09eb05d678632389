import LoopMemory.Proofs.Inline

/-! The runs of the flat graph against those of the tree. -/
namespace LoopMemory
namespace Memory
variable {m : Memory} {t : RegionTree} {r c : RegionId} {inner : Region} {n j p : NodeId}
  {node : Node} {es es' : List Event}

theorem Run.leads {region : Region} (hr : t.region? r = some region) (run : m.Run t r n es) :
    Relation.ReflTransGen t.Leads region.entry n := by
  refine run.along (P := fun n _ => Relation.ReflTransGen t.Leads region.entry n) ?_ ?_
  · intro region' hr'
    obtain rfl := Option.some.inj (hr.symm.trans hr')
    exact .refl
  · exact fun n k node es es' _ ih hn hk _ => ih.tail ⟨node, hn, hk⟩

/- What a node that stands for no loop does is the same in the flat graph. -/
theorem across_inlined (hn : t.node? n = some node) (hk : node.kind.loop? = none) :
    m.Across (t.inlined m.settings) n es ↔ m.Across t n es := by
  obtain ⟨flat, hflat, hkind⟩ := RegionTree.exists_node_inlined m.settings hn
  cases hk' : node.kind with
  | entry | exit => rw [across_end hn (by simp [hk']), across_end hflat (by simp [hkind, hk'])]
  | block insts => rw [across_block hn hk', across_block hflat (hkind.trans hk')]
  | region c => simp [hk', NodeKind.loop?] at hk

theorem Run.step_inlined (run : m.Run (t.inlined m.settings) RegionTree.root n es)
    (hn : t.node? n = some node) (hk : node.kind.loop? = none) (ha : m.Across t n es')
    (hj : j ∈ t.onward m.settings node) :
    m.Run (t.inlined m.settings) RegionTree.root (t.door j) (es ++ es') := by
  obtain ⟨flat, hflat, hs⟩ := RegionTree.leads_inlined.2 ⟨node, hn, hk, j, hj, rfl⟩
  exact run.step ((across_inlined hn hk).2 ha) hflat hs

section Flat
variable (hv : t.Valid)
include hv

theorem Run.leave_inlined (hc : t.region? c = some inner) (hs : inner.standIn = some p)
    (run : m.Run (t.inlined m.settings) RegionTree.root inner.exit es) (hj : t.Leads p j) :
    m.Run (t.inlined m.settings) RegionTree.root (t.door j) es := by
  obtain ⟨exit, hx, hk, rfl⟩ := hv.exit_node hc
  have hmem : j ∈ t.onward m.settings exit :=
    (hv.mem_onward hx).2 (.inr ⟨inner, hc, .inl ⟨rfl, p, hs, hj⟩⟩)
  simpa using run.step_inlined hx (NodeKind.loop?_of_end (.inr hk)) (.pass hx (.inr hk)) hmem

theorem Run.skip_inlined (hc : t.region? c = some inner) (hz : inner.runsOnce m.settings = false)
    (run : m.Run (t.inlined m.settings) RegionTree.root inner.entry es) :
    m.Run (t.inlined m.settings) RegionTree.root inner.exit es := by
  obtain ⟨entry, he, hk, rfl⟩ := hv.entry_node hc
  obtain ⟨exit, hx, hk', -⟩ := hv.exit_node hc
  have hmem : inner.exit ∈ t.onward m.settings entry :=
    (hv.mem_onward he).2 (.inr ⟨inner, hc, .inr ⟨rfl, hz, rfl⟩⟩)
  have hrun := run.step_inlined he (NodeKind.loop?_of_end (.inl hk)) (.pass he (.inl hk)) hmem
  rwa [List.append_nil, RegionTree.door_of_plain hx (NodeKind.loop?_of_end (.inr hk'))] at hrun

theorem Run.edge_inlined (hn : t.node? n = some node) (hk : node.kind.loop? = none)
    (ha : m.Across t n es') (hj : j ∈ node.succs)
    (run : m.Run (t.inlined m.settings) RegionTree.root (t.door n) es) :
    m.Run (t.inlined m.settings) RegionTree.root (t.door j) (es ++ es') := by
  rw [RegionTree.door_of_plain hn hk] at run
  exact run.step_inlined hn hk ha ((hv.mem_onward hn).2 (.inl hj))

/-- What a region of the tree does, the flat graph does from the region's entry on. -/
theorem Run.inlined (hnest : t.Nested) (run : m.Run t r n es) :
    ∀ region, t.region? r = some region → ∀ es₀,
      m.Run (t.inlined m.settings) RegionTree.root region.entry es₀ →
      m.Run (t.inlined m.settings) RegionTree.root (t.door n) (es₀ ++ es) := by
  induction run with
  | enter hr =>
    intro region hr' es₀ start
    obtain rfl := Option.some.inj (hr.symm.trans hr')
    obtain ⟨entry, he, hk, -⟩ := hv.entry_node hr
    rwa [List.append_nil, RegionTree.door_of_plain he (NodeKind.loop?_of_end (.inl hk))]
  | pass run hn hk hs ih =>
    intro region hr es₀ start
    simpa using (ih region hr es₀ start).edge_inlined hv hn (NodeKind.loop?_of_end hk)
      (.pass hn hk) hs
  | block run hn hk hs ih =>
    intro region hr es₀ start
    rw [← List.append_assoc]
    exact (ih region hr es₀ start).edge_inlined hv hn (by rw [hk]; rfl) (.block hn hk) hs
  | loop run hn hk hc within hs ih ih' =>
    intro region hr es₀ start
    obtain ⟨inner, hinner, hstand⟩ := hnest _ _ _ hn hk
    obtain rfl := Option.some.inj (hinner.symm.trans hc)
    obtain ⟨exit, hx, hkx, -⟩ := hv.exit_node hc
    have hat := ih region hr es₀ start
    rw [RegionTree.door_of_loop hn hk hc] at hat
    have hover := ih' _ hc _ hat
    rw [RegionTree.door_of_plain hx (NodeKind.loop?_of_end (.inr hkx))] at hover
    rw [← List.append_assoc]
    exact hover.leave_inlined hv hc hstand ⟨_, hn, hs⟩
  | skip run hn hk hc hz hs ih =>
    intro region hr es₀ start
    obtain ⟨inner, hinner, hstand⟩ := hnest _ _ _ hn hk
    obtain rfl := Option.some.inj (hinner.symm.trans hc)
    have hat := ih region hr es₀ start
    rw [RegionTree.door_of_loop hn hk hc] at hat
    exact (hat.skip_inlined hv hc hz).leave_inlined hv hc hstand ⟨_, hn, hs⟩

/-- What holds at the entry of the routine body and passes along the edges of the tree, into loops,
out of them and past them, holds along the runs of the flat graph. -/
theorem Run.along_inlined {P : NodeId → List Event → Prop}
    (run : m.Run (t.inlined m.settings) RegionTree.root n es)
    (start : ∀ region, t.region? RegionTree.root = some region → P region.entry [])
    (edge : ∀ n j node es es', t.node? n = some node → node.kind.loop? = none → j ∈ node.succs →
      m.Across t n es' → P n es → P j (es ++ es'))
    (into : ∀ n node c inner es, t.node? n = some node → node.kind = .region c →
      t.region? c = some inner → P n es → P inner.entry es)
    (leave : ∀ c inner p j es, t.region? c = some inner → inner.standIn = some p → t.Leads p j →
      P inner.exit es → P j es)
    (past : ∀ c inner es, t.region? c = some inner → inner.runsOnce m.settings = false →
      P inner.entry es → P inner.exit es) : P n es := by
  refine run.along (P := P) (fun body hbody => ?_) fun n k flat es es' _ ih hflat hk ha => ?_
  · obtain rfl := Option.some.inj (RegionTree.region?_inlined.symm.trans hbody)
    obtain ⟨region, hr, -⟩ := hv.body
    rw [RegionTree.entry_inlinedBody hr]
    exact start region hr
  · obtain ⟨node, hn, hloop, j, hj, rfl⟩ := RegionTree.leads_inlined.1 ⟨flat, hflat, hk⟩
    rw [across_inlined hn hloop] at ha
    have hnext : P j (es ++ es') := by
      rcases (hv.mem_onward hn).1 hj with hs | ⟨region, hr, ⟨rfl, p, hp, hlead⟩ | ⟨rfl, hz, rfl⟩⟩
      · exact edge n j node es es' hn hloop hs ha ih
      · obtain ⟨exit, hx, hkx, -⟩ := hv.exit_node hr
        rw [(across_end hx (.inr hkx)).1 ha, List.append_nil]
        exact leave _ region p j es hr hp hlead ih
      · obtain ⟨entry, he, hke, -⟩ := hv.entry_node hr
        rw [(across_end he (.inl hke)).1 ha, List.append_nil]
        exact past _ region es hr hz ih
    unfold RegionTree.door
    split
    · rename_i inner hinner
      obtain ⟨c, hc, hinner⟩ := Option.bind_eq_some_iff.1 hinner
      obtain ⟨jnode, hjn, hc⟩ := Option.bind_eq_some_iff.1 hc
      exact into j jnode c inner _ hjn (NodeKind.loop?_eq_some.1 hc) hinner hnext
    · exact hnext

end Flat
end Memory
end LoopMemory
