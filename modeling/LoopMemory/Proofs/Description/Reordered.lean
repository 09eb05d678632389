import LoopMemory.Proofs.Description.Spots
import Mathlib.Data.List.Perm.Basic

/-! Descriptions that say the same in another order. Their graphs are the same, unless an entry is
left open and taken from the order. -/
namespace LoopMemory.Description

/-- The items of two lists correspond, in whatever order they come. -/
def Matched {α : Type} (same : α → α → Prop) (l l' : List α) : Prop :=
  ∃ m, l.Perm m ∧ List.Forall₂ same m l'

namespace Matched
variable {α β : Type} {same : α → α → Prop} {l l' : List α} {f : α → β} {a : α}

theorem symm (hs : ∀ {a b}, same a b → same b a) (h : Matched same l l') : Matched same l' l := by
  obtain ⟨m, hperm, hall⟩ := h
  obtain ⟨m', hall', hperm'⟩ := List.perm_comp_forall₂ hperm hall
  exact ⟨m', hperm'.symm, (hall'.imp fun _ _ => hs).flip⟩

theorem forth (h : Matched same l l') (ha : a ∈ l) : ∃ b ∈ l', same a b := by
  obtain ⟨m, hperm, hall⟩ := h
  rw [hperm.mem_iff] at ha
  clear hperm
  induction hall with
  | nil => cases ha
  | @cons c d _ _ hcd _ ih =>
    rcases List.mem_cons.1 ha with rfl | ha
    · exact ⟨d, .head _, hcd⟩
    · obtain ⟨b, hb, hab⟩ := ih ha
      exact ⟨b, .tail _ hb, hab⟩

theorem map (hf : ∀ {a b}, same a b → f a = f b) (h : Matched same l l') :
    (l.map f).Perm (l'.map f) := by
  obtain ⟨m, hperm, hall⟩ := h
  have heq : m.map f = l'.map f := by
    rw [← List.forall₂_eq_eq_eq]
    exact List.forall₂_map_left_iff.2 (List.forall₂_map_right_iff.2 (hall.imp fun _ _ => hf))
  exact heq ▸ hperm.map f

theorem map_reverse {f : α → α} (hf : ∀ a, same a (f a)) (l : List α) :
    Matched same l (l.map f).reverse :=
  ⟨l.reverse, (List.reverse_perm l).symm, List.map_reverse ▸
    List.forall₂_map_right_iff.2 (List.forall₂_same.2 fun a _ => hf a)⟩

end Matched

/-- The loop with its successors and its live variables in another order. -/
structure LoopEntry.Reordered (l l' : LoopEntry) : Prop where
  successors : l.successors.Perm l'.successors
  liveOut : l.liveOut.Perm l'.liveOut
  rest : l' = { l with successors := l'.successors, liveOut := l'.liveOut }

/-- The block with its successors in another order. -/
structure BlockEntry.Reordered (b b' : BlockEntry) : Prop where
  successors : b.successors.Perm b'.successors
  rest : b' = { b with successors := b'.successors }

namespace Routine

/-- The routine with its loops, its blocks and its alias pairs in another order, and with the lists
of names in its loops and blocks in another order. -/
structure Reordered (r r' : Routine) : Prop where
  aliases : r.aliases.Perm r'.aliases
  loops : Matched LoopEntry.Reordered r.loops r'.loops
  blocks : Matched BlockEntry.Reordered r.blocks r'.blocks
  rest : r' = { r with aliases := r'.aliases, loops := r'.loops, blocks := r'.blocks }

/-- Every region that has places names its entry. -/
def Pinned (r : Routine) : Prop :=
  ∀ o ∈ r.outlines, o.2 = none → ∀ p ∈ r.places, p.region ≠ o.1

instance (r : Routine) : Decidable r.Pinned :=
  inferInstanceAs (Decidable (∀ o ∈ r.outlines, o.2 = none → ∀ p ∈ r.places, p.region ≠ o.1))

/-- The routine with all of its lists read from the end. -/
def reversed (r : Routine) : Routine :=
  { r with
    aliases := r.aliases.reverse
    loops := (r.loops.map fun l =>
      { l with successors := l.successors.reverse, liveOut := l.liveOut.reverse }).reverse
    blocks := (r.blocks.map fun b => { b with successors := b.successors.reverse }).reverse }

end Routine

variable {r r' : Routine} {l l' : LoopEntry} {b b' : BlockEntry} {p : Place}
  {region : Option String} {name : String} {s t : Spot} {o : Option String × Option String}

namespace LoopEntry.Reordered
variable (h : l.Reordered l')
include h

theorem symm : l'.Reordered l := by
  obtain ⟨hs, hl, hrest⟩ := h
  exact ⟨hs.symm, hl.symm, by rw [hrest]⟩

theorem name_eq : l'.name = l.name := by rw [h.rest]

theorem parent_eq : l'.parent = l.parent := by rw [h.rest]

theorem once_eq : l'.executesAtLeastOnce = l.executesAtLeastOnce := by rw [h.rest]

theorem entry_eq : l'.entry = l.entry := by rw [h.rest]

end LoopEntry.Reordered

namespace BlockEntry.Reordered
variable (h : b.Reordered b')
include h

theorem symm : b'.Reordered b := by
  obtain ⟨hs, hrest⟩ := h
  exact ⟨hs.symm, by rw [hrest]⟩

theorem name_eq : b'.name = b.name := by rw [h.rest]

theorem region_eq : b'.region = b.region := by rw [h.rest]

theorem instructions_eq : b'.instructions = b.instructions := by rw [h.rest]

end BlockEntry.Reordered

theorem Routine.reordered_reversed (r : Routine) : r.Reordered r.reversed where
  aliases := (List.reverse_perm _).symm
  loops := .map_reverse (fun _ => ⟨(List.reverse_perm _).symm, (List.reverse_perm _).symm, rfl⟩) _
  blocks := .map_reverse (fun _ => ⟨(List.reverse_perm _).symm, rfl⟩) _
  rest := rfl

namespace Routine.Reordered
variable (h : r.Reordered r')
include h

theorem symm : r'.Reordered r where
  aliases := h.aliases.symm
  loops := h.loops.symm fun hl => hl.symm
  blocks := h.blocks.symm fun hb => hb.symm
  rest := by rw [h.rest]

theorem name_eq : r'.name = r.name := by rw [h.rest]

theorem entry_eq : r'.entry = r.entry := by rw [h.rest]

theorem vars_eq : r'.vars = r.vars := by rw [h.rest]

theorem expect_eq : r'.expect = r.expect := by rw [h.rest]

theorem home_eq : r'.home = r.home := by
  funext parent
  rw [home, home, h.name_eq]

theorem declares_eq : r'.Declares = r.Declares := by
  funext name
  rw [Declares, Declares, h.vars_eq]

theorem variables_eq : r'.variables = r.variables := by
  rw [Routine.variables, Routine.variables, h.vars_eq]

theorem basesWhere_eq : r'.basesWhere = r.basesWhere := by
  funext p
  rw [basesWhere, basesWhere, h.vars_eq]

theorem loop_names : (r.loops.map (·.name)).Perm (r'.loops.map (·.name)) :=
  h.loops.map fun hl => hl.name_eq.symm

theorem block_names : (r.blocks.map (·.name)).Perm (r'.blocks.map (·.name)) :=
  h.blocks.map fun hb => hb.name_eq.symm

theorem mem_regions (hr : region ∈ r.regions) : region ∈ r'.regions := by
  rw [Routine.mem_regions] at hr ⊢
  exact fun name hname => h.loop_names.mem_iff.1 (hr name hname)

theorem mem_outlines (ho : o ∈ r.outlines) : o ∈ r'.outlines := by
  rcases List.mem_cons.1 ho with rfl | ho
  · exact h.entry_eq ▸ .head _
  · obtain ⟨l, hl, rfl⟩ := List.mem_map.1 ho
    obtain ⟨l', hl', hsame⟩ := h.loops.forth hl
    exact .tail _ (List.mem_map.2 ⟨l', hl', by rw [hsame.name_eq, hsame.entry_eq]⟩)

/-- Every place is where it was. -/
theorem exists_place (hp : p ∈ r.places) : ∃ p' ∈ r'.places, p'.name = p.name ∧
    p'.region = p.region ∧ p.successors.Perm p'.successors := by
  rcases Routine.mem_places.1 hp with ⟨b, hb, rfl⟩ | ⟨l, hl, rfl⟩
  · obtain ⟨b', hb', hsame⟩ := h.blocks.forth hb
    refine ⟨_, Routine.mem_places.2 (.inl ⟨b', hb', rfl⟩), hsame.name_eq, ?_, hsame.successors⟩
    rw [blockPlace, blockPlace, h.home_eq, hsame.region_eq]
  · obtain ⟨l', hl', hsame⟩ := h.loops.forth hl
    refine ⟨_, Routine.mem_places.2 (.inr ⟨l', hl', rfl⟩), hsame.name_eq, ?_, hsame.successors⟩
    rw [loopPlace, loopPlace, h.home_eq, hsame.parent_eq]

theorem knows (hk : r.Knows region name) : r'.Knows region name := by
  rcases hk with hexit | ⟨p, hp, rfl, rfl⟩
  · exact .inl hexit
  · obtain ⟨p', hp', hname, hregion, -⟩ := h.exists_place hp
    exact .inr ⟨p', hp', hname, hregion⟩

theorem rooted (hr : r.Rooted region) : r'.Rooted region := by
  induction hr with
  | body => exact .body
  | @loop l hl _ ih =>
    obtain ⟨l', hl', hsame⟩ := h.loops.forth hl
    rw [← h.home_eq, ← hsame.parent_eq] at ih
    exact hsame.name_eq ▸ .loop hl' ih

theorem resolves_eq : r'.Resolves = r.Resolves := by
  funext i
  simp only [Resolves, h.declares_eq]

theorem pinned (hp : r.Pinned) : r'.Pinned := by
  intro o ho hnone p hpl
  obtain ⟨p', hp', -, hregion, -⟩ := h.symm.exists_place hpl
  exact hregion ▸ hp o (h.symm.mem_outlines ho) hnone p' hp'

section Edges
variable (hp : r.Pinned)
include hp

theorem header_eq (ho : o ∈ r.outlines) : r'.header o.1 o.2 = r.header o.1 o.2 := by
  obtain ⟨region, entry⟩ := o
  cases entry with
  | some name => rfl
  | none =>
    have hnone : r.places.find? (·.region = region) = none :=
      List.find?_eq_none.2 fun p hpl => by simpa using hp _ ho rfl p hpl
    have hnone' : r'.places.find? (·.region = region) = none :=
      List.find?_eq_none.2 fun p hpl => by
        simpa using h.pinned hp _ (h.mem_outlines ho) rfl p hpl
    rw [header, header, hnone, hnone']

theorem leads (hl : r.Leads s t) : r'.Leads s t := by
  cases hl with
  | written hw =>
    cases hw with
    | enter ho =>
      rw [← h.header_eq hp ho]
      exact .written (.enter (h.mem_outlines ho))
    | next hq hx =>
      obtain ⟨q, hq', hname, hregion, hperm⟩ := h.exists_place hq
      rw [← hname, ← hregion]
      exact .written (.next hq' (hperm.mem_iff.1 hx))
  | fall hq hnil =>
    obtain ⟨q, hq', hname, hregion, hperm⟩ := h.exists_place hq
    rw [← hname, ← hregion]
    exact .fall hq' (List.perm_nil.1 (hnil ▸ hperm.symm))
  | @again l hl hne =>
    obtain ⟨l', hl', hsame⟩ := h.loops.forth hl
    have ho : (some l.name, l.entry) ∈ r.outlines := .tail _ (List.mem_map.2 ⟨l, hl, rfl⟩)
    have hheader : r'.header (some l'.name) l'.entry = r.header (some l.name) l.entry := by
      rw [hsame.name_eq, hsame.entry_eq]
      exact h.header_eq hp ho
    rw [← hheader, ← hsame.name_eq] at hne ⊢
    exact .again hl' hne

/-- Whether a description is well-formed does not depend on its order. -/
theorem wellFormed (hw : r.WellFormed) : r'.WellFormed where
  vars := by
    rw [h.vars_eq, h.declares_eq]
    exact hw.vars
  aliases a ha := by
    rw [h.declares_eq]
    exact hw.aliases a (h.aliases.mem_iff.2 ha)
  loops := h.loop_names.nodup_iff.1 hw.loops
  loop l' hl' := by
    obtain ⟨l, hl, hsame⟩ := h.symm.loops.forth hl'
    obtain ⟨hexit, hown, hroot⟩ := hw.loop l hl
    rw [← hsame.name_eq, h.name_eq]
    exact ⟨hexit, hown, h.rooted hroot⟩
  blocks := h.block_names.nodup_iff.1 hw.blocks
  block b' hb' := by
    obtain ⟨b, hb, hsame⟩ := h.symm.blocks.forth hb'
    obtain ⟨hexit, hloop, hhome⟩ := hw.block b hb
    rw [← hsame.name_eq, ← hsame.region_eq, h.home_eq, ← h.loop_names.mem_iff]
    exact ⟨hexit, hloop, fun name hn => h.loop_names.mem_iff.1 (hhome name hn)⟩
  instructions b' hb' i hi := by
    obtain ⟨b, hb, hsame⟩ := h.symm.blocks.forth hb'
    rw [h.resolves_eq]
    exact hw.instructions b hb i (hsame.instructions_eq ▸ hi)
  liveOut l' hl' name hname := by
    obtain ⟨l, hl, hsame⟩ := h.symm.loops.forth hl'
    rw [h.declares_eq]
    exact hw.liveOut l hl name (hsame.liveOut.mem_iff.1 hname)
  entries o ho name hname := h.knows (hw.entries o (h.symm.mem_outlines ho) name hname)
  successors p' hp' name hname := by
    obtain ⟨p, hp, -, hregion, hperm⟩ := h.symm.exists_place hp'
    exact hregion ▸ h.knows (hw.successors p hp name (hperm.mem_iff.1 hname))
  reached p' hp' := by
    obtain ⟨p, hpl, hname, hregion, -⟩ := h.symm.exists_place hp'
    rw [← hname, ← hregion]
    exact Relation.ReflTransGen.mono (fun _ _ => h.leads hp) _ _ (hw.reached p hpl)

end Edges
end Routine.Reordered
end LoopMemory.Description
