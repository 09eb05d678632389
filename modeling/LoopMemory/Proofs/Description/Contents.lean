import LoopMemory.Proofs.Description.Acceptance

/-! What the tables of a lowered routine hold: the effect of each instruction, the bases that may
share memory, and what is read after each loop. -/
namespace LoopMemory.Description.Routine
variable {r : Routine} {d : Draft} {m : Model} {names : Names} {aliases : AliasModel}
  {b : BlockEntry} {before after : List BlockEntry} {e : InstructionEntry}
  {slot : String × InstructionEntry × Nat} {i o : Nat} {l : LoopEntry} {p : RegionId}

/- Instructions. -/

/-- All instructions, block after block, each with the name of its block and its place there. -/
def slots (r : Routine) : List (String × InstructionEntry × Nat) :=
  r.blocks.flatMap fun b => b.instructions.zipIdx.map fun e => (b.name, e)

theorem slots_nodup (h : (r.blocks.map (·.name)).Nodup) : r.slots.Nodup := by
  rw [slots, List.nodup_flatMap]
  refine ⟨fun b _ => ?_, (List.pairwise_map.1 h).imp fun hne => ?_⟩
  · have hplaces : (b.instructions.zipIdx.map fun e => (b.name, e)).map (·.2.2) =
        List.range' 0 b.instructions.length := by
      rw [List.map_map]
      exact List.zipIdx_map_snd 0 b.instructions
    exact .of_map (·.2.2) (hplaces ▸ List.nodup_range')
  · rw [Function.onFun, List.disjoint_left]
    intro slot hb hc
    obtain ⟨_, -, rfl⟩ := List.mem_map.1 hb
    obtain ⟨_, -, he⟩ := List.mem_map.1 hc
    exact hne (congrArg Prod.fst he).symm

/- An instruction is numbered from the start of its block. -/
theorem getElem?_slots (h : r.blocks = before ++ b :: after) (he : b.instructions[o]? = some e) :
    r.slots[(before.flatMap (·.instructions)).length + o]? = some (b.name, e, o) := by
  have hlength : (before.flatMap (·.instructions)).length =
      (before.flatMap fun b => b.instructions.zipIdx.map fun e => (b.name, e)).length := by
    simp [List.length_flatMap]
  have ho : o < b.instructions.length := (List.getElem?_eq_some_iff.1 he).1
  rw [slots, h, List.flatMap_append, List.flatMap_cons, hlength,
    List.getElem?_append_right (Nat.le_add_right _ _), Nat.add_sub_cancel_left,
    List.getElem?_append_left (by simpa using ho)]
  simp [he]

theorem instruction_of_slot (h : r.slots[i]? = some slot) :
    (r.blocks.flatMap (·.instructions))[i]? = some slot.2.1 := by
  have heq : r.blocks.flatMap (·.instructions) = r.slots.map (·.2.1) := by
    rw [slots, List.map_flatMap]
    congr 1
    funext b
    rw [List.map_map]
    exact (List.zipIdx_map_fst 0 b.instructions).symm
  rw [heq, List.getElem?_map, h]
  rfl

/- Alias pairs. -/

theorem wild_of_aliasModel (h : r.aliasModel names = .ok aliases) :
    aliases.wild = r.basesWhere (·.wild) := by
  refine foldlM_inv (fun _ (s : AliasModel) => s.wild = r.basesWhere (·.wild)) h rfl ?_
  rintro before a after s t - hs ht
  simp only [addAlias, bind_eq_ok, pure_eq_ok] at ht
  obtain ⟨_, -, _, -, rfl⟩ := ht
  exact hs

theorem mem_pairs (h : r.aliasModel names = .ok aliases) {pair : Base × Base} :
    pair ∈ aliases.pairs ↔ ∃ a ∈ r.aliases, ∃ b c, baseOf names a.pair.1 = .ok b ∧
      baseOf names a.pair.2 = .ok c ∧ pair = (min b c, max b c) := by
  refine foldlM_inv (fun done (s : AliasModel) => pair ∈ s.pairs ↔ ∃ a ∈ done, ∃ b c,
    baseOf names a.pair.1 = .ok b ∧ baseOf names a.pair.2 = .ok c ∧
      pair = (min b c, max b c)) h (by simp) ?_
  rintro before a after s t - hs ht
  simp only [addAlias, bind_eq_ok, pure_eq_ok] at ht
  obtain ⟨b, hb, c, hc, rfl⟩ := ht
  simp only [AliasModel.addPair, List.mem_cons, hs, List.mem_append, List.not_mem_nil, or_false,
    or_and_right, exists_or, exists_eq_left, hb, hc, Except.ok.injEq, exists_and_left,
    exists_eq_left']
  exact or_comm

namespace Lowered
variable (h : r.Lowered d m)
include h

theorem effects_toList : (r.blocks.flatMap (·.instructions)).mapM (effect m.names) =
    .ok m.effects.toList := by
  obtain ⟨ls, -, hh⟩ := h.drawn.whole.holds
  rw [h.names, h.effects]
  exact hh.effects

theorem effectOf_slot (hi : r.slots[i]? = some slot) :
    effect ⟨r.variables⟩ slot.2.1 = .ok (m.effectOf i) := by
  obtain ⟨e, he, heffect⟩ := getElem?_of_mapM h.effects_toList (instruction_of_slot hi)
  rw [← h.names, heffect, Model.effectOf, ← Array.getElem?_toList, he]
  rfl

/- There is an entry for the region of the loop, and each entry for it is of this loop. -/
theorem liveAfter_loop (hl : l ∈ r.loops) (hp : d.region? (some l.name) = some p) :
    ∃ s, wholes ⟨r.variables⟩ l.liveOut = .ok s ∧ m.liveAfter p = .ofList s := by
  have hwhole := h.drawn.whole
  obtain ⟨s, hs⟩ : ∃ s, wholes ⟨r.variables⟩ l.liveOut = .ok s :=
    (exists_wholes rfl).2 ((hwhole.exists_liveOut rfl).1 ⟨_, h.liveOut⟩ l hl)
  refine ⟨s, hs, ?_⟩
  have hentry : (p, SortedSet.ofList s) ∈ m.liveOut :=
    (mem_of_mapM h.liveOut).2 ⟨l, hl, by simp [Draft.liveOut, Draft.region_eq_ok.2 hp, hs]; rfl⟩
  have hall : ∀ live, (p, live) ∈ m.liveOut → live = SortedSet.ofList s := by
    intro live hlive
    obtain ⟨k, hk, he⟩ := (mem_of_mapM h.liveOut).1 hlive
    simp only [Draft.liveOut, bind_eq_ok, pure_eq_ok, Draft.region_eq_ok] at he
    obtain ⟨p', hp', t, ht, he⟩ := he
    obtain ⟨rfl, rfl⟩ := Prod.mk.inj he
    obtain rfl := hwhole.loop_unique hk hl
      (Option.some.inj (hwhole.region?_inj (loop_mem_regions hk) (loop_mem_regions hl) hp' hp))
    rw [Except.ok.inj (ht.symm.trans hs)]
  cases hlookup : m.liveOut.lookup p with
  | none =>
    rw [List.lookup_eq_none_iff] at hlookup
    exact absurd (hlookup _ hentry) (by simp)
  | some live =>
    obtain ⟨before, after, he, -⟩ := List.lookup_eq_some_iff.1 hlookup
    rw [Model.liveAfter, hlookup, hall live (by simp [he])]
    rfl

end Lowered
end LoopMemory.Description.Routine
