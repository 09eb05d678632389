import LoopMemory.Proofs.Solver.Walks

/-! How a node acts on the values in front of it. Behind a meet comes the meet of what comes behind
each value, so that meeting late loses nothing against following every path by itself; and what a
node has done once it does not undo the second time. -/
namespace LoopMemory

namespace Reach
variable {r s : Reach} {aliases : Aliasing} {defs t : LocationSet}

/- Each part of the transfer goes past the meet of its side. -/

theorem kill_inter :
    (r.inter s).kill aliases defs = (r.kill aliases defs).inter (s.kill aliases defs) := by
  refine ext (by simp only [isFull_kill, isFull_inter]) fun l => ?_
  simp only [mem_kill, mem_inter, isFull_inter, Bool.and_eq_true]
  rw [and_or_right, and_and_and_comm]

theorem insertAll_inter : (r.inter s).insertAll t = (r.insertAll t).inter (s.insertAll t) := by
  refine ext (by simp only [isFull_insertAll, isFull_inter]) fun l => ?_
  simp only [mem_insertAll, mem_inter]
  exact and_or_right

theorem insertAll_union : (r.union s).insertAll t = (r.insertAll t).union (s.insertAll t) := by
  refine ext (by simp only [isFull_insertAll, isFull_union]) fun l => ?_
  simp only [mem_insertAll, mem_union]
  exact or_or_distrib_right

end Reach

namespace Reaching
variable {aliases : Aliasing} {f : Footprint} {x y : Reaching}

theorem transfer_meet : (x.meet y).transfer aliases f =
    (x.transfer aliases f).meet (y.transfer aliases f) := by
  have hcleared : (if f.hasUnknownWrites then .empty else x.must.inter y.must) =
      Reach.inter (if f.hasUnknownWrites then .empty else x.must)
        (if f.hasUnknownWrites then .empty else y.must) := by
    cases f.hasUnknownWrites <;> rfl
  simp only [transfer, meet, hcleared, Reach.kill_inter, Reach.insertAll_inter,
    Reach.insertAll_union]

/- A definition is never killed by its own node, whatever else the node defines, and what the node
   has spared once it spares again. -/
theorem transfer_transfer : (x.transfer aliases f).transfer aliases f = x.transfer aliases f := by
  refine ext (Reach.ext ?_ fun l => ?_) (Reach.ext isFull_may_transfer fun l => ?_)
  · rw [Bool.eq_iff_iff, isFull_must_transfer]
    exact and_iff_right_of_imp fun h => (isFull_must_transfer.1 h).1
  · rw [mem_must_transfer]
    constructor
    · intro h
      cases h with
      | inl hd => exact mem_must_transfer.2 (.inl hd)
      | inr h => exact h.2.1
    · intro h
      cases mem_must_transfer.1 h with
      | inl hd => exact .inl hd
      | inr hx =>
        obtain ⟨hw, -, hspared⟩ := hx
        refine .inr ⟨hw, h, hspared.imp_left fun hfull => ?_⟩
        exact isFull_must_transfer.2 ⟨hw, hfull⟩
  · rw [mem_may_transfer]
    exact or_iff_left_of_imp fun h => mem_may_transfer.2 (.inr h)

end Reaching

namespace Problem
variable {p : Problem} {n : NodeId} {f : Footprint}

/-- Wherever a node has a footprint, it turns a meet into the meet of what it turns either value
into, and leaves alone what it has put out itself. -/
theorem transfer_distributes (hf : p.footprints.get? n = some f) (x y : Reaching) :
    ∃ x' y', p.transfer n x = .ok x' ∧ p.transfer n y = .ok y' ∧
      p.transfer n (x.meet y) = .ok (x'.meet y') ∧ p.transfer n x' = .ok x' := by
  have hok : ∀ z, p.transfer n z = .ok (z.transfer p.aliases f) :=
    fun z => transfer_eq_ok.2 ⟨f, hf, rfl⟩
  refine ⟨x.transfer p.aliases f, y.transfer p.aliases f, hok x, hok y, ?_, ?_⟩
  · rw [hok, Reaching.transfer_meet]
  · rw [hok, Reaching.transfer_transfer]

/-- A block that writes a variable and then a part of it. -/
def rewriting : Problem :=
  { overwriting with footprints := ⟨[(2, { defs := .ofList [wholeVar, upperPart] })]⟩ }

def elsewhere : Location := { base := 2, offset := 0, size := .bytes 8 }

/-- One location of the must side overlaps both definitions, and the other one neither of them. The
may side is everything. -/
def straddling : Reaching := ⟨.only (.ofList [{ upperPart with offset := 2 }, elsewhere]), .full⟩

theorem transfer_distributes_rewriting :
    rewriting.footprints.get? 2 = some { defs := .ofList [wholeVar, upperPart] } ∧
    (∃ x' y', rewriting.transfer 2 .top = .ok x' ∧ rewriting.transfer 2 straddling = .ok y' ∧
      rewriting.transfer 2 (Reaching.top.meet straddling) = .ok (x'.meet y') ∧
      rewriting.transfer 2 x' = .ok x') ∧
    (rewriting.transfer 2 (Reaching.top.meet straddling)).toOption =
      some ⟨.only (.ofList [wholeVar, upperPart, elsewhere]), .full⟩ :=
  ⟨rfl, transfer_distributes rfl .top straddling, by decide +kernel⟩

end Problem
end LoopMemory
