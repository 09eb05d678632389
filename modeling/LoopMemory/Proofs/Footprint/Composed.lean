import LoopMemory.Proofs.AliasClasses.Scattered
import LoopMemory.Proofs.Exactness
import LoopMemory.Proofs.Footprint.Tally

/-! Footprints of known accesses to locations that lie apart. There the footprint of a block is
composed of those of its two halves, at whatever place it is cut. -/
namespace LoopMemory

theorem UnknownInsts.foldl_record_nil {us vs : UnknownInsts} (hu : us = []) (hv : vs = []) :
    vs.foldl (fun us u => UnknownInsts.record u.1 u.2 us) us = [] := by
  rw [hu, hv]
  rfl

namespace Footprint
variable {aliases : Aliasing} {A : Location → Prop} {f g h sum sum' : Footprint} {l k : Location}
  {exiting x y : Reaching}

/-- Everything is known, and each location has a class of its own. -/
structure Flat (aliases : Aliasing) (A : Location → Prop) (f : Footprint) : Prop where
  known : f.unknown = []
  defs : ∀ l ∈ f.defs, A l
  uses : ∀ l ∈ f.uses, A l
  explicit : f.explicit.Scattered aliases A

/-- Flat footprints that differ in the order of their classes at most. -/
structure Matches (aliases : Aliasing) (A : Location → Prop) (f g : Footprint) : Prop where
  left : f.Flat aliases A
  right : g.Flat aliases A
  defs : g.defs = f.defs
  mayDefs : g.mayDefs = f.mayDefs
  uses : g.uses = f.uses
  addresses : g.addresses = f.addresses
  count : ∀ k, g.explicit.locations.count k = f.explicit.locations.count k

/-- The first footprint is that of the second one's accesses and then of the third one's. -/
structure Composed (aliases : Aliasing) (A : Location → Prop) (f g h : Footprint) : Prop where
  whole : f.Flat aliases A
  first : g.Flat aliases A
  second : h.Flat aliases A
  defs : ∀ l, l ∈ f.defs ↔ l ∈ g.defs ∨ l ∈ h.defs
  mayDefs : ∀ l, l ∈ f.mayDefs ↔ l ∈ g.mayDefs ∨ l ∈ h.mayDefs
  uses : ∀ l, l ∈ f.uses ↔ l ∈ g.uses ∨ (l ∈ h.uses ∧ l ∉ g.defs)
  addresses : ∀ b, b ∈ f.addresses ↔ b ∈ g.addresses ∨ b ∈ h.addresses
  count : ∀ k, f.explicit.locations.count k = AliasClasses.weigh aliases k
    (g.explicit.locations.count k + h.explicit.locations.count k)

theorem flat_empty : ({} : Footprint).Flat aliases A where
  known := rfl
  defs l hl := absurd hl (SortedSet.not_mem_empty l)
  uses l hl := absurd hl (SortedSet.not_mem_empty l)
  explicit := AliasClasses.scattered_nil

namespace Flat
variable (hf : f.Flat aliases A)
include hf

theorem hasUnknown : f.hasUnknown = false := by simp [Footprint.hasUnknown, hf.known]

theorem hasUnknownWrites : f.hasUnknownWrites = false := by
  simp [Footprint.hasUnknownWrites, hf.known]

theorem downgrade : f.downgrade.Flat aliases A where
  known := hf.known
  defs l hl := absurd hl (SortedSet.not_mem_empty l)
  uses := hf.uses
  explicit := hf.explicit

theorem matches_self : f.Matches aliases A f := ⟨hf, hf, rfl, rfl, rfl, rfl, fun _ => rfl⟩

theorem composed_empty : f.Composed aliases A f {} where
  whole := hf
  first := hf
  second := flat_empty
  defs l := by simp
  mayDefs l := by simp
  uses l := by simp
  addresses b := by simp
  count k := hf.explicit.weigh_count.symm

variable (hap : aliases.Apart A) (hsum : sum.Flat aliases A)
include hap hsum

theorem absorb : (sum.absorb aliases exiting x f).Flat aliases A where
  known := UnknownInsts.foldl_record_nil hsum.known hf.known
  defs l hl := (mem_defs_absorb.1 hl).elim (hsum.defs l) fun hl => hf.defs l hl.1
  uses l hl := (mem_uses_absorb.1 hl).elim (hsum.uses l) fun hl => hf.uses l hl.1
  explicit := (hsum.explicit.addAll hap fun _ => hf.explicit.mem).1

theorem count_absorb : (sum.absorb aliases exiting x f).explicit.locations.count k =
    AliasClasses.weigh aliases k
      (sum.explicit.locations.count k + f.explicit.locations.count k) :=
  (hsum.explicit.addAll hap fun _ => hf.explicit.mem).2 k

end Flat

namespace Matches

theorem trans (hfg : f.Matches aliases A g) (hgh : g.Matches aliases A h) :
    f.Matches aliases A h where
  left := hfg.left
  right := hgh.right
  defs := hgh.defs.trans hfg.defs
  mayDefs := hgh.mayDefs.trans hfg.mayDefs
  uses := hgh.uses.trans hfg.uses
  addresses := hgh.addresses.trans hfg.addresses
  count k := (hgh.count k).trans (hfg.count k)

theorem transfer (hfg : f.Matches aliases A g) : x.transfer aliases g = x.transfer aliases f := by
  simp only [Reaching.transfer, hfg.left.hasUnknownWrites, hfg.right.hasUnknownWrites, hfg.defs,
    hfg.mayDefs]

theorem downgrade (hfg : f.Matches aliases A g) : f.downgrade.Matches aliases A g.downgrade where
  left := hfg.left.downgrade
  right := hfg.right.downgrade
  defs := rfl
  mayDefs := by rw [Footprint.downgrade, Footprint.downgrade, hfg.mayDefs, hfg.defs]
  uses := hfg.uses
  addresses := hfg.addresses
  count := hfg.count

theorem widen (hfg : f.Matches aliases A g) (repeats : Bool) :
    (f.widen repeats).Matches aliases A (g.widen repeats) := by
  rwa [widen_of_known hfg.left.hasUnknown, widen_of_known hfg.right.hasUnknown]

theorem perm_classes (hfg : f.Matches aliases A g) :
    g.explicit.classes.Perm f.explicit.classes := by
  rw [hfg.right.explicit.classes_eq, hfg.left.explicit.classes_eq]
  exact (List.perm_iff_count.2 hfg.count).map _

variable (hap : aliases.Apart A)
include hap

theorem absorb (hfg : f.Matches aliases A g) (hsum : sum.Matches aliases A sum') :
    (sum.absorb aliases exiting x f).Matches aliases A (sum'.absorb aliases exiting x g) where
  left := hfg.left.absorb hap hsum.left
  right := hfg.right.absorb hap hsum.right
  defs := SortedSet.ext fun l => by
    rw [mem_defs_absorb, mem_defs_absorb, hsum.defs, hfg.defs]
  mayDefs := SortedSet.ext fun l => by
    rw [mem_mayDefs_absorb, mem_mayDefs_absorb, hsum.mayDefs, hfg.defs, hfg.mayDefs]
  uses := SortedSet.ext fun l => by
    rw [mem_uses_absorb, mem_uses_absorb, hsum.uses, hfg.uses]
  addresses := SortedSet.ext fun b => by
    rw [mem_addresses_absorb, mem_addresses_absorb, hsum.addresses, hfg.addresses]
  count k := by
    rw [hfg.right.count_absorb hap hsum.right, hfg.left.count_absorb hap hsum.left, hsum.count,
      hfg.count]

end Matches

/-- It does not matter which of two flat footprints a summary takes in first. -/
theorem Flat.absorb_comm (hap : aliases.Apart A) (hsum : sum.Flat aliases A)
    (hf : f.Flat aliases A) (hg : g.Flat aliases A) :
    ((sum.absorb aliases exiting x f).absorb aliases exiting y g).Matches aliases A
      ((sum.absorb aliases exiting y g).absorb aliases exiting x f) where
  left := hg.absorb hap (hf.absorb hap hsum)
  right := hf.absorb hap (hg.absorb hap hsum)
  defs := SortedSet.ext fun l => by
    simp only [mem_defs_absorb, or_right_comm]
  mayDefs := SortedSet.ext fun l => by
    simp only [mem_mayDefs_absorb]
    exact or_right_comm
  uses := SortedSet.ext fun l => by
    simp only [mem_uses_absorb, or_right_comm]
  addresses := SortedSet.ext fun b => by
    simp only [mem_addresses_absorb, or_right_comm]
  count k := by
    rw [hf.count_absorb hap (hg.absorb hap hsum), hg.count_absorb hap hsum,
      hg.count_absorb hap (hf.absorb hap hsum), hf.count_absorb hap hsum,
      AliasClasses.weigh_weigh_add, AliasClasses.weigh_weigh_add, Nat.add_right_comm]

namespace Composed
variable (hc : f.Composed aliases A g h)
include hc

variable (hap : aliases.Apart A) (hx : x.Within A fun _ => True)
include hap hx

theorem transfer : (x.transfer aliases g).transfer aliases h = x.transfer aliases f := by
  have hy : (x.transfer aliases g).Within A fun _ => True :=
    hx.transfer hc.first.defs fun _ _ => trivial
  refine Reaching.ext (Reach.ext ?_ fun l => ?_) (Reach.ext ?_ fun l => ?_)
  · rw [Bool.eq_iff_iff]
    simp only [Reaching.isFull_must_transfer, hc.whole.hasUnknownWrites,
      hc.first.hasUnknownWrites, hc.second.hasUnknownWrites, true_and]
  · rw [hap.mem_must_transfer_iff hy hc.second.defs, hap.mem_must_transfer_iff hx hc.first.defs,
      hap.mem_must_transfer_iff hx hc.whole.defs, hc.defs, hc.whole.hasUnknownWrites,
      hc.first.hasUnknownWrites, hc.second.hasUnknownWrites]
    tauto
  · simp only [Reaching.isFull_may_transfer]
  · simp only [Reaching.mem_may_transfer, hc.defs, hc.mayDefs]
    tauto

/-- A read of the second half is covered by the first half just if it is so in the whole. -/
theorem mem_uses_iff (hfull : x.must.isFull = false) :
    (l ∈ f.uses ∧ x.must.covers l = false) ↔ (l ∈ g.uses ∧ x.must.covers l = false) ∨
      (l ∈ h.uses ∧ (x.transfer aliases g).must.covers l = false) := by
  have hy : (x.transfer aliases g).Within A fun _ => True :=
    hx.transfer hc.first.defs fun _ _ => trivial
  have hcovers : ∀ l, A l → ((x.transfer aliases g).must.covers l = false ↔
      l ∉ g.defs ∧ x.must.covers l = false) := by
    intro l hl
    have hfull' : (x.transfer aliases g).must.isFull = false := by
      rw [Bool.eq_false_iff, ne_eq, Reaching.isFull_must_transfer, hfull]
      simp
    have hinput := hap.covers_must_iff hx hl
    have houtput := hap.covers_must_iff hy hl
    rw [hap.mem_must_transfer_iff hx hc.first.defs] at houtput
    simp only [hfull, hfull', hc.first.hasUnknownWrites, true_and] at hinput houtput
    rw [← Bool.not_eq_true, ← Bool.not_eq_true, hinput, houtput, not_or]
  rw [hc.uses]
  constructor
  · rintro ⟨hl | ⟨hl, hd⟩, hx⟩
    · exact .inl ⟨hl, hx⟩
    · exact .inr ⟨hl, (hcovers l (hc.second.uses l hl)).2 ⟨hd, hx⟩⟩
  · rintro (⟨hl, hx⟩ | ⟨hl, hy⟩)
    · exact ⟨.inl hl, hx⟩
    · obtain ⟨hd, hx⟩ := (hcovers l (hc.second.uses l hl)).1 hy
      exact ⟨.inr ⟨hl, hd⟩, hx⟩

/-- A summary takes in the two halves as it takes in the whole. -/
theorem absorb (hsum : sum.Flat aliases A) (hfull : x.must.isFull = false) :
    (sum.absorb aliases exiting x f).Matches aliases A
      ((sum.absorb aliases exiting x g).absorb aliases exiting (x.transfer aliases g) h) where
  left := hc.whole.absorb hap hsum
  right := hc.second.absorb hap (hc.first.absorb hap hsum)
  defs := SortedSet.ext fun l => by
    simp only [mem_defs_absorb, hc.defs, or_and_right, or_assoc]
  mayDefs := SortedSet.ext fun l => by
    simp only [mem_mayDefs_absorb, hc.defs, hc.mayDefs]
    tauto
  uses := SortedSet.ext fun l => by
    rw [mem_uses_absorb, mem_uses_absorb, mem_uses_absorb, hc.mem_uses_iff hap hx hfull, or_assoc]
  addresses := SortedSet.ext fun b => by
    simp only [mem_addresses_absorb, hc.addresses, or_assoc]
  count k := by
    rw [hc.second.count_absorb hap (hc.first.absorb hap hsum), hc.first.count_absorb hap hsum,
      hc.whole.count_absorb hap hsum, hc.count, AliasClasses.weigh_weigh_add,
      AliasClasses.weigh_add_weigh, Nat.add_assoc]

end Composed
end Footprint

namespace Memory
variable {m : Memory} {t : RegionTree} {n : NodeId} {node : Node} {A : Location → Prop}
  {f g h : Footprint} {a : Access} {before after insts : List Inst}

theorem explicit_recordAccess : (m.recordAccess f a).explicit =
    if a.isAddressOnly then f.explicit else f.explicit.add m.aliases a.location := by
  unfold recordAccess
  split
  · rfl
  · cases m.writeOf a <;> simp only [recordWrite] <;> split <;> split <;> rfl

section Record
variable (hap : m.aliases.Apart A) (ha : a.isAddressOnly = false → A a.location)
include hap ha

theorem flat_recordAccess (hf : f.Flat m.aliases A) : (m.recordAccess f a).Flat m.aliases A where
  known := unknown_recordAccess.trans hf.known
  defs l hl := by
    rcases mem_defs_recordAccess.1 hl with hl | ⟨hw, rfl⟩
    · exact hf.defs l hl
    · refine ha (Bool.eq_false_iff.2 fun hao => ?_)
      rw [writeOf_addressOnly hao] at hw
      cases hw
  uses l hl := by
    rcases mem_uses_recordAccess.1 hl with hl | ⟨hr, -, rfl⟩
    · exact hf.uses l hl
    · exact ha (Access.isAddressOnly_eq_false.2 (.inl hr))
  explicit := by
    rw [explicit_recordAccess]
    split
    · exact hf.explicit
    · rename_i hao
      exact hf.explicit.add hap (ha (Bool.eq_false_iff.2 hao))

theorem count_recordAccess {k : Location} (hf : f.Flat m.aliases A) :
    (m.recordAccess f a).explicit.locations.count k = AliasClasses.weigh m.aliases k
      (f.explicit.locations.count k + if a.isAddressOnly then 0 else [a.location].count k) := by
  rw [explicit_recordAccess]
  split
  · exact hf.explicit.weigh_count.symm
  · rename_i hao
    exact hf.explicit.count_add hap (ha (Bool.eq_false_iff.2 hao))

/- An access that follows both halves follows the second one. -/
theorem composed_recordAccess (hc : f.Composed m.aliases A g h) :
    (m.recordAccess f a).Composed m.aliases A g (m.recordAccess h a) where
  whole := flat_recordAccess hap ha hc.whole
  first := hc.first
  second := flat_recordAccess hap ha hc.second
  defs l := by rw [mem_defs_recordAccess, mem_defs_recordAccess, hc.defs, or_assoc]
  mayDefs l := by rw [mem_mayDefs_recordAccess, mem_mayDefs_recordAccess, hc.mayDefs, or_assoc]
  uses l := by
    have hcovers : a.read.isAny = true → (f.defs.covers a.location = false ↔
        a.location ∉ g.defs ∧ h.defs.covers a.location = false) := by
      intro hr
      have hl := ha (Access.isAddressOnly_eq_false.2 (.inl hr))
      rw [Bool.eq_false_iff, ne_eq, hap.covers_set_iff hc.whole.defs hl, Bool.eq_false_iff, ne_eq,
        hap.covers_set_iff hc.second.defs hl, hc.defs, not_or]
    rw [mem_uses_recordAccess, mem_uses_recordAccess, hc.uses]
    constructor
    · rintro ((hl | hl) | ⟨hr, hd, rfl⟩)
      · exact .inl hl
      · exact .inr ⟨.inl hl.1, hl.2⟩
      · obtain ⟨hg, hh⟩ := (hcovers hr).1 hd
        exact .inr ⟨.inr ⟨hr, hh, rfl⟩, hg⟩
    · rintro (hl | ⟨hl | ⟨hr, hh, rfl⟩, hg⟩)
      · exact .inl (.inl hl)
      · exact .inl (.inr ⟨hl, hg⟩)
      · exact .inr ⟨hr, (hcovers hr).2 ⟨hg, hh⟩, rfl⟩
  addresses b := by
    rw [mem_addresses_recordAccess, mem_addresses_recordAccess, hc.addresses, or_assoc]
  count k := by
    rw [count_recordAccess hap ha hc.whole, count_recordAccess hap ha hc.second, hc.count,
      AliasClasses.weigh_weigh_add, AliasClasses.weigh_add_weigh, Nat.add_assoc]

end Record

/- The events of blocks whose instructions are known. -/

section Events
variable {es : List Event} (hap : m.aliases.Apart A)
  (hes : ∀ e ∈ es, ∃ a, e = .access a ∧ (a.isAddressOnly = false → A a.location))
include hap hes

theorem flat_of_events (hf : es.foldlM m.recordEvent {} = .ok f) : f.Flat m.aliases A := by
  refine foldlM_inv (fun _ f => f.Flat m.aliases A) hf Footprint.flat_empty ?_
  rintro first e rest s u hsplit ih hu
  obtain ⟨a, rfl, ha⟩ := hes e (by simp [hsplit])
  obtain rfl : m.recordAccess s a = u := Except.ok.inj hu
  exact flat_recordAccess hap ha ih

theorem composed_of_events (hg : g.Flat m.aliases A) (hf : es.foldlM m.recordEvent g = .ok f)
    (hh : es.foldlM m.recordEvent {} = .ok h) : f.Composed m.aliases A g h := by
  refine foldlM_inv₂ (fun f h => f.Composed m.aliases A g h) hf hh hg.composed_empty ?_
  intro e he s u s' u' hs hu hu'
  obtain ⟨a, rfl, ha⟩ := hes e he
  obtain rfl : m.recordAccess s a = u := Except.ok.inj hu
  obtain rfl : m.recordAccess s' a = u' := Except.ok.inj hu'
  exact composed_recordAccess hap ha hs

end Events

section Block
variable (hres : m.Resolved t) (hap : m.aliases.Apart (m.Accessed t)) (hn : t.node? n = some node)
include hres hap hn

theorem flat_of_blockFootprint (hk : node.kind = .block insts)
    (hf : m.blockFootprint insts = .ok f) : f.Flat m.aliases (m.Accessed t) :=
  flat_of_events hap (fun _ he => hres.accesses hn hk he) (by rwa [blockFootprint_eq] at hf)

/-- The footprint of a block is composed of those of its halves. -/
theorem composed_of_blockFootprint (hk : node.kind = .block (before ++ after))
    (hf : m.blockFootprint (before ++ after) = .ok f) (hg : m.blockFootprint before = .ok g)
    (hh : m.blockFootprint after = .ok h) : f.Composed m.aliases (m.Accessed t) g h := by
  have hevents : m.blockEvents (before ++ after) = m.blockEvents before ++ m.blockEvents after :=
    List.flatMap_append
  have haccess : ∀ e ∈ m.blockEvents before ++ m.blockEvents after, ∃ a, e = .access a ∧
      (a.isAddressOnly = false → m.Accessed t a.location) :=
    fun e he => hres.accesses hn hk (hevents ▸ he)
  rw [blockFootprint_eq] at hf hg hh
  rw [hevents, List.foldlM_append, bind_eq_ok] at hf
  obtain ⟨g', hg', hf⟩ := hf
  obtain rfl := Except.ok.inj (hg.symm.trans hg')
  have hflat := flat_of_events hap (fun e he => haccess e (List.mem_append_left _ he)) hg
  exact composed_of_events hap (fun e he => haccess e (List.mem_append_right _ he)) hflat hf hh

end Block
end Memory
end LoopMemory
