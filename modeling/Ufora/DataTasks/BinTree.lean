import Ufora.DataTasks.SplitTree

/-!
# Trees of bins

The splits of the root bin of a task as a tree, which is what the machines agree on in the end. A machine
knows the part of it whose splits it has realized (`known`).
-/

open Relation List Prod

namespace DataTasks

/-- A bin on its machine, and where it is split the bins it is split into. -/
inductive BinTree (β μ ν : Type) where
  | leaf (bin : μ × β)
  | node (bin : μ × β) (splitValue : ν) (left right : BinTree β μ ν)

/-- The split makes the bin. -/
def SplitRecord.IsChild {β μ ν : Type} (record : SplitRecord β μ ν) (bin : β) : Prop :=
  bin = record.left.2 ∨ bin = record.right.2

namespace BinTree

section
variable {β μ ν : Type}

/-- The bin at the root. -/
def bin : BinTree β μ ν → μ × β
  | leaf bin => bin
  | node bin _ _ _ => bin

/-- The splits of the tree. -/
def splits : BinTree β μ ν → List (SplitRecord β μ ν)
  | leaf _ => []
  | node bin splitValue left right =>
    ⟨bin.2, left.bin, right.bin, splitValue⟩ :: (left.splits ++ right.splits)

/-- All bins of the tree. -/
def bins : BinTree β μ ν → List (μ × β)
  | leaf bin => [bin]
  | node bin _ left right => bin :: (left.bins ++ right.bins)

/-- The bins that are not split. -/
def leaves : BinTree β μ ν → List β
  | leaf bin => [bin.2]
  | node _ _ left right => left.leaves ++ right.leaves

/-- One split makes the bin of another one. -/
def Parent (t : BinTree β μ ν) (parent record : SplitRecord β μ ν) : Prop :=
  parent ∈ t.splits ∧ record ∈ t.splits ∧ parent.IsChild record.bin

/-- A split makes the bin of another one, or one of the bins this bin comes from. -/
def Ancestor (t : BinTree β μ ν) : SplitRecord β μ ν → SplitRecord β μ ν → Prop := TransGen t.Parent

/-- The leaf that a value comes to: left of a split value iff it is less. -/
def route [Preorder ν] [DecidableLT ν] (value : ν) : BinTree β μ ν → μ × β
  | leaf bin => bin
  | node _ splitValue left right =>
    if value < splitValue then left.route value else right.route value

/-- Every split value lies strictly inside the interval of the bin that it splits. -/
def Inside [Preorder ν] (lower upper : Option ν) : BinTree β μ ν → Prop
  | leaf _ => True
  | node _ splitValue left right =>
    (∀ x ∈ lower, x < splitValue) ∧ (∀ x ∈ upper, splitValue < x) ∧
      left.Inside lower (some splitValue) ∧ right.Inside (some splitValue) upper

/-- No bin is split twice, the bins that a split makes are new, and the split values lie inside. -/
structure WellFormed [Preorder ν] (t : BinTree β μ ν) : Prop where
  nodup : (t.bins.map snd).Nodup
  inside : t.Inside none none

/-- What remains of the tree when only the given bins are split. -/
def prune [DecidableEq β] (realized : Finset β) : BinTree β μ ν → BinTree β μ ν
  | leaf bin => leaf bin
  | node bin splitValue left right =>
    if bin.2 ∈ realized then node bin splitValue (left.prune realized) (right.prune realized)
    else leaf bin

/-- The part of the tree whose splits were popped. -/
def known [DecidableEq β] (popped : List (SplitRecord β μ ν)) (t : BinTree β μ ν) : BinTree β μ ν :=
  t.prune (popped.map SplitRecord.bin).toFinset

/-- With a bin, the one that it comes from is split. -/
def Closed (realized : Finset β) (t : BinTree β μ ν) : Prop :=
  ∀ parent record, t.Parent parent record → record.bin ∈ realized → parent.bin ∈ realized

/-! ## Subtrees -/

variable {t l r : BinTree β μ ν} {bin : μ × β} {splitValue : ν} {realized : Finset β}

variable {parent record record' : SplitRecord β μ ν}

theorem Parent.of_left (h : l.Parent parent record) : (node bin splitValue l r).Parent parent record :=
  ⟨.tail _ (mem_append_left _ h.1), .tail _ (mem_append_left _ h.2.1), h.2.2⟩

theorem Parent.of_right (h : r.Parent parent record) : (node bin splitValue l r).Parent parent record :=
  ⟨.tail _ (mem_append_right _ h.1), .tail _ (mem_append_right _ h.2.1), h.2.2⟩

theorem Closed.left (h : Closed realized (node bin splitValue l r)) : Closed realized l :=
    fun _ _ hp => h _ _ hp.of_left

theorem Closed.right (h : Closed realized (node bin splitValue l r)) :
    Closed realized r := fun _ _ hp => h _ _ hp.of_right

/-- The splits of a tree follow from the one of its root, along their parents. -/
theorem splits_induction {motive : SplitRecord β μ ν → Prop} (t : BinTree β μ ν)
    (root : ∀ record ∈ t.splits, record.bin = t.bin.2 → motive record)
    (c : ∀ parent record, t.Parent parent record → motive parent → motive record) :
    ∀ record ∈ t.splits, motive record := by
  induction t with
  | leaf bin => nofun
  | node bin splitValue left right ihl ihr =>
    have hhead : motive ⟨bin.2, left.bin, right.bin, splitValue⟩ := root _ (.head _) rfl
    intro record hrecord
    rcases mem_cons.1 hrecord with rfl | hrecord
    · exact hhead
    rcases mem_append.1 hrecord with hl | hr
    · refine ihl (fun r hr hb => ?_) (fun p r hp => c p r hp.of_left) record hl
      exact c _ r ⟨.head _, .tail _ (mem_append_left _ hr), .inl hb⟩ hhead
    · refine ihr (fun r hr hb => ?_) (fun p r hp => c p r hp.of_right) record hr
      exact c _ r ⟨.head _, .tail _ (mem_append_right _ hr), .inr hb⟩ hhead

/-- Nothing is split below a bin that is not. -/
theorem Closed.notMem (h : Closed realized t) (hbin : t.bin.2 ∉ realized) :
    ∀ record ∈ t.splits, record.bin ∉ realized :=
  splits_induction t (fun _ _ hb => hb ▸ hbin) fun _ _ hp hn hr => hn (h _ _ hp hr)

/-! ## The bins of the splits -/

/-- The bins of a tree are its root and what its splits make. -/
theorem bins_perm (t : BinTree β μ ν) :
    t.bins.Perm (t.bin :: t.splits.flatMap fun record => [record.left, record.right]) := by
  induction t with
  | leaf bin => exact .refl _
  | node bin splitValue left right ihl ihr =>
    refine .cons bin ((ihl.append ihr).trans ?_)
    rw [splits, flatMap_cons, flatMap_append]
    exact .cons _ (@perm_middle _ _ (List.flatMap _ left.splits) _)

theorem mem_bins {b : μ × β} : b ∈ t.bins ↔ b = t.bin ∨ ∃ record ∈ t.splits, b = record.left ∨ b = record.right := by
  rw [t.bins_perm.mem_iff, mem_cons, mem_flatMap]
  simp

theorem splits_sublist (t : BinTree β μ ν) : (t.splits.map SplitRecord.bin).Sublist (t.bins.map snd) := by
  induction t with
  | leaf bin => exact nil_sublist _
  | node bin splitValue left right ihl ihr =>
    rw [splits, bins, map_cons, map_append, map_cons, map_append]
    exact .cons_cons _ (ihl.append ihr)

variable (hn : (t.bins.map snd).Nodup)
include hn

/-- A bin is split once. -/
theorem splits_bin_injective (h : record ∈ t.splits)
    (h' : record' ∈ t.splits) (hb : record.bin = record'.bin) : record = record' :=
  inj_on_of_nodup_map (hn.sublist t.splits_sublist) h h' hb

theorem children_nodup : (t.bin.2 :: t.splits.flatMap fun record =>
    [record.left.2, record.right.2]).Nodup := by
  have hperm := (t.bins_perm.map snd).nodup_iff.1 hn
  rw [map_cons, map_flatMap] at hperm
  exact hperm

/-- A bin is made once. -/
theorem splits_child_injective {b : β} (h : record ∈ t.splits)
    (h' : record' ∈ t.splits) (hb : record.IsChild b) (hb' : record'.IsChild b) :
    record = record' := by
  have hpair := (nodup_flatMap.1 (children_nodup hn).of_cons).2
  by_contra hne
  have : Std.Symm (Function.onFun List.Disjoint fun r : SplitRecord β μ ν =>
      [r.left.2, r.right.2]) := ⟨fun _ _ hd => hd.symm⟩
  have hdisj := hpair.forall h h' hne
  have hmem : ∀ {r : SplitRecord β μ ν}, r.IsChild b → b ∈ [r.left.2, r.right.2] := by
    rintro r (rfl | rfl) <;> simp
  exact hdisj (hmem hb) (hmem hb')

/-- A split makes two bins. -/
theorem splits_children_ne (h : record ∈ t.splits) : record.left.2 ≠ record.right.2 := by
  have hpair := (nodup_flatMap.1 (children_nodup hn).of_cons).1 record h
  simpa using hpair

/-- No split makes the root. -/
theorem not_isChild_root (h : record ∈ t.splits) : ¬ record.IsChild t.bin.2 := by
  intro hc
  refine (nodup_cons.1 (children_nodup hn)).1 (mem_flatMap.2 ⟨record, h, ?_⟩)
  rcases hc with hc | hc <;> simp [hc]

/-- The leaves are the bins that are not split. -/
theorem mem_leaves {b : β} : b ∈ t.leaves ↔ (b = t.bin.2 ∨ ∃ record ∈ t.splits, record.IsChild b) ∧
      ∀ record ∈ t.splits, record.bin ≠ b := by
  have hbins : ∀ {t : BinTree β μ ν}, b ∈ t.bins.map snd ↔ b = t.bin.2 ∨ ∃ record ∈ t.splits, record.IsChild b := by
    intro t
    rw [(t.bins_perm.map snd).mem_iff, map_cons, map_flatMap, mem_cons, mem_flatMap]
    simp [SplitRecord.IsChild]
  rw [← hbins]
  induction t with
  | leaf bin => simp [leaves, bins, splits]
  | node bin splitValue left right ihl ihr =>
    rw [bins, map_cons, map_append, nodup_cons, nodup_append'] at hn
    obtain ⟨hroot, hl, hr, hdisj⟩ := hn
    have hsub : ∀ {t : BinTree β μ ν} {record}, record ∈ t.splits → record.bin ∈ t.bins.map snd :=
      fun {t} _ h => t.splits_sublist.subset (mem_map_of_mem h)
    rw [leaves, mem_append]
    refine (or_congr (ihl hl) (ihr hr)).trans ?_
    rw [bins, splits, map_cons, map_append, mem_cons, mem_append, forall_mem_cons, forall_mem_append]
    constructor
    · rintro (⟨hb, hns⟩ | ⟨hb, hns⟩)
      · exact ⟨.inr (.inl hb), by rintro rfl; exact hroot (mem_append_left _ hb), hns,
          fun r hr he => hdisj hb (he ▸ hsub hr)⟩
      · exact ⟨.inr (.inr hb), by rintro rfl; exact hroot (mem_append_right _ hb),
          fun r hl he => hdisj (he ▸ hsub hl) hb, hns⟩
    · rintro ⟨hb | hb | hb, hne, hnl, hnr⟩
      · exact absurd hb.symm hne
      · exact .inl ⟨hb, hnl⟩
      · exact .inr ⟨hb, hnr⟩

end

/-! ## What is left of a tree when it is pruned -/

variable {β μ ν : Type} [DecidableEq β] {t : BinTree β μ ν} {realized : Finset β}

@[simp] theorem bin_prune (t : BinTree β μ ν) : (t.prune realized).bin = t.bin := by
  cases t with
  | leaf bin => rfl
  | node bin splitValue left right => rw [prune]; split <;> rfl

theorem prune_of_notMem (h : t.bin.2 ∉ realized) : t.prune realized = leaf t.bin := by
  cases t with
  | leaf bin => rfl
  | node bin splitValue left right => exact if_neg h

theorem prune_eq_self (h : ∀ record ∈ t.splits, record.bin ∈ realized) : t.prune realized = t := by
  induction t with
  | leaf bin => rfl
  | node bin splitValue left right ihl ihr =>
    rw [prune, if_pos (h _ (.head _)), ihl fun r hr => h r (.tail _ (mem_append_left _ hr)),
      ihr fun r hr => h r (.tail _ (mem_append_right _ hr))]

theorem bins_prune_sublist (t : BinTree β μ ν) : (t.prune realized).bins.Sublist t.bins := by
  induction t with
  | leaf bin => exact .refl _
  | node bin splitValue left right ihl ihr =>
    rw [prune]
    split
    · exact .cons_cons _ (ihl.append ihr)
    · exact .cons_cons _ (nil_sublist _)

/-- The splits that are left are those whose bins are realized. -/
theorem mem_splits_prune (h : Closed realized t) {record : SplitRecord β μ ν} :
    record ∈ (t.prune realized).splits ↔ record ∈ t.splits ∧ record.bin ∈ realized := by
  induction t with
  | leaf bin => simp [prune, splits]
  | node bin splitValue left right ihl ihr =>
    rw [prune]
    split
    · next hbin =>
      rw [splits, splits, mem_cons, mem_cons, mem_append, mem_append, ihl h.left,
        ihr h.right, bin_prune, bin_prune, or_and_right, or_and_right]
      refine or_congr_left (and_iff_left_of_imp ?_).symm
      rintro rfl
      exact hbin
    · next hbin =>
      refine iff_of_false nofun ?_
      rintro ⟨hr, hmem⟩
      exact h.notMem hbin record hr hmem

/-- Realizing a bin of another subtree changes nothing. -/
theorem prune_insert_of_notMem {b : β} (h : b ∉ t.bins.map snd) : t.prune (insert b realized) = t.prune realized := by
  induction t with
  | leaf bin => rfl
  | node bin splitValue left right ihl ihr =>
    rw [bins, map_cons, map_append, mem_cons, mem_append, not_or, not_or] at h
    rw [prune, prune, ihl h.2.1, ihr h.2.2]
    simp only [Finset.mem_insert, Ne.symm h.1, false_or]

end BinTree

end DataTasks
