import Ufora.DataTasks.HomogenousArrays
import Ufora.DataTasks.Routing

/-!
# Splits in any order

The splits of a tree of bins arrive in any order, and after each one the available ones are popped. What is
popped are the splits whose ancestors have all arrived, and the split tree and the spines show the part
of the tree that these make (`popped_and_routed`).
-/

open Ordered Effect List Finset Finmap TwoWaySetMap Prod Relation.TransGen DataTasks.SplitTree DataTasks.SortingSpine

namespace DataTasks

open BinTree

section
variable {β μ ν : Type} [LinearOrder β]

/-- Every split that was popped is of the root or of a bin that an earlier one made. -/
def InOrder (t : BinTree β μ ν) (popped : List (SplitRecord β μ ν)) : Prop :=
  ∀ before record after, popped = before ++ record :: after →
    record.bin = t.bin.2 ∨ ∃ parent ∈ before, parent.IsChild record.bin

/-- What a split tree holds when `arrived` were added and `popped` were popped. -/
structure Realizing (t : BinTree β μ ν) (arrived popped : List (SplitRecord β μ ν))
    (s : SplitTree β μ ν) : Prop where
  arrived_subset : arrived ⊆ t.splits
  popped_subset : popped ⊆ arrived
  nodup : popped.Nodup
  inOrder : InOrder t popped
  orphan : ∀ bin record, lookup bin s.mOrphanedSplits = some record ↔
    (record ∈ arrived ∧ record ∉ popped) ∧ record.bin = bin
  realized : ∀ bin record, lookup bin s.mRealizedSplits = some record ↔ record ∈ popped ∧ record.bin = bin
  leaf : ∀ bin, s.isLeaf bin ↔ (bin = t.bin.2 ∨ ∃ record ∈ popped, record.IsChild bin) ∧
    ∀ record ∈ popped, record.bin ≠ bin
  split : ∀ bin child, s.mSplits.contains bin child ↔ ∃ record ∈ popped, record.bin = bin ∧ record.IsChild child
  splittable : ∀ bin, bin ∈ s.mSplittable ↔ s.isLeaf bin ∧ bin ∈ s.mOrphanedSplits
  machine : ∀ bin machine, s.machineFor bin = some machine ↔ (machine, bin) = t.bin ∨
    ∃ record ∈ arrived, (machine, bin) = record.left ∨ (machine, bin) = record.right

variable {t : BinTree β μ ν} {arrived popped : List (SplitRecord β μ ν)} {s : SplitTree β μ ν}
  {record : SplitRecord β μ ν}

omit [LinearOrder β] in
theorem exists_mem_snoc {p : SplitRecord β μ ν → Prop} :
    (∃ r ∈ popped ++ [record], p r) ↔ (∃ r ∈ popped, p r) ∨ p record := by
  simp [or_and_right, exists_or]

omit [LinearOrder β] in
theorem InOrder.snoc (h : InOrder t popped) (hr : record.bin = t.bin.2 ∨ ∃ parent ∈ popped, parent.IsChild record.bin) :
    InOrder t (popped ++ [record]) := by
  intro before record' after he
  rcases eq_nil_or_concat after with rfl | ⟨after, last, rfl⟩
  · obtain ⟨rfl, hlast⟩ := append_inj' he rfl
    obtain rfl := singleton_inj.1 hlast
    exact hr
  · rw [concat_eq_append, ← cons_append, ← append_assoc] at he
    exact h _ _ _ (append_inj' he rfl).1

theorem realizing_new : Realizing t [] [] (SplitTree.new t.bin.2 t.bin.1) where
  arrived_subset := nil_subset _
  popped_subset := nil_subset _
  nodup := nodup_nil
  inOrder := by intro before record after he; simp at he
  orphan := by simp [SplitTree.new]
  realized := by simp [SplitTree.new]
  leaf := by simp [SplitTree.new, SplitTree.isLeaf]
  split := by simp [SplitTree.new]
  splittable := by simp [SplitTree.new, Finmap.notMem_empty]
  machine := by
    intro bin machine
    show lookup bin (singleton t.bin.2 t.bin.1 : StdMap β μ) = some machine ↔ _
    by_cases hb : bin = t.bin.2
    · subst hb
      rw [lookup_singleton_eq, Prod.ext_iff]
      simp [eq_comm]
    · rw [lookup_eq_none.2 fun hmem => hb ((mem_singleton _ _ _).1 hmem)]
      simp [Prod.ext_iff, hb]

section

variable (h : Realizing t arrived popped s)
include h

/-- An orphan is found under the bin it splits. -/
theorem Realizing.mem_orphans {bin : β} :
    bin ∈ s.mOrphanedSplits ↔ ∃ record, (record ∈ arrived ∧ record ∉ popped) ∧ record.bin = bin := by
  rw [← Finmap.mem_keys, StdMap.mem_keys_iff]
  exact exists_congr fun record => h.orphan bin record

variable (hn : (t.bins.map snd).Nodup)
include hn

theorem Realizing.addSplit (hr : record ∈ t.splits) (hnew : record ∉ arrived) :
    Realizing t (arrived ++ [record]) popped (s.addSplit record) where
  arrived_subset := append_subset.2 ⟨h.arrived_subset, by simpa using hr⟩
  popped_subset := fun r hp => mem_append_left _ (h.popped_subset hp)
  nodup := h.nodup
  inOrder := h.inOrder
  realized := h.realized
  leaf := h.leaf
  split := h.split
  orphan := by
    intro bin record'
    show lookup bin (Finmap.insert record.bin record s.mOrphanedSplits) = some record' ↔ _
    rw [StdMap.lookup_insert, mem_append, List.mem_singleton]
    split
    · next hb =>
      rw [Option.some.injEq]
      constructor
      · rintro rfl
        exact ⟨⟨.inr rfl, fun hp => hnew (h.popped_subset hp)⟩, hb.symm⟩
      · rintro ⟨⟨ha | rfl, -⟩, he⟩
        · exact splits_bin_injective hn hr (h.arrived_subset ha) (hb.symm.trans he.symm)
        · rfl
    · next hb =>
      rw [h.orphan]
      refine and_congr_left fun he => and_congr_left fun _ => (or_iff_left ?_).symm
      rintro rfl
      exact hb he.symm
  splittable := by
    intro bin
    show bin ∈ (if s.isLeaf record.bin then insert record.bin s.mSplittable else s.mSplittable) ↔
      s.isLeaf bin ∧ bin ∈ insert record.bin record s.mOrphanedSplits
    rw [Finmap.mem_insert]
    split
    · next hl =>
      rw [Finset.mem_insert, h.splittable, and_or_left]
      exact or_congr_left (and_iff_right_of_imp fun he => he ▸ hl).symm
    · next hl =>
      rw [h.splittable]
      refine and_congr_right fun hb => (or_iff_right ?_).symm
      rintro rfl
      exact hl hb
  machine := by
    intro bin machine
    have hroot := not_isChild_root hn hr
    have hother : ∀ r ∈ arrived, record.IsChild bin → (machine, bin) ≠ r.left ∧ (machine, bin) ≠ r.right := by
      intro r hra hc
      refine ⟨fun he => hnew ?_, fun he => hnew ?_⟩
      · exact splits_child_injective hn (h.arrived_subset hra) hr (.inl (congrArg snd he)) hc ▸ hra
      · exact splits_child_injective hn (h.arrived_subset hra) hr (.inr (congrArg snd he)) hc ▸ hra
    show lookup bin (insert record.right.2 record.right.1
      (insert record.left.2 record.left.1 s.mMachineMap)) = some machine ↔ _
    rw [StdMap.lookup_insert, StdMap.lookup_insert, exists_mem_snoc]
    have hpair : ∀ {pair : μ × β}, bin = pair.2 → (some pair.1 = some machine ↔ (machine, bin) = pair) := by
      rintro ⟨m, b⟩ rfl
      simp [eq_comm]
    have hold : record.IsChild bin → ¬ ((machine, bin) = t.bin ∨
        ∃ r ∈ arrived, (machine, bin) = r.left ∨ (machine, bin) = r.right) := by
      rintro hc (he | ⟨r, hra, he | he⟩)
      · exact hroot (congrArg snd he ▸ hc)
      · exact (hother r hra hc).1 he
      · exact (hother r hra hc).2 he
    have hne := splits_children_ne hn hr
    split
    · next hb =>
      rw [hpair hb, ← or_assoc, or_iff_right (hold (.inr hb)), or_iff_right]
      exact fun he => hne (congrArg snd he ▸ hb)
    split
    · next hnb hb =>
      rw [hpair hb, ← or_assoc, or_iff_right (hold (.inl hb)), or_iff_left]
      exact fun he => hnb (congrArg snd he)
    · next hnr hnl =>
      rw [← or_assoc, or_iff_left]
      · exact h.machine bin machine
      · rintro (he | he)
        · exact hnl (congrArg snd he)
        · exact hnr (congrArg snd he)

/-- A bin that an available split makes is no bin that was split. -/
theorem Realizing.notMem_child (ha : record ∈ arrived) (hp : record ∉ popped) (hl : s.isLeaf record.bin) {child : β}
    (hc : record.IsChild child) : record.bin ≠ child ∧ ∀ other ∈ popped, other.bin ≠ child := by
  have hmem := h.arrived_subset ha
  have hroot := not_isChild_root hn hmem
  refine ⟨?_, fun other ho he => ?_⟩
  · rintro rfl
    rcases ((h.leaf _).1 hl).1 with he | ⟨parent, hparent, hpc⟩
    · exact hroot (he ▸ hc)
    · obtain rfl := splits_child_injective hn hmem (h.arrived_subset (h.popped_subset hparent)) hc hpc
      exact hp hparent
  · obtain ⟨before, after, rfl⟩ := append_of_mem ho
    rcases h.inOrder _ _ _ rfl with he' | ⟨parent, hparent, hpc⟩
    · exact hroot (he' ▸ he ▸ hc)
    · have hparent' : parent ∈ before ++ other :: after := mem_append_left _ hparent
      obtain rfl := splits_child_injective hn hmem (h.arrived_subset (h.popped_subset hparent')) hc (he ▸ hpc)
      exact hp hparent'

theorem Realizing.realize (ha : record ∈ arrived) (hp : record ∉ popped) (hl : s.isLeaf record.bin) :
    Realizing t arrived (popped ++ [record]) (s.realize record.bin record) where
  arrived_subset := h.arrived_subset
  popped_subset := append_subset.2 ⟨h.popped_subset, by simpa using ha⟩
  nodup := nodup_append'.2 ⟨h.nodup, nodup_singleton _, by simpa using hp⟩
  inOrder := h.inOrder.snoc ((h.leaf _).1 hl).1
  machine := h.machine
  orphan := by
    intro bin record'
    show lookup bin (erase record.bin s.mOrphanedSplits) = some record' ↔ _
    rw [StdMap.lookup_erase, mem_append, List.mem_singleton, not_or]
    split
    · next hb =>
      refine iff_of_false nofun ?_
      rintro ⟨⟨ha', -, hne⟩, he⟩
      exact hne (splits_bin_injective hn (h.arrived_subset ha') (h.arrived_subset ha) (he.trans hb))
    · next hb =>
      rw [h.orphan, ← and_assoc]
      refine and_congr_left fun he => (and_iff_left ?_).symm
      rintro rfl
      exact hb he.symm
  realized := by
    intro bin record'
    show lookup bin (insert record.bin record s.mRealizedSplits) = some record' ↔ _
    rw [StdMap.lookup_insert, mem_append, List.mem_singleton]
    split
    · next hb =>
      rw [Option.some.injEq]
      constructor
      · rintro rfl
        exact ⟨.inr rfl, hb.symm⟩
      · rintro ⟨hr | rfl, he⟩
        · exact splits_bin_injective hn (h.arrived_subset ha)
            (h.arrived_subset (h.popped_subset hr)) (hb.symm.trans he.symm)
        · rfl
    · next hb =>
      rw [h.realized]
      refine and_congr_left fun he => (or_iff_left ?_).symm
      rintro rfl
      exact hb he.symm
  leaf := by
    intro bin
    have hchild := @notMem_child _ _ _ _ _ _ _ _ _ h hn ha hp hl bin
    show bin ∈ insert record.right.2 (insert record.left.2 (s.mLeafBins.erase record.bin)) ↔ _
    have hleaf : bin ∈ s.mLeafBins ↔ _ := h.leaf bin
    rw [Finset.mem_insert, Finset.mem_insert, Finset.mem_erase, hleaf, forall_mem_append,
      forall_mem_singleton, exists_mem_snoc]
    constructor
    · rintro (rfl | rfl | ⟨hne, hb, hns⟩)
      · have := hchild (.inr rfl)
        exact ⟨.inr (.inr (.inr rfl)), this.2, this.1⟩
      · have := hchild (.inl rfl)
        exact ⟨.inr (.inr (.inl rfl)), this.2, this.1⟩
      · exact ⟨hb.imp_right .inl, hns, Ne.symm hne⟩
    · rintro ⟨hb | hb | hb | hb, hns, hne⟩
      · exact .inr (.inr ⟨Ne.symm hne, .inl hb, hns⟩)
      · exact .inr (.inr ⟨Ne.symm hne, .inr hb, hns⟩)
      · exact .inr (.inl hb)
      · exact .inl hb
  split := by
    intro bin child
    show ((s.mSplits.insert record.bin record.left.2).insert record.bin record.right.2).contains bin child ↔ _
    rw [TwoWaySetMap.contains_insert, TwoWaySetMap.contains_insert, h.split, exists_mem_snoc]
    constructor
    · rintro (⟨rfl, hc⟩ | ⟨rfl, hc⟩ | hc)
      · exact .inr ⟨rfl, .inr hc⟩
      · exact .inr ⟨rfl, .inl hc⟩
      · exact .inl hc
    · rintro (hc | ⟨rfl, hc | hc⟩)
      · exact .inr (.inr hc)
      · exact .inr (.inl ⟨rfl, hc⟩)
      · exact .inl ⟨rfl, hc⟩
  splittable := by
    intro bin
    have hs := h.splittable bin
    show bin ∈ (if record.right.2 ∈ erase record.bin s.mOrphanedSplits then
        insert record.right.2 (if record.left.2 ∈ erase record.bin s.mOrphanedSplits then
          insert record.left.2 (s.mSplittable.erase record.bin) else s.mSplittable.erase record.bin)
      else (if record.left.2 ∈ erase record.bin s.mOrphanedSplits then
        insert record.left.2 (s.mSplittable.erase record.bin) else s.mSplittable.erase record.bin)) ↔
      bin ∈ insert record.right.2 (insert record.left.2 (s.mLeafBins.erase record.bin)) ∧
        bin ∈ erase record.bin s.mOrphanedSplits
    have hif : ∀ {c : Prop} [Decidable c] (b : β) (m : Finset β),
        bin ∈ (if c then insert b m else m) ↔ (c ∧ bin = b) ∨ bin ∈ m := by
      intro c _ b m
      split
      · next hc => rw [Finset.mem_insert, and_iff_right hc]
      · next hc => exact (or_iff_right fun hb => hc hb.1).symm
    have herase : bin ∈ erase record.bin s.mOrphanedSplits ↔ _ := mem_erase
    rw [hif, hif, Finset.mem_erase, hs, Finset.mem_insert, Finset.mem_insert, Finset.mem_erase, herase]
    constructor
    · rintro (⟨hc, rfl⟩ | ⟨hc, rfl⟩ | ⟨hne, hb, hor⟩)
      · exact ⟨.inl rfl, (mem_erase.1 hc)⟩
      · exact ⟨.inr (.inl rfl), (mem_erase.1 hc)⟩
      · exact ⟨.inr (.inr ⟨hne, hb⟩), hne, hor⟩
    · rintro ⟨rfl | rfl | hb, hor⟩
      · exact .inl ⟨mem_erase.2 hor, rfl⟩
      · exact .inr (.inl ⟨mem_erase.2 hor, rfl⟩)
      · exact .inr (.inr ⟨hb.1, hb.2, hor.2⟩)

/-! ## Runs -/

/-- Nothing is popped only where nothing is available. -/
theorem Realizing.popAvailableSplit : wp popAvailableSplit (fun split s' =>
      match split with
      | none => s' = s ∧ s.mSplittable = ∅
      | some record => Realizing t arrived (popped ++ [record]) s' ∧
          s'.mOrphanedSplits.keys.card < s.mOrphanedSplits.keys.card) (fun _ _ => False) s := by
  rw [SplitTree.popAvailableSplit, wp_bind, wp_get]
  cases hhead : (ascending s.mSplittable).head? with
  | none =>
    refine ⟨rfl, eq_empty_of_forall_notMem fun bin hbin => ?_⟩
    rw [head?_eq_none_iff] at hhead
    exact not_mem_nil (hhead ▸ mem_ascending.2 hbin)
  | some toSplit =>
    have hmem : toSplit ∈ s.mSplittable := mem_ascending.1 (mem_of_mem_head? hhead)
    obtain ⟨hleaf, horphan⟩ := (h.splittable toSplit).1 hmem
    obtain ⟨record, hrecord⟩ := StdMap.mem_keys_iff.1 (mem_keys.2 horphan)
    obtain ⟨⟨ha, hp⟩, rfl⟩ := (h.orphan _ _).1 hrecord
    dsimp only
    rw [hrecord]
    refine ⟨h.realize hn ha hp hleaf, ?_⟩
    refine card_lt_card ⟨fun bin hbin => ?_, fun hsub => ?_⟩
    · exact mem_keys.2 (mem_erase.1 (mem_keys.1 hbin)).2
    · exact (mem_erase.1 (mem_keys.1 (hsub (mem_keys.2 horphan)))).1 rfl

theorem Realizing.popAvailableSplits {n : ℕ} (hlimit : s.mOrphanedSplits.keys.card < n) :
    wp (popAvailableSplits n) (fun more s' =>
      Realizing t arrived (popped ++ more) s' ∧ s'.mSplittable = ∅) (fun _ _ => False) s := by
  induction n generalizing popped s with
  | zero => omega
  | succ n ih =>
    rw [popAvailableSplits, wp_bind]
    refine (h.popAvailableSplit hn).imp fun split s' hs => ?_
    cases split with
    | none =>
      obtain ⟨rfl, hempty⟩ := hs
      exact ⟨by simpa using h, hempty⟩
    | some record =>
      rw [wp_bind]
      refine (ih hs.1 (by omega)).imp fun more s'' hs' => ?_
      exact ⟨by simpa using hs'.1, hs'.2⟩

theorem Realizing.arriveAll (hdrained : s.mSplittable = ∅) {arrivals : List (SplitRecord β μ ν)}
    (hnodup : (arrived ++ arrivals).Nodup) (hsub : arrivals ⊆ t.splits) :
    wp (arriveAll arrivals) (fun more s' =>
      Realizing t (arrived ++ arrivals) (popped ++ more) s' ∧ s'.mSplittable = ∅) (fun _ _ => False) s := by
  induction arrivals generalizing arrived popped s with
  | nil => exact ⟨by simpa using h, hdrained⟩
  | cons record arrivals ih =>
    obtain ⟨hrecord, hsub⟩ := cons_subset.1 hsub
    have hnew : record ∉ arrived := fun hmem =>
      (nodup_append'.1 hnodup).2.2 hmem (.head _)
    rw [arriveAll, wp_bind, arrive, wp_bind, wp_modify, wp_bind, wp_get]
    refine ((h.addSplit hn hrecord hnew).popAvailableSplits hn (Nat.lt_succ_self _)).imp fun more s' hs => ?_
    rw [wp_bind]
    refine (ih hs.1 hs.2 (by simpa using hnodup) hsub).imp fun more' s'' hs' => ?_
    exact ⟨by simpa using hs'.1, hs'.2⟩

/-! ## What was popped -/

/-- In order, a split comes after all its ancestors. -/
theorem Realizing.ancestor_mem {before after : List (SplitRecord β μ ν)} (he : popped = before ++ record :: after)
    {ancestor : SplitRecord β μ ν} (ha : t.Ancestor ancestor record) : ancestor ∈ before := by
  have hparent : ∀ {before after record parent}, popped = before ++ record :: after →
      t.Parent parent record → parent ∈ before := by
    intro before after record parent he hp
    rcases h.inOrder _ _ _ he with hroot | ⟨other, hother, hc⟩
    · exact absurd (hroot ▸ hp.2.2) (not_isChild_root hn hp.1)
    · have hmem : other ∈ popped := he ▸ mem_append_left _ hother
      exact splits_child_injective hn (h.arrived_subset (h.popped_subset hmem)) hp.1 hc hp.2.2 ▸ hother
  induction ha using head_induction_on with
  | single hp => exact hparent he hp
  | head hp _ ih =>
    obtain ⟨l, l', rfl⟩ := append_of_mem ih
    exact mem_append_left _ (hparent (by simpa using he) hp)

/-- What is popped are the splits whose ancestors have arrived. -/
theorem Realizing.mem_popped (hdrained : s.mSplittable = ∅) :
    record ∈ popped ↔ record ∈ arrived ∧ ∀ ancestor, t.Ancestor ancestor record → ancestor ∈ arrived := by
  constructor
  · intro hr
    obtain ⟨before, after, he⟩ := append_of_mem hr
    refine ⟨h.popped_subset hr, fun a ha => h.popped_subset ?_⟩
    exact he ▸ mem_append_left _ (h.ancestor_mem hn he ha)
  · have havailable : ∀ {r}, r ∈ arrived → (r.bin = t.bin.2 ∨ ∃ p ∈ popped, p.IsChild r.bin) → r ∈ popped := by
      intro r hr hmade
      by_contra hp
      have hleaf : s.isLeaf r.bin := (h.leaf _).2 ⟨hmade, fun other ho he => hp <|
        splits_bin_injective hn (h.arrived_subset hr) (h.arrived_subset (h.popped_subset ho)) he.symm ▸ ho⟩
      have hmem := (h.splittable _).2 ⟨hleaf, h.mem_orphans.2 ⟨r, ⟨hr, hp⟩, rfl⟩⟩
      rw [hdrained] at hmem
      cases hmem
    rintro ⟨hr, hall⟩
    refine splits_induction (motive := fun r => r ∈ arrived → (∀ a, t.Ancestor a r → a ∈ arrived) →
      r ∈ popped) t ?_ ?_ record (h.arrived_subset hr) hr hall
    · exact fun r _ hroot hr _ => havailable hr (.inl hroot)
    · intro p r hp ih hr hall
      have hpop := ih (hall p (.single hp)) fun a ha => hall a (ha.tail hp)
      exact havailable hr (.inr ⟨p, hpop, hp.2.2⟩)

end

/-! ## What the split tree shows -/

/-- The split tree has the leaves, the parents, the children and the machines of the tree. -/
structure Shows (s : SplitTree β μ ν) (t : BinTree β μ ν) : Prop where
  leafBins : s.mLeafBins = t.leaves.toFinset
  children : ∀ bin left right, s.children bin = some (left, right) ↔
    ∃ record ∈ t.splits, record.bin = bin ∧ record.left.2 = left ∧ record.right.2 = right
  parentBin : ∀ bin, ∃ parent, s.parentBin bin = .ok parent ∧
    ∀ bin', parent = some bin' ↔ ∃ record ∈ t.splits, record.bin = bin' ∧ record.IsChild bin
  machineFor : ∀ pair ∈ t.bins, s.machineFor pair.2 = some pair.1

/-- The bins that the first ones split were made by splits before them. -/
theorem Realizing.closed (h : Realizing t arrived popped s) (hn : (t.bins.map snd).Nodup)
    {pre after : List (SplitRecord β μ ν)} (he : popped = pre ++ after) :
    Closed (pre.map SplitRecord.bin).toFinset t := by
  intro parent record hp hrecord
  obtain ⟨other, hother, hb⟩ := mem_map.1 (mem_toFinset.1 hrecord)
  have hmem : other ∈ popped := he ▸ mem_append_left _ hother
  obtain rfl := splits_bin_injective hn (h.arrived_subset (h.popped_subset hmem)) hp.2.1 hb
  obtain ⟨l, l', rfl⟩ := append_of_mem hother
  have hl := h.ancestor_mem hn (by simpa using he) (.single hp)
  exact mem_toFinset.2 (mem_map_of_mem (mem_append_left _ hl))

/-- The splits of the known tree are those that were popped. -/
theorem Realizing.mem_splits_known (h : Realizing t arrived popped s)
    (hn : (t.bins.map snd).Nodup) : record ∈ (t.known popped).splits ↔ record ∈ popped := by
  rw [known, mem_splits_prune (h.closed hn (append_nil popped).symm)]
  constructor
  · rintro ⟨hr, hb⟩
    obtain ⟨other, hother, hb⟩ := mem_map.1 (mem_toFinset.1 hb)
    exact splits_bin_injective hn (h.arrived_subset (h.popped_subset hother)) hr hb ▸ hother
  · exact fun hr => ⟨h.arrived_subset (h.popped_subset hr), mem_toFinset.2 (mem_map_of_mem hr)⟩

theorem Realizing.shows (h : Realizing t arrived popped s) (hn : (t.bins.map Prod.snd).Nodup) :
    Shows s (t.known popped) where
  leafBins := by
    ext bin
    have hknown : ((t.known popped).bins.map Prod.snd).Nodup := hn.sublist (t.bins_prune_sublist.map _)
    have hleaf : bin ∈ s.mLeafBins ↔ _ := h.leaf bin
    rw [hleaf, mem_toFinset, mem_leaves hknown, known, bin_prune]
    refine and_congr (or_congr_right ?_) ?_
    · exact exists_congr fun r => and_congr_left fun _ => (h.mem_splits_known hn).symm
    · exact forall_congr' fun r => imp_congr (h.mem_splits_known hn).symm Iff.rfl
  children := by
    intro bin left right
    have hlookup : s.children bin = (lookup bin s.mRealizedSplits).map fun it => (it.left.2, it.right.2) := by
      rw [SplitTree.children]
      split
      · rfl
      · next hkey =>
        cases hr : lookup bin s.mRealizedSplits with
        | none => rfl
        | some record =>
          obtain ⟨hmem, hb⟩ := (h.realized _ _).1 hr
          refine absurd (hasKey_iff.2 ⟨record.left.2, ?_⟩) hkey
          exact (h.split _ _).2 ⟨record, hmem, hb, .inl rfl⟩
    rw [hlookup, Option.map_eq_some_iff]
    refine exists_congr fun record => ?_
    rw [h.realized, h.mem_splits_known hn, and_assoc, Prod.mk.injEq]
  parentBin := by
    intro bin
    have hmade : ∀ bin', bin' ∈ s.mSplits.getKeys bin ↔
        ∃ record ∈ (t.known popped).splits, record.bin = bin' ∧ record.IsChild bin := by
      intro bin'
      rw [mem_getKeys, h.split]
      exact exists_congr fun r => and_congr_left fun _ => (h.mem_splits_known hn).symm
    rw [SplitTree.parentBin]
    split
    · next hvalue =>
      obtain ⟨bin', hb⟩ := hasValue_iff.1 hvalue
      obtain ⟨record, hr, rfl, hc⟩ := (h.split _ _).1 hb
      have hkeys : s.mSplits.getKeys bin = {record.bin} := by
        ext bin'
        rw [mem_getKeys, h.split, Finset.mem_singleton]
        constructor
        · rintro ⟨other, ho, rfl, hoc⟩
          exact congrArg SplitRecord.bin (splits_child_injective hn
            (h.arrived_subset (h.popped_subset ho)) (h.arrived_subset (h.popped_subset hr)) hoc hc)
        · rintro rfl
          exact ⟨record, hr, rfl, hc⟩
      rw [if_pos (by rw [hkeys, card_singleton])]
      refine ⟨_, rfl, fun bin' => ?_⟩
      rw [← hmade, hkeys, Finset.mem_singleton]
      show some record.bin = some bin' ↔ _
      rw [Option.some.injEq, eq_comm]
    · next hvalue =>
      refine ⟨none, rfl, fun bin' => iff_of_false nofun ?_⟩
      rw [← hmade]
      exact fun hb => hvalue (hasValue_iff.2 ⟨bin', mem_getKeys.1 hb⟩)
  machineFor := by
    intro pair hpair
    rw [mem_bins, known, bin_prune] at hpair
    refine (h.machine _ _).2 (hpair.imp_right ?_)
    rintro ⟨record, hr, hc⟩
    exact ⟨record, h.popped_subset ((h.mem_splits_known hn).1 hr), hc⟩

end

/-! ## The spines -/

variable {β μ ν γ : Type} [LinearOrder β] [Preorder ν] [DecidableLT ν]

/-- The loop of `MessagePipeline::splitBin` over `mSplitsToApply`, on one of its spines: the bins that
are replaced. -/
def applySplits (index : μ × β → γ) : List (SplitRecord β μ ν) → EStateM SpineError (SortingSpine ν γ) (List γ)
  | [] => return []
  | splitRecord :: mSplitsToApply => do
    let bin ← splitBin (index splitRecord.left) (index splitRecord.right)
      splitRecord.splitValue
    return bin :: (← applySplits index mSplitsToApply)

/-- The spine is that of the tree. -/
def IsSpine (index : μ × β → γ) (t : BinTree β μ ν) (spine : SortingSpine ν γ) : Prop :=
  spine.mSplits = t.entries index ∧ spine.mTopBin = t.topBin index

omit [LinearOrder β] in
theorem BinTree.SplitsInto.splitBin {i : μ × β → γ} {t t' : BinTree β μ ν}
    {record : SplitRecord β μ ν} {pair : μ × β} (h : SplitsInto i t t' record pair)
    {spine : SortingSpine ν γ} (hs : IsSpine i t spine) :
    wp (splitBin (i record.left) (i record.right) record.splitValue)
      (fun bin spine' => bin = i pair ∧ IsSpine i t' spine') (fun _ _ => False) spine := by
  obtain ⟨hsplits, htop⟩ := hs
  rw [SortingSpine.splitBin, wp_bind, wp_get, dif_pos (hsplits ▸ h.isNew)]
  refine ⟨?_, ?_, ?_⟩
  · rw [hsplits, htop]
    exact h.bin
  · show lowerPart _ spine.mSplits ++ _ = _
    rw [hsplits]
    exact h.entries
  · show topBinAt spine.mTopBin _ _ = _
    rw [hsplits, htop]
    exact h.topBin

variable {t : BinTree β μ ν} {arrived popped : List (SplitRecord β μ ν)} {s : SplitTree β μ ν}

theorem Realizing.applySplits (h : Realizing t arrived popped s) (ht : t.WellFormed)
    (i : μ × β → γ) {pre after : List (SplitRecord β μ ν)} (he : popped = pre ++ after)
    {spine : SortingSpine ν γ} (hs : IsSpine i (t.known pre) spine) :
    wp (applySplits i after) (fun bins spine' => IsSpine i (t.known popped) spine' ∧
      List.Forall₂ (fun record bin => ∃ pair ∈ t.bins, pair.2 = record.bin ∧ bin = i pair) after bins)
      (fun _ _ => False) spine := by
  induction after generalizing pre spine with
  | nil =>
    rw [append_nil] at he
    exact ⟨he ▸ hs, .nil⟩
  | cons record after ih =>
    have he' : popped = (pre ++ [record]) ++ after := by simpa using he
    have hmem : record ∈ popped := he ▸ mem_append_right _ (.head _)
    have hsub := h.arrived_subset (h.popped_subset hmem)
    have hinsert : ((pre ++ [record]).map SplitRecord.bin).toFinset =
        insert record.bin (pre.map SplitRecord.bin).toFinset := by
      ext bin
      simp
    have hnot : record.bin ∉ (pre.map SplitRecord.bin).toFinset := by
      intro hb
      obtain ⟨other, hother, hb⟩ := mem_map.1 (mem_toFinset.1 hb)
      have hpop : other ∈ popped := he ▸ mem_append_left _ hother
      obtain rfl := splits_bin_injective ht.nodup (h.arrived_subset (h.popped_subset hpop)) hsub hb
      have hnodup := h.nodup
      rw [he, nodup_append'] at hnodup
      exact hnodup.2.2 hother (.head _)
    have hsplits : ∃ pair ∈ t.bins, pair.2 = record.bin ∧
        SplitsInto i (t.known pre) (t.known (pre ++ [record])) record pair := by
      rw [known, known, hinsert]
      exact splits_prune ht.inside ht.nodup (h.closed ht.nodup he) (hinsert ▸ h.closed ht.nodup he') hsub hnot
    obtain ⟨pair, hpair, hb, hsplit⟩ := hsplits
    rw [DataTasks.applySplits, wp_bind]
    refine (hsplit.splitBin hs).imp fun bin spine' hbin => ?_
    rw [wp_bind]
    refine (ih he' hbin.2).imp fun bins spine'' hbins => ?_
    exact ⟨hbins.1, .cons ⟨pair, hpair, hb, hbin.1⟩ hbins.2⟩

/-- Splits of a tree of bins arrive in any order. What is popped are those whose ancestors have arrived,
each once and after its ancestors; the split tree shows the tree that they make, which is the whole tree once
all have arrived; and a spine that they are applied to replaces the bin of each, and assigns every value the
leaf of that tree that it comes to: a value of a sorted array where and only where its splits can be read. -/
theorem popped_and_routed {t : BinTree β μ ν} (ht : t.WellFormed)
    {arrivals : List (SplitRecord β μ ν)} (hn : arrivals.Nodup) (hsub : arrivals ⊆ t.splits) :
    ∃ popped s, (arriveAll arrivals).run (new t.bin.2 t.bin.1) = .ok popped s ∧
      (∀ record, record ∈ popped ↔ record ∈ arrivals ∧ ∀ ancestor, t.Ancestor ancestor record → ancestor ∈ arrivals) ∧
      popped.Nodup ∧
      (∀ before record after, popped = before ++ record :: after →
        ∀ ancestor, t.Ancestor ancestor record → ancestor ∈ before) ∧
      Shows s (t.known popped) ∧ (t.splits ⊆ arrivals → t.known popped = t) ∧
      ∀ {γ : Type} (index : μ × β → γ), ∃ bins spine,
        (applySplits index popped).run { mTopBin := index t.bin } = .ok bins spine ∧
        List.Forall₂ (fun record bin => ∃ pair ∈ t.bins, pair.2 = record.bin ∧ bin = index pair) popped bins ∧
        (∀ array, spine.assignBinsToUnsortedArray array = array.map fun value => index ((t.known popped).route value)) ∧
        ∀ {JOV Data : Type} [DecidableEq JOV] (e : Elements ν JOV Data) (array : ForaValueArray e),
          (spine.Orders array.values ∧ spine.Readable e array → spine.assignBinsToSortedArray e array =
            array.values.map fun value => index ((t.known popped).route value)) ∧
          (Function.Injective index → spine.assignBinsToSortedArray e array =
            (array.values.map fun value => index ((t.known popped).route value)) →
              spine.Orders array.values ∧ spine.Readable e array) := by
  have hrun := realizing_new.arriveAll ht.nodup rfl (t := t) hn hsub
  obtain ⟨popped, s, hpopped, h, hdrained⟩ := hrun.exists_run
  rw [nil_append, nil_append] at h
  refine ⟨popped, s, hpopped, fun record => h.mem_popped ht.nodup hdrained, h.nodup,
    fun before record after he ancestor ha => h.ancestor_mem ht.nodup he ha, h.shows ht.nodup,
    fun hall => ?_, fun index => ?_⟩
  · refine prune_eq_self fun record hr => mem_toFinset.2 (mem_map_of_mem ?_)
    exact (h.mem_popped ht.nodup hdrained).2 ⟨hall hr, fun a ha => by
      induction ha using head_induction_on with
      | single hp => exact hall hp.1
      | head hp => exact hall hp.1⟩
  · have hroot : IsSpine index (t.known []) ({ mTopBin := index t.bin } : SortingSpine ν _) := by
      cases t <;> exact ⟨rfl, rfl⟩
    obtain ⟨bins, spine, hbins, hspine, hall⟩ := (h.applySplits ht index (nil_append popped).symm hroot).exists_run
    have hfor : ∀ value, spine.binFor value = index ((t.known popped).route value) := by
      intro value
      rw [binFor, hspine.1, hspine.2]
      exact binAt_entries ht.inside.prune value
    have harray : ∀ array, spine.assignBinsToUnsortedArray array =
        array.map fun value => index ((t.known popped).route value) :=
      fun array => map_congr_left fun value _ => hfor value
    refine ⟨bins, spine, hbins, hall, harray, fun e array => ?_⟩
    rw [← harray]
    refine (spine.assignBinsToSortedArray_eq e array).imp_right fun hsorted hindex => ?_
    refine hsorted ?_ fun _ _ _ _ _ _ => lt_trans
    rw [hspine.1, hspine.2]
    have hbinsNodup : (t.known popped).bins.Nodup := ht.nodup.of_map.sublist t.bins_prune_sublist
    exact (hbinsNodup.map hindex).sublist (entries_sublist index _)

/-- Numbers of one type. -/
def numbers : Elements ℕ Unit ℕ where
  ptr := id
  jov _ := ()
  typeHash _ := 0
  predicate _ a b := a < b
  lt_iff a b := by simp

/-- A bin is split at 10, and what lies above it at 20; the second split arrives first. A sorted array is assigned
the three leaves. -/
theorem popped_and_routed_two : ∃ popped s, (SplitTree.arriveAll [⟨3, (0, 4), (1, 5), 20⟩, ⟨1, (0, 2), (1, 3), 10⟩]).run
      (SplitTree.new 1 0 : SplitTree ℕ ℕ ℕ) = .ok popped s ∧
    Shows s (.node (0, 1) 10 (.leaf (0, 2)) (.node (1, 3) 20 (.leaf (0, 4)) (.leaf (1, 5)))) ∧
    ∃ bins spine, (applySplits Prod.snd popped).run { mTopBin := 1 } = .ok bins spine ∧
      spine.assignBinsToSortedArray numbers ⟨[9, 10, 20], true, by simp [numbers]⟩ = [2, 4, 5] := by
  have ht : (node (0, 1) 10 (.leaf (0, 2)) (.node (1, 3) 20 (.leaf (0, 4)) (.leaf (1, 5))) :
      BinTree ℕ ℕ ℕ).WellFormed := ⟨by decide, by simp [BinTree.Inside]⟩
  have hn : ([⟨3, (0, 4), (1, 5), 20⟩, ⟨1, (0, 2), (1, 3), 10⟩] : List (SplitRecord ℕ ℕ ℕ)).Nodup := by
    simp
  obtain ⟨popped, s, hrun, -, -, -, hshows, hknown, hroute⟩ := popped_and_routed ht hn (by simp [splits, bin])
  rw [hknown (by simp [splits, bin])] at hshows hroute
  obtain ⟨bins, spine, hbins, -, -, hsorted⟩ := hroute Prod.snd
  refine ⟨popped, s, hrun, hshows, bins, spine, hbins, ?_⟩
  refine ((hsorted numbers _).1 ⟨SortingSpine.orders_of_sorted ?_ (by decide), ?_⟩).trans (by decide)
  · exact fun _ _ _ _ _ _ h h' => not_lt.2 ((not_lt.1 h').trans (not_lt.1 h))
  · exact SortingSpine.readable_of_jov numbers _ fun _ _ _ _ => rfl

/-- A bin is split at the 5 of a type, and a sorted array of a type with a greater hash holds a 3: it belongs into
the right bin and is assigned the left one. -/
theorem not_popped_and_routed : ∃ spine : SortingSpine (Bool ×ₗ ℤ) ℕ,
    (applySplits Prod.snd [⟨1, (0, 2), (0, 3), toLex (false, 5)⟩]).run { mTopBin := 1 } = .ok [1] spine ∧
    spine.assignBinsToSortedArray twoTypes ⟨[toLex (true, 3)], true, by simp⟩ = [2] ∧
    (node (0, 1) (toLex (false, 5)) (.leaf (0, 2)) (.leaf (0, 3)) : BinTree ℕ ℕ (Bool ×ₗ ℤ)).route (toLex (true, 3)) =
      (0, 3) :=
  ⟨{ mSplits := [(toLex (false, 5), 2)], mTopBin := 3 }, rfl, by
    simp [assignBinsToSortedArray, assignWith, predicateFor,
      twoTypes], by decide⟩

end DataTasks
