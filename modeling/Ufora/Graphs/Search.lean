import Ufora.Graphs.GraphCycles
import Ufora.Lib.Digraph

/-!
# The search for depths

`updateCycleDepth` settles the depths of the cycles above one whose depth is wrong. Where it finds
nothing, all depths are right but those that were not its concern, and where it finds a cycle, only
depths of what it is about to collapse, and of its parents, are wrong (`wp_updateCycleDepth`). It ends
if all cycles between cycles pass through its first one.
-/

open Ordered Effect List TwoWaySetMap StdMap Finmap Relation

namespace GraphCycles

/-! ## Depths -/

section
variable (E : TwoWaySetMap ℤ ℤ) (D : StdMap ℤ ℤ)

/-- One cycle leads to another. -/
abbrev Leads (E : TwoWaySetMap ℤ ℤ) : ℤ → ℤ → Prop := ReflTransGen E.contains

/-- One more than the largest depth of a successor. -/
def depth (cycle : ℤ) : ℤ := (ascending (E.getValues cycle)).foldl
    (fun curDepth subcycle => max curDepth (D.get subcycle + 1)) 0

/-- The depth of a cycle is right, or it is one of those that may be too large. -/
def Settled (spared : ℤ → Prop) (cycle : ℤ) : Prop := D.get cycle = depth E D cycle ∨
    spared cycle ∧ depth E D cycle ≤ D.get cycle

variable {E D} {D' : StdMap ℤ ℤ} {cycle : ℤ} {spared : ℤ → Prop}

theorem foldl_max_le {l : List ℤ} {f : ℤ → ℤ} {a d : ℤ} :
    l.foldl (fun cur b => max cur (f b)) a ≤ d ↔ a ≤ d ∧ ∀ b ∈ l, f b ≤ d := by
  induction l generalizing a with
  | nil => simp
  | cons b l ih => rw [foldl_cons, ih, max_le_iff, forall_mem_cons, and_assoc]

/-- The depth is the least number that is not negative and above the depths of all successors. -/
theorem depth_le_iff {d : ℤ} : depth E D cycle ≤ d ↔
    0 ≤ d ∧ ∀ b, E.contains cycle b → D.get b + 1 ≤ d := by
  unfold depth
  rw [foldl_max_le]
  simp only [mem_ascending, mem_getValues]

theorem depth_nonneg : 0 ≤ depth E D cycle := (depth_le_iff.1 le_rfl).1

/-- A cycle has a depth above those of its successors. -/
theorem lt_depth {b : ℤ} (h : E.contains cycle b) :
    D.get b < depth E D cycle := (depth_le_iff.1 le_rfl).2 b h

/-- Some successor has the largest depth, where none is negative. -/
theorem exists_depth {b : ℤ} (hb : E.contains cycle b) (h0 : 0 ≤ D.get b) :
    ∃ b, E.contains cycle b ∧ depth E D cycle = D.get b + 1 := by
  by_contra hno
  have hle : depth E D cycle ≤ depth E D cycle - 1 := by
    refine depth_le_iff.2 ⟨?_, fun d hd => ?_⟩
    · have hlt := @lt_depth _ D _ _ hb
      omega
    · have hlt := @lt_depth _ D _ _ hd
      have hne : depth E D cycle ≠ D.get d + 1 := fun he => hno ⟨d, hd, he⟩
      omega
  omega

/-- The depth of a cycle is about its successors. -/
theorem depth_congr {CE' : TwoWaySetMap ℤ ℤ} {c' : ℤ} (h : ∀ b, E.contains cycle b ↔ CE'.contains c' b)
    (hd : ∀ b, E.contains cycle b → D.get b = D'.get b) :
    depth E D cycle = depth CE' D' c' := by
  refine eq_of_forall_ge_iff fun d => ?_
  rw [depth_le_iff, depth_le_iff]
  refine and_congr_right fun _ => forall_congr' fun b => ?_
  rw [← h b]
  refine forall_congr' fun hb => ?_
  rw [hd b hb]

/-- `depthForCycle` finds the depth where the successors have depths. -/
theorem depthForCycle_eq (h : ∀ b, E.contains cycle b → b ∈ D.keys) :
    depthForCycle E D cycle = some (depth E D cycle) := by
  have hloop : ∀ (l : List ℤ) (a : ℤ), (∀ b ∈ l, b ∈ D.keys) →
      l.foldlM (fun curDepth subcycle => (lookup subcycle D).map fun depth =>
        max curDepth (depth + 1)) a =
      some (l.foldl (fun curDepth subcycle => max curDepth (D.get subcycle + 1)) a) := by
    intro l
    induction l with
    | nil => exact fun _ _ => rfl
    | cons b l ih =>
      intro a hl
      rw [forall_mem_cons] at hl
      obtain ⟨d, hd⟩ := mem_keys_iff.1 hl.1
      have hget : D.get b = d := by
        rw [StdMap.get, hd]
        rfl
      rw [foldlM_cons, hd, foldl_cons, hget]
      exact ih _ hl.2
  exact hloop _ 0 fun b hb => h b (mem_ascending.1 hb)

variable (h : Settled E D spared cycle)
include h

/-- Whether a cycle is settled is about its successors, and their depths. -/
theorem Settled.of_eq {CE' : TwoWaySetMap ℤ ℤ} {spared' : ℤ → Prop}
    (hch : ∀ b, E.contains cycle b ↔ CE'.contains cycle b) (hc : D.get cycle = D'.get cycle)
    (hd : ∀ b, E.contains cycle b → D.get b = D'.get b)
    (hs : spared cycle → spared' cycle) : Settled CE' D' spared' cycle := by
  unfold Settled at h ⊢
  rw [← hc, ← depth_congr hch hd]
  exact h.imp id (And.imp hs id)

theorem Settled.congr (hc : D.get cycle = D'.get cycle)
    (hd : ∀ b, E.contains cycle b → D.get b = D'.get b) :
    Settled E D' spared cycle := h.of_eq (fun _ => Iff.rfl) hc hd id

/-- The depth of a settled cycle is above those of its successors. -/
theorem Settled.lt {b : ℤ} (hb : E.contains cycle b) : D.get b < D.get cycle := by
  rcases h with h | ⟨-, h⟩
  · exact h ▸ lt_depth hb
  · exact (lt_depth hb).trans_le h

end

/-! ## The search -/

variable {E : TwoWaySetMap ℤ ℤ} {cycles : Finset ℤ} {spared : ℤ → Prop}

/-- The edges join different cycles. -/
structure Joins (E : TwoWaySetMap ℤ ℤ) (cycles : Finset ℤ) : Prop where
  left : ∀ a b, E.contains a b → a ∈ cycles
  right : ∀ a b, E.contains a b → b ∈ cycles
  ne : ∀ a b, E.contains a b → a ≠ b

/-- Every cycle has a depth, and the stack has cycles that exist and lead to the first one. -/
structure Searching (E : TwoWaySetMap ℤ ℤ) (cycles : Finset ℤ) (root : ℤ) (s : Search) : Prop where
  keys : s.mCycleDepth.keys = cycles
  live : ∀ c ∈ s.ioStack, c ∈ cycles
  leads : ∀ c ∈ s.ioStack, Leads E c root

/-- A parent goes onto the stack. -/
theorem Searching.push (hj : Joins E cycles) {root c p : ℤ} {s : Search}
    (h : Searching E cycles root s) (hc : c ∈ s.ioStack) (hp : E.contains p c) :
    Searching E cycles root { s with ioStack := s.ioStack ++ [p] } := by
  refine ⟨h.keys, fun x hx => ?_, fun x hx => ?_⟩ <;> rcases mem_append.1 hx with hx | hx
  · exact h.live x hx
  · exact mem_singleton.1 hx ▸ hj.left p c hp
  · exact h.leads x hx
  · exact mem_singleton.1 hx ▸ .head hp (h.leads c hc)

theorem head?_of_initial {β : Type} {l m : List β} {b : β} (h : l <+: m) (hl : l.head? = some b) :
    m.head? = some b := by
  obtain ⟨t, rfl⟩ := h
  rw [head?_append, hl]
  rfl

theorem dropLast_prefix_dropLast {β : Type} {l m : List β} (h : l <+: m) : l.dropLast <+: m.dropLast := by
  obtain ⟨t, rfl⟩ := h
  cases t with
  | nil => rw [append_nil]
  | cons a t =>
    rw [dropLast_append_of_ne_nil (cons_ne_nil a t)]
    exact (List.dropLast_prefix l).trans (prefix_append _ _)

variable (E spared) in
/-- The cycles that are not settled are among those of `pending`. -/
def SettledBut (pending : ℤ → Prop) (D : StdMap ℤ ℤ) : Prop :=
  ∀ x, pending x ∨ Settled E D spared x

variable (E) in
/-- A cycle, and its parents where its depth is about to change. -/
def Unsettled (c : ℤ) (D : StdMap ℤ ℤ) (x : ℤ) : Prop :=
  x = c ∨ E.contains x c ∧ D.get c ≠ depth E D c

variable (E) in
/-- What is about to be collapsed, and its parents. -/
def Collapsing (stack : List ℤ) (x : ℤ) : Prop := x ∈ stack ∨ ∃ y ∈ stack, E.contains x y

section
variable {pending : ℤ → Prop} {c : ℤ} {D : StdMap ℤ ℤ}
  (h : SettledBut E spared (fun x => pending x ∨ Unsettled E c D x) D)
include h

/-- Once its depth is set, only the parents of a cycle are unsettled. -/
theorem SettledBut.set : SettledBut E spared
    (fun x => pending x ∨ E.contains x c) (insert c (depth E D c) D) := by
  intro x
  by_cases hx : E.contains x c
  · exact .inl (.inr hx)
  · have hchild : ∀ b, E.contains x b → D.get b =
        StdMap.get (insert c (depth E D c) D) b := by
      intro b hb
      rw [get_insert, if_neg (show b ≠ c from fun he => hx (he ▸ hb))]
    by_cases hxc : x = c
    · right
      left
      rw [← depth_congr (fun _ => Iff.rfl) hchild, get_insert, if_pos hxc, hxc]
    · rcases h x with (hp | he | hp) | hs
      · exact .inl (.inl hp)
      · exact absurd he hxc
      · exact absurd hp.1 hx
      · refine .inr (hs.congr ?_ hchild)
        rw [get_insert, if_neg hxc]

/-- A depth that does not change is right. -/
theorem SettledBut.same (hc : depth E D c = D.get c) :
    SettledBut E spared pending (insert c (depth E D c) D) := by
  have hget : ∀ b, D.get b = StdMap.get (insert c (depth E D c) D) b := by
    intro b
    rw [get_insert, hc]
    split
    · next he => rw [he]
    · rfl
  intro x
  rcases h x with (hp | he | hp) | hs
  · exact .inl hp
  · exact .inr (Settled.congr (.inl (he ▸ hc.symm)) (hget x) fun b _ => hget b)
  · exact absurd hc.symm hp.2
  · exact .inr (hs.congr (hget x) fun b _ => hget b)

end

/-- The search. It ends if every parent of a cycle other than `root` has a lower rank or is `root`. What it finds is
a cycle through `root`. -/
theorem wp_updateCycleDepth (hj : Joins E cycles) {root : ℤ} {rank : ℤ → ℕ} {bound : ℕ}
    (hbound : ∀ c, rank c ≤ bound) (hrank : ∀ p c, E.contains p c → p ≠ root → c ≠ root → rank p < rank c)
    {n : ℕ} {c : ℤ} {s : Search} {pending : ℤ → Prop} (h : Searching E cycles root s)
    (hhead : s.ioStack.head? = some root) (hlast : s.ioStack.getLast? = some c)
    (hother : 1 < s.ioStack.length → ∃ y ∈ s.ioStack, y ≠ root)
    (hround : 1 < s.ioStack.length → TransGen E.contains c root)
    (hlimit : (if c ≠ root then rank c + 2 else if 1 < s.ioStack.length then 1 else bound + 3) ≤ n)
    (hs : SettledBut E spared
      (fun x => pending x ∨ Unsettled E c s.mCycleDepth x) s.mCycleDepth) :
    wp (updateCycleDepth E n c) (fun found s' => if found = true then
          Searching E cycles root s' ∧
            ((∃ y ∈ s'.ioStack, y ≠ root) ∧ TransGen E.contains root root) ∧
            s.ioStack <+: s'.ioStack ∧ SettledBut E spared
              (fun x => pending x ∨ Collapsing E s'.ioStack x) s'.mCycleDepth
        else Searching E cycles root s' ∧ s.ioStack.dropLast <+: s'.ioStack ∧
          SettledBut E spared pending s'.mCycleDepth)
      (fun _ _ => False) s := by
  induction n generalizing c s pending with
  | zero =>
    split at hlimit
    · omega
    · split at hlimit <;> omega
  | succ n ih =>
    have hmem : c ∈ s.ioStack := mem_of_mem_getLast? hlast
    unfold updateCycleDepth
    rw [wp_bind, wp_get, wp_ite]
    split
    · next hfound =>
      rw [wp_pure, if_pos rfl]
      have hroot : c = root := Option.some.inj ((hfound.2.trans hlast).symm.trans hhead)
      refine ⟨h, ⟨hother hfound.1, hroot ▸ hround hfound.1⟩, prefix_rfl, fun x => ?_⟩
      rcases hs x with (hx | hx | hx) | hx
      · exact .inl (.inl hx)
      · exact .inl (.inr (.inl (hx ▸ hmem)))
      · exact .inl (.inr (.inr ⟨c, hmem, hx.1⟩))
      · exact .inr hx
    · next hnot =>
      have hdepths : ∀ b, E.contains c b → b ∈ s.mCycleDepth.keys := fun b hb => h.keys ▸ hj.right c b hb
      simp only [wp_bind, wp_get, depthForCycle_eq hdepths, wp_modify, wp_ite, wp_pure]
      have hset : Searching E cycles root
          ⟨insert c (depth E s.mCycleDepth c) s.mCycleDepth, s.ioStack⟩ := by
        refine ⟨?_, h.live, h.leads⟩
        rw [keys_insert_of_mem (h.keys ▸ h.live c hmem)]
        exact h.keys
      split
      · next hsame => exact ⟨hset, dropLast_prefix _, hs.same hsame⟩
      · next hchanged =>
        have hloop := wp_anyM (E := fun _ _ => False) (p := fun parentCycle => do
            modify fun s : Search => { s with ioStack := s.ioStack ++ [parentCycle] }
            updateCycleDepth E n parentCycle)
          (P := fun s' => Searching E cycles root s' ∧
            ((∃ y ∈ s'.ioStack, y ≠ root) ∧ TransGen E.contains root root) ∧ s.ioStack <+: s'.ioStack ∧
            SettledBut E spared
              (fun x => pending x ∨ Collapsing E s'.ioStack x) s'.mCycleDepth)
          (fun l s' => (∀ p ∈ l, E.contains p c) ∧ Searching E cycles root s' ∧
              s.ioStack <+: s'.ioStack ∧ SettledBut E spared (fun x => pending x ∨ x ∈ l) s'.mCycleDepth)
          (fun p l s' hs' => ?_) (ascending (E.getKeys c))
          (s := ⟨insert c (depth E s.mCycleDepth c) s.mCycleDepth, s.ioStack⟩) ?_
        · refine hloop.imp fun found s' hs' => ?_
          cases found with
          | true => exact hs'
          | false =>
            obtain ⟨-, hsearch, hpre, hsettled⟩ := hs'
            refine ⟨⟨hsearch.keys, fun x hx => hsearch.live x (mem_of_mem_dropLast hx),
              fun x hx => hsearch.leads x (mem_of_mem_dropLast hx)⟩, dropLast_prefix_dropLast hpre, fun x => ?_⟩
            exact (hsettled x).imp (fun hx => hx.resolve_right not_mem_nil) id
        · obtain ⟨hl, hsearch, hpre, hsettled⟩ := hs'
          rw [forall_mem_cons] at hl
          have hc : c ∈ s'.ioStack := hpre.subset hmem
          have hparent : SettledBut E spared (fun x => (pending x ∨ x ∈ l) ∨
              Unsettled E p s'.mCycleDepth x) s'.mCycleDepth := by
            intro x
            rcases hsettled x with (hx | hx) | hx
            · exact .inl (.inl (.inl hx))
            · rcases mem_cons.1 hx with hx | hx
              · exact .inl (.inr (.inl hx))
              · exact .inl (.inl (.inr hx))
            · exact .inr hx
          rw [wp_bind, wp_modify]
          refine (ih (hsearch.push hj hc hl.1) (head?_of_initial (hpre.trans (prefix_append _ _)) hhead)
            getLast?_concat (fun _ => ?_) (fun _ => .head' hl.1 (hsearch.leads c hc)) ?_ hparent).imp
            fun found s'' hs'' => ?_
          · by_cases hroot : c = root
            · exact ⟨p, mem_append_right _ (mem_singleton_self p), hroot ▸ hj.ne p c hl.1⟩
            · exact ⟨c, mem_append_left _ hc, hroot⟩
          · have hlen : 1 < (s'.ioStack ++ [p]).length := by
              rw [length_append]
              exact Nat.lt_add_of_pos_left (length_pos_of_mem hc)
            rw [if_pos hlen]
            by_cases hroot : c = root
            · have hshort : ¬ 1 < s.ioStack.length := fun hlt =>
                hnot ⟨hlt, by rw [hhead, hlast, hroot]⟩
              rw [if_neg (not_not.2 hroot), if_neg hshort] at hlimit
              have hp := hbound p
              rw [if_pos (hroot ▸ hj.ne p c hl.1)]
              omega
            · rw [if_pos hroot] at hlimit
              split
              · next hp =>
                have hlt := hrank p c hl.1 hp hroot
                omega
              · omega
          · cases found with
            | true =>
              obtain ⟨hsearch', hother', hpre', hsettled'⟩ := hs''
              have hpre'' := hpre.trans ((prefix_append _ _).trans hpre')
              refine ⟨hsearch', hother', hpre'', fun x => (hsettled' x).imp (fun hx => ?_) id⟩
              rcases hx with (hx | hx) | hx
              · exact .inl hx
              · exact .inr (.inr ⟨c, hpre''.subset hmem, hl.2 x hx⟩)
              · exact .inr hx
            | false =>
              obtain ⟨hsearch', hpre', hsettled'⟩ := hs''
              refine ⟨hl.2, hsearch', hpre.trans ?_, hsettled'⟩
              rwa [dropLast_concat] at hpre'
        · refine ⟨fun p hp => mem_getKeys.1 (mem_ascending.1 hp), hset, prefix_rfl, fun x => ?_⟩
          refine (hs.set x).imp (Or.imp id fun hx => ?_) id
          exact mem_ascending.2 (mem_getKeys.2 hx)

end GraphCycles
