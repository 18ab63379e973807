import Ufora.NativeCode.Merging

/-!
# Collapsing linear blocks

`collapseLinearBlocks` decides once which blocks to merge and then merges one after another, each into the
block that the flow graph names by then. `Pending` is what the graph and the blocks still to be merged have
to do with each other at any time, and `Kept` are the blocks whose code is not lost with the last block of
a cycle of merged blocks.
-/

open Ordered List Finset TwoWaySetMap

namespace NativeCodeFlattened

variable {S : Signature}

/-- A block that can be merged: it is internal, and the only edge to it is the only one of another block. -/
structure Sole (edges : TwoWaySetMap NativeBlockID NativeBlockID) (s t : NativeBlockID) : Prop where
  edge : edges.contains s t
  source : ∀ s', edges.contains s' t → s' = s
  target : ∀ t', edges.contains s t' → t' = t
  isInternal : t.isInternal

theorem card_eq_one_and {α : Type*} [DecidableEq α] {s : Finset α} {a : α} (ha : a ∈ s) :
    s.card = 1 ↔ ∀ b ∈ s, b = a := by
  rw [card_eq_one]
  constructor
  · rintro ⟨c, rfl⟩ b hb
    rw [Finset.mem_singleton] at ha hb
    rw [hb, ha]
  · exact fun h => ⟨a, eq_singleton_iff_unique_mem.2 ⟨ha, h⟩⟩

theorem head?_ascending {α : Type*} [LinearOrder α] {s : Finset α} {a : α} (hcard : s.card = 1) :
    (ascending s).head? = some a ↔ a ∈ s := by
  obtain ⟨b, rfl⟩ := card_eq_one.1 hcard
  have hlist : ascending ({b} : Finset α) = [b] := by
    have hlen : (ascending ({b} : Finset α)).length = 1 := length_ascending _
    obtain ⟨c, hc⟩ := length_eq_one_iff.1 hlen
    have hmem : c ∈ ascending ({b} : Finset α) := by rw [hc]; exact .head _
    rw [hc, Finset.mem_singleton.1 (mem_ascending.1 hmem)]
  rw [hlist, Finset.mem_singleton]
  exact Option.some_inj.trans eq_comm

/-- The blocks to merge. -/
theorem mem_collapse {edges : TwoWaySetMap NativeBlockID NativeBlockID} {t : NativeBlockID} :
    t ∈ collapse edges ↔ ∃ s, s ≠ t ∧ Sole edges s t := by
  have hfold : ∀ (l : List (NativeBlockID × Finset NativeBlockID)) (acc : Finset NativeBlockID),
      t ∈ l.foldl (addLinear edges) acc ↔
      t ∈ acc ∨ ∃ e ∈ l, e.2.card = 1 ∧ t ∈ e.2 ∧ t ≠ e.1 ∧ (edges.getKeys t).card = 1 ∧ t.isInternal := by
    intro l
    induction l with
    | nil => simp
    | cons e l ih =>
      intro acc
      obtain ⟨key, values⟩ := e
      rw [foldl_cons, ih, exists_mem_cons_iff, ← or_assoc]
      refine or_congr_left ?_
      unfold addLinear
      split
      · next hcard =>
        have hhead := fun a => head?_ascending (a := a) hcard
        split
        · next b hb =>
          have hmem := (hhead b).1 hb
          have hiff : t ∈ values ↔ t = b := by
            rw [← hhead t, hb, Option.some_inj, eq_comm]
          rw [hiff]
          split_ifs <;> grind
        · next hnone =>
          have hiff : t ∉ values := fun ht => by
            rw [(hhead t).2 ht] at hnone
            cases hnone
          tauto
      · tauto
  rw [collapse, hfold]
  simp only [notMem_empty, false_or]
  constructor
  · rintro ⟨⟨key, values⟩, he, hcard, ht, hne, hkeys, hinternal⟩
    have hvalues : edges.getValues key = values := by
      rw [getValues, StdMap.get, StdMap.mem_ascendingEntries.1 he]
      rfl
    rw [← hvalues] at hcard ht
    refine ⟨key, hne.symm, mem_getValues.1 ht, fun s' hs' => ?_, fun t' ht' => ?_, hinternal⟩
    · exact (card_eq_one_and (mem_getKeys.2 (mem_getValues.1 ht))).1 hkeys s' (mem_getKeys.2 hs')
    · exact (card_eq_one_and ht).1 hcard t' (mem_getValues.2 ht')
  · rintro ⟨s, hne, hsole⟩
    have hmem := mem_getValues.2 hsole.edge
    refine ⟨(s, edges.getValues s), ?_, (card_eq_one_and hmem).2 fun t' ht' =>
      hsole.target t' (mem_getValues.1 ht'), hmem, hne.symm,
      (card_eq_one_and (mem_getKeys.2 hsole.edge)).2 fun s' hs' =>
        hsole.source s' (mem_getKeys.1 hs'), hsole.isInternal⟩
    rw [StdMap.mem_ascendingEntries, getValues, StdMap.get]
    rw [getValues, StdMap.get] at hmem
    cases hl : Finmap.lookup s edges.mKeysToValues with
    | some values => rfl
    | none =>
      rw [hl] at hmem
      exact absurd hmem (notMem_empty t)

/-- The edges are those of the blocks. -/
def IsFlow (blocks : Blocks S) (edges : TwoWaySetMap NativeBlockID NativeBlockID) : Prop :=
  ∀ a b, edges.contains a b ↔ ∃ block, Finmap.lookup a blocks = some block ∧ ∃ j ∈ block.term.jumpPoints, j.block = b

/-- The blocks and the edges while the blocks of a set are still to be merged. -/
structure Pending (blocks : Blocks S) (edges : TwoWaySetMap NativeBlockID NativeBlockID)
    (C : Set NativeBlockID) : Prop where
  definedOnce : DefinedOnce blocks
  flow : IsFlow blocks edges
  jumps : ∀ id block, Finmap.lookup id blocks = some block → ∀ j ∈ block.term.jumpPoints,
    ∃ target, Finmap.lookup j.block blocks = some target ∧ j.args.length = target.args.length
  sole : ∀ t ∈ C, ∃ s, Sole edges s t

/-- The blocks whose code stays: those that are not merged and, from there on, what is merged into them. -/
inductive Kept (blocks : Blocks S) (edges : TwoWaySetMap NativeBlockID NativeBlockID) (C : Set NativeBlockID) :
    NativeBlockID → Prop
  | root {id : NativeBlockID} {block : Block S} (hblock : Finmap.lookup id blocks = some block) (hC : id ∉ C) :
    Kept blocks edges C id
  | merged {s t : NativeBlockID} (hs : Kept blocks edges C s) (hedge : edges.contains s t) (hC : t ∈ C) :
    Kept blocks edges C t

/-- What a round of the loop does: `t` is merged into `s`. -/
structure Merged (blocks : Blocks S) (edges : TwoWaySetMap NativeBlockID NativeBlockID) (t : NativeBlockID)
    (blocks' : Blocks S) (edges' : TwoWaySetMap NativeBlockID NativeBlockID) (s : NativeBlockID)
    (sourceB targB merged : Block S) : Prop where
  edge : edges.contains s t
  source : Finmap.lookup s blocks = some sourceB
  target : Finmap.lookup t blocks = some targB
  merge : merge sourceB targB = some merged
  lookup : ∀ id, Finmap.lookup id blocks' =
    if id = t then none else if id = s then some merged else Finmap.lookup id blocks
  contains : ∀ a b, edges'.contains a b ↔ a ≠ t ∧ b ≠ t ∧ if a = s then edges.contains t b else edges.contains a b

variable {blocks blocks' : Blocks S} {edges edges' : TwoWaySetMap NativeBlockID NativeBlockID}
  {C : Set NativeBlockID} {s t : NativeBlockID} {sourceB targB merged : Block S}

theorem mem_of_head? {α : Type*} {l : List α} {a : α} (h : l.head? = some a) : a ∈ l := mem_of_mem_head? h

/-- A round that returns. -/
theorem collapseBlock_eq_some (h : collapseBlock (blocks, edges) t = some (blocks', edges')) :
    ∃ s sourceB targB merged, Merged blocks edges t blocks' edges' s sourceB targB merged := by
  unfold collapseBlock at h
  simp only [Option.bind_eq_bind, Option.bind_eq_some_iff, Option.pure_def, Option.some.injEq, Prod.mk.injEq] at h
  obtain ⟨s, hs, sourceB, hsource, targB, htarget, merged, hmerge, rfl, rfl⟩ := h
  have hedge : edges.contains s t := mem_getKeys.1 (mem_ascending.1 (mem_of_head? hs))
  refine ⟨s, sourceB, targB, merged, hedge, hsource, htarget, hmerge, fun id => ?_, fun a b => ?_⟩
  · rw [StdMap.lookup_erase, StdMap.lookup_insert]
  · rw [contains_dropValue, contains_dropKey, contains_update]
    tauto

/-! ## One round -/

theorem IsFlow.contains_iff (hflow : IsFlow blocks edges) {a b : NativeBlockID} {block : Block S}
    (hblock : Finmap.lookup a blocks = some block) :
    edges.contains a b ↔ ∃ p ∈ block.term.jumps, p.1 = b := by
  rw [hflow]
  constructor
  · rintro ⟨block', hblock', j, hj, rfl⟩
    obtain rfl := Option.some.inj (hblock.symm.trans hblock')
    exact ⟨_, mem_map.2 ⟨j, hj, rfl⟩, rfl⟩
  · rintro ⟨p, hp, rfl⟩
    obtain ⟨j, hj, rfl⟩ := mem_map.1 hp
    exact ⟨block, hblock, j, hj, rfl⟩

/-- The definitions of a merge define arguments of the block that is merged. -/
theorem lets_sublist (args : List NativeVariable) (inputs : List (Input S)) :
    ((lets (args.zip inputs)).map Prod.fst).Sublist args := by
  induction args generalizing inputs with
  | nil => exact .refl _
  | cons a args ih =>
    cases inputs with
    | nil => exact nil_sublist _
    | cons i inputs =>
      rw [zip_cons_cons, lets, filterMap_cons]
      cases i.isVariable a with
      | true => exact (ih inputs).cons a
      | false => exact (ih inputs).cons_cons a

section
variable (h : Merged blocks edges t blocks' edges' s sourceB targB merged)
include h

/-- What the merged block refers to. -/
theorem Merged.refers : ∃ j, sourceB.term.getJump = some j ∧ j.args.length = targB.args.length ∧
    merged.args = sourceB.args ∧ merged.defs = sourceB.defs ++ lets (targB.args.zip j.args) ++ targB.defs ∧
    merged.term.dontWriteAnyVariables = targB.term.dontWriteAnyVariables ∧
    merged.term.jumps = targB.term.jumps ∧ ∀ c, c ∈ merged.conts ↔ c ∈ sourceB.conts ∨ c ∈ targB.conts := by
  obtain ⟨j, hj, hlen, hargs, hdefs, hterm⟩ := merge_eq_some h.merge
  have hjumps := congrArg Term.jumps hterm
  have hconts := congrArg Term.conts hterm
  simp only [Term.dontWriteAnyVariables, Term.jumps_mapDump, Term.conts_mapDump] at hjumps hconts
  refine ⟨j, hj, hlen, hargs, hdefs, hterm, hjumps, fun c => ?_⟩
  have hsource : sourceB.term.conts = [] := by
    rw [Merging.getJump_eq_some.1 hj]
    rfl
  have hlets : ∀ ps : List (NativeVariable × Input S), (lets ps).flatMap (fun d => d.2.conts) = [] := by
    intro ps
    rw [flatMap_eq_nil_iff]
    intro d hd
    obtain ⟨p, -, hp⟩ := mem_filterMap.1 hd
    split at hp
    · cases hp
    · obtain rfl := Option.some.inj hp
      rfl
  simp only [Block.conts, hdefs, hconts, hsource, flatMap_append, hlets, append_nil, mem_append]
  tauto

theorem Merged.defined_sublist : merged.defined.Sublist (sourceB.defined ++ targB.defined) := by
  obtain ⟨j, -, -, hargs, hdefs, -⟩ := h.refers
  rw [Block.defined, hargs, hdefs, map_append, map_append, Block.defined, Block.defined, append_assoc, append_assoc]
  refine .append (.refl _) (.append (.refl _) ?_)
  exact .append (lets_sublist ..) (.refl _)

variable {id s' t' : NativeBlockID} {block : Block S}

theorem Merged.lookup_of_ne (hs : id ≠ s)
    (hblock : Finmap.lookup id blocks' = some block) : id ≠ t ∧ Finmap.lookup id blocks = some block := by
  rw [h.lookup, if_neg hs] at hblock
  split at hblock
  · cases hblock
  · next ht => exact ⟨ht, hblock⟩

theorem Merged.lookup_source (hblock : Finmap.lookup s blocks' = some block) : s ≠ t ∧ block = merged := by
  rw [h.lookup, if_pos (rfl : s = s)] at hblock
  split at hblock
  · cases hblock
  · next ht => exact ⟨ht, (Option.some.inj hblock).symm⟩

theorem Merged.definedOnce (hd : DefinedOnce blocks) : DefinedOnce blocks' := by
  have hacross : ∀ id block, id ≠ s → Finmap.lookup id blocks' = some block → s ≠ t →
      ∀ v ∈ merged.defined, v ∉ block.defined := by
    intro id block hne hblock _ v hv hmem
    obtain ⟨ht, hblock⟩ := h.lookup_of_ne hne hblock
    rcases mem_append.1 (h.defined_sublist.subset hv) with hv | hv
    · exact hd.across s sourceB id block h.source hblock hne.symm v hv hmem
    · exact hd.across t targB id block h.target hblock ht.symm v hv hmem
  refine ⟨fun id block hblock => ?_, fun id block id' block' hblock hblock' hne v hv hv' => ?_⟩
  · rcases eq_or_ne id s with rfl | hs
    · obtain ⟨hst, rfl⟩ := h.lookup_source hblock
      refine h.defined_sublist.nodup (nodup_append.2 ⟨hd.within _ _ h.source, hd.within _ _ h.target, ?_⟩)
      rintro a ha b hb rfl
      exact hd.across id sourceB t targB h.source h.target hst a ha hb
    · exact hd.within id block (h.lookup_of_ne hs hblock).2
  · rcases eq_or_ne id s with rfl | hs
    · obtain ⟨hst, rfl⟩ := h.lookup_source hblock
      exact hacross id' block' hne.symm hblock' hst v hv hv'
    · rcases eq_or_ne id' s with rfl | hs'
      · obtain ⟨hst, rfl⟩ := h.lookup_source hblock'
        exact hacross id block hs hblock hst v hv' hv
      · exact hd.across id block id' block' (h.lookup_of_ne hs hblock).2 (h.lookup_of_ne hs' hblock').2 hne v hv hv'

theorem Merged.isFlow (hflow : IsFlow blocks edges) (hsole : Sole edges s t) : IsFlow blocks' edges' := by
  intro a b
  rw [h.contains]
  rcases eq_or_ne a t with rfl | hat
  · simp [h.lookup]
  rcases eq_or_ne a s with rfl | has
  · have hmerged : Finmap.lookup a blocks' = some merged := by rw [h.lookup, if_neg hat, if_pos rfl]
    obtain ⟨-, -, -, -, -, -, hjumps, -⟩ := h.refers
    have hb : edges.contains t b → b ≠ t := by
      rintro hedge rfl
      exact hat (hsole.source b hedge).symm
    simp only [if_pos, hat, ne_eq, not_false_eq_true, true_and, hmerged, Option.some.injEq, exists_eq_left']
    rw [and_iff_right_of_imp hb, hflow.contains_iff h.target, ← hjumps]
    simp [Term.jumps]
  · have hb : edges.contains a b → b ≠ t := by
      rintro hedge rfl
      exact has (hsole.source a hedge)
    simp only [if_neg has, hat, ne_eq, not_false_eq_true, true_and, h.lookup, if_false]
    rw [and_iff_right_of_imp hb, hflow]

/-- The block that the target is merged into is the only one before it. -/
theorem Merged.sole (hp : Pending blocks edges C) (ht : t ∈ C) : Sole edges s t := by
  obtain ⟨s', hs'⟩ := hp.sole t ht
  rwa [← hs'.source s h.edge] at hs'

/-- A block that is still to be merged, with the block before it by then. -/
theorem Merged.sole_of_ne (hsole : Sole edges s t) (hsole' : Sole edges s' t')
    (hne : t' ≠ t) : Sole edges' (if s' = t then s else s') t' := by
  have hsource : s' ≠ s := by
    rintro rfl
    exact hne (hsole.target t' hsole'.edge)
  split
  · next heq =>
    subst heq
    refine ⟨(h.contains s t').2 ⟨hsource.symm, hne, ?_⟩, fun a ha => ?_, fun b hb => ?_, hsole'.isInternal⟩
    · rw [if_pos rfl]
      exact hsole'.edge
    · obtain ⟨hat, -, hedge⟩ := (h.contains a t').1 ha
      by_contra has
      rw [if_neg has] at hedge
      exact hat (hsole'.source a hedge)
    · obtain ⟨-, -, hedge⟩ := (h.contains s b).1 hb
      rw [if_pos rfl] at hedge
      exact hsole'.target b hedge
  · next hst =>
    refine ⟨(h.contains s' t').2 ⟨hst, hne, ?_⟩, fun a ha => ?_, fun b hb => ?_, hsole'.isInternal⟩
    · rw [if_neg hsource]
      exact hsole'.edge
    · obtain ⟨-, -, hedge⟩ := (h.contains a t').1 ha
      split at hedge
      · exact absurd (hsole'.source t hedge).symm hst
      · exact hsole'.source a hedge
    · obtain ⟨-, -, hedge⟩ := (h.contains s' b).1 hb
      rw [if_neg hsource] at hedge
      exact hsole'.target b hedge

theorem Merged.pending (hp : Pending blocks edges (insert t C)) (ht : t ∉ C) : Pending blocks' edges' C := by
  have hsole := h.sole hp (Set.mem_insert t C)
  have hflow := h.isFlow hp.flow hsole
  obtain ⟨-, -, -, hargs, -, -, hjumps, -⟩ := h.refers
  refine ⟨h.definedOnce hp.definedOnce, hflow, fun id block hblock j hj => ?_, fun t' ht' => ?_⟩
  · have hkeep : ∀ target, Finmap.lookup j.block blocks = some target → j.args.length = target.args.length →
        ∃ target, Finmap.lookup j.block blocks' = some target ∧ j.args.length = target.args.length := by
      intro target htarget hlen
      have hne : j.block ≠ t := ((h.contains id j.block).1 ((hflow id j.block).2 ⟨block, hblock, j, hj, rfl⟩)).2.1
      rw [h.lookup, if_neg hne]
      split
      · next heq =>
        rw [heq, h.source] at htarget
        obtain rfl := Option.some.inj htarget
        exact ⟨merged, rfl, hargs ▸ hlen⟩
      · exact ⟨target, htarget, hlen⟩
    rcases eq_or_ne id s with rfl | hs
    · obtain ⟨-, rfl⟩ := h.lookup_source hblock
      have hmem : (j.block, j.args) ∈ targB.term.jumps := hjumps ▸ mem_map.2 ⟨j, hj, rfl⟩
      obtain ⟨j', hj', he⟩ := mem_map.1 hmem
      obtain ⟨target, htarget, hlen⟩ := hp.jumps t targB h.target j' hj'
      obtain ⟨hb, ha⟩ := Prod.mk.inj he
      rw [hb] at htarget
      rw [ha] at hlen
      exact hkeep target htarget hlen
    · obtain ⟨target, htarget, hlen⟩ := hp.jumps id block (h.lookup_of_ne hs hblock).2 j hj
      exact hkeep target htarget hlen
  · obtain ⟨s', hsole'⟩ := hp.sole t' (Set.mem_insert_of_mem t ht')
    exact ⟨_, h.sole_of_ne hsole hsole' fun he => ht (he ▸ ht')⟩

/-! ## The code that stays -/

/-- The last block of a cycle of merged blocks does not stay. -/
theorem Merged.ne_of_kept (hsole : Sole edges s t) (hk : Kept blocks edges (insert t C) id) (hst : s = t) : id ≠ t := by
  induction hk with
  | root _ hC => exact fun he => hC (he ▸ Set.mem_insert t C)
  | @merged x y _ hedge _ ih =>
    rintro rfl
    exact ih ((hsole.source x hedge).trans hst)

section

variable (hp : Pending blocks edges (insert t C))
include hp

/-- Code that stays is still there, and stays, in the block it was merged into. -/
theorem Merged.kept (ht : t ∉ C) (hk : Kept blocks edges (insert t C) id) :
    Kept blocks' edges' C (if id = t then s else id) ∧ (id = t → s ≠ t) := by
  have hsole := h.sole hp (Set.mem_insert t C)
  induction hk with
  | @root id block hblock hC =>
    have hne : id ≠ t := fun he => hC (he ▸ Set.mem_insert t C)
    rw [if_neg hne]
    refine ⟨?_, fun he => absurd he hne⟩
    rcases eq_or_ne id s with rfl | hs
    · exact @Kept.root _ _ _ _ _ merged (by rw [h.lookup, if_neg hne, if_pos rfl]) fun h => hC (.inr h)
    · exact @Kept.root _ _ _ _ _ block (by rw [h.lookup, if_neg hne, if_neg hs]; exact hblock) fun h => hC (.inr h)
  | @merged x y hx hedge hC ih =>
    rcases eq_or_ne y t with rfl | hne
    · obtain rfl := hsole.source x hedge
      have hxy : x ≠ y := fun he => h.ne_of_kept hsole hx he he
      rw [if_neg hxy] at ih
      rw [if_pos rfl]
      exact ⟨ih.1, fun _ => hxy⟩
    · have hyC : y ∈ C := hC.resolve_left hne
      rw [if_neg hne]
      refine ⟨?_, fun he => absurd he hne⟩
      rcases eq_or_ne x t with rfl | hxt
      · rw [if_pos rfl] at ih
        refine .merged ih.1 ((h.contains s y).2 ⟨ih.2 rfl, hne, ?_⟩) hyC
        rw [if_pos rfl]
        exact hedge
      · rw [if_neg hxt] at ih
        refine .merged ih.1 ((h.contains x y).2 ⟨hxt, hne, ?_⟩) hyC
        rw [if_neg ?_]
        · exact hedge
        · rintro rfl
          exact hne (hsole.target y hedge)

/-- Code that stays afterwards stayed before. -/
theorem Merged.kept_back (hk : Kept blocks' edges' C id) : Kept blocks edges (insert t C) id := by
  have hsole := h.sole hp (Set.mem_insert t C)
  induction hk with
  | @root id block hblock hC =>
    rcases eq_or_ne id s with rfl | hs
    · obtain ⟨hst, -⟩ := h.lookup_source hblock
      exact .root h.source fun hmem => hmem.elim hst hC
    · obtain ⟨ht, hblock⟩ := h.lookup_of_ne hs hblock
      exact .root hblock fun hmem => hmem.elim ht hC
  | @merged x y hx hedge hC ih =>
    obtain ⟨-, -, hedge⟩ := (h.contains x y).1 hedge
    split at hedge
    · next he =>
      rw [he] at ih
      exact .merged (.merged ih h.edge (Set.mem_insert t C)) hedge (Set.mem_insert_of_mem t hC)
    · exact .merged ih hedge (Set.mem_insert_of_mem t hC)

/-- The continuations of the code that stays. -/
theorem Merged.conts_back (hk : Kept blocks' edges' C id) (hblock : Finmap.lookup id blocks' = some block)
    {c : Cont S} (hc : c ∈ block.conts) :
    ∃ x b, Kept blocks edges (insert t C) x ∧ Finmap.lookup x blocks = some b ∧ c ∈ b.conts := by
  have hk' := h.kept_back hp hk
  rcases eq_or_ne id s with rfl | hs
  · obtain ⟨-, rfl⟩ := h.lookup_source hblock
    obtain ⟨-, -, -, -, -, -, -, hconts⟩ := h.refers
    rcases (hconts c).1 hc with hc | hc
    · exact ⟨id, sourceB, hk', h.source, hc⟩
    · exact ⟨t, targB, .merged hk' h.edge (Set.mem_insert t C), h.target, hc⟩
  · exact ⟨id, block, hk', (h.lookup_of_ne hs hblock).2, hc⟩

theorem Merged.conts_forward (ht : t ∉ C)
    (hk : Kept blocks edges (insert t C) id) (hblock : Finmap.lookup id blocks = some block)
    {c : Cont S} (hc : c ∈ block.conts) :
    ∃ x b, Kept blocks' edges' C x ∧ Finmap.lookup x blocks' = some b ∧ c ∈ b.conts := by
  obtain ⟨hk', hst⟩ := h.kept hp ht hk
  obtain ⟨-, -, -, -, -, -, -, hconts⟩ := h.refers
  rcases eq_or_ne id t with rfl | hne
  · rw [if_pos rfl] at hk'
    obtain rfl := Option.some.inj (hblock.symm.trans h.target)
    refine ⟨s, merged, hk', ?_, (hconts c).2 (.inr hc)⟩
    rw [h.lookup, if_neg (hst rfl), if_pos rfl]
  · rw [if_neg hne] at hk'
    rcases eq_or_ne id s with rfl | hs
    · obtain rfl := Option.some.inj (hblock.symm.trans h.source)
      exact ⟨id, merged, hk', by rw [h.lookup, if_neg hne, if_pos rfl], (hconts c).2 (.inl hc)⟩
    · exact ⟨id, block, hk', by rw [h.lookup, if_neg hne, if_neg hs]; exact hblock, hc⟩

end

/-- The continuations that stay lead to blocks that are not merged. -/
def ContsStay (blocks : Blocks S) (edges : TwoWaySetMap NativeBlockID NativeBlockID) (C : Set NativeBlockID) : Prop :=
  ∀ id, Kept blocks edges C id → ∀ block, Finmap.lookup id blocks = some block → ∀ c ∈ block.conts,
    c.block ∉ C ∧ ∃ target, Finmap.lookup c.block blocks = some target ∧ target.args.length = 1

theorem Merged.contsStay (hp : Pending blocks edges (insert t C)) (hconts : ContsStay blocks edges (insert t C)) :
    ContsStay blocks' edges' C := by
  intro id hk block hblock c hc
  obtain ⟨x, b, hx, hb, hcb⟩ := h.conts_back hp hk hblock hc
  obtain ⟨hC, target, htarget, hlen⟩ := hconts x hx b hb c hcb
  obtain ⟨-, -, -, hargs, -⟩ := h.refers
  have hne : c.block ≠ t := fun he => hC (he ▸ Set.mem_insert t C)
  refine ⟨fun hmem => hC (Set.mem_insert_of_mem t hmem), ?_⟩
  rw [h.lookup, if_neg hne]
  split
  · next he =>
    rw [he, h.source] at htarget
    obtain rfl := Option.some.inj htarget
    exact ⟨merged, rfl, hargs ▸ hlen⟩
  · exact ⟨target, htarget, hlen⟩

omit h in
/-- The code that stays is never left. -/
theorem Pending.closed (hp : Pending blocks edges C) (hconts : ContsStay blocks edges C) :
    Closed blocks {id | Kept blocks edges C id} where
  present := by
    rintro id hk
    cases hk with
    | root hblock _ => exact ⟨_, hblock⟩
    | merged hs hedge hC =>
      obtain ⟨s', hsole⟩ := hp.sole id hC
      obtain ⟨block, hblock, j, hj, rfl⟩ := (hp.flow s' id).1 hsole.edge
      obtain ⟨target, htarget, -⟩ := hp.jumps s' block hblock j hj
      exact ⟨target, htarget⟩
  jumps := by
    intro id hk block hblock j hj
    obtain ⟨target, htarget, -⟩ := hp.jumps id block hblock j hj
    by_cases hC : j.block ∈ C
    · exact .merged hk ((hp.flow id j.block).2 ⟨block, hblock, j, hj, rfl⟩) hC
    · exact .root htarget hC
  conts := by
    intro id hk block hblock c hc
    obtain ⟨hC, target, htarget, -⟩ := hconts id hk block hblock c hc
    exact .root htarget hC

/-- A round does not change what the code does. -/
theorem Merged.preserves (hp : Pending blocks edges (insert t C)) (hconts : ContsStay blocks edges (insert t C)) :
    Preserves blocks blocks' := by
  have hsole := h.sole hp (Set.mem_insert t C)
  have hclosed := hp.closed hconts
  have hexternal : ∀ id block, id.isInternal = false → Finmap.lookup id blocks = some block →
      id ∈ {id | Kept blocks edges (insert t C) id} ∧ id ≠ t := by
    intro id block hid hblock
    have hC : id ∉ insert t C := by
      intro hmem
      obtain ⟨s', hs'⟩ := hp.sole id hmem
      rw [hs'.isInternal] at hid
      cases hid
    exact ⟨.root hblock hC, fun he => hC (he ▸ Set.mem_insert t C)⟩
  by_cases hst : s = t
  · refine preserves_of_agree hclosed (fun id block hid hblock => (hexternal id block hid hblock).1) fun id hk => ?_
    have hne := h.ne_of_kept hsole hk hst
    rw [h.lookup, if_neg hne, if_neg (hst ▸ hne)]
  · obtain ⟨j, hj, hlen, hargs, hdefs, hterm, -⟩ := h.refers
    have hmem : j ∈ sourceB.term.jumpPoints := by
      rw [Merging.getJump_eq_some.1 hj]
      exact .head _
    have hmerging : Merging blocks blocks' {id | Kept blocks edges (insert t C) id} s t sourceB targB j :=
      { definedOnce := hp.definedOnce
        closed := hclosed
        ne := hst
        source := h.source
        target := h.target
        jump := hj
        block := hsole.target j.block ((hp.flow s j.block).2 ⟨sourceB, h.source, j, hmem, rfl⟩)
        length := hlen
        only := fun id _ block hblock j' hj' ht =>
          hsole.source id ((hp.flow id t).2 ⟨block, hblock, j', hj', ht⟩)
        conts := fun id hk block hblock c hc he =>
          (hconts id hk block hblock c hc).1 (he ▸ Set.mem_insert t C)
        others := fun id _ hs ht => by rw [h.lookup, if_neg ht, if_neg hs]
        merged := ⟨merged, by rw [h.lookup, if_neg hst, if_pos rfl], hargs, hdefs, hterm⟩ }
    exact hmerging.preserves hexternal

/-- The block before another one ends in a jump. -/
def JumpBefore (blocks : Blocks S) (edges : TwoWaySetMap NativeBlockID NativeBlockID) (t : NativeBlockID) : Prop :=
  ∃ s block j, edges.contains s t ∧ Finmap.lookup s blocks = some block ∧ block.term.getJump = some j

theorem Merged.getJump_iff : (∃ j, merged.term.getJump = some j) ↔ ∃ j, targB.term.getJump = some j := by
  obtain ⟨-, -, -, -, -, hterm, -⟩ := h.refers
  have hiff : ∀ term : Term S (Input S),
      (∃ j, term.dontWriteAnyVariables.getJump = some j) ↔ ∃ j, term.getJump = some j := by
    intro term
    rw [Term.dontWriteAnyVariables, Term.getJump_mapDump]
    simp
  rw [← hiff, ← hiff targB.term, hterm]

/-- A round leaves the terminators before the other blocks to be merged. -/
theorem Merged.jumpBefore_iff (hsole : Sole edges s t) (hsole' : Sole edges s' t')
    (hne : t' ≠ t) : JumpBefore blocks' edges' t' ↔ JumpBefore blocks edges t' := by
  have hnew := h.sole_of_ne hsole hsole' hne
  have hsource : s' ≠ s := by
    rintro rfl
    exact hne (hsole.target t' hsole'.edge)
  by_cases hst : s' = t
  · subst hst
    rw [if_pos rfl] at hnew
    have hmerged : Finmap.lookup s blocks' = some merged := by rw [h.lookup, if_neg hsource.symm, if_pos rfl]
    constructor
    · rintro ⟨x, block, j, hx, hblock, hj⟩
      obtain rfl := hnew.source x hx
      obtain rfl := Option.some.inj (hmerged.symm.trans hblock)
      obtain ⟨j', hj'⟩ := h.getJump_iff.1 ⟨j, hj⟩
      exact ⟨s', targB, j', hsole'.edge, h.target, hj'⟩
    · rintro ⟨x, block, j, hx, hblock, hj⟩
      obtain rfl := hsole'.source x hx
      obtain rfl := Option.some.inj (hblock.symm.trans h.target)
      obtain ⟨j', hj'⟩ := h.getJump_iff.2 ⟨j, hj⟩
      exact ⟨s, merged, j', hnew.edge, hmerged, hj'⟩
  · rw [if_neg hst] at hnew
    have hsame : Finmap.lookup s' blocks' = Finmap.lookup s' blocks := by rw [h.lookup, if_neg hst, if_neg hsource]
    constructor
    · rintro ⟨x, block, j, hx, hblock, hj⟩
      obtain rfl := hnew.source x hx
      exact ⟨x, block, j, hsole'.edge, hsame ▸ hblock, hj⟩
    · rintro ⟨x, block, j, hx, hblock, hj⟩
      obtain rfl := hsole'.source x hx
      exact ⟨x, block, j, hnew.edge, hsame ▸ hblock, hj⟩

end

/-- A round returns where the block before ends in a jump. -/
theorem collapseBlock_isSome (hp : Pending blocks edges C) (ht : t ∈ C) (hj : JumpBefore blocks edges t) :
    ∃ r, collapseBlock (blocks, edges) t = some r := by
  obtain ⟨s, sourceB, j, hedge, hsource, hj⟩ := hj
  obtain ⟨s', hsole⟩ := hp.sole t ht
  obtain rfl := hsole.source s hedge
  have hmem : j ∈ sourceB.term.jumpPoints := by
    rw [Merging.getJump_eq_some.1 hj]
    exact .head _
  obtain ⟨targB, htarget, hlen⟩ := hp.jumps s sourceB hsource j hmem
  rw [hsole.target j.block ((hp.flow s j.block).2 ⟨sourceB, hsource, j, hmem, rfl⟩)] at htarget
  obtain ⟨merged, hmerged⟩ := merge_isSome hj hlen
  have hkeys : (edges.getKeys t).card = 1 :=
    (card_eq_one_and (mem_getKeys.2 hedge)).2 fun x hx => hsole.source x (mem_getKeys.1 hx)
  have hhead := (head?_ascending (a := s) hkeys).2 (mem_getKeys.2 hedge)
  unfold collapseBlock
  simp only [hhead, hsource, htarget, hmerged, Option.bind_eq_bind, Option.bind_some, Option.pure_def]
  exact ⟨_, rfl⟩

/-! ## The whole loop -/

theorem setOf_mem_cons (t : NativeBlockID) (l : List NativeBlockID) : {x | x ∈ t :: l} = insert t {x | x ∈ l} := by
  ext x
  simp

/-- The loop, where every block before a block to be merged ends in a jump and the continuations that stay do not
lead to such a block. -/
theorem foldlM_collapseBlock {l : List NativeBlockID} (hl : l.Nodup) : ∀ {blocks : Blocks S}
    {edges : TwoWaySetMap NativeBlockID NativeBlockID}, Pending blocks edges {x | x ∈ l} →
    ContsStay blocks edges {x | x ∈ l} → (∀ t ∈ l, JumpBefore blocks edges t) →
    ∃ r, l.foldlM collapseBlock (blocks, edges) = some r ∧ Pending r.1 r.2 ∅ ∧ ContsStay r.1 r.2 ∅ ∧
      Preserves blocks r.1 := by
  induction l with
  | nil =>
    intro blocks edges hp hconts _
    have hempty : {x : NativeBlockID | x ∈ ([] : List NativeBlockID)} = ∅ := by simp
    rw [hempty] at hp hconts
    exact ⟨_, rfl, hp, hconts, .refl _⟩
  | cons t l ih =>
    intro blocks edges hp hconts hjumps
    obtain ⟨ht, hl⟩ := nodup_cons.1 hl
    rw [setOf_mem_cons] at hp hconts
    obtain ⟨⟨blocks', edges'⟩, hr⟩ := collapseBlock_isSome hp (Set.mem_insert ..) (hjumps t (.head _))
    obtain ⟨s, sourceB, targB, merged, h⟩ := collapseBlock_eq_some hr
    have hsole := h.sole hp (Set.mem_insert ..)
    obtain ⟨r, hfold, hpr, hcr, hpreserves⟩ := ih hl (h.pending hp ht) (h.contsStay hp hconts) fun t' ht' => by
      obtain ⟨s', hsole'⟩ := hp.sole t' (Set.mem_insert_of_mem _ ht')
      exact (h.jumpBefore_iff hsole hsole' fun he => ht (he ▸ ht')).2 (hjumps t' (.tail _ ht'))
    exact ⟨r, by rw [foldlM_cons, hr]; exact hfold, hpr, hcr, (h.preserves hp hconts).trans hpreserves⟩

/-- A loop that returns. -/
theorem of_foldlM_collapseBlock {l : List NativeBlockID} (hl : l.Nodup) : ∀ {blocks : Blocks S}
    {edges : TwoWaySetMap NativeBlockID NativeBlockID} {r}, Pending blocks edges {x | x ∈ l} →
    l.foldlM collapseBlock (blocks, edges) = some r → (∀ t ∈ l, JumpBefore blocks edges t) ∧
      ((∃ id block, ∃ c ∈ block.conts, Kept blocks edges {x | x ∈ l} id ∧ Finmap.lookup id blocks = some block ∧
        (c.block ∈ l ∨ Finmap.lookup c.block blocks = none)) → ¬ TargetsPresent r.1) := by
  induction l with
  | nil =>
    intro blocks edges r _ hr
    obtain rfl := Option.some.inj hr
    refine ⟨nofun, ?_⟩
    rintro ⟨id, block, c, hc, -, hblock, hmem | hnone⟩ hpresent
    · cases hmem
    · obtain ⟨target, htarget, -⟩ := hpresent.conts id block hblock c hc
      rw [hnone] at htarget
      cases htarget
  | cons t l ih =>
    intro blocks edges r hp hr
    obtain ⟨ht, hl⟩ := nodup_cons.1 hl
    rw [setOf_mem_cons] at hp ⊢
    rw [foldlM_cons] at hr
    obtain ⟨⟨blocks', edges'⟩, hround, hrest⟩ := Option.bind_eq_some_iff.1 hr
    obtain ⟨s, sourceB, targB, merged, h⟩ := collapseBlock_eq_some hround
    have hsole := h.sole hp (Set.mem_insert ..)
    obtain ⟨hjumps, hmissing⟩ := ih hl (h.pending hp ht) hrest
    obtain ⟨j, hj, -⟩ := h.refers
    refine ⟨fun t' ht' => ?_, ?_⟩
    · rcases List.mem_cons.1 ht' with rfl | ht'
      · exact ⟨s, sourceB, j, h.edge, h.source, hj⟩
      · obtain ⟨s', hsole'⟩ := hp.sole t' (Set.mem_insert_of_mem _ ht')
        exact (h.jumpBefore_iff hsole hsole' fun he => ht (he ▸ ht')).1 (hjumps t' ht')
    · rintro ⟨id, block, c, hc, hk, hblock, hmem⟩
      obtain ⟨x, b, hx, hb, hcb⟩ := h.conts_forward hp ht hk hblock hc
      refine hmissing ⟨x, b, c, hcb, hx, hb, ?_⟩
      rcases hmem with hmem | hnone
      · rcases List.mem_cons.1 hmem with he | hmem
        · exact .inr (by rw [h.lookup, if_pos he])
        · exact .inl hmem
      · refine .inr ?_
        rw [h.lookup]
        split
        · rfl
        · split
          · next he =>
            rw [he, h.source] at hnone
            cases hnone
          · exact hnone

end NativeCodeFlattened
