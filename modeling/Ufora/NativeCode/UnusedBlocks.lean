import Ufora.NativeCode.LinearBlocks

/-!
# Removing unused blocks

`removeUnusedBlocks` finds the blocks that the external blocks lead to, by jumps and by continuations, and
drops the others. With `collapseLinearBlocks` this is when the two passes keep what the code does.
-/

open Ordered Fuel Finset Option StdMap NativeCodeFlattened.BlockFlowVisitor

namespace NativeCodeFlattened

variable {S : Signature} {blocks : Blocks S} {vis : BlockFlowVisitor} {s : Search} {id b : NativeBlockID}

/-! ## The search -/

theorem mem_foldl_insert {reachable : Finset NativeBlockID} (l : List NativeBlockID) (toCheck : Finset NativeBlockID) :
    b ∈ l.foldl (fun toCheck b => if b ∉ reachable then insert b toCheck else toCheck) toCheck ↔
      b ∈ toCheck ∨ b ∈ l ∧ b ∉ reachable := by
  induction l generalizing toCheck with
  | nil => simp
  | cons a l ih =>
    rw [List.foldl_cons, ih, List.mem_cons]
    by_cases ha : a ∈ reachable
    · rw [if_neg (not_not.2 ha)]
      grind
    · rw [if_pos ha, mem_insert]
      grind

/-- One block leads to another one. -/
def Leads (vis : BlockFlowVisitor) (a b : NativeBlockID) : Prop :=
  vis.edges.contains a b ∨ vis.continuationEdges.contains a b

theorem Search.mem_visitBlock : b ∈ (s.visitBlock vis id).toCheck ↔
    b ∈ s.toCheck ∧ b ≠ id ∨ Leads vis id b ∧ b ∉ insert id s.reachable := by
  unfold visitBlock
  simp only [mem_foldl_insert, mem_ascending, TwoWaySetMap.mem_getValues, mem_erase, Leads]
  tauto

/-- What the loop keeps: whatever the reachable blocks lead to is reachable or is still to be checked, and so are
the external blocks. -/
structure Search.Invariant (blocks : Blocks S) (vis : BlockFlowVisitor) (s : Search) : Prop where
  disjoint : ∀ b ∈ s.toCheck, b ∉ s.reachable
  known : ∀ b, b ∈ s.toCheck ∨ b ∈ s.reachable → b ∈ blocks.keys
  closed : ∀ a ∈ s.reachable, ∀ b, Leads vis a b → b ∈ s.reachable ∨ b ∈ s.toCheck
  external : ∀ b ∈ blocks.keys, b.isInternal = false → b ∈ s.reachable ∨ b ∈ s.toCheck

theorem Search.Invariant.visitBlock (h : s.Invariant blocks vis) (hid : id ∈ s.toCheck)
    (hleads : ∀ a b, Leads vis a b → b ∈ blocks.keys) : (s.visitBlock vis id).Invariant blocks vis := by
  have hreachable : (s.visitBlock vis id).reachable = insert id s.reachable := rfl
  refine ⟨fun b hb => ?_, fun b hb => ?_, fun a ha b hab => ?_, fun b hb hext => ?_⟩
  · rw [mem_visitBlock] at hb
    rw [hreachable, mem_insert, not_or]
    rcases hb with ⟨hb, hne⟩ | ⟨-, hb⟩
    · exact ⟨hne, h.disjoint b hb⟩
    · exact not_or.1 (fun hc => hb (mem_insert.2 hc))
  · rw [mem_visitBlock, hreachable, mem_insert] at hb
    rcases hb with (⟨hb, -⟩ | ⟨hb, -⟩) | rfl | hb
    · exact h.known b (.inl hb)
    · exact hleads id b hb
    · exact h.known b (.inl hid)
    · exact h.known b (.inr hb)
  · rw [mem_visitBlock, hreachable, mem_insert]
    rw [hreachable, mem_insert] at ha
    have := h.closed a
    grind
  · rw [mem_visitBlock, hreachable, mem_insert]
    have := h.external b hb hext
    grind

/-- The search ends, with a set of blocks that none of them leads out of. -/
theorem Search.run_yields (hleads : ∀ a b, Leads vis a b → b ∈ blocks.keys) (n : ℕ) : ∀ {s : Search},
    s.Invariant blocks vis → (blocks.keys \ s.reachable).card = n →
      ∃ s' : Search, s'.Invariant blocks vis ∧ s'.toCheck = ∅ ∧ ∀ limit, n < limit →
      Search.run vis limit s = some s' := by
  induction n using Nat.strongRecOn with
  | _ n ih =>
    intro s hs hn
    cases hhead : (ascending s.toCheck).head? with
    | none =>
      have hempty : s.toCheck = ∅ := by
        rw [eq_empty_iff_forall_notMem]
        intro b hb
        rw [List.head?_eq_none_iff] at hhead
        have hmem := mem_ascending.2 hb
        rw [hhead] at hmem
        cases hmem
      refine ⟨s, hs, hempty, fun limit hlt => ?_⟩
      obtain ⟨m, rfl⟩ : ∃ m, limit = m + 1 := ⟨limit - 1, by omega⟩
      rw [run, hhead]
    | some id =>
      have hid : id ∈ s.toCheck := mem_ascending.1 (mem_of_head? hhead)
      have hlt : (blocks.keys \ (s.visitBlock vis id).reachable).card < n := by
        rw [← hn]
        refine card_lt_card ⟨sdiff_subset_sdiff le_rfl (subset_insert ..), fun hsub => ?_⟩
        have hmem := hsub (mem_sdiff.2 ⟨hs.known id (.inl hid), hs.disjoint id hid⟩)
        exact (mem_sdiff.1 hmem).2 (mem_insert_self ..)
      obtain ⟨s', hs', hempty, hrun⟩ := ih _ hlt (hs.visitBlock hid hleads) rfl
      refine ⟨s', hs', hempty, fun limit hlimit => ?_⟩
      obtain ⟨m, rfl⟩ : ∃ m, limit = m + 1 := ⟨limit - 1, by omega⟩
      rw [run, hhead]
      exact hrun m (by omega)

/-! ## What is removed -/

theorem lookup_keepReachable (reachable : Finset NativeBlockID) (blocks : Blocks S) :
    Finmap.lookup id (keepReachable reachable blocks) = if id ∈ reachable then Finmap.lookup id blocks else none := by
  have hfold : ∀ (l : List NativeBlockID) (blocks : Blocks S), Finmap.lookup id
      (l.foldl (fun outBlocks id => if id ∉ reachable then outBlocks.erase id else outBlocks) blocks) =
        if id ∈ l ∧ id ∉ reachable then none else Finmap.lookup id blocks := by
    intro l
    induction l with
    | nil => simp
    | cons a l ih =>
      intro blocks
      rw [List.foldl_cons, ih]
      by_cases ha : a ∈ reachable
      · rw [if_neg (not_not.2 ha)]
        grind
      · rw [if_pos ha, lookup_erase]
        grind
  rw [keepReachable, hfold]
  by_cases hid : id ∈ reachable
  · rw [if_neg (fun hc => hc.2 hid), if_pos hid]
  · rw [if_neg hid]
    split
    · rfl
    · next hc =>
      rw [Finmap.lookup_eq_none]
      exact fun hmem => hc ⟨mem_ascending.2 (Finmap.mem_keys.2 hmem), hid⟩

theorem TargetsPresent.leads (h : TargetsPresent blocks) {a : NativeBlockID}
    (hab : Leads (visit blocks) a b) : b ∈ blocks.keys := by
  obtain ⟨hedges, hconts⟩ := visit_contains blocks a b
  rcases hab with hab | hab
  · obtain ⟨block, hblock, j, hj, rfl⟩ := hedges.1 hab
    obtain ⟨target, htarget, -⟩ := h.jumps a block hblock j hj
    exact mem_keys_iff.2 ⟨target, htarget⟩
  · obtain ⟨block, hblock, c, hc, rfl⟩ := hconts.1 hab
    obtain ⟨target, htarget, -⟩ := h.conts a block hblock c hc
    exact mem_keys_iff.2 ⟨target, htarget⟩

/-- Jumps and continuations lead from an external block to this one. -/
def Used (blocks : Blocks S) (id : NativeBlockID) : Prop := ∃ entry ∈ blocks.keys, entry.isInternal = false ∧
  Relation.ReflTransGen (Leads (visit blocks)) entry id

theorem TargetsPresent.used (h : TargetsPresent blocks) (hid : Used blocks id) : id ∈ blocks.keys := by
  obtain ⟨entry, hentry, -, hpath⟩ := hid
  cases hpath with
  | refl => exact hentry
  | tail _ hab => exact h.leads hab

/-- The search comes to nothing that it is not led to. -/
theorem Search.reachable_of_run {P : NativeBlockID → Prop} (hleads : ∀ a b, P a → Leads vis a b → P b) {s' : Search}
    {n : ℕ} (hrun : Search.run vis n s = some s') (hs : ∀ b, b ∈ s.toCheck ∨ b ∈ s.reachable → P b) :
    ∀ b ∈ s'.reachable, P b := by
  induction n generalizing s with
  | zero => cases hrun
  | succ n ih =>
    rw [run] at hrun
    split at hrun
    · cases hrun
      exact fun b hb => hs b (.inr hb)
    · next id hhead =>
      have hid := hs id (.inl (mem_ascending.1 (mem_of_head? hhead)))
      refine ih hrun fun b hb => ?_
      rcases hb with hb | hb
      · rcases mem_visitBlock.1 hb with ⟨hb, -⟩ | ⟨hb, -⟩
        · exact hs b (.inl hb)
        · exact hleads id b hid hb
      · rcases mem_insert.1 hb with rfl | hb
        · exact hid
        · exact hs b (.inr hb)

theorem removeUnusedBlocks_yields (h : TargetsPresent blocks) : ∃ reachable : Finset NativeBlockID,
    (∀ id, id ∈ reachable ↔ Used blocks id) ∧
      Yields (fun limit => removeUnusedBlocks limit blocks) (keepReachable reachable blocks) := by
  obtain ⟨found, hfound, hempty, hrun⟩ := Search.run_yields (fun a b => h.leads) _
    (s := { reachable := ∅, toCheck := blocks.keys.filter fun id => ¬ id.isInternal })
    ⟨by simp, by simp +contextual, by simp, by simp +contextual⟩ rfl
  refine ⟨found.reachable, fun id => ⟨fun hid => ?_, ?_⟩, blocks.keys.card + 1, fun limit hlimit => ?_⟩
  · refine Search.reachable_of_run (P := Used blocks) ?_ (hrun _ (Nat.lt_succ_self _)) (fun b hb => ?_) id hid
    · rintro a b ⟨entry, hentry, hext, hpath⟩ hab
      exact ⟨entry, hentry, hext, hpath.tail hab⟩
    · have hb := mem_filter.1 (hb.resolve_right (notMem_empty b))
      exact ⟨b, hb.1, by simpa using hb.2, .refl⟩
  · rintro ⟨entry, hentry, hext, hpath⟩
    induction hpath with
    | refl => exact (hfound.external entry hentry hext).resolve_right (by simp [hempty])
    | tail _ hab ih => exact (hfound.closed _ ih _ hab).resolve_right (by simp [hempty])
  · have hrun' := hrun limit (by simpa using Nat.lt_of_succ_le hlimit)
    simp only [removeUnusedBlocks, hrun', bind_eq_bind, bind_some, Option.pure_def]

/-- `removeUnusedBlocks` returns, and what it leaves is the same code. -/
theorem removeUnusedBlocks_simplifies (h : TargetsPresent blocks) :
    ∃ blocks', Yields (fun limit => removeUnusedBlocks limit blocks) blocks' ∧ Simplifies blocks blocks' := by
  obtain ⟨reachable, hreachable, hyields⟩ := removeUnusedBlocks_yields h
  have hclosed : ∀ a ∈ reachable, ∀ b, Leads (visit blocks) a b → b ∈ reachable := by
    intro a ha b hab
    obtain ⟨entry, hentry, hext, hpath⟩ := (hreachable a).1 ha
    exact (hreachable b).2 ⟨entry, hentry, hext, hpath.tail hab⟩
  have hblock : ∀ id block, Finmap.lookup id (keepReachable reachable blocks) = some block →
      id ∈ reachable ∧ Finmap.lookup id blocks = some block := by
    intro id block hb
    rw [lookup_keepReachable] at hb
    split at hb
    · next hid => exact ⟨hid, hb⟩
    · cases hb
  have hjump : ∀ id ∈ reachable, ∀ block, Finmap.lookup id blocks = some block →
      ∀ j ∈ block.term.jumpPoints, j.block ∈ reachable := fun id hid block hb j hj =>
    hclosed id hid j.block (.inl ((visit_contains blocks id j.block).1.2 ⟨block, hb, j, hj, rfl⟩))
  have hcont : ∀ id ∈ reachable, ∀ block, Finmap.lookup id blocks = some block →
      ∀ c ∈ block.conts, c.block ∈ reachable := fun id hid block hb c hc =>
    hclosed id hid c.block (.inr ((visit_contains blocks id c.block).2.2 ⟨block, hb, c, hc, rfl⟩))
  refine ⟨keepReachable reachable blocks, hyields, ⟨fun id block hb j hj => ?_, fun id block hb c hc => ?_⟩, ?_⟩
  · obtain ⟨hid, hb⟩ := hblock id block hb
    rw [lookup_keepReachable, if_pos (hjump id hid block hb j hj)]
    exact h.jumps id block hb j hj
  · obtain ⟨hid, hb⟩ := hblock id block hb
    rw [lookup_keepReachable, if_pos (hcont id hid block hb c hc)]
    exact h.conts id block hb c hc
  · refine preserves_of_agree (K := {id | id ∈ reachable})
      ⟨fun id hid => mem_keys_iff.1 (h.used ((hreachable id).1 hid)), hjump, hcont⟩
      (fun id block hext hb => (hreachable id).2 ⟨id, mem_keys_iff.2 ⟨block, hb⟩, hext, .refl⟩) fun id hid => ?_
    rw [lookup_keepReachable, if_pos (show id ∈ reachable from hid)]

/-- `removeUnusedBlocks` returns exactly the blocks that are used, as they are, and changes nothing when it is done
again. -/
def RemovesUnused (blocks : Blocks S) : Prop := ∃ blocks',
    Yields (fun limit => removeUnusedBlocks limit blocks) blocks' ∧
  (∀ id block, Finmap.lookup id blocks' = some block ↔ Used blocks id ∧ Finmap.lookup id blocks = some block) ∧
  Yields (fun limit => removeUnusedBlocks limit blocks') blocks'

/-- The search for the blocks that are used comes to all of them and to no others. -/
theorem removeUnusedBlocks_exact (h : TargetsPresent blocks) : RemovesUnused blocks := by
  obtain ⟨blocks', hyields', hsimplifies⟩ := removeUnusedBlocks_simplifies h
  obtain ⟨reachable, hreachable, hyields⟩ := removeUnusedBlocks_yields h
  obtain rfl := hyields'.unique hyields
  have hlookup : ∀ id, Used blocks id → Finmap.lookup id (keepReachable reachable blocks) = Finmap.lookup id blocks :=
    fun id hid => by rw [lookup_keepReachable, if_pos ((hreachable id).2 hid)]
  refine ⟨_, hyields, fun id block => ?_, ?_⟩
  · rw [lookup_keepReachable, ← hreachable]
    split <;> next hid => simp [hid]
  · obtain ⟨again, hagain, hyields⟩ := removeUnusedBlocks_yields hsimplifies.targetsPresent
    have hkept : ∀ id, Used blocks id → Used (keepReachable reachable blocks) id := by
      rintro id ⟨entry, hentry, hext, hpath⟩
      refine ⟨entry, ?_, hext, ?_⟩
      · rw [mem_keys_iff, hlookup entry ⟨entry, hentry, hext, .refl⟩]
        exact mem_keys_iff.1 hentry
      · induction hpath with
        | refl => exact .refl
        | tail hpath hab ih =>
          refine ih.tail ?_
          simp only [Leads, visit_contains] at hab ⊢
          rwa [hlookup _ ⟨entry, hentry, hext, hpath⟩]
    convert hyields using 1
    refine Finmap.ext_lookup fun id => ?_
    rw [lookup_keepReachable _ (keepReachable reachable blocks)]
    split
    · rfl
    · next hid =>
      rw [lookup_keepReachable, if_neg fun hmem => hid ((hagain id).2 (hkept id ((hreachable id).1 hmem)))]

/-! ## When both passes keep what the code does -/

/-- The blocks to be merged are jumped to, and no continuation that stays leads to one of them. -/
structure Mergeable (blocks : Blocks S) : Prop where
  jumps : ∀ t ∈ collapse (visit blocks).edges, JumpBefore blocks (visit blocks).edges t
  conts : ∀ id, Kept blocks (visit blocks).edges
      {x | x ∈ collapse (visit blocks).edges} id →
    ∀ block, Finmap.lookup id blocks = some block →
      ∀ c ∈ block.conts, c.block ∉ collapse (visit blocks).edges

/-- The two passes return code that has all its targets and does what it did before. -/
structure PassesCorrect (blocks : Blocks S) : Prop where
  collapseLinearBlocks : ∃ blocks', collapseLinearBlocks blocks = some blocks' ∧ Simplifies blocks blocks'
  removeUnusedBlocks : ∃ blocks', Yields (fun limit => removeUnusedBlocks limit blocks) blocks' ∧
    Simplifies blocks blocks'

theorem WellFormed.pending (h : WellFormed blocks) : Pending blocks (visit blocks).edges
    {x | x ∈ ascending (collapse (visit blocks).edges)} where
  definedOnce := h.definedOnce
  flow := fun a b => (visit_contains blocks a b).1
  jumps := h.targetsPresent.jumps
  sole := by
    rintro t ht
    obtain ⟨s, -, hsole⟩ := mem_collapse.1 (mem_ascending.1 ht)
    exact ⟨s, hsole⟩

/-- For code of which every variable is defined once and every target is there, the passes are correct exactly
where the blocks to be merged are jumped to and no continuation that stays leads to one of them. -/
theorem passesCorrect_iff (h : WellFormed blocks) : PassesCorrect blocks ↔ Mergeable blocks := by
  have hset : {x | x ∈ ascending (collapse (visit blocks).edges)} =
      {x | x ∈ collapse (visit blocks).edges} := by simp
  constructor
  · rintro ⟨⟨blocks', hcollapse, hsimplifies⟩, -⟩
    obtain ⟨r, hr, he⟩ := bind_eq_some_iff.1 hcollapse
    obtain rfl := some.inj he
    obtain ⟨hjumps, hmissing⟩ := of_foldlM_collapseBlock (ascending_nodup _) h.pending hr
    refine ⟨fun t ht => hjumps t (mem_ascending.2 ht), fun id hk block hblock c hc hmem => ?_⟩
    rw [← hset] at hk
    exact hmissing ⟨id, block, c, hc, hk, hblock, .inl (mem_ascending.2 hmem)⟩ hsimplifies.targetsPresent
  · intro hm
    refine ⟨?_, removeUnusedBlocks_simplifies h.targetsPresent⟩
    have hconts : ContsStay blocks (visit blocks).edges
        {x | x ∈ ascending (collapse (visit blocks).edges)} := by
      rw [hset]
      exact fun id hk block hblock c hc =>
        ⟨hm.conts id hk block hblock c hc, h.targetsPresent.conts id block hblock c hc⟩
    obtain ⟨r, hr, hp, hstay, hpreserves⟩ := foldlM_collapseBlock (ascending_nodup _) h.pending hconts
      fun t ht => hm.jumps t (mem_ascending.1 ht)
    refine ⟨r.1, ?_, ⟨hp.jumps, fun id block hblock c hc => ?_⟩, hpreserves⟩
    · unfold collapseLinearBlocks
      simp only [hr, bind_eq_bind, bind_some, Option.pure_def]
    · exact (hstay id (.root hblock (Set.notMem_empty id)) block hblock c hc).2

/-! ## Both arms of a branch may be one edge -/

/-- Labels of which there is one each. -/
abbrev unitLabels : Signature := ⟨Unit, Unit, Unit, Unit, Unit, Unit, Unit, Unit⟩

/-- The block that callers enter. -/
abbrev entryBlock : NativeBlockID := ⟨false, 0⟩

/-- The block that follows it. -/
abbrev innerBlock : NativeBlockID := ⟨true, 1⟩

abbrev toInnerBlock : JumpPoint (Input unitLabels) := ⟨innerBlock, [], ∅⟩

/-- An entry block that ends in `term`, and a block that exits. -/
def entryAndExit (term : Term unitLabels (Input unitLabels)) : Blocks unitLabels :=
  ((∅ : Blocks unitLabels).insert innerBlock ⟨[], [], ∅, .exit 0 (.zero ())⟩).insert entryBlock ⟨[], [], ∅, term⟩

theorem lookup_entryAndExit {term : Term unitLabels (Input unitLabels)} {id : NativeBlockID}
    {block : Block unitLabels} (h : Finmap.lookup id (entryAndExit term) = some block) :
    block.defined = [] ∧ block.defs = [] ∧ (block.term = term ∨ id ≠ entryBlock ∧ block.term = .exit 0 (.zero ())) := by
  unfold entryAndExit at h
  rw [lookup_insert, lookup_insert] at h
  split at h
  · cases h
    exact ⟨rfl, rfl, .inl rfl⟩
  · next hne =>
    split at h
    · cases h
      exact ⟨rfl, rfl, .inr ⟨hne, rfl⟩⟩
    · cases h

theorem wellFormed_entryAndExit {term : Term unitLabels (Input unitLabels)}
    (hjumps : ∀ j ∈ term.jumpPoints, j = toInnerBlock) (hconts : term.conts = []) :
    WellFormed (entryAndExit term) where
  definedOnce :=
    { within := fun id block h => by simp [(lookup_entryAndExit h).1]
      across := fun id block id' block' h _ _ => by simp [(lookup_entryAndExit h).1] }
  targetsPresent :=
    { jumps := by
        intro id block h j hj
        obtain ⟨-, -, hterm | ⟨-, hterm⟩⟩ := lookup_entryAndExit h
        · rw [hterm] at hj
          rw [hjumps j hj]
          exact ⟨⟨[], [], ∅, .exit 0 (.zero ())⟩, rfl, rfl⟩
        · simp [hterm, Term.jumpPoints] at hj
      conts := by
        intro id block h c hc
        obtain ⟨-, hdefs, hterm | ⟨-, hterm⟩⟩ := lookup_entryAndExit h
        · simp [Block.conts, hdefs, hterm, hconts] at hc
        · simp [Block.conts, hdefs, hterm, Term.conts] at hc }

/-- An entry block that exits by itself: nothing leads to the other block, which is removed. -/
theorem removeUnusedBlocks_exact_exit : (removeUnusedBlocks 2 (entryAndExit (.exit 0 (.zero ())))).map Finmap.keys =
    some {entryBlock} ∧ RemovesUnused (entryAndExit (.exit 0 (.zero ()))) :=
  ⟨by decide +kernel, removeUnusedBlocks_exact (wellFormed_entryAndExit (by simp [Term.jumpPoints]) rfl).targetsPresent⟩

/-- An entry block that jumps to the block that exits. -/
theorem passesCorrect_jump : PassesCorrect (entryAndExit (.jump toInnerBlock)) := by
  refine (passesCorrect_iff (wellFormed_entryAndExit (by simp [Term.jumpPoints]) rfl)).2
    ⟨fun t ht => ?_, fun id _ block h c hc => ?_⟩
  · obtain ⟨s, -, hsole⟩ := mem_collapse.1 ht
    obtain ⟨block, hblock, j, hj, -⟩ := (visit_contains _ s t).1.1 hsole.edge
    obtain ⟨-, -, hterm | ⟨-, hterm⟩⟩ := lookup_entryAndExit hblock
    · exact ⟨s, block, toInnerBlock, hsole.edge, hblock, by rw [hterm]; rfl⟩
    · simp [hterm, Term.jumpPoints] at hj
  · obtain ⟨-, hdefs, hterm | ⟨-, hterm⟩⟩ := lookup_entryAndExit h
    · simp [Block.conts, hdefs, hterm, Term.conts] at hc
    · simp [Block.conts, hdefs, hterm, Term.conts] at hc

/-- The two arms of a branch to one block are one edge, so the block is taken for the target of a jump. -/
theorem not_passesCorrect_branch : WellFormed (entryAndExit (.branch (.zero ()) toInnerBlock toInnerBlock)) ∧
      ¬ PassesCorrect (entryAndExit (.branch (.zero ()) toInnerBlock toInnerBlock)) := by
  refine ⟨wellFormed_entryAndExit (by simp [Term.jumpPoints]) rfl, fun h => ?_⟩
  obtain ⟨blocks', hsome, -⟩ := h.collapseLinearBlocks
  have hfails : (collapseLinearBlocks (entryAndExit (.branch (.zero ()) toInnerBlock toInnerBlock))).isNone = true := by
    decide +kernel
  simp [hsome] at hfails

end NativeCodeFlattened
