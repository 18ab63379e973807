import Ufora.NativeCode.Simplification

/-!
# Merging two blocks

Two ways to change the blocks of a function without a change of what it does. Blocks that no execution
enters may be dropped (`preserves_of_agree`). And a block that is entered only by the jump at the end of
another block may be merged into that one (`Merging.preserves`): where the code jumped and passed the
arguments all at once, it then makes one definition after another. This is the same because an argument of
the jump is never an argument of the block: it would be read before it has a value.
-/

open Simulation Ordered List Finmap Function NativeCodeFlattened.Term

namespace NativeCodeFlattened

variable {S : Signature}

/-- A set of blocks that the flow of control does not leave. -/
structure Closed (blocks : Blocks S) (K : Set NativeBlockID) : Prop where
  present : ∀ id ∈ K, ∃ block, lookup id blocks = some block
  jumps : ∀ id ∈ K, ∀ block, lookup id blocks = some block → ∀ j ∈ block.term.jumpPoints, j.block ∈ K
  conts : ∀ id ∈ K, ∀ block, lookup id blocks = some block → ∀ c ∈ block.conts, c.block ∈ K

/-- A configuration in one of the blocks, with the continuations of some. -/
structure Inside (blocks : Blocks S) (K C : Set NativeBlockID) {M : Surroundings S} (c : Config M) : Prop where
  code : ∃ id ∈ K, ∃ block, lookup id blocks = some block ∧ c.defs <:+ block.defs ∧
    c.term = block.term.dontWriteAnyVariables
  offered : ∀ b ∈ c.offered, b ∈ C

section
variable {M : Surroundings S} {blocks blocks' : Blocks S} {K C : Set NativeBlockID} {c c' : Config M}

theorem Term.jumpPoints_dontWriteAnyVariables {term : Term S (Input S)} {j : JumpPoint (Input S)}
    (hj : j ∈ term.dontWriteAnyVariables.jumpPoints) :
    ∃ j' ∈ term.jumpPoints, j'.block = j.block ∧ j'.args = j.args := by
  have hmem : (j.block, j.args) ∈ term.jumps := by
    rw [← jumps_mapDump (fun _ => ∅)]
    exact mem_map.2 ⟨j, hj, rfl⟩
  obtain ⟨j', hj', he⟩ := mem_map.1 hmem
  exact ⟨j', hj', (Prod.mk.inj he).1, (Prod.mk.inj he).2⟩

section
variable (hconts : ∀ id ∈ K, ∀ block, lookup id blocks = some block → ∀ x ∈ block.conts, x.block ∈ C)
include hconts

/-- A step within a block stays inside. -/
theorem Inside.within (hc : Inside blocks K C c) (h : act M c = .within c') : Inside blocks K C c' := by
  obtain ⟨v, e, hdefs, hterm, -, hoffered⟩ := act_eq_within h
  obtain ⟨⟨id, hid, block, hblock, hsuffix, hcode⟩, hin⟩ := hc
  rw [hdefs] at hsuffix
  refine ⟨⟨id, hid, block, hblock, (suffix_cons _ _).trans hsuffix, hterm.trans hcode⟩, fun b hb => ?_⟩
  rcases hoffered b hb with hb | ⟨x, hx, rfl⟩
  · exact hin b hb
  · refine hconts id hid block hblock x (mem_append_left _ (mem_flatMap.2 ⟨(v, e), ?_, hx⟩))
    exact hsuffix.subset (.head _)

/-- Where the next block comes from. -/
theorem Inside.start (hc : Inside blocks K C c) {tgt : NativeBlockID} {vs : List M.Value}
    {env : NativeVariable → Option M.Value} {offered : List NativeBlockID} {world : M.World}
    (h : act M c = .start tgt vs env offered world) : env = c.env ∧ c.defs = [] ∧ (∀ b ∈ offered, b ∈ C) ∧
      ((∃ id ∈ K, ∃ block, lookup id blocks = some block ∧ c.term = block.term.dontWriteAnyVariables ∧
        ∃ j ∈ block.term.jumpPoints, tgt = j.block ∧ j.args.mapM (read M c.env) = some vs) ∨ tgt ∈ C) := by
  obtain ⟨henv, hdefs, hcases⟩ := act_eq_start h
  obtain ⟨⟨id, hid, block, hblock, -, hcode⟩, hin⟩ := hc
  refine ⟨henv, hdefs, ?_⟩
  rcases hcases with ⟨j, hj, rfl, hvalues, rfl⟩ | ⟨hmem, rfl⟩
  · rw [hcode] at hj
    obtain ⟨j', hj', hb, ha⟩ := jumpPoints_dontWriteAnyVariables hj
    exact ⟨hin, .inl ⟨id, hid, block, hblock, hcode, j', hj', hb.symm, by rwa [ha]⟩⟩
  · have hoffered : ∀ b ∈ c.offered ++ c.term.conts.map (·.block), b ∈ C := by
      intro b hb
      rcases mem_append.1 hb with hb | hb
      · exact hin b hb
      · obtain ⟨x, hx, rfl⟩ := mem_map.1 hb
        rw [hcode, dontWriteAnyVariables, conts_mapDump] at hx
        exact hconts id hid block hblock x (mem_append_right _ hx)
    exact ⟨hoffered, .inr (hoffered _ hmem)⟩

end

/-! ## Blocks that are never entered -/

/-- Two functions with the same blocks in a closed set do the same there. -/
theorem simulates_of_agree (M : Surroundings S) (hK : Closed blocks K)
    (hagree : ∀ id ∈ K, lookup id blocks' = lookup id blocks) :
    Simulates (machine M blocks) (machine M blocks') (fun c c' => c = c' ∧ Inside blocks K K c) fun _ => 0 where
  shows := by
    rintro c _ ⟨rfl, -⟩
    rfl
  done := by
    rintro c _ o ⟨rfl, -⟩ hdone
    exact step_eq_done.2 (step_eq_done.1 hdone)
  next := by
    rintro c _ d ⟨rfl, hc⟩ - hnext
    suffices hstep : step M blocks' c = .next d ∧ Inside blocks K K d from
      ⟨1, d, .head rfl hstep.1 (.refl d), ⟨rfl, hstep.2⟩, nofun⟩
    rcases step_eq_next.1 hnext with hwithin | ⟨target, values, env, offered, world, hstart, henter⟩
    · exact ⟨step_eq_next.2 (.inl hwithin), hc.within hK.conts hwithin⟩
    · obtain ⟨-, -, hoffered, htarget⟩ := hc.start hK.conts hstart
      have hmem : target ∈ K := by
        rcases htarget with ⟨id, hid, block, hblock, -, j, hj, rfl, -⟩ | hmem
        · exact hK.jumps id hid block hblock j hj
        · exact hmem
      refine ⟨step_eq_next.2 (.inr ⟨target, values, env, offered, world, hstart, ?_⟩), ?_⟩
      · rwa [enter, hagree target hmem]
      · obtain ⟨block, hblock, -, rfl⟩ := enter_eq_some.1 henter
        exact ⟨⟨target, hmem, block, hblock, suffix_refl _, rfl⟩, hoffered⟩

/-- Blocks outside a closed set with the external blocks do not matter. -/
theorem preserves_of_agree (hK : Closed blocks K)
    (hexternal : ∀ id block, id.isInternal = false → lookup id blocks = some block → id ∈ K)
    (hagree : ∀ id ∈ K, lookup id blocks' = lookup id blocks) : Preserves blocks blocks' := by
  intro M id hid values world c hc
  obtain ⟨block, hblock, hlen, rfl⟩ := enter_eq_some.1 hc
  have hmem := hexternal id block hid hblock
  refine ⟨_, enter_eq_some.2 ⟨block, (hagree id hmem).trans hblock, hlen, rfl⟩,
    (simulates_of_agree M hK hagree).alike ⟨rfl, ⟨id, hmem, block, hblock, suffix_refl _, rfl⟩, nofun⟩⟩

end

/-! ## A block that is entered by one jump -/

/-- The definitions that `addArgument` adds. -/
def lets (ps : List (NativeVariable × Input S)) : List (NativeVariable × Expression S (Input S)) :=
  ps.filterMap fun p => if p.2.isVariable p.1 then none else some (p.1, .var p.2)

theorem addArgument_spec (ps : List (NativeVariable × Input S)) (block : Block S) :
    (ps.foldl addArgument block).args = block.args ∧ (ps.foldl addArgument block).defs = block.defs ++ lets ps ∧
      (ps.foldl addArgument block).term.dontWriteAnyVariables = block.term.dontWriteAnyVariables := by
  induction ps generalizing block with
  | nil => simp [lets]
  | cons p ps ih =>
    obtain ⟨hargs, hdefs, hterm⟩ := ih (addArgument block p)
    rw [foldl_cons, hargs, hdefs, hterm]
    unfold addArgument lets
    cases hp : p.2.isVariable p.1 <;> simp [hp, Block.writeVariable]

theorem writeVariable_spec (vs : List NativeVariable) (block : Block S) :
    (vs.foldl Block.writeVariable block).args = block.args ∧ (vs.foldl Block.writeVariable block).defs = block.defs ∧
      (vs.foldl Block.writeVariable block).term.dontWriteAnyVariables = block.term.dontWriteAnyVariables := by
  induction vs generalizing block with
  | nil => simp
  | cons v vs ih =>
    obtain ⟨hargs, hdefs, hterm⟩ := ih (block.writeVariable v)
    rw [foldl_cons, hargs, hdefs, hterm]
    exact ⟨rfl, rfl, dontWriteAnyVariables_mapDump ..⟩

/-- What two blocks are merged to, and when they are. -/
theorem merge_eq_some {sourceB targB merged : Block S} (h : merge sourceB targB = some merged) :
    ∃ j, sourceB.term.getJump = some j ∧ j.args.length = targB.args.length ∧ merged.args = sourceB.args ∧
      merged.defs = sourceB.defs ++ lets (targB.args.zip j.args) ++ targB.defs ∧
      merged.term.dontWriteAnyVariables = targB.term.dontWriteAnyVariables := by
  unfold merge at h
  cases hj : sourceB.term.getJump with
  | none => simp [hj] at h
  | some j =>
    by_cases hlen : j.args.length = targB.args.length
    · simp only [hj, Option.bind_eq_bind, Option.bind_some, hlen, guard_true, Option.pure_def, Option.some.injEq] at h
      obtain ⟨hargs, hdefs, hterm⟩ := writeVariable_spec (ascending j.dumpToSlots)
        { (targB.args.zip j.args).foldl addArgument { sourceB with term := targB.term } with
          defs := ((targB.args.zip j.args).foldl addArgument { sourceB with term := targB.term }).defs ++ targB.defs }
      obtain ⟨hargs', hdefs', hterm'⟩ := addArgument_spec (targB.args.zip j.args) { sourceB with term := targB.term }
      subst h
      refine ⟨j, rfl, hlen, hargs.trans hargs', hdefs.trans ?_, hterm.trans hterm'⟩
      rw [hdefs']
    · simp [hj, hlen, guard] at h

theorem merge_isSome {sourceB targB : Block S} {j : JumpPoint (Input S)} (hj : sourceB.term.getJump = some j)
    (hlen : j.args.length = targB.args.length) : ∃ merged, merge sourceB targB = some merged := by
  unfold merge
  simp [hj, hlen, guard]

/-- A block `s` that ends in the only jump to a block `t`, as far as the flow of control goes, and the
blocks after `t` is merged into it. -/
structure Merging (blocks blocks' : Blocks S) (K : Set NativeBlockID) (s t : NativeBlockID)
    (sourceB targB : Block S) (j : JumpPoint (Input S)) : Prop where
  definedOnce : DefinedOnce blocks
  closed : Closed blocks K
  ne : s ≠ t
  source : lookup s blocks = some sourceB
  target : lookup t blocks = some targB
  jump : sourceB.term.getJump = some j
  block : j.block = t
  length : j.args.length = targB.args.length
  only : ∀ id ∈ K, ∀ block, lookup id blocks = some block → ∀ j' ∈ block.term.jumpPoints, j'.block = t → id = s
  conts : ∀ id ∈ K, ∀ block, lookup id blocks = some block → ∀ c ∈ block.conts, c.block ≠ t
  others : ∀ id ∈ K, id ≠ s → id ≠ t → lookup id blocks' = lookup id blocks
  merged : ∃ merged, lookup s blocks' = some merged ∧ merged.args = sourceB.args ∧
    merged.defs = sourceB.defs ++ lets (targB.args.zip j.args) ++ targB.defs ∧
    merged.term.dontWriteAnyVariables = targB.term.dontWriteAnyVariables

namespace Merging

variable {blocks blocks' : Blocks S} {K : Set NativeBlockID} {s t : NativeBlockID} {sourceB targB : Block S}
  {j : JumpPoint (Input S)} {M : Surroundings S} {c d : Config M}

/-- The code that replaces a terminator: where it is the jump to the target, the code goes on with it. -/
def goesOn (t : NativeBlockID) (targB : Block S) (term : Term S (Input S)) :
    List (NativeVariable × Expression S (Input S)) × Term S (Input S) :=
  match term.getJump with
  | some j =>
    if j.block = t then (lets (targB.args.zip j.args) ++ targB.defs, targB.term.dontWriteAnyVariables) else ([], term)
  | none => ([], term)

/-- What a configuration becomes. -/
def expand (t : NativeBlockID) (targB : Block S) (c : Config M) : Config M :=
  { c with defs := c.defs ++ (goesOn t targB c.term).1, term := (goesOn t targB c.term).2 }

/-- The jump passes an argument of the target. -/
def Mentions (targB : Block S) (j : JumpPoint (Input S)) : Prop := ∃ v ∈ targB.args, Input.var v ∈ j.args

/-- A configuration before the merge and the one after. -/
structure Follows (blocks : Blocks S) (K : Set NativeBlockID) (t : NativeBlockID) (targB : Block S)
    (j : JumpPoint (Input S)) (c c' : Config M) : Prop where
  inside : Inside blocks K (K \ {t}) c
  fresh : Mentions targB j → ∀ v ∈ targB.args, c.env v = none
  eq : c' = expand t targB c

theorem getJump_eq_some {term : Term S (Input S)} : term.getJump = some j ↔ term = .jump j := by
  cases term <;> simp [getJump]

theorem expand_of_ne (hne : ∀ j', c.term.getJump = some j' → j'.block ≠ t) : expand t targB c = c := by
  unfold expand goesOn
  cases hj : c.term.getJump with
  | none => simp
  | some j' => simp [hne j' hj]

variable {v : NativeVariable}

theorem act_expand {e : Expression S (Input S)}
    {defs : List (NativeVariable × Expression S (Input S))} (hdefs : c.defs = (v, e) :: defs) :
    (∀ d, act M c = .within d → act M (expand t targB c) = .within (expand t targB d)) ∧
      ∀ o, act M c = .done o → act M (expand t targB c) = .done o := by
  have hc : act M c = define M c v e defs := by rw [act, hdefs]
  have hexpand : act M (expand t targB c) = define M (expand t targB c) v e (defs ++ (goesOn t targB c.term).1) := by
    rw [act, expand, hdefs]
    rfl
  rw [hc, hexpand]
  unfold define
  simp only [show (expand t targB c).env = c.env from rfl, show (expand t targB c).world = c.world from rfl]
  cases compute M c.env c.world e with
  | stuck => exact ⟨nofun, nofun⟩
  | trapped o => exact ⟨nofun, fun _ h => h ▸ rfl⟩
  | value x made world =>
    refine ⟨fun d hd => ?_, nofun⟩
    cases hd
    rfl

theorem mapM_congr {α β : Type} {f g : α → Option β} {l : List α} (h : ∀ a ∈ l, f a = g a) : l.mapM f = l.mapM g := by
  induction l with
  | nil => rfl
  | cons a l ih => rw [mapM_cons, mapM_cons, h a (.head _), ih fun b hb => h b (.tail _ hb)]

variable {env : NativeVariable → Option M.Value}

theorem read_update {x : Option M.Value}
    {i : Input S} (hi : i ≠ .var v) : read M (update env v x) i = read M env i := by
  cases i with
  | var w => exact update_of_ne (fun h => hi (congrArg Input.var h)) _ _
  | _ => rfl

/-- The definitions for the arguments of a jump pass the arguments, unless one of them is read. -/
theorem lets_quietly (blocks : Blocks S) {args : List NativeVariable} :
    ∀ {inputs : List (Input S)} {vs : List M.Value} {env : NativeVariable → Option M.Value},
      inputs.mapM (read M env) = some vs → inputs.length = args.length →
      (∀ v ∈ args, Input.var v ∉ inputs) →
      ∀ rest term offered world, (machine M blocks).Quietly world args.length
        ⟨lets (args.zip inputs) ++ rest, term, env, offered, world⟩
        ⟨rest, term, assign env args vs, offered, world⟩ := by
  induction args with
  | nil =>
    intro inputs vs env hvalues hlen hfree rest term offered world
    exact .refl _
  | cons a args ih =>
    intro inputs vs env hvalues hlen hfree rest term offered world
    obtain ⟨i, is, rfl⟩ := exists_cons_of_length_eq_add_one hlen
    rw [mapM_cons] at hvalues
    cases hi : read M env i with
    | none => simp [hi] at hvalues
    | some x =>
      cases his : is.mapM (read M env) with
      | none => simp [hi, his] at hvalues
      | some xs =>
        simp only [hi, his, Option.bind_eq_bind, Option.bind_some, Option.pure_def, Option.some.injEq] at hvalues
        subst hvalues
        have hnot : i.isVariable a = false := by
          cases i with
          | var w =>
            refine decide_eq_false fun h => hfree a (.head _) ?_
            rw [h]
            exact .head _
          | _ => rfl
        have hrest : is.mapM (read M (update env a (some x))) = some xs := by
          rw [← his]
          exact mapM_congr fun k hk => read_update fun h => hfree a (.head _) (h ▸ .tail _ hk)
        have hstep : (machine M blocks).step ⟨lets ((a :: args).zip (i :: is)) ++ rest, term, env, offered, world⟩ =
            .next ⟨lets (args.zip is) ++ rest, term, update env a (some x), offered, world⟩ := by
          refine step_eq_next.2 (.inl ?_)
          rw [zip_cons_cons, lets, filterMap_cons, hnot]
          simp [act, define, compute, Expression.evaluate, hi, lets]
        exact .head rfl hstep (ih hrest (Nat.succ.inj hlen)
          (fun v hv h => hfree v (.tail _ hv) (.tail _ h)) rest term offered world)

variable (h : Merging blocks blocks' K s t sourceB targB j)
include h

variable {id : NativeBlockID}

/-- A block that jumps to the target is the source. -/
theorem eq_of_getJump {block : Block S} {j' : JumpPoint (Input S)} (hid : id ∈ K)
    (hblock : lookup id blocks = some block) (hj : block.term.dontWriteAnyVariables.getJump = some j')
    (ht : j'.block = t) : id = s ∧ block = sourceB ∧ j'.args = j.args := by
  rw [dontWriteAnyVariables, getJump_mapDump] at hj
  obtain ⟨j₁, hj₁, rfl⟩ := Option.map_eq_some_iff.1 hj
  have hmem : j₁ ∈ block.term.jumpPoints := by
    rw [getJump_eq_some.1 hj₁]
    exact .head _
  obtain rfl := h.only id hid block hblock j₁ hmem ht
  obtain rfl := Option.some.inj (hblock.symm.trans h.source)
  obtain rfl := Option.some.inj (hj₁.symm.trans h.jump)
  exact ⟨rfl, rfl, rfl⟩

variable {offered : List NativeBlockID}

/-- The start of another block. -/
theorem follows_enter (hid : id ∈ K) (hne : id ≠ t) {vs : List M.Value} {world : M.World}
    (hoffered : ∀ b ∈ offered, b ∈ K \ {t}) (hfresh : Mentions targB j → ∀ v ∈ targB.args, env v = none)
    (hd : enter M blocks id vs env offered world = some d) :
    ∃ d', enter M blocks' id vs env offered world = some d' ∧ Follows blocks K t targB j d d' := by
  obtain ⟨block, hblock, hlen, rfl⟩ := enter_eq_some.1 hd
  have hfollows : ∀ d', d' = expand t targB (⟨block.defs, block.term.dontWriteAnyVariables,
      assign env block.args vs, offered, world⟩ : Config M) → Follows blocks K t targB j
        ⟨block.defs, block.term.dontWriteAnyVariables, assign env block.args vs, offered, world⟩ d' := by
    refine fun d' hd' => ⟨⟨⟨id, hid, block, hblock, suffix_refl _, rfl⟩, hoffered⟩, fun hm v hv => ?_, hd'⟩
    show assign env block.args vs v = none
    rw [assign_of_notMem fun hmem => ?_, hfresh hm v hv]
    exact h.definedOnce.across t targB id block h.target hblock hne.symm v (mem_append_left _ hv)
      (mem_append_left _ hmem)
  rcases eq_or_ne id s with rfl | hs
  · obtain rfl := Option.some.inj (hblock.symm.trans h.source)
    obtain ⟨merged, hmerged, hargs, hdefs, hterm⟩ := h.merged
    refine ⟨_, enter_eq_some.2 ⟨merged, hmerged, hargs ▸ hlen, rfl⟩, hfollows _ ?_⟩
    have hgoes : goesOn t targB block.term.dontWriteAnyVariables =
        (lets (targB.args.zip j.args) ++ targB.defs, targB.term.dontWriteAnyVariables) := by
      unfold goesOn
      rw [dontWriteAnyVariables, getJump_mapDump, h.jump]
      exact if_pos h.block
    rw [expand, hgoes, hargs, hdefs, hterm, append_assoc]
  · refine ⟨_, enter_eq_some.2 ⟨block, (h.others id hid hs hne).trans hblock, hlen, rfl⟩, hfollows _ ?_⟩
    rw [expand_of_ne fun j' hj' ht => ?_]
    exact hs (h.eq_of_getJump hid hblock hj' ht).1

/-- Whether the next step is the jump to the target. -/
def jumpsTo (t : NativeBlockID) (c : Config M) : ℕ :=
  if c.defs.isEmpty ∧ c.term.getJump.any (fun j => j.block = t) then 1 else 0

omit h in
theorem jumpsTo_eq_zero (hne : ∀ j', c.term.getJump = some j' → j'.block ≠ t) : jumpsTo t c = 0 := by
  refine if_neg fun ⟨_, hany⟩ => ?_
  obtain ⟨j', hj', ht⟩ := Option.any_eq_true _ _ |>.1 hany
  exact hne j' hj' (of_decide_eq_true ht)

/-- No variable of the target is given a value by another block, nor twice by its own. -/
theorem notMem_args {block : Block S} (hblock : lookup id blocks = some block)
    {e : Expression S (Input S)} (hmem : (v, e) ∈ block.defs) : v ∉ targB.args := by
  intro hv
  have hdef : v ∈ block.defs.map Prod.fst := mem_map.2 ⟨(v, e), hmem, rfl⟩
  rcases eq_or_ne id t with rfl | hne
  · obtain rfl := Option.some.inj (hblock.symm.trans h.target)
    exact (nodup_append.1 (h.definedOnce.within id block hblock)).2.2 v hv v hdef rfl
  · exact h.definedOnce.across id block t targB hblock h.target hne v (mem_append_right _ hdef) (mem_append_left _ hv)

omit h in
theorem mapM_isSome {α β : Type} {f : α → Option β} {l : List α} {bs : List β} (hl : l.mapM f = some bs) :
    ∀ a ∈ l, ∃ b, f a = some b := by
  induction l generalizing bs with
  | nil => exact nofun
  | cons a l ih =>
    rw [mapM_cons] at hl
    cases ha : f a with
    | none => simp [ha] at hl
    | some b =>
      cases hr : l.mapM f with
      | none => simp [ha, hr] at hl
      | some bs =>
        rintro x (_ | ⟨_, hx⟩)
        · exact ⟨b, ha⟩
        · exact ih hr x hx

/-- The jump to the target. -/
theorem follows_target {c' : Config M} (hc : Follows blocks K t targB j c c') (hdefs : c.defs = [])
    {j' : JumpPoint (Input S)} (hj' : c.term.getJump = some j') (ht : j'.block = t) {tgt : NativeBlockID}
    {vs : List M.Value} {world : M.World} (hstart : act M c = .start tgt vs c.env offered world)
    (henter : enter M blocks tgt vs c.env offered world = some d) :
    ∃ n d', (machine M blocks').Quietly ((machine M blocks).shows c) n (expand t targB c) d' ∧
      Follows blocks K t targB j d d' ∧ (n = 0 → jumpsTo t d < jumpsTo t c) := by
  obtain ⟨id, hid, block, hblock, -, hcode⟩ := hc.inside.code
  rw [hcode] at hj'
  obtain ⟨rfl, rfl, hargs⟩ := h.eq_of_getJump hid hblock hj' ht
  rw [← hcode] at hj'
  rw [act, hdefs, finish, getJump_eq_some.1 hj'] at hstart
  obtain ⟨rfl, hvalues, -, rfl, rfl⟩ := goto_eq_start hstart
  rw [ht] at henter
  obtain ⟨targB', htarget, hlen, rfl⟩ := enter_eq_some.1 henter
  obtain rfl := Option.some.inj (htarget.symm.trans h.target)
  have htK : t ∈ K := by
    have hmem : j ∈ block.term.jumpPoints := by
      rw [getJump_eq_some.1 h.jump]
      exact .head _
    exact h.block ▸ h.closed.jumps id hid block hblock j hmem
  rw [hargs] at hvalues
  have hfree : ¬ Mentions targB' j := by
    rintro ⟨v, hv, hmem⟩
    obtain ⟨x, hx⟩ := mapM_isSome hvalues _ hmem
    have hnone := hc.fresh ⟨v, hv, hmem⟩ v hv
    rw [show read M c.env (.var v) = c.env v from rfl, hnone] at hx
    cases hx
  have hother : ∀ j', targB'.term.dontWriteAnyVariables.getJump = some j' → j'.block ≠ t := fun j₁ hj₁ ht₁ =>
    h.ne (h.eq_of_getJump htK h.target hj₁ ht₁).1.symm
  have hexpand : expand t targB' c = ⟨lets (targB'.args.zip j.args) ++ targB'.defs,
      targB'.term.dontWriteAnyVariables, c.env, c.offered, c.world⟩ := by
    have hgoes : goesOn t targB' c.term =
        (lets (targB'.args.zip j.args) ++ targB'.defs, targB'.term.dontWriteAnyVariables) := by
      unfold goesOn
      rw [hj', ← hargs]
      exact if_pos ht
    rw [expand, hgoes, hdefs, nil_append]
  rw [hexpand]
  refine ⟨_, _, lets_quietly blocks' hvalues h.length (fun v hv hmem => hfree ⟨v, hv, hmem⟩) _ _ _ _,
    ⟨⟨⟨t, htK, targB', h.target, suffix_refl _, rfl⟩, hc.inside.offered⟩, fun hm => absurd hm hfree,
      (expand_of_ne hother).symm⟩, fun _ => ?_⟩
  have hone : jumpsTo t c = 1 := if_pos (by rw [hdefs, hj']; exact ⟨rfl, decide_eq_true ht⟩)
  rw [hone]
  exact Nat.lt_one_iff.2 (jumpsTo_eq_zero hother)

/-- Executions before the merge are followed after it. -/
theorem simulates (M : Surroundings S) :
    Simulates (machine M blocks) (machine M blocks') (Follows blocks K t targB j) (jumpsTo t) where
  shows := by
    rintro c c' hc
    rw [hc.eq]
    rfl
  done := by
    rintro c c' o hc hdone
    rw [hc.eq]
    have hact := step_eq_done.1 hdone
    refine step_eq_done.2 ?_
    cases hdefs : c.defs with
    | cons def_ defs => exact (act_expand (v := def_.1) (e := def_.2) hdefs).2 o hact
    | nil =>
      rw [expand_of_ne fun j' hj' ht => ?_]
      · exact hact
      · rw [act, hdefs, finish, getJump_eq_some.1 hj'] at hact
        exact goto_ne_done c j' c.world o hact
  next := by
    rintro c c' d hc hsafe hnext
    rw [hc.eq]
    have hconts : ∀ id ∈ K, ∀ block, lookup id blocks = some block → ∀ x ∈ block.conts, x.block ∈ K \ {t} :=
      fun id hid block hblock x hx => ⟨h.closed.conts id hid block hblock x hx, h.conts id hid block hblock x hx⟩
    rcases step_eq_next.1 hnext with hwithin | ⟨target, values, env, offered, world, hstart, henter⟩
    · obtain ⟨v, e, hdefs, hterm, ⟨x, henv⟩, -⟩ := act_eq_within hwithin
      refine ⟨1, _, .head rfl (step_eq_next.2 (.inl ((act_expand hdefs).1 d hwithin))) (.refl _),
        ⟨hc.inside.within hconts hwithin, fun hm w hw => ?_, rfl⟩, nofun⟩
      obtain ⟨id, -, block, hblock, hsuffix, -⟩ := hc.inside.code
      have hne : w ≠ v := by
        rintro rfl
        refine h.notMem_args hblock (hsuffix.subset ?_) hw (e := e)
        rw [hdefs]
        exact .head _
      rw [henv, update_of_ne hne]
      exact hc.fresh hm w hw
    · obtain ⟨rfl, hdefs, hoffered, htarget⟩ := hc.inside.start hconts hstart
      by_cases hjump : ∃ j', c.term.getJump = some j' ∧ j'.block = t
      · obtain ⟨j', hj', ht⟩ := hjump
        exact h.follows_target hc hdefs hj' ht hstart henter
      · have hother : ∀ j', c.term.getJump = some j' → j'.block ≠ t := fun j' hj' ht => hjump ⟨j', hj', ht⟩
        rw [expand_of_ne hother]
        have hmem : target ∈ K ∧ target ≠ t := by
          rcases htarget with ⟨id, hid, block, hblock, hcode, j', hj', rfl, -⟩ | hmem
          · refine ⟨h.closed.jumps id hid block hblock j' hj', fun ht => ?_⟩
            obtain rfl := h.only id hid block hblock j' hj' ht
            obtain rfl := Option.some.inj (hblock.symm.trans h.source)
            refine hother (j.mapDump fun _ => ∅) ?_ h.block
            rw [hcode, dontWriteAnyVariables, getJump_mapDump, h.jump]
            rfl
          · exact hmem
        obtain ⟨d', hd', hfollows⟩ := h.follows_enter hmem.1 hmem.2 hoffered hc.fresh henter
        exact ⟨1, d', .head rfl (step_eq_next.2 (.inr ⟨target, values, _, offered, world, hstart, hd'⟩)) (.refl d'),
          hfollows, nofun⟩

/-- Where one block is merged into another one, executions stay the same. -/
theorem preserves (hexternal : ∀ id block, id.isInternal = false → lookup id blocks = some block →
    id ∈ K ∧ id ≠ t) : Preserves blocks blocks' := by
  intro M id hid values world c hc
  obtain ⟨block, hblock, -, -⟩ := enter_eq_some.1 hc
  obtain ⟨hmem, hne⟩ := hexternal id block hid hblock
  obtain ⟨c', hc', hfollows⟩ := h.follows_enter hmem hne (by simp) (fun _ _ _ => rfl) hc
  exact ⟨c', hc', (h.simulates M).alike hfollows⟩

end Merging

end NativeCodeFlattened
