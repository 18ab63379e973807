import Ufora.Lib.Run
import Ufora.Pages.SystemwidePageRefcountTracker

/-!
# Only unreferenced vectors are declared dropped

Each place that declares a vector dropped looks first whether anything references it
(`isBigvecNotReferenced_`), except `dropMachine`, which looks at the machines and at the moves in
flight only. So a vector that a synthetic page or a page still references is declared dropped when
the last machine that references it goes. `DropsUnreferenced` is what such a step has to meet, and
where every step meets it no referenced vector is ever declared dropped (`always_safe`).
-/

open Ordered Effect Fora Cumulus TypedFora.Abi Run TwoWaySetMap MapWithIndex List PagesOnMachines False

namespace SystemwidePageRefcountTracker

/-! ## What the handlers keep -/

/-- Every vector was referenced by nothing when it was declared dropped. -/
def Safe (o : ObservedTracker) : Prop := ∀ d ∈ o.declared, d.2.isBigvecNotReferenced_ d.1
deriving Decidable

/-- The agreement of the records of the pages' references, and under the condition `c` also
`Safe`. -/
structure SafeListed (c : Prop) (o : ObservedTracker) : Prop where
  safe : c → Safe o
  listed : o.tracker.mPagesOnMachines.Listed

section
variable {c : Prop} {o : ObservedTracker} {id : BigVectorId}

/-- Only the record of the declarations and the references of pages matter. -/
theorem SafeListed.of_eq {o' : ObservedTracker} (h : SafeListed c o) (hd : o'.declared = o.declared)
    (hp : o'.tracker.mPagesOnMachines = o.tracker.mPagesOnMachines) : SafeListed c o' :=
  ⟨fun hc => by rw [Safe, hd]; exact h.safe hc, by rw [hp]; exact h.listed⟩

theorem SafeListed.declare (h : SafeListed c o) (hn : c → o.tracker.isBigvecNotReferenced_ id) :
    SafeListed c (o.declare id) := by
  refine ⟨fun hc d hd => ?_, h.listed⟩
  rcases mem_append.1 hd with hd | hd
  · exact h.safe hc d hd
  · rw [mem_singleton.1 hd]
    exact hn hc

/-- The handlers declare what they have checked. -/
theorem handlerInvariant_safeListed (c : Prop) : HandlerInvariant (SafeListed c) where
  listed _ h := h.listed
  declare _ _ h hn := h.declare fun _ => hn
  remove _ page h := ⟨h.safe, h.listed.markInternalPageDropped page⟩
  update _ _ h hl _ := ⟨h.safe, hl⟩

theorem SafeListed.bigVectorInFlightRefcountChanged_ (h : SafeListed c o) (netChange : ℤ) :
    wp (bigVectorInFlightRefcountChanged_ netChange id) (fun _ => SafeListed c)
      (fun e o' => SafeListed c o' ∧ e ≠ .recursionLimit) o := by
  simp only [SystemwidePageRefcountTracker.bigVectorInFlightRefcountChanged_, wp_bind, wp_update,
    wp_self, wp_lassert, wp_ite]
  split
  · split
    all_goals exact (handlerInvariant_safeListed c).wp_dropIfNotReferenced ⟨h.safe, h.listed⟩
  · exact ⟨⟨h.safe, h.listed⟩, by simp⟩

theorem SafeListed.forM_inFlight (h : SafeListed c o) (netChange : ℤ) (l : List BigVectorId) :
    wp (l.forM (SystemwidePageRefcountTracker.bigVectorInFlightRefcountChanged_ netChange))
      (fun _ => SafeListed c) (fun e o' => SafeListed c o' ∧ e ≠ .recursionLimit) o :=
  wp_forM (fun _ => SafeListed c) (fun _ _ _ h => h.bigVectorInFlightRefcountChanged_ netChange) l h

/-- Page events are safe. -/
theorem SafeListed.consumePageEvent (h : SafeListed c o) (e : PageRefcountEvent) (m : MachineId) :
    wp (consumePageEvent e m) (fun _ => SafeListed c) (fun e o' => SafeListed c o' ∧ e ≠ .recursionLimit) o := by
  refine (handlerInvariant_safeListed c).wp_consumePageEvent h e m fun ids refcount hash o _ h => ?_
  simp only [bigVectorsInFlight, wp_bind, wp_update, wp_self, wp_ite, wp_lassert]
  split
  · refine forM_inFlight ?_ _ _
    exact h.of_eq rfl rfl
  · split
    · exact (h.forM_inFlight _ _).imp fun _ _ h => ⟨h.safe, h.listed⟩
    · exact ⟨h, by simp⟩

/-! ## Dropping a machine -/

/-- Nothing that is not referenced in the first tracker is referenced in the second. -/
structure Shrunk (s s' : SystemwidePageRefcountTracker) : Prop where
  inFlight : s'.mBigvecsInFlight = s.mBigvecsInFlight
  references : s'.mBigVectorReferences = s.mBigVectorReferences
  synthetic : ∀ v, s'.mSyntheticPages.hasValue v → s.mSyntheticPages.hasValue v
  pages : ∀ v, s'.mPagesOnMachines.isBigvecReferencedByPage v → s.mPagesOnMachines.isBigvecReferencedByPage v

theorem Shrunk.refl (s : SystemwidePageRefcountTracker) : Shrunk s s := ⟨rfl, rfl, fun _ => id, fun _ => id⟩

theorem Shrunk.isBigvecNotReferenced_ {s s' : SystemwidePageRefcountTracker} {v : BigVectorId}
    (h : Shrunk s s') (hn : s.isBigvecNotReferenced_ v) : s'.isBigvecNotReferenced_ v := by
  unfold SystemwidePageRefcountTracker.isBigvecNotReferenced_
  rw [h.inFlight, h.references]
  exact ⟨hn.1, hn.2.1, fun hs => hn.2.2.1 (h.synthetic v hs), fun hp => hn.2.2.2 (h.pages v hp)⟩

variable {s : SystemwidePageRefcountTracker}

theorem Shrunk.declare (h : Shrunk s o.tracker) : Shrunk s (o.declare id).tracker :=
  ⟨h.inFlight, h.references, h.synthetic, h.pages⟩

theorem Shrunk.dropSynthetic (h : Shrunk s o.tracker) (page : PageId) : Shrunk s (o.dropSynthetic page).tracker := by
  refine ⟨h.inFlight, h.references, fun v hv => h.synthetic v ?_, h.pages⟩
  obtain ⟨p, hp⟩ := hasValue_iff.1 hv
  refine hasValue_iff.2 ⟨p, ?_⟩
  simp only [ObservedTracker.dropSynthetic, tryGetValue_discard] at hp
  split at hp
  · cases hp
  · exact hp

theorem Shrunk.removePage (h : Shrunk s o.tracker) (page : PageId) : Shrunk s (o.removePage page).tracker := by
  refine ⟨h.inFlight, h.references, h.synthetic, fun v hv => h.pages v ?_⟩
  obtain ⟨q, -, hq⟩ := isBigvecReferencedByPage_markInternalPageDropped.1 hv
  exact hasValue_iff.2 ⟨q, hq⟩

/-- The cascade adds no reference. -/
theorem cascadeInvariant_shrunk (s : SystemwidePageRefcountTracker) :
    CascadeInvariant fun o => SafeListed c o ∧ Shrunk s o.tracker where
  listed _ h := h.1.listed
  layouts _ _ h := ⟨⟨h.1.safe, h.1.listed⟩, h.2.1, h.2.2, h.2.3, h.2.4⟩
  synthetic o page bigvec h hb := by
    have hs := (handlerInvariant_safeListed c).cascade.synthetic o page bigvec h.1 hb
    by_cases hn : (o.dropSynthetic page).tracker.isBigvecNotReferenced_ bigvec
    · rw [if_pos hn] at hs ⊢
      exact ⟨hs, (h.2.dropSynthetic page).declare⟩
    · rw [if_neg hn] at hs ⊢
      exact ⟨hs, h.2.dropSynthetic page⟩
  remove o page h := ⟨(handlerInvariant_safeListed c).cascade.remove o page h.1, h.2.removePage page⟩

/-- The step drops no machine that is the last to reference a vector which is not in flight, but
which a synthetic page or a page references. -/
def DropsUnreferenced (o : ObservedTracker) : Op → Prop
  | .dropMachine m => o.tracker.mIsTornDown = false → o.tracker.mPagesOnMachines.hasMachine m →
    ∀ v ∈ o.tracker.mBigVectorReferences.getKeys m,
      o.tracker.mBigVectorReferences.getValues v = {m} → v ∉ o.tracker.mBigvecsInFlight →
      ¬ o.tracker.mSyntheticPages.hasValue v ∧ ¬ o.tracker.mPagesOnMachines.isBigvecReferencedByPage v
  | _ => True

instance (o : ObservedTracker) (op : Op) : Decidable (DropsUnreferenced o op) := by
  cases op <;> unfold DropsUnreferenced <;> infer_instance

/-- The loop of `dropMachine` is safe where the vectors that no machine and no move has are
referenced by nothing. -/
theorem SafeListed.forM_dropIfNotHeld (h : SafeListed c o) (l : List BigVectorId)
    (hn : c → ∀ v ∈ l, ¬ o.tracker.mBigVectorReferences.hasKey v →
      v ∉ o.tracker.mBigvecsInFlight → o.tracker.isBigvecNotReferenced_ v) :
    wp (l.forM dropIfNotHeld) (fun _ => SafeListed c) (fun e o' => SafeListed c o' ∧ e ≠ .recursionLimit) o := by
  refine (wp_forM (fun l' o' => (SafeListed c o' ∧ Shrunk o.tracker o'.tracker) ∧ ∀ v ∈ l', v ∈ l)
    (fun v l' o' ho => ?_) l ⟨⟨h, .refl _⟩, fun _ => id⟩).imp fun _ _ h => h.1.1
  obtain ⟨⟨hsafe, hshrunk⟩, hm⟩ := ho
  rw [forall_mem_cons] at hm
  simp only [dropIfNotHeld, wp_bind, wp_self, wp_ite, wp_pure]
  split
  · next hv =>
    rw [hshrunk.inFlight, hshrunk.references] at hv
    have hnot := fun hc => hshrunk.isBigvecNotReferenced_ (hn hc v hm.1 hv.1 hv.2)
    exact ((cascadeInvariant_shrunk o.tracker).wp_drop
      ⟨hsafe.declare hnot, hshrunk.declare⟩).mono (fun _ _ h => ⟨h, hm.2⟩)
        fun _ _ h => ⟨h.1.1, AssertionFailed.ne_recursionLimit h.2⟩
  · exact ⟨⟨hsafe, hshrunk⟩, hm.2⟩

theorem SafeListed.dropMachine (h : SafeListed c o) (m : MachineId) (hcond : c → DropsUnreferenced o (.dropMachine m)) :
    wp (dropMachine m) (fun _ => SafeListed c) (fun e o' => SafeListed c o' ∧ e ≠ .recursionLimit) o := by
  simp only [SystemwidePageRefcountTracker.dropMachine, onPagesOnMachines,
    PagesOnMachines.dropMachine, wp_bind, wp_self, wp_ite, wp_pure, wp_onPart, wp_get, wp_lassert,
    wp_modify, wp_update]
  split
  · exact h
  · next htorn =>
    split
    · next hm =>
      refine (forM_dropIfNotHeld ?_ _ fun hc v hv hk hf => ?_).imp fun _ _ h => ?_
      · exact ⟨h.safe, h.listed⟩
      swap
      · exact h.of_eq rfl rfl
      rw [mem_ascending] at hv
      simp only [TwoWaySetMap.hasKey_iff, contains_dropValue, not_exists, not_and, not_not] at hk
      have honly : o.tracker.mBigVectorReferences.getValues v = {m} := by
        ext m'
        rw [mem_getValues, Finset.mem_singleton]
        exact ⟨hk m', fun he => he ▸ mem_getKeys.1 hv⟩
      refine ⟨hf, ?_, hcond hc (by simpa using htorn) hm v hv honly hf⟩
      simpa [TwoWaySetMap.hasKey_iff] using hk
    · exact ⟨h, by simp⟩

/-- A step keeps the declarations safe where it meets its condition, and no recursion reaches its
limit. -/
theorem SafeListed.handle (h : SafeListed c o) (op : Op) (hcond : c → DropsUnreferenced o op) :
    wp (handle op) (fun _ => SafeListed c) (fun e o' => SafeListed c o' ∧ e ≠ .recursionLimit) o := by
  cases op with
  | addMachine m =>
    simp only [SystemwidePageRefcountTracker.handle, addMachine, onPagesOnMachines,
      PagesOnMachines.addMachine, wp_bind, wp_self, wp_ite, wp_pure, wp_onPart, wp_get, wp_lassert,
      wp_modify]
    split
    · exact h
    · split
      · exact ⟨h.safe, h.listed⟩
      · exact ⟨h.of_eq rfl rfl, by simp⟩
  | dropMachine m => exact h.dropMachine m hcond
  | consumePageEvent e m => exact h.consumePageEvent e m
  | teardown => exact ⟨h.safe, h.listed⟩
  | layoutsChanged layouts => exact ⟨h.safe, h.listed⟩

end

/-! ## Runs -/

/-- One call. A call that throws leaves the state at the throw. -/
def step (o : ObservedTracker) (op : Op) : ObservedTracker := exec (handle op) o

/-- A call keeps the agreement of the records of the pages' references. -/
theorem listed_handle {o : ObservedTracker} (h : o.tracker.mPagesOnMachines.Listed) (op : Op) :
    wp (handle op) (fun _ o' => o'.tracker.mPagesOnMachines.Listed)
      (fun _ o' => o'.tracker.mPagesOnMachines.Listed) o :=
  (SafeListed.handle (c := False) ⟨elim, h⟩ op elim).mono (fun _ _ h => h.listed) fun _ _ h => h.1.listed

/-- In every run the records of the pages' references agree. -/
theorem listed_run (layouts : BigVectorLayouts) (ops : List Op) :
    Always (total step) (fun o => o.tracker.mPagesOnMachines.Listed)
      { tracker := { mBigVectorLayouts := layouts } } ops := by
  refine always listed_empty fun o op o' h he => ?_
  rw [← total_eq_some.1 he]
  exact (listed_handle h op).exec

/-- The limit on the recursion of `bigVectorDroppedAcrossEntireSystem_` is never reached. -/
theorem noLimit_handle {o : ObservedTracker} (h : o.tracker.mPagesOnMachines.Listed) (op : Op) :
    wp (handle op) (fun _ _ => True) (fun e _ => e ≠ .recursionLimit) o :=
  (SafeListed.handle (c := False) ⟨elim, h⟩ op elim).mono (fun _ _ _ => trivial) fun _ _ h => h.2

/-- In every run the drops that a call starts come to an end, whatever vectors and synthetic pages need each other. -/
theorem always_noLimit (layouts : BigVectorLayouts) (ops : List Op) : Always (total step)
    (fun o => ∀ op, wp (handle op) (fun _ _ => True) (fun e _ => e ≠ .recursionLimit) o)
      { tracker := { mBigVectorLayouts := layouts } } ops :=
  (listed_run layouts ops).mono fun _ h => noLimit_handle h

/-- In every run whose steps drop no machine that holds the last reference but those of synthetic
pages and pages, no vector is declared dropped that anything references at that moment. -/
theorem always_safe (layouts : BigVectorLayouts) (ops : List Op)
    (hc : EveryStep (total step) DropsUnreferenced { tracker := { mBigVectorLayouts := layouts } }
      ops) :
    Always (total step) Safe { tracker := { mBigVectorLayouts := layouts } } ops := by
  have h0 : SafeListed True { tracker := { mBigVectorLayouts := layouts } } := ⟨by simp [Safe], listed_empty⟩
  refine Always.mono (always_of_everyStep h0 (fun o op o' h hc he => ?_) hc) fun o h => h.safe trivial
  rw [← total_eq_some.1 he]
  exact ((h.handle op fun _ => hc).mono (fun _ _ h => h) fun _ _ h => h.1).exec

/-- The only machine that references a vector goes, and nothing else references the vector. -/
theorem always_safe_of_last_machine : Always (total step) Safe {} [.addMachine ⟨1⟩, .addMachine ⟨2⟩,
      .consumePageEvent (.BigVectorReferenced ⟨[⟨7, 10, 10⟩], ⟨5, 1⟩⟩) ⟨1⟩, .dropMachine ⟨1⟩] :=
  always_safe {} _ (by decide)

/-- A vector defines a synthetic page, and the only machine that references it goes: the vector is
declared dropped though the synthetic page needs it. -/
theorem not_always_safe_of_synthetic_page : ¬ Always (total step) Safe {} [.addMachine ⟨1⟩, .addMachine ⟨2⟩,
      .consumePageEvent (.SyntheticPageCreated ⟨2 ^ 128, 10, 10⟩ ⟨[⟨7, 10, 10⟩], ⟨5, 1⟩⟩) ⟨1⟩,
      .consumePageEvent (.BigVectorReferenced ⟨[⟨7, 10, 10⟩], ⟨5, 1⟩⟩) ⟨1⟩, .dropMachine ⟨1⟩] := by
  intro h
  have := h.last rfl
  revert this
  decide

end SystemwidePageRefcountTracker
