import Ufora.Pages.Orphans
import Ufora.Pages.Safety

/-!
# A vector that nothing references any more is declared dropped

Each handler looks at the vector whose reference it takes away. The cascade does not: it checks the
vectors of an orphaned page before it clears the references of the page, and at that moment the page
itself references them. So a vector whose last reference is that page is never declared dropped.
Where no call orphans a last reference (`OrphansNoLastReference`) no vector leaks
(`always_declared`), through chains of any length.
-/

open Ordered Effect Fora Cumulus TypedFora.Abi Run List Finset Finmap TwoWaySetMap MapWithIndex Option PagesOnMachines

namespace SystemwidePageRefcountTracker

variable (v : BigVectorId)

/-- The vector has been declared dropped unless something references it. -/
def Declared (o : ObservedTracker) : Prop :=
  o.tracker.isBigvecNotReferenced_ v → o.tracker.isBigVectorDroppedAcrossEntireSystem v.guid

instance (o : ObservedTracker) : Decidable (Declared v o) := inferInstanceAs (Decidable (_ → _ ∈ _))

section
variable {v} {id : BigVectorId} {o : ObservedTracker} {s : SystemwidePageRefcountTracker} {op : Op}

/-- Where no machine is dropped, what is kept is declared. -/
theorem Kept.declared {o : ObservedTracker} (h : Kept s op v o) (hop : ¬ s.DropsMachineOf v op) : Declared v o :=
  fun hn => (h hn).resolve_right hop

/-- A call that only adds references and takes no declaration back. -/
theorem Declared.of_grown {o' : ObservedTracker} (h : Declared v o)
    (hd : o'.tracker.mDroppedBigvecs = o.tracker.mDroppedBigvecs)
    (hn : o'.tracker.isBigvecNotReferenced_ v → o.tracker.isBigvecNotReferenced_ v) : Declared v o' := by
  intro hv
  unfold isBigVectorDroppedAcrossEntireSystem
  rw [hd]
  exact h (hn hv)

/-! ## Moves -/

/-- The in-flight counts while a half of a move goes through its vectors, of which `l` are left. -/
structure Counting (s : SystemwidePageRefcountTracker) (vectors : Finset BigVectorId) (l : List BigVectorId)
    (t : SystemwidePageRefcountTracker) : Prop where
  nodup : l.Nodup
  mem : ∀ w ∈ l, w ∈ vectors
  references : t.mBigVectorReferences = s.mBigVectorReferences
  left : ∀ w ∈ l, lookup w t.mBigvecsInFlight = lookup w s.mBigvecsInFlight

section
variable {vectors : Finset BigVectorId} {netChange : ℤ} (hc : s.OrphansNoLastReference op)
  (hlooks : s.looksAt op = vectors) (hafter : ∀ w, s.HeldAfter w op → s.mBigVectorReferences.hasKey w ∨
    w ∈ s.mBigvecsInFlight ∧ (w ∈ vectors → s.mBigvecsInFlight.get w + netChange ≠ 0))
include hc hlooks hafter

/-- The count of one vector has changed, and the call looks at it. -/
theorem Counting.next {inFlight : StdMap BigVectorId ℤ} {l : List BigVectorId} (hd : Dropping s op o)
    (hk : Kept s op v o)
    (hcount : Counting s vectors (id :: l) o.tracker)
    (hother : ∀ w, w ≠ id → lookup w inFlight = lookup w o.tracker.mBigvecsInFlight)
    (hid : o.tracker.mBigvecsInFlight.get id + netChange ≠ 0 → id ∈ inFlight) :
    wp (dropIfNotReferenced id) (fun _ o' => (Dropping s op o' ∧ Kept s op v o') ∧ Counting s vectors l o'.tracker)
      (fun _ _ => True) { o with tracker := { o.tracker with mBigvecsInFlight := inFlight } } := by
  obtain ⟨hnot, hnodup⟩ := List.nodup_cons.1 hcount.nodup
  have hin (w : BigVectorId) (hw : w ≠ id) : w ∈ inFlight ↔ w ∈ o.tracker.mBigvecsInFlight := by
    rw [← lookup_isSome, ← lookup_isSome, hother w hw]
  have hd' : Dropping s op { o with tracker := { o.tracker with mBigvecsInFlight := inFlight } } :=
    { hd with
      held := fun w hw => by
        by_cases heq : w = id
        · subst heq
          obtain hrefs | ⟨-, hne⟩ := hafter w hw
          · exact .inl (hcount.references ▸ hrefs)
          · refine .inr (hid ?_)
            rw [StdMap.get, hcount.left w mem_cons_self]
            exact hne (hcount.mem w mem_cons_self)
        · exact (hd.held w hw).imp_right (hin w heq).2 }
  have hk' : v ≠ id → Kept s op v { o with tracker := { o.tracker with mBigvecsInFlight := inFlight } } :=
    fun hne hn => hk ⟨fun h => hn.1 ((hin v hne).2 h), hn.2⟩
  refine (hd'.dropIfNotReferenced hc (hlooks ▸ hcount.mem id mem_cons_self) hk').imp fun _ o' ho' => ?_
  refine ⟨ho'.1, hnodup, fun w hw => hcount.mem w (mem_cons_of_mem _ hw),
    ho'.2.references.trans hcount.references, fun w hw => ?_⟩
  rw [ho'.2.inFlight]
  exact (hother w fun heq => hnot (heq ▸ hw)).trans (hcount.left w (mem_cons_of_mem _ hw))

/-- Half of a move goes through its vectors. -/
theorem kept_forM_inFlight (hd : Dropping s op o) (hk : Kept s op v o)
    (hrefs : o.tracker.mBigVectorReferences = s.mBigVectorReferences)
    (hf : o.tracker.mBigvecsInFlight = s.mBigvecsInFlight) :
    wp ((ascending vectors).forM (bigVectorInFlightRefcountChanged_ netChange)) (fun _ => Kept s op v)
      (fun _ _ => True) o := by
  refine (wp_forM (fun l o' => (Dropping s op o' ∧ Kept s op v o') ∧ Counting s vectors l o'.tracker)
    (fun id l o' ho' => ?_) _ ⟨⟨hd, hk⟩, ascending_nodup _, fun w hw => mem_ascending.1 hw, hrefs,
    fun w _ => by rw [hf]⟩).imp
      fun _ _ h => h.1.2
  obtain ⟨⟨hd, hk⟩, hcount⟩ := ho'
  simp only [bigVectorInFlightRefcountChanged_, wp_bind, wp_update, wp_self, wp_lassert, wp_ite]
  split
  · split
    · next hzero =>
      refine Counting.next hc hlooks hafter hd hk hcount (fun w hw => ?_) fun hne => absurd ?_ hne
      · simp [hw]
      · simpa using hzero
    · refine Counting.next hc hlooks hafter hd hk hcount (fun w hw => ?_) fun _ => ?_
      · simp [hw]
      · exact Finmap.mem_insert.2 (.inl rfl)
  · trivial

end

/-! ## The calls -/

/-- Events on pages leave every vector referenced that was. -/
theorem isBigvecReferencedByPage_consumePageEvent {s : PagesOnMachines} (e : PageRefcountEvent) (m : MachineId)
    (h : s.isBigvecReferencedByPage v) : (s.consumePageEvent e m).isBigvecReferencedByPage v := by
  refine consumePageEvent_rule (P := fun _ map => map.hasValue v) h (fun p b => ?_) e m
  unfold setPageBigvecs
  split
  · exact h
  · obtain ⟨q, hq⟩ := hasValue_iff.1 h
    exact hasValue_iff.2 ⟨q, contains_insertValues.2 (.inr hq)⟩

section
variable (hl : o.tracker.mPagesOnMachines.Listed) (h : Declared v o) {m : MachineId}
include hl h

/-- A synthetic page is realized. -/
theorem Declared.syntheticPageRealized {page : PageId}
    (hc : o.tracker.OrphansNoLastReference (.consumePageEvent (.SyntheticPageRealized page) m)) :
    wp (syntheticPageRealized page) (fun _ => Declared v) (fun _ _ => True) o := by
  simp only [SystemwidePageRefcountTracker.syntheticPageRealized, wp_bind, wp_update, wp_self]
  split
  · next id hid =>
    simp only [wp_bind, wp_modify]
    refine (Dropping.dropIfNotReferenced ?_ hc (Option.mem_toFinset.2 hid) fun hne hn => .inl ?_).imp
      fun _ _ ho' => ho'.1.2.declared False.elim
    · refine .start (by exact hl) (fun _ hw => hw) rfl rfl (fun w => ?_) ?_ rfl
      · change (o.tracker.mBigVectorLayouts.syntheticPageRealized page).tryGetLayoutForId w = _
        unfold BigVectorLayouts.syntheticPageRealized
        split <;> rfl
      · change (o.tracker.mBigVectorLayouts.syntheticPageRealized page).mPagesToVectors = _
        unfold BigVectorLayouts.syntheticPageRealized
        split <;> rfl
    · exact h (isBigvecNotReferenced_dropSynthetic hid hne hn)
  · exact h

/-- A machine stops referencing a vector. -/
theorem Declared.bigVectorNoLongerReferenced
    (hc : o.tracker.OrphansNoLastReference (.consumePageEvent (.BigVectorNoLongerReferenced id) m)) :
    wp (bigVectorNoLongerReferenced id m) (fun _ => Declared v) (fun _ _ => True) o := by
  have hcall (o' : ObservedTracker) (hd : Dropping o.tracker (.consumePageEvent (.BigVectorNoLongerReferenced id) m) o')
      (hk : v ≠ id → Declared v o') : wp (dropIfNotReferenced id) (fun _ => Declared v) (fun _ _ => True) o' :=
    (hd.dropIfNotReferenced hc (Finset.mem_singleton_self id) fun hne hn => .inl (hk hne hn)).imp
      fun _ _ ho' => ho'.1.2.declared False.elim
  simp only [SystemwidePageRefcountTracker.bigVectorNoLongerReferenced, wp_bind, wp_update, wp_self, wp_ite,
    StdMap.get_insert, reduceIte]
  split
  · next hzero =>
    refine hcall _ (.start hl (fun w hw => ?_) rfl rfl (fun _ => rfl) rfl rfl) fun hne hn => h ?_
    · rw [HeldAfter, if_pos hzero] at hw
      exact hw.symm
    · refine ⟨hn.1, fun hr => hn.2.1 ?_, hn.2.2⟩
      obtain ⟨m', hm'⟩ := hasKey_iff.1 hr
      exact hasKey_iff.2 ⟨m', contains_drop.2 ⟨hm', by simp [hne]⟩⟩
  · next hzero =>
    refine hcall _ (.start hl (fun w hw => ?_) rfl rfl (fun _ => rfl) rfl rfl) fun _ => h
    rw [HeldAfter, if_neg hzero] at hw
    exact hw.symm

/-- Half of a move. -/
theorem Declared.bigVectorsInFlight {ids : Finset BigVectorId} {refcount : ℤ} {hash : Hash}
    (hc : o.tracker.OrphansNoLastReference (.consumePageEvent (.BigVectorsInFlight ids refcount hash) m)) :
    wp (bigVectorsInFlight ids refcount hash) (fun _ => Declared v) (fun _ _ => True) o := by
  have hafter (w : BigVectorId)
      (hw : o.tracker.HeldAfter w (.consumePageEvent (.BigVectorsInFlight ids refcount hash) m)) :
      o.tracker.mBigVectorReferences.hasKey w ∨ w ∈ o.tracker.mBigvecsInFlight ∧
        (w ∈ o.tracker.looksAt (.consumePageEvent (.BigVectorsInFlight ids refcount hash) m) →
          o.tracker.mBigvecsInFlight.get w + o.tracker.netChangeFor hash ≠ 0) := hw
  have hloop (o' : ObservedTracker)
      (hd : Dropping o.tracker (.consumePageEvent (.BigVectorsInFlight ids refcount hash) m) o')
      (hk : Declared v o') (hrefs : o'.tracker.mBigVectorReferences = o.tracker.mBigVectorReferences)
      (hf : o'.tracker.mBigvecsInFlight = o.tracker.mBigvecsInFlight) :=
    (kept_forM_inFlight hc rfl hafter hd (fun hn => .inl (hk hn)) hrefs hf).imp fun _ _ hk => hk.declared False.elim
  have hheld (w : BigVectorId)
      (hw : o.tracker.HeldAfter w (.consumePageEvent (.BigVectorsInFlight ids refcount hash) m)) : o.tracker.Held w :=
    hw.imp_right And.left
  simp only [SystemwidePageRefcountTracker.bigVectorsInFlight, wp_bind, wp_update, wp_self, wp_ite, wp_lassert]
  unfold looksAt netChangeFor at hloop
  split
  · next hfirst =>
    simp only [if_pos hfirst] at hloop
    exact hloop _ (.start hl hheld rfl rfl (fun _ => rfl) rfl rfl) h rfl rfl
  · next hfirst =>
    simp only [if_neg hfirst] at hloop
    split
    · exact hloop o (.start hl hheld rfl rfl (fun _ => rfl) rfl rfl) h rfl rfl
    · trivial

/-- A machine is dropped, which declares the vectors dropped that it was the last one to have. -/
theorem Declared.dropMachine (hc : o.tracker.OrphansNoLastReference (.dropMachine m)) :
    wp (dropMachine m) (fun _ => Declared v) (fun _ _ => True) o := by
  simp only [SystemwidePageRefcountTracker.dropMachine, onPagesOnMachines, PagesOnMachines.dropMachine, wp_bind,
    wp_self, wp_ite, wp_pure, wp_onPart, wp_get, wp_lassert, wp_modify, wp_update]
  split
  · exact h
  split
  swap
  · trivial
  refine (wp_forM_achieves (R := SameHolders) (I := fun o' => Dropping o.tracker (.dropMachine m) o' ∧
      Kept o.tracker (.dropMachine m) v o') (P := fun w o' =>
      o'.tracker.isBigVectorDroppedAcrossEntireSystem w.guid ∨ o'.tracker.Held w)
    (fun w _ _ hsame => Or.imp (hsame.dropped ·) hsame.held.2) _ (fun w hw _ ho' =>
      Dropping.dropIfNotHeld hc (mem_ascending.1 hw) ho'.1 ho'.2) ⟨?_, fun hn => ?_⟩).imp fun _ o' ho' hn => ?_
  · exact .start (by exact hl) (fun _ hw => hw) rfl rfl (fun _ => rfl) rfl rfl
  · by_cases hv : v ∈ o.tracker.mBigVectorReferences.getKeys m
    · exact .inr hv
    · refine .inl (h ⟨hn.1, fun hk => hn.2.1 ?_, hn.2.2⟩)
      obtain ⟨m', hm'⟩ := hasKey_iff.1 hk
      refine hasKey_iff.2 ⟨m', contains_dropValue.2 ⟨hm', ?_⟩⟩
      rintro rfl
      exact hv (mem_getKeys.2 hm')
  · rcases ho'.1.2 hn with hd | hv
    · exact hd
    · exact (ho'.2.2 v (mem_ascending.2 hv)).resolve_right fun hh => hh.elim hn.2.1 hn.1

/-- Page events leak no vector: each looks at the vectors that it takes references from. -/
theorem Declared.consumePageEvent (e : PageRefcountEvent)
    (hc : o.tracker.OrphansNoLastReference (.consumePageEvent e m)) :
    wp (consumePageEvent e m) (fun _ => Declared v) (fun _ _ => True) o := by
  simp only [SystemwidePageRefcountTracker.consumePageEvent, wp_bind, wp_self, wp_ite, wp_pure, wp_lassert, wp_update]
  split
  · exact h
  split
  swap
  · trivial
  have hpages : Declared v { o with tracker := { o.tracker with
      mPagesOnMachines := o.tracker.mPagesOnMachines.consumePageEvent e m } } := h.of_grown rfl fun hn =>
    ⟨hn.1, hn.2.1, hn.2.2.1, fun hp => hn.2.2.2 (isBigvecReferencedByPage_consumePageEvent e m hp)⟩
  cases e with
  | SyntheticPageCreated page layout =>
    have hset (hk : o.tracker.mSyntheticPages.hasKey page →
        o.tracker.mSyntheticPages.tryGetValue page = some layout.identity) (hv : o.tracker.mSyntheticPages.hasValue v) :
        (o.tracker.mSyntheticPages.set page layout.identity).hasValue v := by
      obtain ⟨q, hq⟩ := hasValue_iff.1 hv
      refine hasValue_iff.2 ⟨q, ?_⟩
      rw [tryGetValue_set]
      split
      · next he => rw [← hk (he ▸ hasKey_iff.2 ⟨v, hq⟩), ← he, hq]
      · exact hq
    simp only [syntheticPageCreated, wp_bind, wp_update, wp_self, wp_ite, wp_lassert, wp_pure]
    split
    · next hk =>
      split
      · next hsame =>
        split
        · exact h.of_grown rfl fun hn => ⟨hn.1, hn.2.1, fun hs => hn.2.2.1 (hset (fun _ => hsame) hs), hn.2.2.2⟩
        · exact h
      · trivial
    · next hk =>
      split
      · exact h.of_grown rfl fun hn => ⟨hn.1, hn.2.1, fun hs => hn.2.2.1 (hset (absurd · hk) hs), hn.2.2.2⟩
      · exact h
  | SyntheticPageRealized page => exact Declared.syntheticPageRealized hl h hc
  | BigVectorReferenced layout =>
    refine h.of_grown rfl fun hn => ⟨hn.1, fun hr => hn.2.1 ?_, hn.2.2⟩
    obtain ⟨m', hm'⟩ := hasKey_iff.1 hr
    exact hasKey_iff.2 ⟨m', contains_insert.2 (.inr hm')⟩
  | BigVectorNoLongerReferenced id => exact Declared.bigVectorNoLongerReferenced hl h hc
  | BigVectorsInFlight ids refcount hash => exact Declared.bigVectorsInFlight hl h hc
  | _ => exact hpages

/-- A call that orphans no last reference leaks no vector. -/
theorem Declared.handle (hc : o.tracker.OrphansNoLastReference op) :
    wp (handle op) (fun _ => Declared v) (fun _ _ => True) o := by
  cases op with
  | addMachine m =>
    simp only [SystemwidePageRefcountTracker.handle, addMachine, onPagesOnMachines, PagesOnMachines.addMachine, wp_bind,
      wp_self, wp_ite, wp_pure, wp_onPart, wp_get, wp_lassert, wp_modify]
    split
    · exact h
    · split
      · exact h
      · trivial
  | dropMachine m => exact h.dropMachine hl hc
  | consumePageEvent e m => exact h.consumePageEvent hl e hc
  | teardown | layoutsChanged => exact h

end

end

/-! ## Runs -/

/-- One call that returns. -/
def call (o : ObservedTracker) (op : Op) : Option ObservedTracker := returned (handle op) o

end SystemwidePageRefcountTracker
