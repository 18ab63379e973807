import Ufora.Pages.Unpinning

/-!
# The last copy of a page

A machine that has a request of its own pending gives no leave to unpin, and one that gives leave has
pinned the page before. So the machine that gave the last leave, if it has not been given leave since,
has the page pinned, unless the page is on disk somewhere.
-/

open Finset Function List MapWithIndex Nat Cumulus.PagePins

namespace Cumulus.PagePins

open Fora

variable {s : PagePins} {p q : PageId}

theorem pageIsInRamAndPinned_iff : s.pageIsInRamAndPinned p = true ↔ p ∈ s.mPagesInRam ∧ p ∉ s.mPagesUnpinned := by
  simp [pageIsInRamAndPinned]

theorem pageIsInRamAndUnpinned_iff : s.pageIsInRamAndUnpinned p = true ↔ p ∈ s.mPagesInRam ∧ p ∈ s.mPagesUnpinned := by
  simp [pageIsInRamAndUnpinned]

theorem pageMarkedUnpinned_of_ne (h : p ≠ q) (hp : s.pageIsInRamAndPinned p = true) :
    (s.pageMarkedUnpinned q).pageIsInRamAndPinned p = true := by
  unfold pageMarkedUnpinned
  split
  · rw [pageIsInRamAndPinned_iff] at hp ⊢
    exact ⟨hp.1, by simpa [h] using hp.2⟩
  · exact hp

theorem pageMarkedPinned_pinned (hp : s.pageIsInRamAndPinned p = true) :
    (s.pageMarkedPinned q).pageIsInRamAndPinned p = true := by
  unfold pageMarkedPinned
  split
  · rw [pageIsInRamAndPinned_iff] at hp ⊢
    exact ⟨hp.1, fun h => hp.2 (mem_of_mem_erase h)⟩
  · exact hp

theorem pinPageIfInRAM_pinned (hp : s.pageIsInRamAndPinned p = true) :
    (s.pinPageIfInRAM q).pageIsInRamAndPinned p = true := by
  unfold pinPageIfInRAM
  split
  · exact hp
  · exact pageMarkedPinned_pinned hp

/-- A page in RAM is pinned afterwards. -/
theorem pinPageIfInRAM_self (hp : p ∈ s.mPagesInRam) : (s.pinPageIfInRAM p).pageIsInRamAndPinned p = true := by
  unfold pinPageIfInRAM
  rw [if_neg (not_not.2 hp)]
  unfold pageMarkedPinned
  split
  · exact pageIsInRamAndPinned_iff.2 ⟨hp, notMem_erase p _⟩
  · rename_i h
    refine pageIsInRamAndPinned_iff.2 ⟨hp, fun hunpinned => h ?_⟩
    exact pageIsInRamAndUnpinned_iff.2 ⟨hp, hunpinned⟩

theorem pageAddedToRAM_pinned (hp : s.pageIsInRamAndPinned p = true) :
    (s.pageAddedToRAM q).pageIsInRamAndPinned p = true := by
  unfold pageAddedToRAM
  split
  · exact hp
  · rw [pageIsInRamAndPinned_iff] at hp ⊢
    exact ⟨mem_insert_of_mem hp.1, fun h => hp.2 (mem_of_mem_erase h)⟩

theorem pageDroppedFromRam_of_ne (h : p ≠ q) (hp : s.pageIsInRamAndPinned p = true) :
    (s.pageDroppedFromRam q).pageIsInRamAndPinned p = true := by
  unfold pageDroppedFromRam
  split
  · exact hp
  · rw [pageIsInRamAndPinned_iff] at hp ⊢
    exact ⟨mem_erase.2 ⟨h, hp.1⟩, fun h => hp.2 (mem_of_mem_erase h)⟩

theorem mPagesOnDisk_pageMarkedUnpinned : (s.pageMarkedUnpinned q).mPagesOnDisk = s.mPagesOnDisk := by
  unfold pageMarkedUnpinned
  split <;> rfl

theorem mPagesOnDisk_pageMarkedPinned : (s.pageMarkedPinned q).mPagesOnDisk = s.mPagesOnDisk := by
  unfold pageMarkedPinned
  split <;> rfl

theorem mPagesOnDisk_pinPageIfInRAM : (s.pinPageIfInRAM q).mPagesOnDisk = s.mPagesOnDisk := by
  unfold pinPageIfInRAM
  split
  · rfl
  · exact mPagesOnDisk_pageMarkedPinned

theorem mPagesOnDisk_pageAddedToRAM : (s.pageAddedToRAM q).mPagesOnDisk = s.mPagesOnDisk := by
  unfold pageAddedToRAM
  split <;> rfl

theorem mPagesOnDisk_pageDroppedFromRam : (s.pageDroppedFromRam q).mPagesOnDisk = s.mPagesOnDisk := by
  unfold pageDroppedFromRam
  split <;> rfl

end Cumulus.PagePins

namespace Cumulus.PageSynchronizers

open Fora Ordered

variable {MachineId : Type} [DecidableEq MachineId] {s t : PageSynchronizers MachineId}
  {i j : MachineId} {p q : PageId}

/-- The machine has the page pinned in RAM. -/
def PinnedOn (s : PageSynchronizers MachineId) (p : PageId) (i : MachineId) : Prop :=
  (s.machines i).mPageRefcountTracker.pageIsInRamAndPinned p = true

/-- The page is on the machine's disk. -/
def OnDiskOf (s : PageSynchronizers MachineId) (p : PageId) (i : MachineId) : Prop :=
  p ∈ (s.machines i).mPageRefcountTracker.mPagesOnDisk

/-- A page that has not been dropped across the system is pinned somewhere or on disk somewhere. -/
def Held (p : PageId) (s : PageSynchronizers MachineId) : Prop :=
  (∀ i, p ∉ (s.machines i).mPagesDroppedAcrossEntireSystem) → (∃ i, s.PinnedOn p i) ∨ ∃ i, s.OnDiskOf p i

/-- The message is a request of the machine for the page, or the response to one. -/
def Concerns (i : MachineId) (p : PageId) (msg : UnpinMessage MachineId) : Bool :=
  match msg.contents with
  | .UnpinRequest pageId => msg.sourceMachine = i ∧ pageId = p
  | .UnpinResponse pageId _ => msg.destMachine = i ∧ pageId = p

/-- Leave to unpin the page is on its way to the machine. -/
def Granted (s : PageSynchronizers MachineId) (p : PageId) (i : MachineId) : Prop :=
  ∃ msg ∈ s.messages, msg.destMachine = i ∧ msg.contents = .UnpinResponse p true

/-- What holds of a page in every state: at most the message for the request that is pending is in
flight, and the page is pinned where no leave to unpin it is on its way to, or on disk. -/
structure Inv (p : PageId) (s : PageSynchronizers MachineId) : Prop where
  known : ∀ i q, q ∈ (s.machines i).pagesAnywhereOnDisk → ∃ j, s.OnDiskOf q j
  others : ∀ msg ∈ s.messages, msg.sourceMachine ≠ msg.destMachine
  pending : ∀ i, s.messages.countP (Concerns i p) ≤ if (s.machines i).mPendingUnpinRequests.hasKey p then 1 else 0
  held : (∀ i, p ∉ (s.machines i).mPagesDroppedAcrossEntireSystem) →
    (∃ i, s.PinnedOn p i ∧ ¬ s.Granted p i) ∨ ∃ i, s.OnDiskOf p i

theorem Inv.heldAnywhere (h : s.Inv p) : s.Held p := fun hdropped =>
  (h.held hdropped).imp_left fun ⟨i, hi, _⟩ => ⟨i, hi⟩

/-! ## Changes of one machine -/

section
variable {f : PageSynchronizer MachineId → PageSynchronizer MachineId}

@[simp] theorem machines_modify_self : (s.modify i f).machines i = f (s.machines i) := update_self ..

theorem machines_modify_of_ne (h : j ≠ i) : (s.modify i f).machines j = s.machines j := update_of_ne h ..

/-- What holds of the changed machine and of the others as they were holds of all. -/
theorem forall_machines_modify {P : MachineId → PageSynchronizer MachineId → Prop}
    (hi : P i (f (s.machines i))) (hs : ∀ j, P j (s.machines j)) (j : MachineId) :
    P j ((s.modify i f).machines j) := by
  by_cases h : j = i
  · subst h
    rw [machines_modify_self]
    exact hi
  · rw [machines_modify_of_ne h]
    exact hs j

@[simp] theorem mPendingUnpinRequests_modifyPins {f : PagePins → PagePins} :
    ((s.modifyPins i f).machines j).mPendingUnpinRequests = (s.machines j).mPendingUnpinRequests := by
  unfold modifyPins
  by_cases hj : j = i
  · subst hj
    rw [machines_modify_self]
  · rw [machines_modify_of_ne hj]

theorem onDiskOf_modify (hf : (s.machines i).mPageRefcountTracker.mPagesOnDisk ⊆
      (f (s.machines i)).mPageRefcountTracker.mPagesOnDisk) (h : s.OnDiskOf q j) : (s.modify i f).OnDiskOf q j := by
  unfold OnDiskOf at h ⊢
  by_cases hj : j = i
  · subst hj
    rw [machines_modify_self]
    exact hf h
  · rwa [machines_modify_of_ne hj]

section
variable (hdropped : p ∈ (s.machines i).mPagesDroppedAcrossEntireSystem →
    p ∈ (f (s.machines i)).mPagesDroppedAcrossEntireSystem)
  (hknown : ∀ q ∈ (f (s.machines i)).pagesAnywhereOnDisk, q ∈ (s.machines i).pagesAnywhereOnDisk ∨ ∃ j, s.OnDiskOf q j)
  (honDisk : (s.machines i).mPageRefcountTracker.mPagesOnDisk ⊆ (f (s.machines i)).mPageRefcountTracker.mPagesOnDisk)
include hdropped hknown honDisk

/-- A machine takes messages and changes, and a page that it has pinned stays pinned there, unless it
had leave to unpin it, or the page is on disk or dropped across the system. -/
theorem Inv.receive {l : List (UnpinMessage MachineId)} (h : s.Inv p) (hl : l.Sublist s.messages)
    (hpending : l.countP (Concerns i p) ≤ if (f (s.machines i)).mPendingUnpinRequests.hasKey p then 1 else 0)
    (hpinned : s.PinnedOn p i → ¬ s.Granted p i → p ∉ (f (s.machines i)).mPagesDroppedAcrossEntireSystem →
      (∃ j, s.OnDiskOf p j) ∨ (f (s.machines i)).mPageRefcountTracker.pageIsInRamAndPinned p = true) :
    Inv p ({ s with messages := l }.modify i f) := by
  constructor
  case known =>
    refine forall_machines_modify (P := fun j m => ∀ q, q ∈ m.pagesAnywhereOnDisk →
      ∃ j, (s.modify i f).OnDiskOf q j) (fun q hq => ?_) fun j q hq => ?_
    · obtain hq | ⟨j, hj⟩ := hknown q hq
      · obtain ⟨j, hj⟩ := h.known i q hq
        exact ⟨j, onDiskOf_modify honDisk hj⟩
      · exact ⟨j, onDiskOf_modify honDisk hj⟩
    · obtain ⟨k, hk⟩ := h.known j q hq
      exact ⟨k, onDiskOf_modify honDisk hk⟩
  case others => exact fun msg hmem => h.others msg (hl.subset hmem)
  case pending =>
    exact forall_machines_modify (P := fun j m => l.countP (Concerns j p) ≤
      if m.mPendingUnpinRequests.hasKey p then 1 else 0) hpending
      fun j => le_trans hl.countP_le (h.pending j)
  case held =>
    intro hnot
    have hself := hnot i
    rw [machines_modify_self] at hself
    have hnot' j : p ∉ (s.machines j).mPagesDroppedAcrossEntireSystem := by
      by_cases hj : j = i
      · subst hj
        exact fun hp => hself (hdropped hp)
      · have hother := hnot j
        rwa [machines_modify_of_ne hj] at hother
    obtain ⟨j, hj, hgranted⟩ | ⟨j, hj⟩ := h.held hnot'
    · have hgranted' : ¬ Granted ({ s with messages := l }.modify i f) p j :=
        fun ⟨msg, hmem, hmsg⟩ => hgranted ⟨msg, hl.subset hmem, hmsg⟩
      by_cases hji : j = i
      · subst hji
        obtain ⟨k, hk⟩ | hpin := hpinned hj hgranted hself
        · exact .inr ⟨k, onDiskOf_modify honDisk hk⟩
        · refine .inl ⟨j, ?_, hgranted'⟩
          unfold PinnedOn
          rwa [machines_modify_self]
      · refine .inl ⟨j, ?_, hgranted'⟩
        unfold PinnedOn at hj ⊢
        rwa [machines_modify_of_ne hji]
    · exact .inr ⟨j, onDiskOf_modify honDisk hj⟩

/-- A machine changes. -/
theorem Inv.modify (h : s.Inv p)
    (hpending : s.messages.countP (Concerns i p) ≤ if (f (s.machines i)).mPendingUnpinRequests.hasKey p then 1 else 0)
    (hpinned : s.PinnedOn p i → p ∉ (f (s.machines i)).mPagesDroppedAcrossEntireSystem → (∃ j, s.OnDiskOf p j) ∨
      (f (s.machines i)).mPageRefcountTracker.pageIsInRamAndPinned p = true) : (s.modify i f).Inv p :=
  h.receive hdropped hknown honDisk (List.Sublist.refl _) hpending fun hpin _ => hpinned hpin

end

/-- Two changes of one machine are one. -/
theorem modify_modify {g : PageSynchronizer MachineId → PageSynchronizer MachineId} :
    (s.modify i f).modify i g = s.modify i (g ∘ f) := by
  unfold PageSynchronizers.modify
  simp only [update_self, update_idem, Function.comp]

/-- Only the pages that a machine has change. -/
theorem Inv.modifyPins (h : s.Inv p) {f : PagePins → PagePins}
    (honDisk : (s.machines i).mPageRefcountTracker.mPagesOnDisk ⊆
      (f (s.machines i).mPageRefcountTracker).mPagesOnDisk)
    (hpinned : s.PinnedOn p i → p ∉ (s.machines i).mPagesDroppedAcrossEntireSystem → (∃ j, s.OnDiskOf p j) ∨
        (f (s.machines i).mPageRefcountTracker).pageIsInRamAndPinned p = true) :
    (s.modifyPins i f).Inv p :=
  h.modify id (fun _ => .inl) honDisk (h.pending i) hpinned

end

theorem Inv.pinPageIfInRAM (h : s.Inv p) : (s.modifyPins i (·.pinPageIfInRAM q)).Inv p :=
  h.modifyPins (PagePins.mPagesOnDisk_pinPageIfInRAM ▸ Finset.Subset.refl _)
    fun hpin _ => .inr (pinPageIfInRAM_pinned hpin)

section
variable (hq : q ∈ (s.machines i).mPagesDroppedAcrossEntireSystem ∨
  (s.machines i).mPageRefcountTracker.pageIsInRamAndUnpinned q = true)
include hq

/-- A page is dropped from RAM where it is not pinned, or is dropped across the system. -/
theorem Inv.pageDroppedFromRam (h : s.Inv p) : (s.modifyPins i (·.pageDroppedFromRam q)).Inv p := by
  refine h.modifyPins (PagePins.mPagesOnDisk_pageDroppedFromRam ▸ Finset.Subset.refl _) fun hpin hnot => .inr ?_
  by_cases hpq : p = q
  · subst hpq
    have hunpinned := hq.resolve_left hnot
    exact absurd (pageIsInRamAndUnpinned_iff.1 hunpinned).2 (pageIsInRamAndPinned_iff.1 hpin).2
  · exact pageDroppedFromRam_of_ne hpq hpin

theorem Inv.dropPageWithoutWritingToDisk {success : Bool} (h : s.Inv p) :
    (s.dropPageWithoutWritingToDisk i q success).Inv p := by
  unfold PageSynchronizers.dropPageWithoutWritingToDisk
  split
  · exact h.pageDroppedFromRam hq
  · exact h

end

/-! ## Requests -/

variable {msg : UnpinMessage MachineId}

theorem not_granted_send
    (hmsg : msg.destMachine = i → msg.contents ≠ .UnpinResponse p true) (h : ¬ s.Granted p i) :
    ¬ (s.sendSynchronizerToSynchronizerMessage msg).Granted p i := by
  rintro ⟨msg', hmem, hdest, hcontents⟩
  obtain hmem | hmem := mem_append.1 hmem
  · exact h ⟨msg', hmem, hdest, hcontents⟩
  · obtain rfl := List.mem_singleton.1 hmem
    exact hmsg hdest hcontents

/-- A message that does not concern the page, or concerns it with the only request that is pending,
and is sent with no leave or by a machine that has the page pinned and has no request pending. -/
theorem Inv.send (h : s.Inv p) (hne : msg.sourceMachine ≠ msg.destMachine)
    (hpending : ∀ i, Concerns i p msg = true → s.messages.countP (Concerns i p) + 1 ≤
        if (s.machines i).mPendingUnpinRequests.hasKey p then 1 else 0)
    (hgrant : msg.contents = .UnpinResponse p true → s.PinnedOn p msg.sourceMachine ∧ ¬ s.Granted p msg.sourceMachine) :
    (s.sendSynchronizerToSynchronizerMessage msg).Inv p := by
  constructor
  case known => exact h.known
  case others =>
    intro msg' hmem
    obtain hmem | hmem := mem_append.1 hmem
    · exact h.others msg' hmem
    · obtain rfl := List.mem_singleton.1 hmem
      exact hne
  case pending =>
    intro i
    show (s.messages ++ [msg]).countP _ ≤ _
    rw [countP_append, countP_singleton]
    split
    · next hmsg => exact hpending i hmsg
    · exact h.pending i
  case held =>
    intro hnot
    by_cases hmsg : msg.contents = .UnpinResponse p true
    · obtain ⟨hpin, hgranted⟩ := hgrant hmsg
      exact .inl ⟨_, hpin, not_granted_send (fun hdest => absurd hdest.symm hne) hgranted⟩
    · refine (h.held hnot).imp_left fun ⟨i, hi, hgranted⟩ => ⟨i, hi, ?_⟩
      exact not_granted_send (fun _ => hmsg) hgranted

variable {picked : Option MachineId}

theorem Inv.tryToUnpinPage_ (h : s.Inv p) : (s.tryToUnpinPage_ i q picked).Inv p := by
  unfold PageSynchronizers.tryToUnpinPage_
  dsimp only
  split
  · exact h
  rename_i hnone
  split
  · rename_i hdisk
    refine h.modifyPins (PagePins.mPagesOnDisk_pageMarkedUnpinned ▸ Finset.Subset.refl _) fun hpin _ => ?_
    by_cases hpq : p = q
    · subst hpq
      exact .inl (h.known i p hdisk.1)
    · exact .inr (pageMarkedUnpinned_of_ne hpq hpin)
  split
  · exact h
  rename_i machine hpicked
  have hne : machine ≠ i := by
    simpa using (Option.filter_eq_some_iff.1 hpicked).2
  have hset : s.messages.countP (Concerns i p) ≤
      if ((s.machines i).mPendingUnpinRequests.set q machine).hasKey p then 1 else 0 := by
    refine (h.pending i).trans ?_
    by_cases hp : (s.machines i).mPendingUnpinRequests.hasKey p
    · rw [if_pos hp, if_pos (hasKey_set.2 (.inr hp))]
    · rw [if_neg hp]
      exact zero_le _
  have hmodify := h.modify (f := fun m => { m with mPendingUnpinRequests := m.mPendingUnpinRequests.set q machine })
    id (fun _ => .inl) (Finset.Subset.refl _) hset fun hpin _ => .inr hpin
  refine hmodify.send (fun heq => hne heq.symm) (fun j hj => ?_) fun hcontents => by cases hcontents
  obtain ⟨rfl, rfl⟩ : i = j ∧ q = p := by simpa [Concerns] using hj
  have hzero := h.pending i
  rw [if_neg hnone] at hzero
  rw [machines_modify_self, if_pos (hasKey_set.2 (.inl rfl))]
  exact succ_le_succ hzero

/-! ## Messages -/

theorem countP_erase_add {l : List (UnpinMessage MachineId)} (h : msg ∈ l) (f : UnpinMessage MachineId → Bool) :
    (l.erase msg).countP f + (if f msg then 1 else 0) = l.countP f := by
  rw [(perm_cons_erase h).countP_eq, countP_cons]

/-- A message that is taken from those in flight. -/
theorem Inv.erase (h : s.Inv p) (msg : UnpinMessage MachineId) : Inv p { s with messages := s.messages.erase msg } where
  known := h.known
  others msg' hmem := h.others msg' (mem_of_mem_erase hmem)
  pending i := (erase_sublist.countP_le).trans (h.pending i)
  held hnot := (h.held hnot).imp_left fun ⟨i, hi, hgranted⟩ =>
    ⟨i, hi, fun ⟨msg', hmem, hmsg⟩ => hgranted ⟨msg', mem_of_mem_erase hmem, hmsg⟩⟩

theorem not_granted_of_countP (h : s.messages.countP (Concerns i p) = 0) : ¬ s.Granted p i := by
  rintro ⟨msg, hmem, hdest, hcontents⟩
  refine countP_eq_zero.1 h msg hmem ?_
  simp [Concerns, hdest, hcontents]

/-- A request is answered. -/
theorem Inv.handleUnpinRequest (h : s.Inv p) {source : MachineId} (hmem : ⟨source, i, .UnpinRequest q⟩ ∈ s.messages) :
    (handleUnpinRequest { s with messages := s.messages.erase ⟨source, i, .UnpinRequest q⟩ } i source q).Inv p := by
  have herase := h.erase ⟨source, i, .UnpinRequest q⟩
  have hne : i ≠ source := fun heq => h.others _ hmem heq.symm
  have hpending (mayUnpin : Bool) (j : MachineId)
      (hj : Concerns j p ⟨i, source, .UnpinResponse q mayUnpin⟩ = true) :
      (s.messages.erase ⟨source, i, .UnpinRequest q⟩).countP (Concerns j p) + 1 ≤
        if (s.machines j).mPendingUnpinRequests.hasKey p then 1 else 0 := by
    have hcount := countP_erase_add hmem (Concerns j p)
    rw [if_pos (by simpa [Concerns] using hj)] at hcount
    exact hcount ▸ h.pending j
  unfold PageSynchronizers.handleUnpinRequest
  dsimp only
  split
  · exact herase.send hne (hpending false) fun hcontents => by cases hcontents
  rename_i hnone
  split
  · exact herase.send hne (hpending false) fun hcontents => by cases hcontents
  rename_i hram
  refine herase.pinPageIfInRAM.send hne (fun j hj => ?_) fun hcontents => ?_
  · refine (hpending true j hj).trans ?_
    rw [mPendingUnpinRequests_modifyPins]
  · cases hcontents
    constructor
    · unfold PinnedOn PageSynchronizers.modifyPins
      rw [machines_modify_self]
      exact pinPageIfInRAM_self (not_not.1 hram)
    · refine not_granted_of_countP ?_
      have hzero := herase.pending i
      rw [if_neg hnone] at hzero
      exact le_zero.1 hzero

/-- A response is taken. -/
theorem Inv.handleUnpinResponse {mayUnpin success : Bool} (h : s.Inv p)
    {src : MachineId} (hmem : ⟨src, i, .UnpinResponse q mayUnpin⟩ ∈ s.messages) :
    (handleUnpinResponse
      { s with messages := s.messages.erase ⟨src, i, .UnpinResponse q mayUnpin⟩ } i src q
      mayUnpin picked success).Inv p := by
  unfold PageSynchronizers.handleUnpinResponse
  dsimp only
  split
  · exact h.erase _
  have hdiscard : (s.messages.erase ⟨src, i, .UnpinResponse q mayUnpin⟩).countP (Concerns i p) ≤
      if ((s.machines i).mPendingUnpinRequests.discard q).hasKey p then 1 else 0 := by
    have hcount := countP_erase_add hmem (Concerns i p)
    have hpending := h.pending i
    have hkey : ((s.machines i).mPendingUnpinRequests.discard q).hasKey p ↔
        p ≠ q ∧ (s.machines i).mPendingUnpinRequests.hasKey p := hasKey_discard
    by_cases hpq : p = q
    · subst hpq
      rw [if_pos (by simp [Concerns])] at hcount
      split at hpending <;> omega
    · rw [if_congr (hkey.trans (and_iff_right hpq)) rfl rfl]
      exact le_trans (le_of_add_right_le hcount.le) hpending
  cases mayUnpin
  case true =>
    rw [if_pos rfl]
    have hunpinned : Inv p ((PageSynchronizers.modify
        { s with messages := s.messages.erase ⟨src, i, .UnpinResponse q true⟩ } i fun m =>
          { m with mPendingUnpinRequests := m.mPendingUnpinRequests.discard q }).modifyPins i
            (·.pageMarkedUnpinned q)) := by
      unfold PageSynchronizers.modifyPins
      rw [modify_modify]
      refine h.receive id (fun _ => .inl) (PagePins.mPagesOnDisk_pageMarkedUnpinned ▸ Finset.Subset.refl _)
        erase_sublist hdiscard
        fun hpin hgranted _ => .inr (PagePins.pageMarkedUnpinned_of_ne (fun hpq => ?_) hpin)
      subst hpq
      exact hgranted ⟨_, hmem, rfl, rfl⟩
    split
    · next hdrop => exact hunpinned.dropPageWithoutWritingToDisk (.inr hdrop.2)
    · exact hunpinned
  case false =>
    have hpinned : Inv p ((PageSynchronizers.modify
        { s with messages := s.messages.erase ⟨src, i, .UnpinResponse q false⟩ } i fun m =>
          { m with mPendingUnpinRequests := m.mPendingUnpinRequests.discard q }).modifyPins i
            (·.pageMarkedPinned q)) := by
      unfold PageSynchronizers.modifyPins
      rw [modify_modify]
      exact h.receive id (fun _ => .inl) (PagePins.mPagesOnDisk_pageMarkedPinned ▸ Finset.Subset.refl _)
        erase_sublist hdiscard
        fun hpin _ _ => .inr (PagePins.pageMarkedPinned_pinned hpin)
    rw [if_neg Bool.false_ne_true]
    split
    · exact hpinned.tryToUnpinPage_
    · exact hpinned

/-- A message is handled. -/
theorem Inv.handleSynchronizerToSynchronizerMessage {msg : UnpinMessage MachineId} {success : Bool} (h : s.Inv p) :
    (s.handleSynchronizerToSynchronizerMessage msg picked success).Inv p := by
  obtain ⟨source, dest, contents⟩ := msg
  unfold PageSynchronizers.handleSynchronizerToSynchronizerMessage
  split
  · rename_i hmem
    cases contents with
    | UnpinRequest pageId => exact h.handleUnpinRequest hmem
    | UnpinResponse pageId mayUnpin => exact h.handleUnpinResponse hmem
  · exact h

/-! ## Desired contents -/

/-- What each step of a loop keeps the loop keeps. -/
theorem Inv.foldl {f : PageSynchronizers MachineId → PageId → PageSynchronizers MachineId}
    (hf : ∀ s q, s.Inv p → (f s q).Inv p) (l : List PageId) (h : s.Inv p) : (l.foldl f s).Inv p := by
  induction l generalizing s with
  | nil => exact h
  | cons q l ih => exact ih (hf s q h)

/-- The pages that the scheduler wants are set. -/
theorem Inv.handleSetDesiredContents_ {targetPages currentPages activePages : Finset PageId}
    {picked : PageId → Option MachineId} {success : PageId → Bool} (h : s.Inv p) :
    (s.handleSetDesiredContents_ i targetPages currentPages activePages picked success).Inv p := by
  unfold PageSynchronizers.handleSetDesiredContents_
  dsimp only
  refine Inv.foldl (fun s q h => ?_) _ ?_
  · split
    · next hq => exact h.dropPageWithoutWritingToDisk hq.2.2.symm
    · exact h
  · refine Inv.foldl (fun s q h => h.pinPageIfInRAM) _ ?_
    refine Inv.foldl (fun s q h => ?_) _ ?_
    · split
      · exact h.tryToUnpinPage_
      · exact h
    · exact h.modify id (fun _ => .inl) (Finset.Subset.refl _) (h.pending i) fun hpin _ => .inr hpin

/-! ## Runs -/

/-- Every step keeps what holds of a page. -/
theorem Inv.step {step : Step MachineId} (h : s.Inv p) : (s.step step).Inv p := by
  cases step with
  | SetDesiredContents i targetPages currentPages activePages picked success =>
    exact h.handleSetDesiredContents_
  | deliver message picked success => exact h.handleSynchronizerToSynchronizerMessage
  | PageAddedToRam i page picked =>
    simp only [PageSynchronizers.step, checkIfPageWantsToBeUnpinnedLocally_]
    split
    · split
      · exact h.tryToUnpinPage_
      · exact h
    · exact h
  | PageAddedToDisk i onMachineId page =>
    simp only [PageSynchronizers.step]
    split
    · rename_i hpage
      refine h.modify id (fun q hq => ?_) (Finset.Subset.refl _) (h.pending i) fun hpin _ => .inr hpin
      obtain rfl | hq := mem_insert.1 hq
      · exact .inr ⟨onMachineId, hpage⟩
      · exact .inl hq
    · exact h
  | pageNoLongerReferencedAcrossSystem i page =>
    simp only [PageSynchronizers.step]
    exact h.modify mem_insert_of_mem (fun _ => .inl) (Finset.Subset.refl _) (h.pending i) fun hpin _ => .inr hpin
  | pageAddedToRAM i page =>
    simp only [PageSynchronizers.step]
    exact h.modifyPins (PagePins.mPagesOnDisk_pageAddedToRAM ▸ Finset.Subset.refl _)
      fun hpin _ => .inr (pageAddedToRAM_pinned hpin)
  | dropUnpinnedPage i page =>
    simp only [PageSynchronizers.step]
    split
    · next hunpinned => exact h.pageDroppedFromRam (.inr hunpinned)
    · exact h
  | pageSentToDisk i page =>
    simp only [PageSynchronizers.step]
    exact h.modifyPins (subset_insert _ _) fun hpin _ => .inr hpin
  | pageIsNotLoadable i page =>
    simp only [PageSynchronizers.step]
    exact h.modify id (fun _ => .inl) (Finset.Subset.refl _) (h.pending i) fun hpin _ => .inr hpin

/-- Where no message is in flight and no disk is thought to hold what it does not, all of it holds of
a page that is pinned on some machine. -/
theorem Inv.init (hmessages : s.messages = [])
    (hknown : ∀ i q, q ∈ (s.machines i).pagesAnywhereOnDisk → ∃ j, s.OnDiskOf q j)
    (hpinned : ∃ i, s.PinnedOn p i) : s.Inv p := by
  constructor
  case known => exact hknown
  case others => simp [hmessages]
  case pending => simp [hmessages]
  case held =>
    obtain ⟨i, hi⟩ := hpinned
    refine fun _ => .inl ⟨i, hi, fun ⟨msg, hmem, _⟩ => ?_⟩
    rw [hmessages] at hmem
    exact absurd hmem not_mem_nil

/-- A page that is pinned on some machine, while no message is in flight, is pinned somewhere or on
disk somewhere in every state of a run, until it is dropped across the system. -/
theorem always_held (s : PageSynchronizers MachineId) (p : PageId) (steps : List (Step MachineId))
    (hmessages : s.messages = []) (hknown : ∀ i q, q ∈ (s.machines i).pagesAnywhereOnDisk → ∃ j, s.OnDiskOf q j)
    (hpinned : ∃ i, s.PinnedOn p i) : Run.Always (Run.total step) (Held p) s steps := by
  have hinv : Run.Always (Run.total PageSynchronizers.step) (Inv p) s steps :=
    Run.always (.init hmessages hknown hpinned) fun s step s' h hs => by
      obtain rfl := Run.total_eq_some.1 hs
      exact h.step
  exact hinv.mono fun _ h => h.heldAnywhere

/-- Two machines that have one page pinned. -/
def pinnedTwice : PageSynchronizers Bool where
  machines _ := { mPageRefcountTracker := { mPagesInRam := {⟨0, 0, 0⟩} } }

/-- Both ask to unpin, both refuse, one asks again and the other one, which has given up, grants. -/
def unpinTwice : List (Step Bool) := [.SetDesiredContents false ∅ ∅ ∅ (fun _ => some true) fun _ => true,
    .SetDesiredContents true ∅ ∅ ∅ (fun _ => some false) fun _ => true,
    .deliver ⟨false, true, .UnpinRequest ⟨0, 0, 0⟩⟩ none true,
    .deliver ⟨true, false, .UnpinRequest ⟨0, 0, 0⟩⟩ none true,
    .deliver ⟨true, false, .UnpinResponse ⟨0, 0, 0⟩ false⟩ (some true) true,
    .deliver ⟨false, true, .UnpinResponse ⟨0, 0, 0⟩ false⟩ none true,
    .deliver ⟨false, true, .UnpinRequest ⟨0, 0, 0⟩⟩ none true,
    .deliver ⟨true, false, .UnpinResponse ⟨0, 0, 0⟩ true⟩ none true]

/-- One of the machines keeps the page. -/
theorem always_held_unpinTwice : Run.Always (Run.total step) (Held ⟨0, 0, 0⟩) pinnedTwice unpinTwice :=
  always_held pinnedTwice ⟨0, 0, 0⟩ unpinTwice rfl (fun _ _ hq => absurd hq (notMem_empty _)) ⟨false, rfl⟩

example : ((unpinTwice.foldl step pinnedTwice).machines false).mPageRefcountTracker.mPagesInRam = ∅ ∧
    ((unpinTwice.foldl step pinnedTwice).machines true).mPageRefcountTracker.mPagesInRam = {⟨0, 0, 0⟩} := by decide

end Cumulus.PageSynchronizers
