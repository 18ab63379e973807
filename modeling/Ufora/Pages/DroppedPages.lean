import Ufora.Pages.Tables

/-!
# The references of dropped internal pages

An internal page that the system dropped is dead: `markInternalPageDropped` forgets the vectors that
the page referenced and remembers the page, so that a late event cannot bring its references back.
`PageReferencedBigvecs` looks at the pages so remembered, `PageAddedToRam` does not.
`always_unreferenced_iff` says for which runs a dropped page stays without references.
-/

open Ordered Run Effect Fora Cumulus

namespace PagesOnMachines

/-- A call on a `PagesOnMachines`: an operation on machines and pages, or the drop of an internal
page. -/
inductive Call where
  | op (op : Op)
  | markInternalPageDropped (page : PageId)

/-- The state a call leaves, also where an assertion fails. -/
def call (s : PagesOnMachines) : Call → PagesOnMachines
  | .op op => s.step op
  | .markInternalPageDropped page => s.markInternalPageDropped page

/-- The two records of the references of pages agree, and neither has a vector for a dropped
internal page. -/
structure Unreferenced (s : PagesOnMachines) : Prop where
  listed : s.Listed
  dropped : ∀ p ∈ s.mDroppedInternalPages, s.mPageBigvecs.get p = ∅

/-- The call brings no references of a dropped internal page: such a page comes to the RAM of a
machine only with no references, or while there is an entry for its references. -/
def BringsNoReferences (s : PagesOnMachines) : Call → Prop
  | .op (.consumePageEvent (.PageAddedToRam p bigvecs) _) =>
    p ∈ s.mDroppedInternalPages → bigvecs = ∅ ∨ p ∈ s.mPageBigvecs
  | _ => True

section
variable {s : PagesOnMachines} {p q : PageId} {b : Finset BigVectorId} {m : MachineId}

/-! ## One call -/

@[simp] theorem setPageBigvecs_mDroppedInternalPages :
    (s.setPageBigvecs p b).mDroppedInternalPages = s.mDroppedInternalPages := by
  simp only [setPageBigvecs]
  split <;> rfl

/-- The references of a page with no entry are set, and those of the other pages stay. -/
theorem get_setPageBigvecs : (s.setPageBigvecs p b).mPageBigvecs.get q =
    if q = p ∧ p ∉ s.mPageBigvecs then b else s.mPageBigvecs.get q := by
  simp only [setPageBigvecs]
  split
  · next hp => simp [hp]
  · next hp => simp [hp, StdMap.get_insert]

variable (h : s.Unreferenced)
include h

/-- A state that differs in other fields only. -/
theorem Unreferenced.of_eq {s' : PagesOnMachines}
    (hb : s'.mPageBigvecs = s.mPageBigvecs) (hm : s'.mPageBigvecSetMap = s.mPageBigvecSetMap)
    (hd : s'.mDroppedInternalPages = s.mDroppedInternalPages) : s'.Unreferenced := by
  refine ⟨fun p v => ?_, fun p hp => ?_⟩
  · rw [hb, hm]
    exact h.listed p v
  · rw [hb]
    exact h.dropped p (hd ▸ hp)

/-- Recording the references of a page keeps the dropped pages without any exactly when the page is
not one of them, or has none, or has an entry. -/
theorem unreferenced_setPageBigvecs_iff : (s.setPageBigvecs p b).Unreferenced ↔
      (p ∈ s.mDroppedInternalPages → b = ∅ ∨ p ∈ s.mPageBigvecs) := by
  constructor
  · intro h' hp
    have := h'.dropped p (by simpa using hp)
    rw [get_setPageBigvecs] at this
    split at this
    · exact .inl this
    · next hn => exact .inr (by simpa using hn)
  · refine fun hc => ⟨h.listed.setPageBigvecs p b, fun q hq => ?_⟩
    rw [setPageBigvecs_mDroppedInternalPages] at hq
    rw [get_setPageBigvecs]
    split
    · next hqp =>
      obtain ⟨rfl, hn⟩ := hqp
      exact (hc hq).resolve_right hn
    · exact h.dropped q hq

/-- A late `PageReferencedBigvecs` brings no references back. -/
theorem Unreferenced.pageReferencedBigvecs : (s.pageReferencedBigvecs p b).Unreferenced := by
  simp only [PagesOnMachines.pageReferencedBigvecs]
  split
  · exact h
  · next hp => exact (unreferenced_setPageBigvecs_iff h).2 fun hd => absurd hd hp

theorem unreferenced_pageAddedToRam_iff : (s.pageAddedToRam p b m).Unreferenced ↔
      (p ∈ s.mDroppedInternalPages → b = ∅ ∨ p ∈ s.mPageBigvecs) := by
  rw [← unreferenced_setPageBigvecs_iff h, pageAddedToRam_eq]
  refine ⟨fun h' => h'.of_eq rfl rfl ?_, fun h' => h'.of_eq rfl rfl ?_⟩ <;> simp

/-- An event keeps the dropped pages without references exactly when it brings none of theirs. -/
theorem unreferenced_consumePageEvent_iff (e : PageRefcountEvent) :
    (s.consumePageEvent e m).Unreferenced ↔ s.BringsNoReferences (.op (.consumePageEvent e m)) := by
  cases e with
  | PageAddedToRam p b => exact unreferenced_pageAddedToRam_iff h
  | PageReferencedBigvecs p b => exact iff_of_true h.pageReferencedBigvecs trivial
  | PageDroppedFromRam p =>
    refine iff_of_true ?_ trivial
    simp only [consumePageEvent, pageDroppedFromRam_eq]
    exact h.of_eq rfl rfl rfl
  | PageAddedToDisk p =>
    refine iff_of_true ?_ trivial
    simp only [consumePageEvent, pageAddedToDisk_eq]
    exact h.of_eq rfl rfl rfl
  | PageDroppedFromDisk p =>
    refine iff_of_true ?_ trivial
    simp only [consumePageEvent, pageDroppedFromDisk_eq]
    exact h.of_eq rfl rfl rfl
  | PagePinnedStatusChanged p isPinned =>
    cases isPinned <;> exact iff_of_true (h.of_eq rfl rfl rfl) trivial
  | ExecutionIsBlockedChanged isBlocked =>
    cases isBlocked <;> exact iff_of_true (h.of_eq rfl rfl rfl) trivial
  | _ => exact iff_of_true (h.of_eq rfl rfl rfl) trivial

/-- A page that is dropped loses its references. -/
theorem Unreferenced.markInternalPageDropped (p : PageId) : (s.markInternalPageDropped p).Unreferenced := by
  refine ⟨h.listed.markInternalPageDropped p, fun q hq => ?_⟩
  simp only [PagesOnMachines.markInternalPageDropped, StdMap.get_erase, Finset.mem_insert] at hq ⊢
  split
  · rfl
  · next hn => exact h.dropped q (hq.resolve_left hn)

/-- A call keeps the dropped pages without references exactly when it brings none of theirs. -/
theorem unreferenced_call_iff (c : Call) : (s.call c).Unreferenced ↔ s.BringsNoReferences c := by
  cases c with
  | markInternalPageDropped p => exact iff_of_true (h.markInternalPageDropped p) trivial
  | op op =>
    cases op with
    | consumePageEvent e m => exact unreferenced_consumePageEvent_iff h e
    | addMachine m =>
      obtain ⟨_, hs⟩ := step_addMachine (s := s) (m := m)
      refine iff_of_true ?_ trivial
      simp only [call, hs]
      exact h.of_eq rfl rfl rfl
    | dropMachine m =>
      refine iff_of_true ?_ trivial
      by_cases hm : s.hasMachine m
      · simp only [call, step_dropMachine hm]
        exact h.of_eq rfl rfl rfl
      · simpa only [call, step_dropMachine_of_not_hasMachine hm] using h

end

/-! ## Runs -/

theorem unreferenced_empty : Unreferenced {} := ⟨listed_empty, by simp⟩

/-- The two records agree and the dropped pages stay without references throughout a run exactly
when no call of it brings references of a dropped page to the RAM of a machine. -/
theorem always_unreferenced_iff (calls : List Call) : Always (total call) Unreferenced {} calls ↔
      EveryStep (total call) BringsNoReferences {} calls :=
  always_total_iff_everyStep unreferenced_empty fun _ c h => unreferenced_call_iff h c

/-- Whatever the events are, the two records of the references agree. -/
theorem always_listed (calls : List Call) : Always (total call) Listed {} calls := by
  refine always listed_empty fun s c s' h hs => ?_
  obtain rfl := total_eq_some.1 hs
  cases c with
  | markInternalPageDropped p => exact h.markInternalPageDropped p
  | op op =>
    cases op with
    | consumePageEvent e m => exact h.consumePageEvent e m
    | addMachine m =>
      obtain ⟨_, hs⟩ := step_addMachine (s := s) (m := m)
      simp only [call, hs]
      exact h
    | dropMachine m =>
      by_cases hm : s.hasMachine m
      · simp only [call, step_dropMachine hm]
        exact h
      · simpa only [call, step_dropMachine_of_not_hasMachine hm] using h

/-- A page is dropped, and then another machine says that it has loaded it: the page is recorded
with the vector it references. -/
theorem not_always_unreferenced : ¬ Always (total call) Unreferenced {}
    [.markInternalPageDropped ⟨7, 10, 10⟩, .op (.consumePageEvent (.PageAddedToRam ⟨7, 10, 10⟩ {⟨1, 3⟩}) ⟨1⟩)] := by
  intro h
  have := (h.last rfl).dropped ⟨7, 10, 10⟩
  revert this
  decide

end PagesOnMachines
