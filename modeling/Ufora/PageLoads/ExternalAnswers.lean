import Ufora.PageLoads.ExternalDatasets

/-!
# Who waits for an external dataset is answered

Every request that is not answered waits under a task that is outstanding, as long as no page is
dropped between its load and the completion of the task that clients wait for: then the clients are
kept under the task that is completed, and the local requester is forgotten.
-/

open Run Function

namespace Cumulus.PageLoaderImpl

open Ordered List Finset TwoWaySetMap

variable {VectorDataID CumulusClientId : Type} [LinearOrder VectorDataID]
  [LinearOrder CumulusClientId]

/-! ## Requests without an answer -/

section
variable {Message : Type} {request : Message} {answers : Message → Prop} {l l' : List Message}

/-- A request after which there is no answer. -/
def Unanswered (request : Message) (answers : Message → Prop) (l : List Message) : Prop :=
  ∃ pre post, l = pre ++ request :: post ∧ ∀ m ∈ post, ¬ answers m

theorem Unanswered.of_append (h : Unanswered request answers (l ++ l')) :
    request ∈ l' ∨ Unanswered request answers l ∧ ∀ m ∈ l', ¬ answers m := by
  obtain ⟨pre, post, heq, hpost⟩ := h
  obtain ⟨mid, rfl, hmid⟩ | ⟨mid, rfl, hmid⟩ := append_eq_append_iff.1 heq
  · rw [hmid]
    exact .inl (mem_append_right _ (.head _))
  · cases mid with
    | nil =>
      rw [nil_append] at hmid
      rw [← hmid]
      exact .inl (.head _)
    | cons m mid =>
      obtain ⟨rfl, rfl⟩ := cons_eq_cons.1 hmid
      exact .inr ⟨⟨pre, mid, rfl, fun m hm => hpost m (mem_append_left _ hm)⟩,
        fun m hm => hpost m (mem_append_right _ hm)⟩

theorem not_unanswered_nil : ¬ Unanswered request answers [] := by
  rintro ⟨pre, post, heq, -⟩
  cases pre <;> cases heq

end

/-- A request for a vector. -/
def isRequest : PageLoaderMessage VectorDataID CumulusClientId → Bool
  | .VectorLoadRequest _ => true
  | .RemoteExternalDatasetLoadRequest _ _ => true
  | _ => false

/-- A response to a client. -/
def RespondsToClient (client : CumulusClientId) (vdid : VectorDataID)
    (msg : PageLoaderMessage VectorDataID CumulusClientId) : Prop :=
  msg = .Data client vdid ∨ ∃ reason, msg = .Failed client vdid reason

/-- A response to the local requester. -/
def RespondsLocally (vdid : VectorDataID) (msg : PageLoaderMessage VectorDataID CumulusClientId) : Prop :=
  ∃ loadSuccessful failureIsTerminal, msg = .VectorLoadedResponse vdid loadSuccessful failureIsTerminal

/-- Every task that someone waits for is outstanding, and when no task is, everyone who has requested
a vector has had a response to it since. -/
structure Answered (s : PageLoaderImpl VectorDataID CumulusClientId) : Prop where
  locally : ∀ taskId ∈ s.mExternalDatasetsRequestedLocally, s.mCurrentExternalIoTasks.hasKey taskId
  byRemoteClients : ∀ taskId, s.mExternalDatasetsRequestedByRemoteClients.hasKey taskId →
    s.mCurrentExternalIoTasks.hasKey taskId
  clients : (∀ taskId, ¬ s.mCurrentExternalIoTasks.hasKey taskId) → ∀ client vdid,
    ¬ Unanswered (.RemoteExternalDatasetLoadRequest client vdid) (RespondsToClient client vdid)
      s.messages
  localRequesters : (∀ taskId, ¬ s.mCurrentExternalIoTasks.hasKey taskId) → ∀ vdid,
    ¬ Unanswered (.VectorLoadRequest vdid) (RespondsLocally vdid) s.messages

/-- When a task that clients wait for has succeeded, the page is still there. -/
def PageStillThere (s : PageLoaderImpl VectorDataID CumulusClientId) : Call VectorDataID CumulusClientId → Prop
  | .externalIoTaskCompleted taskId .Success extracted =>
    s.mCurrentExternalIoTasks.hasKey taskId →
      s.mExternalDatasetsRequestedByRemoteClients.hasKey taskId → extracted = true
  | _ => True

/-- Every task that someone waits for is outstanding. -/
structure Outstanding (s : PageLoaderImpl VectorDataID CumulusClientId) : Prop where
  locally : ∀ taskId ∈ s.mExternalDatasetsRequestedLocally, s.mCurrentExternalIoTasks.hasKey taskId
  byRemoteClients : ∀ taskId, s.mExternalDatasetsRequestedByRemoteClients.hasKey taskId →
    s.mCurrentExternalIoTasks.hasKey taskId

/-- Everyone who has no response yet waits for a task. -/
structure Waiting (s : PageLoaderImpl VectorDataID CumulusClientId) : Prop where
  clients : ∀ client vdid, Unanswered (.RemoteExternalDatasetLoadRequest client vdid) (RespondsToClient client vdid)
      s.messages →
    ∃ taskId, s.mCurrentExternalIoTasks.contains taskId vdid ∧
      s.mExternalDatasetsRequestedByRemoteClients.contains taskId client
  localRequesters : ∀ vdid, Unanswered (.VectorLoadRequest vdid) (RespondsLocally vdid) s.messages →
    ∃ taskId ∈ s.mExternalDatasetsRequestedLocally, s.mCurrentExternalIoTasks.contains taskId vdid

/-- Tasks are for one vector each, and their ids have been generated. -/
structure Generated (gen : ℕ → Hash)
    (s : PageLoaderImpl VectorDataID CumulusClientId) : Prop where
  notTornDown : s.mIsTornDown = false
  one_vector : ∀ taskId vdid vdid', s.mCurrentExternalIoTasks.contains taskId vdid →
    s.mCurrentExternalIoTasks.contains taskId vdid' → vdid = vdid'
  current : ∀ taskId, s.mCurrentExternalIoTasks.hasKey taskId → ∃ n < s.generated, taskId = gen n

variable {s : PageLoaderImpl VectorDataID CumulusClientId} {gen : ℕ → Hash}
  {vdid : VectorDataID} {taskId : ExternalIoTaskId} {extracted : Bool}

theorem Answered.of_waiting (h : s.Outstanding) (hw : s.Waiting) : s.Answered where
  locally := h.locally
  byRemoteClients := h.byRemoteClients
  clients hnone client vdid hu := by
    obtain ⟨taskId, hc, -⟩ := hw.clients client vdid hu
    exact hnone taskId (hasKey_iff.2 ⟨vdid, hc⟩)
  localRequesters hnone vdid hu := by
    obtain ⟨taskId, -, hc⟩ := hw.localRequesters vdid hu
    exact hnone taskId (hasKey_iff.2 ⟨vdid, hc⟩)

/-! ## Requests from the environment -/

/-- What a request from the environment does: the vector has a task then, the one that it had or a
new one. -/
structure Requested (gen : ℕ → Hash)
    (s t : PageLoaderImpl VectorDataID CumulusClientId) (vdid : VectorDataID)
    (taskId : ExternalIoTaskId) : Prop where
  notTornDown : t.mIsTornDown = s.mIsTornDown
  contains : ∀ k v, t.mCurrentExternalIoTasks.contains k v ↔
    k = taskId ∧ v = vdid ∨ s.mCurrentExternalIoTasks.contains k v
  locally : t.mExternalDatasetsRequestedLocally = s.mExternalDatasetsRequestedLocally
  byRemoteClients : t.mExternalDatasetsRequestedByRemoteClients = s.mExternalDatasetsRequestedByRemoteClients
  messages : ∃ l, t.messages = s.messages ++ l ∧ ∀ m ∈ l, m = .ExternalIoTaskCreated taskId vdid
  task : s.mCurrentExternalIoTasks.contains taskId vdid ∧ t.generated = s.generated ∨
    taskId = gen s.generated ∧ t.generated = s.generated + 1

theorem requested_request (gen : ℕ → Hash)
    (s : PageLoaderImpl VectorDataID CumulusClientId) (vdid : VectorDataID) :
    s.Requested gen (s.requestExternalDatasetFromEnvironment_ gen vdid).1
      vdid (s.requestExternalDatasetFromEnvironment_ gen vdid).2 := by
  unfold requestExternalDatasetFromEnvironment_
  cases h : (ascending (s.mCurrentExternalIoTasks.getKeys vdid)).head? with
  | none =>
    exact
      { notTornDown := rfl
        contains := fun k v => contains_insert
        locally := rfl
        byRemoteClients := rfl
        messages := ⟨_, rfl, fun m hm => List.mem_singleton.1 hm⟩
        task := .inr ⟨rfl, rfl⟩ }
  | some taskId =>
    have hc : s.mCurrentExternalIoTasks.contains taskId vdid := mem_getKeys.1 (mem_ascending.1 (mem_of_mem_head? h))
    exact
      { notTornDown := rfl
        contains := fun k v => ⟨.inr, fun h => h.elim (fun h => h.1 ▸ h.2 ▸ hc) id⟩
        locally := rfl
        byRemoteClients := rfl
        messages := ⟨[], (append_nil _).symm, fun m hm => nomatch hm⟩
        task := .inl ⟨hc, rfl⟩ }

namespace Requested

variable {t : PageLoaderImpl VectorDataID CumulusClientId}

variable (h : s.Requested gen t vdid taskId)
include h

theorem hasKey_iff {k : ExternalIoTaskId} :
    t.mCurrentExternalIoTasks.hasKey k ↔ k = taskId ∨ s.mCurrentExternalIoTasks.hasKey k := by
  simp only [TwoWaySetMap.hasKey_iff, h.contains, exists_or, exists_and_left, exists_eq, and_true]

theorem generated (hinj : Injective gen) (hs : s.Generated gen) :
    t.Generated gen where
  notTornDown := h.notTornDown.trans hs.notTornDown
  one_vector k v v' hv hv' := by
    have hsame (w : VectorDataID) (hw : s.mCurrentExternalIoTasks.contains taskId w) : w = vdid := by
      obtain ⟨hc, -⟩ | ⟨heq, -⟩ := h.task
      · exact hs.one_vector taskId w vdid hw hc
      · obtain ⟨n, hn, heq'⟩ := hs.current taskId (TwoWaySetMap.hasKey_iff.2 ⟨w, hw⟩)
        exact absurd (hinj (heq.symm.trans heq')) (Nat.ne_of_gt hn)
    obtain ⟨rfl, rfl⟩ | hv := (h.contains k v).1 hv
    · obtain ⟨-, rfl⟩ | hv' := (h.contains k v').1 hv'
      · rfl
      · exact (hsame v' hv').symm
    · obtain ⟨rfl, rfl⟩ | hv' := (h.contains k v').1 hv'
      · exact hsame v hv
      · exact hs.one_vector k v v' hv hv'
  current k hk := by
    obtain rfl | hk := h.hasKey_iff.1 hk
    · obtain ⟨hc, heq⟩ | ⟨rfl, heq⟩ := h.task
      · rw [heq]
        exact hs.current k (TwoWaySetMap.hasKey_iff.2 ⟨vdid, hc⟩)
      · exact ⟨s.generated, by omega, rfl⟩
    · obtain ⟨n, hn, heq⟩ := hs.current k hk
      obtain ⟨-, hgen⟩ | ⟨-, hgen⟩ := h.task
      · exact ⟨n, by omega, heq⟩
      · exact ⟨n, by omega, heq⟩

/-- Who has no response after the request had none before. -/
theorem of_unanswered {request : PageLoaderMessage VectorDataID CumulusClientId}
    {answers : PageLoaderMessage VectorDataID CumulusClientId → Prop}
    (hne : ∀ k v, request ≠ .ExternalIoTaskCreated k v)
    (hu : Unanswered request answers t.messages) : Unanswered request answers s.messages := by
  obtain ⟨l, heq, hl⟩ := h.messages
  rw [heq] at hu
  obtain hmem | ⟨hu, -⟩ := hu.of_append
  · exact absurd (hl _ hmem) (hne _ _)
  · exact hu

end Requested

/-! ## The calls -/

theorem Generated.message (h : s.Generated gen) (msg : PageLoaderMessage VectorDataID CumulusClientId) :
    (s.message msg).Generated gen :=
  ⟨h.notTornDown, h.one_vector, h.current⟩

theorem Generated.handleVectorLoadRequestOnBackgroundThread
    (hinj : Injective gen) (h : s.Generated gen) :
    (s.handleVectorLoadRequestOnBackgroundThread gen vdid).Generated gen := by
  unfold PageLoaderImpl.handleVectorLoadRequestOnBackgroundThread
  rw [if_neg (by simp [h.notTornDown])]
  have hr := (requested_request gen (s.message (.VectorLoadRequest vdid))
    vdid).generated hinj (h.message _)
  exact ⟨hr.notTornDown, hr.one_vector, hr.current⟩

theorem Outstanding.handleVectorLoadRequestOnBackgroundThread (hdown : s.mIsTornDown = false) (h : s.Outstanding) :
    (s.handleVectorLoadRequestOnBackgroundThread gen vdid).Outstanding := by
  unfold PageLoaderImpl.handleVectorLoadRequestOnBackgroundThread
  rw [if_neg (by simp [hdown])]
  have hr := requested_request gen (s.message (.VectorLoadRequest vdid)) vdid
  constructor
  case locally =>
    intro k hk
    obtain rfl | hk := mem_insert.1 hk
    · exact hr.hasKey_iff.2 (.inl rfl)
    · exact hr.hasKey_iff.2 (.inr (h.locally k (hr.locally ▸ hk)))
  case byRemoteClients =>
    intro k hk
    exact hr.hasKey_iff.2 (.inr (h.byRemoteClients k (hr.byRemoteClients ▸ hk)))

theorem Waiting.handleVectorLoadRequestOnBackgroundThread (hdown : s.mIsTornDown = false) (h : s.Waiting) :
    (s.handleVectorLoadRequestOnBackgroundThread gen vdid).Waiting := by
  unfold PageLoaderImpl.handleVectorLoadRequestOnBackgroundThread
  rw [if_neg (by simp [hdown])]
  have hr := requested_request gen (s.message (.VectorLoadRequest vdid)) vdid
  constructor
  case clients =>
    intro client v hu
    obtain hmem | ⟨hu, -⟩ := (hr.of_unanswered (fun _ _ => by simp) hu).of_append
    · simp at hmem
    · obtain ⟨k, hk, hc⟩ := h.clients client v hu
      exact ⟨k, (hr.contains k v).2 (.inr hk), hr.byRemoteClients ▸ hc⟩
  case localRequesters =>
    intro v hu
    obtain hmem | ⟨hu, -⟩ := (hr.of_unanswered (fun _ _ => by simp) hu).of_append
    · obtain rfl : v = vdid := by simpa using hmem
      exact ⟨_, mem_insert_self _ _, (hr.contains _ v).2 (.inl ⟨rfl, rfl⟩)⟩
    · obtain ⟨k, hk, hc⟩ := h.localRequesters v hu
      exact ⟨k, mem_insert_of_mem (hr.locally ▸ hk), (hr.contains k v).2 (.inr hc)⟩

variable {source : CumulusClientId}

theorem Generated.handleRemoteExternalDatasetLoadRequestWithToken
    (hinj : Injective gen) (h : s.Generated gen) :
    (s.handleRemoteExternalDatasetLoadRequestWithToken gen source vdid
      extracted).Generated gen := by
  unfold PageLoaderImpl.handleRemoteExternalDatasetLoadRequestWithToken
  split
  · exact (h.message _).message _
  rw [if_neg (by simp [PageLoaderImpl.message, h.notTornDown])]
  have hr := (requested_request gen
    (s.message (.RemoteExternalDatasetLoadRequest source vdid)) vdid).generated hinj (h.message _)
  exact ⟨hr.notTornDown, hr.one_vector, hr.current⟩

theorem Outstanding.handleRemoteExternalDatasetLoadRequestWithToken
    (hdown : s.mIsTornDown = false) (h : s.Outstanding) :
    (s.handleRemoteExternalDatasetLoadRequestWithToken gen source vdid extracted).Outstanding := by
  unfold PageLoaderImpl.handleRemoteExternalDatasetLoadRequestWithToken
  split
  · exact ⟨h.locally, h.byRemoteClients⟩
  rw [if_neg (by simp [message, hdown])]
  have hr := requested_request gen (s.message (.RemoteExternalDatasetLoadRequest source vdid)) vdid
  constructor
  case locally => exact fun k hk => hr.hasKey_iff.2 (.inr (h.locally k (hr.locally ▸ hk)))
  case byRemoteClients =>
    intro k hk
    obtain rfl | hk := hasKey_insert.1 hk
    · exact hr.hasKey_iff.2 (.inl rfl)
    · exact hr.hasKey_iff.2 (.inr (h.byRemoteClients k (hr.byRemoteClients ▸ hk)))

theorem Waiting.handleRemoteExternalDatasetLoadRequestWithToken
    (hdown : s.mIsTornDown = false) (h : s.Waiting) :
    (s.handleRemoteExternalDatasetLoadRequestWithToken gen source vdid extracted).Waiting := by
  unfold PageLoaderImpl.handleRemoteExternalDatasetLoadRequestWithToken
  split
  · -- the request is answered at once
    constructor
    case clients =>
      intro client v hu
      obtain hmem | ⟨hu, hne⟩ := hu.of_append
      · simp at hmem
      obtain hmem | ⟨hu, -⟩ := hu.of_append
      · obtain ⟨rfl, rfl⟩ : client = source ∧ v = vdid := by simpa using hmem
        exact absurd (.inl rfl) (hne _ (.head _))
      · exact h.clients client v hu
    case localRequesters =>
      intro v hu
      obtain hmem | ⟨hu, -⟩ := hu.of_append
      · simp at hmem
      obtain hmem | ⟨hu, -⟩ := hu.of_append
      · simp at hmem
      · exact h.localRequesters v hu
  rw [if_neg (by simp [message, hdown])]
  have hr := requested_request gen (s.message (.RemoteExternalDatasetLoadRequest source vdid)) vdid
  constructor
  case clients =>
    intro client v hu
    obtain hmem | ⟨hu, -⟩ := (hr.of_unanswered (fun _ _ => by simp) hu).of_append
    · obtain ⟨rfl, rfl⟩ : client = source ∧ v = vdid := by simpa using hmem
      exact ⟨_, (hr.contains _ v).2 (.inl ⟨rfl, rfl⟩), contains_insert.2 (.inl ⟨rfl, rfl⟩)⟩
    · obtain ⟨k, hk, hc⟩ := h.clients client v hu
      exact ⟨k, (hr.contains k v).2 (.inr hk), contains_insert.2 (.inr (hr.byRemoteClients ▸ hc))⟩
  case localRequesters =>
    intro v hu
    obtain hmem | ⟨hu, -⟩ := (hr.of_unanswered (fun _ _ => by simp) hu).of_append
    · simp at hmem
    · obtain ⟨k, hk, hc⟩ := h.localRequesters v hu
      exact ⟨k, hr.locally ▸ hk, (hr.contains k v).2 (.inr hc)⟩

/-! ## Completions -/

/-- The state in which all who wait for a task are removed and the messages are sent. -/
def complete (s : PageLoaderImpl VectorDataID CumulusClientId) (taskId : ExternalIoTaskId)
    (l : List (PageLoaderMessage VectorDataID CumulusClientId)) :
    PageLoaderImpl VectorDataID CumulusClientId :=
  { s with
    mCurrentExternalIoTasks := s.mCurrentExternalIoTasks.dropKey taskId
    mExternalDatasetsRequestedLocally := s.mExternalDatasetsRequestedLocally.erase taskId
    mExternalDatasetsRequestedByRemoteClients := s.mExternalDatasetsRequestedByRemoteClients.dropKey taskId
    messages := s.messages ++ l }

variable {l : List (PageLoaderMessage VectorDataID CumulusClientId)}

theorem hasKey_complete {k : ExternalIoTaskId} : (s.complete taskId l).mCurrentExternalIoTasks.hasKey k ↔
      s.mCurrentExternalIoTasks.hasKey k ∧ k ≠ taskId := by
  simp only [complete, hasKey_iff, contains_dropKey, exists_and_right]

theorem Generated.complete (h : s.Generated gen) :
    (s.complete taskId l).Generated gen where
  notTornDown := h.notTornDown
  one_vector k v v' hv hv' := h.one_vector k v v' (contains_dropKey.1 hv).1 (contains_dropKey.1 hv').1
  current k hk := h.current k (hasKey_complete.1 hk).1

theorem Outstanding.complete (h : s.Outstanding) : (s.complete taskId l).Outstanding where
  locally k hk := by
    obtain ⟨hne, hk⟩ := mem_erase.1 hk
    exact hasKey_complete.2 ⟨h.locally k hk, hne⟩
  byRemoteClients k hk := by
    obtain ⟨c, hc⟩ := hasKey_iff.1 hk
    obtain ⟨hc, hne⟩ := contains_dropKey.1 hc
    exact hasKey_complete.2 ⟨h.byRemoteClients k (hasKey_iff.2 ⟨c, hc⟩), hne⟩

/-- When all who wait for the task get a response, the others wait for the tasks that remain. -/
theorem Waiting.complete (h : s.Waiting) (hs : s.Generated gen)
    (htask : s.mCurrentExternalIoTasks.contains taskId vdid) (hrequests : ∀ m ∈ l, isRequest m = false)
    (hclients : ∀ client, s.mExternalDatasetsRequestedByRemoteClients.contains taskId client →
      ∃ m ∈ l, RespondsToClient client vdid m)
    (hlocally : taskId ∈ s.mExternalDatasetsRequestedLocally → ∃ m ∈ l, RespondsLocally vdid m) :
    (s.complete taskId l).Waiting := by
  constructor
  case clients =>
    intro client v hu
    obtain hmem | ⟨hu, hnone⟩ := hu.of_append
    · exact absurd (hrequests _ hmem) (by simp [isRequest])
    obtain ⟨k, hk, hc⟩ := h.clients client v hu
    refine ⟨k, contains_dropKey.2 ⟨hk, ?_⟩, contains_dropKey.2 ⟨hc, ?_⟩⟩
    all_goals
      rintro rfl
      obtain rfl := hs.one_vector k v vdid hk htask
      obtain ⟨m, hm, hresponse⟩ := hclients client hc
      exact hnone m hm hresponse
  case localRequesters =>
    intro v hu
    obtain hmem | ⟨hu, hnone⟩ := hu.of_append
    · exact absurd (hrequests _ hmem) (by simp [isRequest])
    obtain ⟨k, hk, hc⟩ := h.localRequesters v hu
    refine ⟨k, mem_erase.2 ⟨?_, hk⟩, contains_dropKey.2 ⟨hc, ?_⟩⟩
    all_goals
      rintro rfl
      obtain rfl := hs.one_vector k v vdid hc htask
      obtain ⟨m, hm, hresponse⟩ := hlocally hk
      exact hnone m hm hresponse

/-- The responses to all who wait. -/
def responses (vdid : VectorDataID) (here : Bool) (clients : Finset CumulusClientId)
    (result : ExternalIoTaskResult) : List (PageLoaderMessage VectorDataID CumulusClientId) :=
  let failed (reason : String) := (if here then [.VectorLoadedResponse vdid false true] else []) ++
      (ascending clients).map fun client => .Failed client vdid reason
  match result with
  | .Success => (ascending clients).map (fun client => .Data client vdid) ++
      if here then [.VectorLoadedResponse vdid true false] else []
  | .PythonIoFailure reason => failed reason
  | .S3KeyDoesNotExist => failed "Data is missing from S3"
  | .S3PermissionError => failed "Invalid S3 permissions"

theorem foldl_message {α : Type} {cs : List α} {f : α → PageLoaderMessage VectorDataID CumulusClientId} :
    cs.foldl (fun s client => s.message (f client)) s = { s with messages := s.messages ++ cs.map f } := by
  induction cs generalizing s with
  | nil => simp
  | cons client cs ih =>
    rw [foldl_cons, ih]
    simp [message]

theorem failedToLoadDataset_eq {here : Bool} {cs : Finset CumulusClientId} {reason : String} :
    s.failedToLoadDataset vdid here cs reason =
      { s with messages := s.messages ++
        ((if here then [.VectorLoadedResponse vdid false true] else []) ++
          (ascending cs).map fun client => .Failed client vdid reason) } := by
  unfold failedToLoadDataset
  rw [foldl_message]
  cases here with
  | true => simp [message]
  | false => simp

theorem loadedDataset_eq {here : Bool} {cs : Finset CumulusClientId}
    (h : cs = ∅ ∨ extracted = true) :
    s.loadedDataset gen taskId vdid here cs extracted =
      { s with messages := s.messages ++ ((ascending cs).map (fun client => .Data client vdid) ++
          if here then [.VectorLoadedResponse vdid true false] else []) } := by
  unfold loadedDataset
  rw [if_neg (by simpa [or_iff_not_imp_left] using h), foldl_message]
  cases here with
  | true => simp [message]
  | false => simp

/-- A completion that answers all who wait. -/
theorem handleExternalIoTaskCompleted_eq {r : ExternalIoTaskResult} (hdown : s.mIsTornDown = false)
    (htask : (ascending (s.mCurrentExternalIoTasks.getValues taskId)).head? = some vdid)
    (h : r = .Success → s.mExternalDatasetsRequestedByRemoteClients.getValues taskId = ∅ ∨ extracted = true) :
    s.handleExternalIoTaskCompletedOnBackgroundThread gen taskId r extracted =
      s.complete taskId (responses vdid (taskId ∈ s.mExternalDatasetsRequestedLocally)
        (s.mExternalDatasetsRequestedByRemoteClients.getValues taskId) r) := by
  unfold handleExternalIoTaskCompletedOnBackgroundThread
  rw [if_neg (by simp [hdown]), htask]
  cases r with
  | Success => exact loadedDataset_eq (h rfl)
  | PythonIoFailure | S3KeyDoesNotExist | S3PermissionError => exact failedToLoadDataset_eq

section
omit [LinearOrder VectorDataID]
variable {here : Bool} {clients : Finset CumulusClientId}
  {result : ExternalIoTaskResult}

theorem isRequest_responses {m : PageLoaderMessage VectorDataID CumulusClientId}
    (hm : m ∈ responses vdid here clients result) : isRequest m = false := by
  cases here with
  | true =>
    cases result <;>
      simp only [responses, if_true, mem_append, List.mem_map, List.mem_singleton] at hm
    case Success => obtain ⟨_, -, rfl⟩ | rfl := hm <;> rfl
    all_goals obtain rfl | ⟨_, -, rfl⟩ := hm <;> rfl
  | false =>
    cases result <;>
      simp only [responses, Bool.false_eq_true, if_false, append_nil, nil_append, List.mem_map] at hm <;>
      obtain ⟨_, -, rfl⟩ := hm <;> rfl

theorem exists_respondsToClient {client : CumulusClientId} (h : client ∈ clients) :
    ∃ m ∈ responses vdid here clients result, RespondsToClient client vdid m := by
  have hmem := mem_ascending.2 h
  cases result with
  | Success => exact ⟨_, mem_append_left _ (mem_map.2 ⟨client, hmem, rfl⟩), .inl rfl⟩
  | _ => exact ⟨_, mem_append_right _ (mem_map.2 ⟨client, hmem, rfl⟩), .inr ⟨_, rfl⟩⟩

theorem exists_respondsLocally : ∃ m ∈ responses vdid true clients result, RespondsLocally vdid m := by
  cases result with
  | Success => exact ⟨_, mem_append_right _ (.head _), _, _, rfl⟩
  | _ => exact ⟨_, mem_append_left _ (.head _), _, _, rfl⟩

end

/-- A completion for which nothing is outstanding, one that answers all who wait, or one for whose
clients the page is gone. -/
theorem completion_cases (gen : ℕ → Hash) (hdown : s.mIsTornDown = false)
    (taskId : ExternalIoTaskId) (result : ExternalIoTaskResult) (extracted : Bool) :
    ¬ s.mCurrentExternalIoTasks.hasKey taskId ∧
      s.handleExternalIoTaskCompletedOnBackgroundThread gen taskId result extracted = s ∨
    ∃ vdid, s.mCurrentExternalIoTasks.contains taskId vdid ∧
      ((result = .Success → s.mExternalDatasetsRequestedByRemoteClients.getValues taskId = ∅ ∨ extracted = true) ∧
        s.handleExternalIoTaskCompletedOnBackgroundThread gen taskId result
          extracted = s.complete taskId (responses vdid (taskId ∈ s.mExternalDatasetsRequestedLocally)
              (s.mExternalDatasetsRequestedByRemoteClients.getValues taskId) result) ∨
        (result = .Success ∧ extracted = false ∧ s.mExternalDatasetsRequestedByRemoteClients.getValues taskId ≠ ∅) ∧
        s.handleExternalIoTaskCompletedOnBackgroundThread gen taskId result
          extracted = (s.complete taskId []).loadedDataset gen taskId vdid
            (taskId ∈ s.mExternalDatasetsRequestedLocally)
            (s.mExternalDatasetsRequestedByRemoteClients.getValues taskId) false) := by
  cases htask : (ascending (s.mCurrentExternalIoTasks.getValues taskId)).head? with
  | none =>
    refine .inl ⟨fun hkey => ?_, ?_⟩
    · obtain ⟨vdid, hc⟩ := hasKey_iff.1 hkey
      have hmem := mem_ascending.2 (mem_getValues.2 hc)
      rw [head?_eq_none_iff.1 htask] at hmem
      cases hmem
    · unfold handleExternalIoTaskCompletedOnBackgroundThread
      rw [if_neg (by simp [hdown]), htask]
  | some vdid =>
    refine .inr ⟨vdid, mem_ascending.1 (mem_of_mem_head? htask), ?_⟩
    by_cases h : result = .Success ∧ extracted = false ∧
      s.mExternalDatasetsRequestedByRemoteClients.getValues taskId ≠ ∅
    · refine .inr ⟨h, ?_⟩
      obtain ⟨rfl, rfl, -⟩ := h
      unfold handleExternalIoTaskCompletedOnBackgroundThread
      rw [if_neg (by simp [hdown]), htask]
      simp only [complete, append_nil]
    · have hanswers (hresult : result = .Success) :
          s.mExternalDatasetsRequestedByRemoteClients.getValues taskId = ∅ ∨ extracted = true := by
        by_contra hnot
        rw [not_or, Bool.not_eq_true] at hnot
        exact h ⟨hresult, hnot.2, hnot.1⟩
      exact .inl ⟨hanswers, handleExternalIoTaskCompleted_eq hdown htask hanswers⟩

theorem foldl_insert {l : List CumulusClientId} : l.foldl (fun s client =>
      { s with
        mExternalDatasetsRequestedByRemoteClients :=
          s.mExternalDatasetsRequestedByRemoteClients.insert taskId client }) s =
      { s with
        mExternalDatasetsRequestedByRemoteClients := l.foldl (fun m client => m.insert taskId client)
            s.mExternalDatasetsRequestedByRemoteClients } := by
  induction l generalizing s with
  | nil => rfl
  | cons client l ih =>
    rw [foldl_cons, ih]
    rfl

/-- A page that is gone is requested again, and the clients are kept under the old task. -/
theorem loadedDataset_of_gone (s : PageLoaderImpl VectorDataID CumulusClientId)
    (gen : ℕ → Hash) (taskId : Hash) (vdid : VectorDataID) (here : Bool)
    {clients : Finset CumulusClientId} (hclients : clients ≠ ∅) :
    ∃ t newTask, s.Requested gen t vdid newTask ∧
      s.loadedDataset gen taskId vdid here clients false = { t with
          mExternalDatasetsRequestedByRemoteClients :=
            t.mExternalDatasetsRequestedByRemoteClients.insertValues taskId clients } := by
  refine ⟨_, _, requested_request gen s vdid, ?_⟩
  unfold loadedDataset
  rw [if_pos ⟨hclients, rfl⟩]
  exact foldl_insert

section
variable (hs : s.Generated gen) (hinj : Injective gen)
include hs hinj

theorem Generated.loadedDataset {here : Bool}
    {clients : Finset CumulusClientId} (hclients : clients ≠ ∅) :
    (s.loadedDataset gen taskId vdid here clients
      false).Generated gen := by
  obtain ⟨t, newTask, hr, heq⟩ := loadedDataset_of_gone s gen taskId vdid here hclients
  rw [heq]
  have ht := hr.generated hinj hs
  exact ⟨ht.notTornDown, ht.one_vector, ht.current⟩

/-- The old task is not outstanding any more. -/
theorem not_outstanding_loadedDataset
    (htask : s.mCurrentExternalIoTasks.contains taskId vdid) {here : Bool}
    {clients : Finset CumulusClientId} (hclients : clients ≠ ∅) :
    ¬ ((s.complete taskId []).loadedDataset gen taskId vdid here
      clients false).Outstanding := by
  intro h
  obtain ⟨t, newTask, hr, heq⟩ := loadedDataset_of_gone (s.complete taskId []) gen
    taskId vdid here hclients
  rw [heq] at h
  obtain ⟨client, hclient⟩ := nonempty_iff_ne_empty.2 hclients
  have hkey := h.byRemoteClients taskId (hasKey_iff.2 ⟨client, contains_insertValues.2 (.inl ⟨rfl, hclient⟩)⟩)
  obtain rfl | hkey := hr.hasKey_iff.1 hkey
  · obtain ⟨hc, -⟩ | ⟨hnew, -⟩ := hr.task
    · exact (contains_dropKey.1 hc).2 rfl
    · obtain ⟨n, hn, hold⟩ := hs.current taskId (hasKey_iff.2 ⟨vdid, htask⟩)
      exact Nat.ne_of_gt hn (hinj (hnew.symm.trans hold))
  · exact (hasKey_complete.1 hkey).2 rfl

/-! ## Runs -/

variable {call : Call VectorDataID CumulusClientId}

theorem Generated.step : (s.step gen call).Generated gen := by
  cases call with
  | vectorLoadRequest vdid => exact hs.handleVectorLoadRequestOnBackgroundThread hinj
  | remoteExternalDatasetLoadRequest source vdid extracted =>
    exact hs.handleRemoteExternalDatasetLoadRequestWithToken hinj
  | externalIoTaskCompleted taskId result extracted =>
    obtain ⟨-, heq⟩ | ⟨vdid, -, ⟨-, heq⟩ | ⟨⟨-, -, hclients⟩, heq⟩⟩ :=
      completion_cases gen hs.notTornDown taskId result extracted
    · exact (congrArg _ heq).mpr hs
    · exact (congrArg _ heq).mpr hs.complete
    · exact (congrArg _ heq).mpr (hs.complete.loadedDataset hinj hclients)

/-- A call leaves only tasks that are outstanding to wait for, unless the page is gone. -/
theorem outstanding_step_iff (h : s.Outstanding) :
    (s.step gen call).Outstanding ↔ s.PageStillThere call := by
  cases call with
  | vectorLoadRequest vdid =>
    exact iff_of_true (h.handleVectorLoadRequestOnBackgroundThread hs.notTornDown) trivial
  | remoteExternalDatasetLoadRequest source vdid extracted =>
    exact iff_of_true (h.handleRemoteExternalDatasetLoadRequestWithToken hs.notTornDown) trivial
  | externalIoTaskCompleted taskId result extracted =>
    show (s.handleExternalIoTaskCompletedOnBackgroundThread gen taskId result extracted).Outstanding ↔ _
    obtain ⟨hnone, heq⟩ | ⟨vdid, hc, ⟨hanswers, heq⟩ | ⟨⟨rfl, rfl, hclients⟩, heq⟩⟩ :=
      completion_cases gen hs.notTornDown taskId result extracted
    · rw [heq]
      refine iff_of_true h ?_
      cases result with
      | Success => exact fun hkey => absurd hkey hnone
      | _ => trivial
    · rw [heq]
      refine iff_of_true h.complete ?_
      cases result with
      | Success =>
        intro _ hkey
        obtain ⟨client, hclient⟩ := hasKey_iff.1 hkey
        refine (hanswers rfl).resolve_left fun hempty => ?_
        have hmem := mem_getValues.2 hclient
        rw [hempty] at hmem
        exact absurd hmem (notMem_empty client)
      | _ => trivial
    · rw [heq]
      refine iff_of_false (not_outstanding_loadedDataset hs hinj hc hclients) fun hthere => ?_
      obtain ⟨client, hclient⟩ := nonempty_iff_ne_empty.2 hclients
      have htrue := hthere (hasKey_iff.2 ⟨vdid, hc⟩) (hasKey_iff.2 ⟨client, hclient⟩)
      cases htrue

end

/-- Who has no response yet waits, unless the page is gone. -/
theorem Waiting.step (h : s.Waiting) (hs : s.Generated gen)
    (hc : s.PageStillThere op) : (s.step gen op).Waiting := by
  cases op with
  | vectorLoadRequest vdid => exact h.handleVectorLoadRequestOnBackgroundThread hs.notTornDown
  | remoteExternalDatasetLoadRequest source vdid extracted =>
    exact h.handleRemoteExternalDatasetLoadRequestWithToken hs.notTornDown
  | externalIoTaskCompleted taskId result extracted =>
    show (s.handleExternalIoTaskCompletedOnBackgroundThread gen taskId result extracted).Waiting
    obtain ⟨-, heq⟩ | ⟨vdid, hkey, ⟨-, heq⟩ | ⟨⟨rfl, rfl, hclients⟩, -⟩⟩ :=
      completion_cases gen hs.notTornDown taskId result extracted
    · rw [heq]
      exact h
    · rw [heq]
      refine h.complete hs hkey (fun _ => isRequest_responses)
        (fun client hclient => exists_respondsToClient (mem_getValues.2 hclient))
        fun hlocally => ?_
      rw [decide_eq_true hlocally]
      exact exists_respondsLocally
    · obtain ⟨client, hclient⟩ := nonempty_iff_ne_empty.2 hclients
      have htrue := hc (hasKey_iff.2 ⟨vdid, hkey⟩) (hasKey_iff.2 ⟨client, hclient⟩)
      cases htrue

theorem generated_initial : Generated gen ({} : PageLoaderImpl VectorDataID CumulusClientId) where
  notTornDown := rfl
  one_vector _ _ _ h := absurd h contains_empty
  current k hk := by
    obtain ⟨v, hv⟩ := hasKey_iff.1 hk
    exact absurd hv contains_empty

theorem outstanding_initial : Outstanding ({} : PageLoaderImpl VectorDataID CumulusClientId) where
  locally k hk := absurd hk (notMem_empty k)
  byRemoteClients k hk := by
    obtain ⟨v, hv⟩ := hasKey_iff.1 hk
    exact absurd hv contains_empty

theorem waiting_initial : Waiting ({} : PageLoaderImpl VectorDataID CumulusClientId) where
  clients _ _ h := absurd h not_unanswered_nil
  localRequesters _ h := absurd h not_unanswered_nil

/-- Every request is answered throughout a run exactly when no page is gone that clients wait for. -/
theorem always_answered_iff (gen : ℕ → Hash) (hinj : Injective gen)
    (calls : List (Call VectorDataID CumulusClientId)) :
    Always (total (step gen)) Answered {} calls ↔
      EveryStep (total (step gen)) PageStillThere {} calls := by
  constructor
  · intro h
    refine (always_iff_everyStep (I := Generated gen) (P := Outstanding)
      generated_initial outstanding_initial ?_ ?_ ?_).1 (h.mono fun s hs => ⟨hs.1, hs.2⟩)
    · intro s call s' hs he
      exact total_eq_some.1 he ▸ hs.step hinj
    · intro s call s' hs ho he
      exact total_eq_some.1 he ▸ outstanding_step_iff hs hinj ho
    · intro s call _ _ he
      cases he
  · intro h
    refine (always_of_everyStep (P := fun s => Generated gen s ∧ Outstanding s ∧ Waiting s)
      ⟨generated_initial, outstanding_initial, waiting_initial⟩ ?_ h).mono
      fun s hs => .of_waiting hs.2.1 hs.2.2
    rintro s call s' ⟨hs, ho, hw⟩ hc he
    obtain rfl := total_eq_some.1 he
    exact ⟨hs.step hinj, (outstanding_step_iff hs hinj ho).2 hc, hw.step hs hc⟩

/-- A dataset that two clients ask for, and that is loaded as a page. -/
theorem always_answered_iff_id : Always (total (step id)) Answered {}
        [.remoteExternalDatasetLoadRequest 0 0 false, .vectorLoadRequest 0, .externalIoTaskCompleted 0 .Success true] ↔
      EveryStep (total (step id)) PageStillThere ({} : PageLoaderImpl ℕ ℕ)
        [.remoteExternalDatasetLoadRequest 0 0 false, .vectorLoadRequest 0, .externalIoTaskCompleted 0 .Success true] :=
  always_answered_iff id injective_id _

/-- A client waits for a vector that is dropped before the completion is handled. -/
theorem not_always_answered : ¬ ∀ gen, Injective gen →
      ∀ calls : List (Call ℕ ℕ), Always (total (step gen)) Answered {} calls := by
  intro h
  have hanswered := (h id injective_id [.remoteExternalDatasetLoadRequest 0 0 false,
    .externalIoTaskCompleted 0 .Success false]).last rfl
  exact absurd (hanswered.byRemoteClients 0) (by decide)

end Cumulus.PageLoaderImpl
