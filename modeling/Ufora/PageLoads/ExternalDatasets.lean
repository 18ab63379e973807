import Ufora.Containers.TwoWaySetMap
import Ufora.Lib.Run
import Ufora.Pages.Basic

/-!
# External dataset loads of `PageLoaderImpl`

`cumulus/PageLoaderImpl.cppml`: the page loader of a machine asks the environment for vectors that no
machine has, once for all who request a vector, and answers all of them when the task completes.
Vectors and clients are parameters. Whether the vector data manager has a page is what it answers
when it is asked, since pages come and go at any time. A task id is the hash that the generator makes
next.
-/

namespace Cumulus

open Ordered

/-- `ExternalIoTaskId`. -/
abbrev ExternalIoTaskId := Hash

/-- `ExternalIoTaskResult`. -/
inductive ExternalIoTaskResult where
  | Success
  | PythonIoFailure (reason : String)
  | S3KeyDoesNotExist
  | S3PermissionError
  deriving DecidableEq

/-- What comes in and goes out. -/
inductive PageLoaderMessage (VectorDataID CumulusClientId : Type) where
  | VectorLoadRequest (vdid : VectorDataID)
  | RemoteExternalDatasetLoadRequest (source : CumulusClientId) (datasetToLoad : VectorDataID)
  | ExternalIoTaskCreated (taskId : ExternalIoTaskId) (vdid : VectorDataID)
  | VectorLoadedResponse (vdid : VectorDataID) (loadSuccessful failureIsTerminal : Bool)
  /-- `RemoteExternalDatasetLoadResponse::Data`. -/
  | Data (target : CumulusClientId) (datasetToLoad : VectorDataID)
  /-- `RemoteExternalDatasetLoadResponse::Failed`. -/
  | Failed (target : CumulusClientId) (datasetToLoad : VectorDataID) (reason : String)
  deriving DecidableEq

variable {VectorDataID CumulusClientId : Type} [LinearOrder VectorDataID]
  [LinearOrder CumulusClientId]

/-- What `PageLoaderImpl` keeps about external loads, and all messages in their order. -/
structure PageLoaderImpl (VectorDataID CumulusClientId : Type) [LinearOrder VectorDataID]
    [LinearOrder CumulusClientId] where
  mIsTornDown : Bool := false
  /-- How many hashes `mRandomHashGenerator` has generated. -/
  generated : ℕ := 0
  mCurrentExternalIoTasks : TwoWaySetMap ExternalIoTaskId VectorDataID := ∅
  mExternalDatasetsRequestedLocally : Finset ExternalIoTaskId := ∅
  mExternalDatasetsRequestedByRemoteClients : TwoWaySetMap ExternalIoTaskId CumulusClientId := ∅
  messages : List (PageLoaderMessage VectorDataID CumulusClientId) := []

namespace PageLoaderImpl

variable (generateRandomHash : ℕ → Hash) (s : PageLoaderImpl VectorDataID CumulusClientId)

/-- A message comes in or goes out. -/
def message (msg : PageLoaderMessage VectorDataID CumulusClientId) : PageLoaderImpl VectorDataID CumulusClientId :=
  { s with messages := s.messages ++ [msg] }

/-- The state that `requestExternalDatasetFromEnvironment_(request)` leaves, and the task that it
returns. -/
def requestExternalDatasetFromEnvironment_
    (vdid : VectorDataID) : PageLoaderImpl VectorDataID CumulusClientId × ExternalIoTaskId :=
  match (ascending (s.mCurrentExternalIoTasks.getKeys vdid)).head? with
  | some taskId => (s, taskId)
  | none =>
    let taskId := generateRandomHash s.generated
    ({ s with
        generated := s.generated + 1
        mCurrentExternalIoTasks := s.mCurrentExternalIoTasks.insert taskId vdid }.message
      (.ExternalIoTaskCreated taskId vdid), taskId)

/-- The end of `handleVectorLoadRequestOnBackgroundThread(inPageRequest)`, for a request that goes to
the environment. -/
def handleVectorLoadRequestOnBackgroundThread
    (vdid : VectorDataID) : PageLoaderImpl VectorDataID CumulusClientId :=
  if s.mIsTornDown then s
  else
    let (s, taskId) := (s.message (.VectorLoadRequest vdid)).requestExternalDatasetFromEnvironment_
      generateRandomHash vdid
    { s with
      mExternalDatasetsRequestedLocally := insert taskId s.mExternalDatasetsRequestedLocally }

/-- `handleRemoteExternalDatasetLoadRequestWithToken(request, inToken)`. -/
def handleRemoteExternalDatasetLoadRequestWithToken (source : CumulusClientId)
    (datasetToLoad : VectorDataID) (extracted : Bool) : PageLoaderImpl VectorDataID CumulusClientId :=
  let s := s.message (.RemoteExternalDatasetLoadRequest source datasetToLoad)
  if extracted then s.message (.Data source datasetToLoad)
  else if s.mIsTornDown then s
  else
    let (s, taskId) := s.requestExternalDatasetFromEnvironment_ generateRandomHash datasetToLoad
    { s with
      mExternalDatasetsRequestedByRemoteClients := s.mExternalDatasetsRequestedByRemoteClients.insert taskId source }

/-- `failedToLoadDataset(vdid, wasRequestedLocally, clients, reason)`. -/
def failedToLoadDataset (vdid : VectorDataID)
    (wasRequestedLocally : Bool) (clients : Finset CumulusClientId) (reason : String) :
    PageLoaderImpl VectorDataID CumulusClientId :=
  let s := if wasRequestedLocally then s.message (.VectorLoadedResponse vdid false true) else s
  (ascending clients).foldl (fun s client => s.message (.Failed client vdid reason)) s

/-- The case of `Success` in `handleExternalIoTaskCompletedOnBackgroundThread(result)`. -/
def loadedDataset (taskId : ExternalIoTaskId)
    (vdid : VectorDataID) (wasRequestedLocally : Bool) (clients : Finset CumulusClientId)
    (extracted : Bool) : PageLoaderImpl VectorDataID CumulusClientId :=
  if clients ≠ ∅ ∧ !extracted then
    let (s, _newTask) := s.requestExternalDatasetFromEnvironment_ generateRandomHash vdid
    (ascending clients).foldl (fun s client =>
      { s with
        mExternalDatasetsRequestedByRemoteClients :=
          s.mExternalDatasetsRequestedByRemoteClients.insert taskId client }) s
  else
    let s := (ascending clients).foldl (fun s client => s.message (.Data client vdid)) s
    if wasRequestedLocally then s.message (.VectorLoadedResponse vdid true false) else s

/-- `handleExternalIoTaskCompletedOnBackgroundThread(result)`. -/
def handleExternalIoTaskCompletedOnBackgroundThread (taskId : ExternalIoTaskId)
    (result : ExternalIoTaskResult) (extracted : Bool) : PageLoaderImpl VectorDataID CumulusClientId :=
  if s.mIsTornDown then s
  else
    match (ascending (s.mCurrentExternalIoTasks.getValues taskId)).head? with
    | none => s
    | some vdid =>
      let wasRequestedLocally : Bool := taskId ∈ s.mExternalDatasetsRequestedLocally
      let clients := s.mExternalDatasetsRequestedByRemoteClients.getValues taskId
      let s := { s with
          mCurrentExternalIoTasks := s.mCurrentExternalIoTasks.dropKey taskId
          mExternalDatasetsRequestedLocally := s.mExternalDatasetsRequestedLocally.erase taskId
          mExternalDatasetsRequestedByRemoteClients := s.mExternalDatasetsRequestedByRemoteClients.dropKey taskId }
      match result with
      | .Success =>
        s.loadedDataset generateRandomHash taskId vdid wasRequestedLocally clients extracted
      | .PythonIoFailure reason => s.failedToLoadDataset vdid wasRequestedLocally clients reason
      | .S3KeyDoesNotExist =>
        s.failedToLoadDataset vdid wasRequestedLocally clients "Data is missing from S3"
      | .S3PermissionError =>
        s.failedToLoadDataset vdid wasRequestedLocally clients "Invalid S3 permissions"

/-- What is handled; whether a page can be extracted is what the vector data manager answers then. -/
inductive Call (VectorDataID CumulusClientId : Type) where
  | vectorLoadRequest (vdid : VectorDataID)
  | remoteExternalDatasetLoadRequest (source : CumulusClientId) (datasetToLoad : VectorDataID)
    (extracted : Bool)
  | externalIoTaskCompleted (taskId : ExternalIoTaskId) (result : ExternalIoTaskResult)
    (extracted : Bool)

/-- The state after a call. -/
def step : Call VectorDataID CumulusClientId → PageLoaderImpl VectorDataID CumulusClientId
  | .vectorLoadRequest vdid => s.handleVectorLoadRequestOnBackgroundThread generateRandomHash vdid
  | .remoteExternalDatasetLoadRequest source datasetToLoad extracted =>
    s.handleRemoteExternalDatasetLoadRequestWithToken generateRandomHash source datasetToLoad
      extracted
  | .externalIoTaskCompleted taskId result extracted =>
    s.handleExternalIoTaskCompletedOnBackgroundThread generateRandomHash taskId result extracted

end PageLoaderImpl

end Cumulus
