import Ufora.Transfers.DataTransfersKernel
import Mathlib.Algebra.Order.BigOperators.Group.Finset

/-!
# The messages and bytes on their way

Every scheduled message waits, was sent, or was reported as not going to be sent, and the total that the kernel
keeps is the sum of the sizes of the tokens on their way. The loop at the end of an operation is proved once
(`Balanced.sendIfAppropriate`); what an operation does before it is one lemma for each operation.
-/

open Ordered Effect List Finset Finmap StdMap MapWithIndex Function List.Perm Run False Prod Cumulus.DataTransfersKernel

namespace Cumulus.DataTransfersKernel

variable {ε τ κ : Type} [LinearOrder ε] [LinearOrder τ] {s : DataTransfersKernel ε τ κ}

/-- The messages of a list that have a priority. -/
def ofPriority (priority : ℤ) (messages : List (DataTransfersQueuedCallback ε τ κ)) :
    List (DataTransfersQueuedCallback ε τ κ) :=
  messages.filter fun message => decide (message.priority = priority)

variable {m front : DataTransfersQueuedCallback ε τ κ}
  {l others : List (DataTransfersQueuedCallback ε τ κ)} {p : ℤ}

omit [LinearOrder ε] [LinearOrder τ] in
theorem mem_ofPriority : m ∈ ofPriority p l ↔ m ∈ l ∧ m.priority = p := by
  unfold ofPriority
  rw [mem_filter, decide_eq_true_iff]

omit [LinearOrder ε] [LinearOrder τ] in
theorem ofPriority_append {l' : List (DataTransfersQueuedCallback ε τ κ)} :
    ofPriority p (l ++ l') = ofPriority p l ++ ofPriority p l' := filter_append _ _

omit [LinearOrder ε] [LinearOrder τ] in
theorem ofPriority_singleton : ofPriority p [m] = if m.priority = p then [m] else [] := by
  unfold ofPriority
  rw [List.filter_singleton]
  split <;> simp_all

/-- Nothing waits, or the bytes on their way are above the limit. -/
def NoStall (s : DataTransfersKernel ε τ κ) : Prop :=
  (∀ p, s.queue p = []) ∨ s.mMaxOutstandingBytecount < s.mTotalOutstandingBytecounts

/-! ## The queues -/

/-- No queue is empty. -/
def NoEmptyQueue (s : DataTransfersKernel ε τ κ) : Prop := ∀ p, lookup p s.mUntriggeredCallbacksByPriority ≠ some []

theorem NoEmptyQueue.queue_ne_nil (h : s.NoEmptyQueue) :
    p ∈ s.mUntriggeredCallbacksByPriority.keys ↔ s.queue p ≠ [] := by
  unfold queue StdMap.get
  rw [mem_keys_iff]
  cases hl : lookup p s.mUntriggeredCallbacksByPriority with
  | none => exact iff_of_false nofun fun hne => hne rfl
  | some l =>
    have hne : l ≠ [] := fun he => h p (by rw [hl, he])
    simp [hne]

theorem mem_priorities : p ∈ s.priorities ↔ p ∈ s.mUntriggeredCallbacksByPriority.keys := mem_ascending

/-- The front of a queue is sent: the other queues stay. -/
theorem queue_sendFront {q : ℤ} : (s.sendFront p front others).queue q = if q = p then others else s.queue q := by
  cases others with
  | nil => exact get_erase _ _ _
  | cons m l => exact get_insert _ _ _ _

theorem NoEmptyQueue.sendFront (h : s.NoEmptyQueue) : (s.sendFront p front others).NoEmptyQueue := by
  intro q
  cases others with
  | nil =>
    refine ne_of_eq_of_ne (lookup_erase _ _ _) ?_
    split
    · exact nofun
    · exact h q
  | cons m l =>
    refine ne_of_eq_of_ne (lookup_insert _ _ _ _) ?_
    split
    · simp
    · exact h q

/-- One message less waits. -/
theorem waiting_sendFront (h : s.NoEmptyQueue) (hq : s.queue p = front :: others) :
    (s.sendFront p front others).waiting + 1 = s.waiting := by
  have hp : p ∈ s.mUntriggeredCallbacksByPriority.keys := h.queue_ne_nil.2 (by rw [hq]; simp)
  have hrest : ∑ q ∈ s.mUntriggeredCallbacksByPriority.keys.erase p, ((s.sendFront p front others).queue q).length =
      ∑ q ∈ s.mUntriggeredCallbacksByPriority.keys.erase p, (s.queue q).length := by
    refine sum_congr rfl fun q hqk => ?_
    rw [queue_sendFront, if_neg (ne_of_mem_erase hqk)]
  have hnew : (s.sendFront p front others).waiting = others.length +
      ∑ q ∈ s.mUntriggeredCallbacksByPriority.keys.erase p, ((s.sendFront p front others).queue q).length := by
    unfold waiting
    cases hothers : others with
    | nil =>
      have hkeys : (s.sendFront p front []).mUntriggeredCallbacksByPriority.keys =
          s.mUntriggeredCallbacksByPriority.keys.erase p := keys_erase _ _
      rw [hkeys, length_nil, Nat.zero_add]
    | cons m l =>
      have hkeys : (s.sendFront p front (m :: l)).mUntriggeredCallbacksByPriority.keys =
          s.mUntriggeredCallbacksByPriority.keys := keys_insert_of_mem hp
      rw [hkeys, ← add_sum_erase _ _ hp, queue_sendFront, if_pos rfl]
  have hold := add_sum_erase _ (fun q => (s.queue q).length) hp
  rw [hq, length_cons] at hold
  rw [hnew, hrest, waiting, ← hold]
  omega

/-- The choice of a priority changes the bytecounts of the priorities only. -/
theorem wp_chooseBestPriority (h : s.priorities ≠ []) : wp chooseBestPriority (fun p s' => p ∈ s.priorities ∧
      ∃ bytesSent, s' = { s with mPriorityChannelBytesSent := bytesSent }) (fun _ _ => False) s := by
  unfold chooseBestPriority
  rw [wp_bind, wp_get]
  split
  · next hnil => exact absurd hnil h
  · next p hp => exact ⟨by rw [hp]; exact List.mem_singleton_self p, _, rfl⟩
  · next first second others hp =>
    rw [wp_bind, wp_modify, wp_bind, wp_get]
    dsimp only
    split
    · next p hfind => exact ⟨mem_of_find?_eq_some hfind, _, rfl⟩
    · refine ⟨?_, _, rfl⟩
      rw [hp]
      exact getLast_mem _

/-! ## The messages -/

namespace System

variable {t : System ε τ κ} {k : DataTransfersKernel ε τ κ}

/-- What is kept by every operation, and by every turn of the loop at its end. -/
structure Balanced (t : System ε τ κ) : Prop where
  accounted : ∀ p, (ofPriority p t.scheduled).Perm
    (t.kernel.queue p ++ ofPriority p t.sent ++ ofPriority p t.kernel.onCallbackNotGoingToBeSent)
  inOrder : ∀ p, (ofPriority p t.sent ++ t.kernel.queue p).Sublist (ofPriority p t.scheduled)
  distinct : (t.scheduled.map DataTransfersQueuedCallback.token).Nodup
  queues : t.kernel.NoEmptyQueue
  total : t.kernel.mTotalOutstandingBytecounts = ∑ token ∈ t.outstanding, t.sizes.get token
  withinLimit : ∀ call ∈ t.kernel.onSendCallback, call.totalBytesOutstanding ≤ call.maxBytecountOutstanding
  onTheirWay : ∀ token endpoint, t.kernel.mTransferIdsSent.tryGetValue token = some endpoint ↔
    token ∉ t.received ∧ ∃ m ∈ t.sent, m.token = token ∧ m.target = endpoint
  bytesizes : ∀ token, lookup token t.kernel.mTransferIdBytesizes =
    if token ∈ t.received then none else lookup token t.sizes
  allocated : ∀ m ∈ t.scheduled, m.token ∈ t.sizes
  received : ∀ token ∈ t.received, ∃ m ∈ t.sent, m.token = token

theorem mem_outstanding {token : τ} : token ∈ t.outstanding ↔ (∃ m ∈ t.sent, m.token = token) ∧ token ∉ t.received := by
  unfold outstanding
  rw [mem_sdiff, mem_toFinset, List.mem_map]

section
variable (h : t.Balanced)
include h

variable {token : τ}

theorem Balanced.hasKey_iff : t.kernel.mTransferIdsSent.hasKey token ↔ token ∈ t.outstanding := by
  rw [MapWithIndex.hasKey_iff, mem_outstanding]
  simp only [h.onTheirWay]
  constructor
  · rintro ⟨_, hno, m, hm, htoken, -⟩
    exact ⟨⟨m, hm, htoken⟩, hno⟩
  · rintro ⟨⟨m, hm, htoken⟩, hno⟩
    exact ⟨m.target, hno, m, hm, htoken, rfl⟩

variable {m m' : DataTransfersQueuedCallback ε τ κ}

/-- A message that waits was scheduled with the priority of its queue. -/
theorem Balanced.of_mem_queue {p : ℤ} (hm : m ∈ t.kernel.queue p) : m ∈ t.scheduled ∧ m.priority = p :=
  mem_ofPriority.1 ((h.inOrder p).subset (mem_append_right _ hm))

theorem Balanced.of_mem_sent (hm : m ∈ t.sent) : m ∈ t.scheduled := (mem_ofPriority.1 ((h.inOrder m.priority).subset
    (mem_append_left _ (mem_ofPriority.2 ⟨hm, rfl⟩)))).1

/-- Scheduled messages with one token are one message. -/
theorem Balanced.eq_of_token (hm : m ∈ t.scheduled) (hm' : m' ∈ t.scheduled) (he : m.token = m'.token) : m = m' :=
  inj_on_of_nodup_map h.distinct hm hm' he

theorem Balanced.nodup (p : ℤ) : (t.kernel.queue p ++ ofPriority p t.sent ++
    ofPriority p t.kernel.onCallbackNotGoingToBeSent).Nodup :=
  (h.accounted p).nodup_iff.1 (h.distinct.of_map.filter _)

/-- A message that waits was not sent. -/
theorem Balanced.token_ne_of_mem_queue {p : ℤ}
    (hm : m ∈ t.kernel.queue p) (hm' : m' ∈ t.sent) : m'.token ≠ m.token := by
  intro he
  obtain ⟨hs, hp⟩ := h.of_mem_queue hm
  obtain rfl := h.eq_of_token (h.of_mem_sent hm') hs he
  have hn := (nodup_append.1 (nodup_append.1 (h.nodup p)).1).2.2
  exact hn _ hm _ (mem_ofPriority.2 ⟨hm', hp⟩) rfl

/-- The fields of a kernel that the balance does not speak of. -/
theorem Balanced.frame (maxBytecount : ℤ) (endpoints everDropped : Finset ε) (bytesSent : StdMap ℤ ℤ)
    (onReceive : StdMap τ κ) (triggered : List κ) :
    ({ t with
      kernel := { t.kernel with
          mMaxOutstandingBytecount := maxBytecount
          mEndpoints := endpoints
          mEndpointsEverDropped := everDropped
          mPriorityChannelBytesSent := bytesSent
          mOnReceiveTransferredToken := onReceive
          onTriggerTokenReceivedCallback := triggered } } : System ε τ κ).Balanced :=
  ⟨h.accounted, h.inOrder, h.distinct, h.queues, h.total, h.withinLimit, h.onTheirWay, h.bytesizes,
    h.allocated, h.received⟩

/-- The bytecounts of the priorities do not matter. -/
theorem Balanced.withBytesSent (bytesSent : StdMap ℤ ℤ) :
    ({ t with kernel := { t.kernel with mPriorityChannelBytesSent := bytesSent } } : System ε τ κ).Balanced :=
  h.frame _ _ _ bytesSent _ _

/-! ## The send loop -/

/-- The front of a queue is sent. -/
theorem Balanced.sendFront {p : ℤ} {front : DataTransfersQueuedCallback ε τ κ}
    {others : List (DataTransfersQueuedCallback ε τ κ)} (hq : t.kernel.queue p = front :: others)
    (hlimit : t.kernel.mTotalOutstandingBytecounts ≤ t.kernel.mMaxOutstandingBytecount) :
    ({ t with kernel := t.kernel.sendFront p front others } : System ε τ κ).Balanced := by
  have hfront : front ∈ t.kernel.queue p := by rw [hq]; exact mem_cons_self
  obtain ⟨hscheduled, hp⟩ := h.of_mem_queue hfront
  have hfresh : ∀ m ∈ t.sent, m.token ≠ front.token := fun m hm => h.token_ne_of_mem_queue hfront hm
  have hreceived : front.token ∉ t.received := fun hr => by
    obtain ⟨m, hm, he⟩ := h.received _ hr
    exact hfresh m hm he
  have hsize : lookup front.token t.kernel.mTransferIdBytesizes = some (t.sizes.get front.token) := by
    obtain ⟨size, hsize⟩ := mem_keys_iff.1 (mem_keys.2 (h.allocated _ hscheduled))
    rw [h.bytesizes, if_neg hreceived, StdMap.get, hsize]
    rfl
  have hget : t.kernel.mTransferIdBytesizes.get front.token = t.sizes.get front.token := by
    rw [StdMap.get, hsize]
    rfl
  have hsent : ({ t with kernel := t.kernel.sendFront p front others } : System ε τ κ).sent =
      t.sent ++ [front] := map_append
  have hof : ∀ q, ofPriority q (t.sent ++ [front]) = ofPriority q t.sent ++ if q = p then [front] else [] := by
    intro q
    rw [ofPriority_append, ofPriority_singleton, hp]
    simp only [eq_comm]
  refine ⟨fun q => ?_, fun q => ?_, h.distinct, h.queues.sendFront, ?_, ?_, fun token endpoint => ?_,
    fun token => ?_, h.allocated, fun token hr => ?_⟩
  · rw [hsent, hof, queue_sendFront]
    refine (h.accounted q).trans (append_right _ ?_)
    split
    · next he =>
      rw [he, hq, ← append_assoc]
      exact (perm_append_singleton _ _).symm
    · rw [append_nil]
  · rw [hsent, hof, queue_sendFront]
    have hin := h.inOrder q
    split
    · next he =>
      rw [he, hq] at hin
      rw [he, append_assoc]
      exact hin
    · rw [append_nil]
      exact hin
  · have hout : ({ t with kernel := t.kernel.sendFront p front others } : System ε τ κ).outstanding =
        insert front.token t.outstanding := by
      ext token
      rw [mem_outstanding, hsent, Finset.mem_insert, mem_outstanding]
      constructor
      · rintro ⟨⟨m, hm, htoken⟩, hno⟩
        rcases mem_append.1 hm with hm | hm
        · exact .inr ⟨⟨m, hm, htoken⟩, hno⟩
        · rw [List.mem_singleton.1 hm] at htoken
          exact .inl htoken.symm
      · rintro (he | ⟨⟨m, hm, htoken⟩, hno⟩)
        · rw [he]
          exact ⟨⟨front, by simp, rfl⟩, hreceived⟩
        · exact ⟨⟨m, mem_append_left _ hm, htoken⟩, hno⟩
    have hnotin : front.token ∉ t.outstanding := fun hin => by
      obtain ⟨⟨m, hm, he⟩, -⟩ := mem_outstanding.1 hin
      exact hfresh m hm he
    rw [hout, sum_insert hnotin, ← h.total, ← hget]
    exact add_comm _ _
  · intro call hcall
    rcases mem_append.1 hcall with hcall | hcall
    · exact h.withinLimit call hcall
    · rw [List.mem_singleton.1 hcall]
      exact hlimit
  · refine (iff_of_eq (congrArg (· = some endpoint) tryGetValue_set)).trans ?_
    rw [hsent]
    split
    · next he =>
      rw [Option.some_inj]
      constructor
      · rintro rfl
        exact ⟨he ▸ hreceived, front, by simp, he.symm, rfl⟩
      · rintro ⟨-, m, hm, htoken, htarget⟩
        rcases mem_append.1 hm with hm | hm
        · exact absurd (htoken.trans he) (hfresh m hm)
        · rw [← List.mem_singleton.1 hm, htarget]
    · next hne =>
      rw [h.onTheirWay]
      constructor
      · rintro ⟨hno, m, hm, hmt⟩
        exact ⟨hno, m, mem_append_left _ hm, hmt⟩
      · rintro ⟨hno, m, hm, hmt⟩
        rcases mem_append.1 hm with hm | hm
        · exact ⟨hno, m, hm, hmt⟩
        · exact absurd (hmt.1.symm.trans (congrArg _ (List.mem_singleton.1 hm))) hne
  · refine (lookup_insert _ _ _ _).trans ?_
    split
    · next he => rw [he, hget, if_neg hreceived, ← hsize, h.bytesizes, if_neg hreceived]
    · exact h.bytesizes token
  · obtain ⟨m, hm, he⟩ := h.received token hr
    exact ⟨m, hsent ▸ mem_append_left _ hm, he⟩

omit h in
/-- A turn ends the loop with the limit passed, or sends one of the messages that wait. -/
theorem wp_sendTurn (h : t.Balanced) {next : Call ε τ κ Unit} (hne : t.kernel.priorities ≠ [])
    (hnext : ∀ k : DataTransfersKernel ε τ κ, ({ t with kernel := k } : System ε τ κ).Balanced →
      k.waiting + 1 = t.kernel.waiting →
      wp next (fun _ k' => ({ t with kernel := k' } : System ε τ κ).Balanced ∧ k'.NoStall) (fun _ _ => False) k) :
    wp (sendTurn next) (fun _ k => ({ t with kernel := k } : System ε τ κ).Balanced ∧ k.NoStall)
      (fun _ _ => False) t.kernel := by
  rw [sendTurn, wp_bind]
  refine (wp_chooseBestPriority hne).mono ?_ fun _ _ he => he
  rintro p _ ⟨hp, bytesSent, rfl⟩
  have hb := h.withBytesSent bytesSent
  rw [wp_bind, wp_get]
  split
  · next hnil => exact h.queues.queue_ne_nil.1 (mem_priorities.1 hp) hnil
  · next front others hq =>
    rw [wp_ite]
    split
    · next habove => exact ⟨hb, .inr habove⟩
    · next hbelow =>
      rw [wp_bind, wp_modify]
      exact hnext _ (hb.sendFront hq (not_lt.1 hbelow)) (waiting_sendFront hb.queues hq)

omit h in
/-- The loop sends until nothing waits or the limit is passed, and it ends. -/
theorem wp_sendLoop (turns : ℕ) (h : t.Balanced) (hturns : t.kernel.waiting < turns) :
    wp (sendLoop turns) (fun _ k => ({ t with kernel := k } : System ε τ κ).Balanced ∧ k.NoStall)
      (fun _ _ => False) t.kernel := by
  induction turns generalizing t with
  | zero => omega
  | succ turns ih =>
    rw [sendLoop, wp_bind, wp_get, wp_ite]
    split
    · next hnone =>
      refine ⟨h, .inl fun p => by_contra fun hne => ?_⟩
      have hp := mem_priorities.2 (h.queues.queue_ne_nil.2 hne)
      rw [length_eq_zero_iff.1 hnone] at hp
      cases hp
    · next hsome =>
      have hturn : ∀ bytesSent, wp (sendTurn (sendLoop turns))
          (fun _ k => ({ t with kernel := k } : System ε τ κ).Balanced ∧ k.NoStall) (fun _ _ => False)
          { t.kernel with mPriorityChannelBytesSent := bytesSent } := by
        intro bytesSent
        refine wp_sendTurn (h.withBytesSent bytesSent) (fun hnil => hsome (congrArg length hnil)) ?_
        intro k hb hless
        have hless : k.waiting + 1 = t.kernel.waiting := hless
        have hlt : k.waiting < turns := by omega
        exact ih hb hlt
      rw [wp_ite]
      split
      · exact hturn ∅
      · exact hturn t.kernel.mPriorityChannelBytesSent

theorem Balanced.sendIfAppropriate :
    wp sendIfAppropriate (fun _ k => ({ t with kernel := k } : System ε τ κ).Balanced ∧ k.NoStall)
      (fun _ _ => False) t.kernel := by
  unfold DataTransfersKernel.sendIfAppropriate
  rw [wp_bind, wp_get]
  exact wp_sendLoop _ h (Nat.lt_succ_self _)

/-! ## What the operations do before the loop -/

/-- A message is put behind those of its priority. -/
theorem Balanced.scheduled (hm : m.token ∈ t.sizes) (hfresh : ∀ m' ∈ t.scheduled, m'.token ≠ m.token) : ({ t with
      kernel := { t.kernel with
          mUntriggeredCallbacksByPriority := insert m.priority (t.kernel.queue m.priority ++ [m])
              t.kernel.mUntriggeredCallbacksByPriority }
      scheduled := t.scheduled ++ [m] } : System ε τ κ).Balanced := by
  have hqueue : ∀ p, ({ t.kernel with
      mUntriggeredCallbacksByPriority := insert m.priority (t.kernel.queue m.priority ++ [m])
          t.kernel.mUntriggeredCallbacksByPriority } : DataTransfersKernel ε τ κ).queue p =
      t.kernel.queue p ++ if m.priority = p then [m] else [] := by
    intro p
    refine (get_insert _ _ _ _).trans ?_
    by_cases hp : p = m.priority
    · rw [if_pos hp, if_pos hp.symm, hp]
    · rw [if_neg hp, if_neg (Ne.symm hp), append_nil]
      rfl
  refine ⟨fun p => ?_, fun p => ?_, ?_, fun p => ?_, h.total, h.withinLimit, h.onTheirWay, h.bytesizes,
    fun m' hm' => ?_, h.received⟩
  · rw [hqueue, ofPriority_append, ofPriority_singleton]
    refine ((h.accounted p).append_right _).trans ?_
    rw [append_assoc, append_assoc, append_assoc, append_assoc]
    refine append_left _ ?_
    rw [← append_assoc]
    exact perm_append_comm
  · rw [hqueue, ofPriority_append, ofPriority_singleton, ← append_assoc]
    exact (h.inOrder p).append_right _
  · rw [map_append, nodup_append]
    refine ⟨h.distinct, nodup_singleton _, fun token htoken token' htoken' => ?_⟩
    obtain ⟨m', hm', rfl⟩ := mem_map.1 htoken
    rw [List.mem_singleton.1 htoken']
    exact hfresh m' hm'
  · refine ne_of_eq_of_ne (lookup_insert _ _ _ _) ?_
    split
    · simp
    · exact h.queues p
  · rcases mem_append.1 hm' with hm' | hm'
    · exact h.allocated m' hm'
    · rw [List.mem_singleton.1 hm']
      exact hm

/-- A token is allocated. -/
theorem Balanced.withSize (hfresh : token ∉ t.sizes) (size : ℤ) : ({ t with
      kernel := { t.kernel with mTransferIdBytesizes := insert token size t.kernel.mTransferIdBytesizes }
      sizes := insert token size t.sizes } : System ε τ κ).Balanced := by
  have hsent : ∀ m ∈ t.sent, m.token ≠ token := fun m hm he =>
    hfresh (he ▸ h.allocated m (h.of_mem_sent hm))
  refine ⟨h.accounted, h.inOrder, h.distinct, h.queues, h.total.trans ?_, h.withinLimit, h.onTheirWay,
    fun token' => ?_, fun m hm => mem_insert.2 (.inr (h.allocated m hm)), h.received⟩
  · refine sum_congr rfl fun token' htoken' => ?_
    obtain ⟨⟨m, hm, rfl⟩, -⟩ := mem_outstanding.1 htoken'
    rw [get_insert, if_neg (hsent m hm)]
  · refine (lookup_insert _ _ _ _).trans ?_
    rw [StdMap.lookup_insert, h.bytesizes]
    split
    · next he =>
      rw [if_neg fun hr => ?_]
      obtain ⟨m, hm, hmt⟩ := h.received _ hr
      exact hsent m hm (hmt.trans he)
    · rfl

/-- A token that is on its way is received. -/
theorem Balanced.withReceived (hout : token ∈ t.outstanding) : ({ t with
      kernel := { t.kernel with
          mTotalOutstandingBytecounts := t.kernel.mTotalOutstandingBytecounts - t.sizes.get token
          mTransferIdsSent := t.kernel.mTransferIdsSent.discard token
          mTransferIdBytesizes := erase token t.kernel.mTransferIdBytesizes
          mOnReceiveTransferredToken := erase token t.kernel.mOnReceiveTransferredToken }
      received := insert token t.received } : System ε τ κ).Balanced := by
  refine ⟨h.accounted, h.inOrder, h.distinct, h.queues, ?_, h.withinLimit, fun token' endpoint => ?_,
    fun token' => ?_, h.allocated, fun token' htoken' => ?_⟩
  · refine (congrArg (· - t.sizes.get token) h.total).trans ?_
    rw [← sum_erase_eq_sub hout]
    refine sum_congr (Finset.ext fun token' => ?_) fun _ _ => rfl
    rw [Finset.mem_erase, mem_outstanding, mem_outstanding, Finset.mem_insert]
    tauto
  · refine (iff_of_eq (congrArg (· = some endpoint) tryGetValue_discard)).trans ?_
    rw [Finset.mem_insert]
    split
    · next he => exact iff_of_false nofun fun hno => hno.1 (.inl he)
    · next hne =>
      rw [h.onTheirWay]
      exact and_congr_left fun _ => not_congr (or_iff_right hne).symm
  · refine (lookup_erase _ _ _).trans ?_
    rw [h.bytesizes]
    by_cases he : token' = token
    · rw [if_pos he, if_pos (Finset.mem_insert.2 (.inl he))]
    · rw [if_neg he]
      simp only [Finset.mem_insert, he, false_or]
  · rcases mem_insert.1 htoken' with rfl | hr
    · exact (mem_outstanding.1 hout).1
    · exact h.received token' hr

omit h in
/-- A new size changes the sum where the token is on its way. -/
theorem sum_sizes_insert (token : τ) (size : ℤ) :
    ∑ token' ∈ t.outstanding, get (insert token size t.sizes) token' = if token ∈ t.outstanding then
        ∑ token' ∈ t.outstanding, t.sizes.get token' - t.sizes.get token + size
      else ∑ token' ∈ t.outstanding, t.sizes.get token' := by
  simp only [get_insert]
  split
  · next hin =>
    rw [← add_sum_erase _ _ hin, ← add_sum_erase _ (fun token' => t.sizes.get token') hin, if_pos rfl]
    have hrest : ∑ token' ∈ t.outstanding.erase token, (if token' = token then size else t.sizes.get token') =
        ∑ token' ∈ t.outstanding.erase token, t.sizes.get token' :=
      sum_congr rfl fun token' he => if_neg (ne_of_mem_erase he)
    rw [hrest]
    omega
  · next hout =>
    exact sum_congr rfl fun token' hin => if_neg (ne_of_mem_of_not_mem hin hout)

/-- The size of a token that was not received changes. -/
theorem Balanced.resized (hreceived : token ∉ t.received) (size : ℤ) : ({ t with
      kernel := { t.kernel with
          mTotalOutstandingBytecounts :=
            if token ∈ t.outstanding then
              t.kernel.mTotalOutstandingBytecounts - t.sizes.get token + size
            else t.kernel.mTotalOutstandingBytecounts
          mTransferIdBytesizes := insert token size t.kernel.mTransferIdBytesizes }
      sizes := insert token size t.sizes } : System ε τ κ).Balanced := by
  refine ⟨h.accounted, h.inOrder, h.distinct, h.queues, ?_, h.withinLimit, h.onTheirWay, fun token' => ?_,
    fun m hm => mem_insert.2 (.inr (h.allocated m hm)), h.received⟩
  · refine Eq.trans ?_ (sum_sizes_insert token size).symm
    rw [← h.total]
  · refine (lookup_insert _ _ _ _).trans ?_
    rw [StdMap.lookup_insert, h.bytesizes]
    split
    · next he => rw [he, if_neg hreceived]
    · rfl

/-- The size of a token that was received is of no use to the kernel. -/
theorem Balanced.resized_received (hreceived : token ∈ t.received) (size : ℤ) :
    ({ t with sizes := insert token size t.sizes } : System ε τ κ).Balanced := by
  refine ⟨h.accounted, h.inOrder, h.distinct, h.queues, ?_, h.withinLimit, h.onTheirWay, fun token' => ?_,
    fun m hm => mem_insert.2 (.inr (h.allocated m hm)), h.received⟩
  · refine h.total.trans (Eq.trans ?_ (sum_sizes_insert token size).symm)
    rw [if_neg fun hout => (mem_outstanding.1 hout).2 hreceived]
  · rw [StdMap.lookup_insert, h.bytesizes]
    split
    · rfl
    · next hno => rw [if_neg (ne_of_mem_of_not_mem hreceived hno).symm]

/-! ## What waits when an endpoint is dropped -/

omit h in
/-- What the loop of `dropEndpoint` makes of a list of messages: the queues of those for other endpoints, and the
calls that report the others. -/
theorem wp_sortOut (endpoint : ε) (l : List (ℤ × DataTransfersQueuedCallback ε τ κ))
    (newCallbacks : StdMap ℤ (List (DataTransfersQueuedCallback ε τ κ))) :
    wp (l.foldlM (sortOut endpoint) newCallbacks) (fun newCallbacks' k' =>
        (∀ p, newCallbacks'.get p = newCallbacks.get p ++
          (l.filter fun x => decide (x.1 = p) && decide (x.2.target ≠ endpoint)).map snd) ∧
        ((∀ p, lookup p newCallbacks ≠ some []) → ∀ p, lookup p newCallbacks' ≠ some []) ∧
        k' = { k with
          onCallbackNotGoingToBeSent := k.onCallbackNotGoingToBeSent ++
            (l.filter fun x => decide (x.2.target = endpoint)).map snd })
      (fun _ _ => False) k := by
  induction l generalizing newCallbacks k with
  | nil =>
    refine ⟨fun p => (append_nil _).symm, id, ?_⟩
    rw [filter_nil, map_nil, append_nil]
  | cons x l ih =>
    rw [foldlM_cons, wp_bind, sortOut]
    by_cases hx : x.2.target = endpoint
    · rw [if_neg (not_not.2 hx), wp_bind, wp_modify]
      refine (ih newCallbacks).mono ?_ fun _ _ he => he
      rintro newCallbacks' _ ⟨hget, hempty, rfl⟩
      refine ⟨fun p => ?_, hempty, ?_⟩
      · rw [hget, filter_cons_of_neg (by simp [hx])]
      · rw [List.filter_cons_of_pos (by simp [hx]), List.map_cons, append_assoc]
        rfl
    · rw [if_pos hx]
      refine (ih _).mono ?_ fun _ _ he => he
      rintro newCallbacks' _ ⟨hget, hempty, rfl⟩
      refine ⟨fun p => ?_, fun hno => hempty fun p => ?_, ?_⟩
      · rw [hget, get_insert]
        split
        · next hp =>
          rw [hp, List.filter_cons_of_pos (by simp [hx]), List.map_cons, append_assoc]
          rfl
        · next hp => rw [filter_cons_of_neg (by simp [Ne.symm hp])]
      · rw [StdMap.lookup_insert]
        split
        · simp
        · exact hno p
      · rw [filter_cons_of_neg (by simp [hx])]

omit h in
/-- The messages of one queue among all that wait. -/
theorem filter_untriggered (hs : s.NoEmptyQueue) (p : ℤ) (c : DataTransfersQueuedCallback ε τ κ → Bool) :
    (s.untriggered.filter fun x => decide (x.1 = p) && c x.2).map snd = (s.queue p).filter c := by
  have hlist : ∀ l : List ℤ, l.Nodup → ((l.flatMap fun q => (s.queue q).map fun m => (q, m)).filter
        fun x => decide (x.1 = p) && c x.2).map snd = if p ∈ l then (s.queue p).filter c else [] := by
    intro l
    induction l with
    | nil => intro _; rfl
    | cons q l ih =>
      intro hn
      rw [nodup_cons] at hn
      rw [flatMap_cons, filter_append, map_append, ih hn.2, filter_map, List.map_map]
      by_cases hq : q = p
      · subst hq
        rw [if_neg hn.1, append_nil, if_pos List.mem_cons_self]
        simp [comp_def]
      · simp [comp_def, hq, Ne.symm hq]
  refine (hlist _ (ascending_nodup _)).trans ?_
  split
  · rfl
  · next hp =>
    have hnil : s.queue p = [] := by
      by_contra hne
      exact hp (mem_ascending.2 (hs.queue_ne_nil.2 hne))
    rw [hnil, filter_nil]

/-- The messages for an endpoint are taken out of the queues and reported. -/
theorem Balanced.sortedOut {endpoint : ε} {newCallbacks : StdMap ℤ (List (DataTransfersQueuedCallback ε τ κ))}
    (hget : ∀ p, newCallbacks.get p = (t.kernel.queue p).filter fun m => decide (m.target ≠ endpoint))
    (hempty : ∀ p, lookup p newCallbacks ≠ some []) :
    ({ t with
      kernel := { t.kernel with
          mUntriggeredCallbacksByPriority := newCallbacks
          onCallbackNotGoingToBeSent := t.kernel.onCallbackNotGoingToBeSent ++
            (t.kernel.untriggered.filter fun x => decide (x.2.target = endpoint)).map snd } } :
      System ε τ κ).Balanced := by
  have hreported : ∀ p, ofPriority p ((t.kernel.untriggered.filter fun x =>
      decide (x.2.target = endpoint)).map snd) =
      (t.kernel.queue p).filter fun m => decide (m.target = endpoint) := by
    intro p
    rw [← filter_untriggered h.queues, ofPriority, filter_map, List.filter_filter]
    refine congrArg _ (filter_congr fun x hx => ?_)
    obtain ⟨q, -, hx⟩ := mem_flatMap.1 hx
    obtain ⟨m, hm, rfl⟩ := mem_map.1 hx
    show (decide (m.priority = p) && _) = (decide (q = p) && _)
    rw [(h.of_mem_queue hm).2]
  refine ⟨fun p => ?_, fun p => ?_, h.distinct, hempty, h.total, h.withinLimit, h.onTheirWay, h.bytesizes,
    h.allocated, h.received⟩
  · rw [ofPriority_append, hreported]
    refine (h.accounted p).trans ?_
    have hsplit := filter_append_perm (fun m => decide (m.target ≠ endpoint)) (t.kernel.queue p)
    have hnot : ((t.kernel.queue p).filter fun m => !decide (m.target ≠ endpoint)) =
        (t.kernel.queue p).filter fun m => decide (m.target = endpoint) :=
      filter_congr fun m _ => by simp
    rw [hnot] at hsplit
    refine ((hsplit.symm.append_right _).append_right _).trans ?_
    show List.Perm _ (newCallbacks.get p ++ _ ++ _)
    rw [hget]
    simp only [append_assoc]
    refine append_left _ ?_
    exact perm_append_comm.trans (of_eq (append_assoc _ _ _))
  · refine List.Sublist.trans (List.Sublist.append_left ?_ _) (h.inOrder p)
    show (newCallbacks.get p).Sublist _
    rw [hget]
    exact filter_sublist

end

/-! ## The operations -/

/-- Between two operations. -/
structure Settled (t : System ε τ κ) : Prop where
  balanced : t.Balanced
  noStall : t.kernel.NoStall

theorem Balanced.wp_settled (h : t.Balanced) :
    wp DataTransfersKernel.sendIfAppropriate (fun _ k => ({ t with kernel := k } : System ε τ κ).Settled)
      (fun _ _ => False) t.kernel :=
  h.sendIfAppropriate.imp fun _ _ hk => ⟨hk.1, hk.2⟩

section
variable (h : t.Settled)
include h

theorem Settled.addEndpoint (endpoint : ε) : wp (addEndpoint endpoint)
      (fun _ k => ({ t with kernel := k } : System ε τ κ).Settled)
      (fun _ k => ({ t with kernel := k } : System ε τ κ).Settled) t.kernel := by
  unfold DataTransfersKernel.addEndpoint
  rw [wp_bind, wp_get, wp_bind, wp_lassert]
  split
  · rw [wp_modify]
    exact ⟨h.balanced.frame _ _ _ _ _ _, h.noStall⟩
  · exact h

/-- An endpoint is dropped to which nothing is on its way. -/
theorem Settled.dropEndpoint {endpoint : ε} (hnone : ∀ m ∈ t.sent, m.target = endpoint → m.token ∈ t.received) :
    wp (dropEndpoint endpoint) (fun _ k => ({ t with kernel := k } : System ε τ κ).Settled)
      (fun _ k => ({ t with kernel := k } : System ε τ κ).Settled) t.kernel := by
  have hkeys : t.kernel.mTransferIdsSent.getKeys endpoint = ∅ := by
    refine eq_empty_of_forall_notMem fun token htoken => ?_
    obtain ⟨hno, m, hm, rfl, he⟩ := (h.balanced.onTheirWay _ _).1 (mem_getKeys.1 htoken)
    exact hno (hnone m hm he)
  unfold DataTransfersKernel.dropEndpoint
  rw [wp_bind, wp_get, wp_bind, wp_lassert]
  split
  · rw [wp_bind, wp_modify, hkeys, ascending_empty, wp_bind, List.forM, wp_pure, wp_bind]
    refine (wp_sortOut endpoint _ _).mono ?_ fun _ _ => elim
    rintro newCallbacks _ ⟨hget, hempty, rfl⟩
    rw [wp_bind, wp_modify]
    have hsorted := @Balanced.sortedOut _ _ _ _ _ _ h.balanced endpoint newCallbacks
      (fun p => (hget p).trans (filter_untriggered h.balanced.queues p fun m => decide (m.target ≠ endpoint)))
      (hempty fun p => by rw [lookup_empty]; exact nofun)
    exact (hsorted.frame _ _ _ _ _ _).wp_settled.mono (fun _ _ hk => hk) fun _ _ => elim
  · exact h

theorem Settled.allocateTransferId {token : τ} (hfresh : token ∉ t.sizes) (size : ℤ) :
    wp (allocateTransferId token size)
      (fun _ k => ({ t with kernel := k, sizes := insert token size t.sizes } : System ε τ κ).Settled)
      (fun _ k => ({ t with kernel := k, sizes := insert token size t.sizes } : System ε τ κ).Settled)
      t.kernel := by
  unfold DataTransfersKernel.allocateTransferId
  rw [wp_modify]
  exact ⟨h.balanced.withSize hfresh size, h.noStall⟩

theorem Settled.scheduleLargeMessage {m : DataTransfersQueuedCallback ε τ κ} (hm : m.token ∈ t.sizes)
    (hfresh : ∀ m' ∈ t.scheduled, m'.token ≠ m.token) (hlive : m.target ∉ t.kernel.mEndpointsEverDropped) :
    wp (scheduleLargeMessage m)
      (fun _ k => ({ t with kernel := k, scheduled := t.scheduled ++ [m] } : System ε τ κ).Settled)
      (fun _ _ => False) t.kernel := by
  unfold DataTransfersKernel.scheduleLargeMessage
  rw [wp_bind, wp_get, wp_bind, wp_lassert, if_pos hlive, wp_bind, wp_modify]
  exact (h.balanced.scheduled hm hfresh).wp_settled

/-- A token that was sent is received. One that was received before is refused. -/
theorem Settled.tokenReceived {token : τ} (hsent : ∃ m ∈ t.sent, m.token = token) :
    wp (DataTransfersKernel.tokenReceived token)
      (fun _ k => ({ t with kernel := k, received := insert token t.received } : System ε τ κ).Settled)
      (fun _ k => ({ t with kernel := k, received := insert token t.received } : System ε τ κ).Settled)
      t.kernel := by
  have hremove : ∀ triggered, wp (do removeTransferId token; sendIfAppropriate)
        (fun _ k => ({ t with kernel := k, received := insert token t.received } : System ε τ κ).Settled)
        (fun _ k => ({ t with kernel := k, received := insert token t.received } : System ε τ κ).Settled)
        { t.kernel with onTriggerTokenReceivedCallback := triggered } := by
    intro triggered
    have hb := h.balanced.frame t.kernel.mMaxOutstandingBytecount t.kernel.mEndpoints
      t.kernel.mEndpointsEverDropped t.kernel.mPriorityChannelBytesSent t.kernel.mOnReceiveTransferredToken
      triggered
    have hlookup := h.balanced.bytesizes token
    unfold removeTransferId
    rw [wp_bind, wp_bind, wp_get]
    rw [hlookup]
    by_cases hr : token ∈ t.received
    · rw [if_pos hr, insert_eq_of_mem hr]
      exact ⟨hb, h.noStall⟩
    · obtain ⟨m, hm, rfl⟩ := hsent
      obtain ⟨size, hsize⟩ := mem_keys_iff.1 (mem_keys.2 (h.balanced.allocated m (h.balanced.of_mem_sent hm)))
      have hout : m.token ∈ t.outstanding := mem_outstanding.2 ⟨⟨m, hm, rfl⟩, hr⟩
      have hkey := h.balanced.hasKey_iff.2 hout
      have hget : t.sizes.get m.token = size := by
        rw [StdMap.get, hsize]
        rfl
      rw [if_neg hr, hsize]
      dsimp only
      rw [if_pos hkey, wp_bind, wp_modify, wp_bind, wp_lassert, if_pos hkey, wp_modify, ← hget]
      exact (hb.withReceived hout).wp_settled.mono (fun _ _ hk => hk) fun _ _ => elim
  unfold DataTransfersKernel.tokenReceived
  rw [wp_bind, wp_get]
  split
  · exact hremove _
  · exact hremove _

theorem Settled.updateBytecount (token : τ) (size : ℤ) : wp (updateBytecount token size)
      (fun _ k => ({ t with
        kernel := k
        sizes := if token ∈ t.sizes then insert token size t.sizes else t.sizes } : System ε τ κ).Settled)
      (fun _ _ => False) t.kernel := by
  unfold DataTransfersKernel.updateBytecount
  rw [wp_bind, wp_get, h.balanced.bytesizes]
  by_cases hr : token ∈ t.received
  · rw [if_pos hr]
    rw [wp_pure]
    split
    · exact ⟨h.balanced.resized_received hr size, h.noStall⟩
    · exact h
  · rw [if_neg hr]
    cases hsize : lookup token t.sizes with
    | none =>
      rw [if_neg (lookup_eq_none.1 hsize)]
      exact h
    | some old =>
      have hget : t.sizes.get token = old := by
        rw [StdMap.get, hsize]
        rfl
      have hb := h.balanced.resized hr size
      rw [if_pos (mem_keys.1 (mem_keys_iff.2 ⟨old, hsize⟩))]
      rw [wp_ite]
      split
      · next hkey =>
        rw [if_pos (h.balanced.hasKey_iff.1 hkey), hget] at hb
        rw [wp_bind, wp_modify, wp_bind, wp_modify]
        exact hb.wp_settled
      · next hkey =>
        rw [if_neg fun hout => hkey (h.balanced.hasKey_iff.2 hout)] at hb
        rw [wp_bind, wp_modify]
        exact hb.wp_settled

theorem Settled.setThreshold (newByteThreshold : ℤ) : wp (setThreshold newByteThreshold)
      (fun _ k => ({ t with kernel := k } : System ε τ κ).Settled) (fun _ _ => False) t.kernel := by
  unfold DataTransfersKernel.setThreshold
  rw [wp_bind, wp_modify]
  exact (h.balanced.frame newByteThreshold _ _ _ _ _).wp_settled

end

/-! ## Runs -/

/-- What the callers of a kernel do: a token is allocated once and scheduled once, for a target that was not
dropped; what is received was sent; and an endpoint is dropped when nothing is on its way to it. -/
def Proper (t : System ε τ κ) : Op ε τ κ → Prop
  | .dropEndpoint endpoint => ∀ m ∈ t.sent, m.target = endpoint → m.token ∈ t.received
  | .allocateTransferId token _ => token ∉ t.sizes
  | .scheduleLargeMessage m => m.token ∈ t.sizes ∧ (∀ m' ∈ t.scheduled, m'.token ≠ m.token) ∧
    m.target ∉ t.kernel.mEndpointsEverDropped
  | .tokenReceived token => ∃ m ∈ t.sent, m.token = token
  | _ => True

instance (t : System ε τ κ) : ∀ op, Decidable (t.Proper op)
  | .addEndpoint _ => .isTrue trivial
  | .dropEndpoint _ => inferInstanceAs (Decidable (∀ m ∈ _, _))
  | .allocateTransferId .. => inferInstanceAs (Decidable (¬ _))
  | .scheduleLargeMessage _ => inferInstanceAs (Decidable (_ ∧ (∀ m ∈ _, _) ∧ ¬ _))
  | .tokenReceived _ => inferInstanceAs (Decidable (∃ m ∈ _, _))
  | .updateBytecount .. => .isTrue trivial
  | .setThreshold _ => .isTrue trivial

theorem settled_initial (maxBytes : ℤ) :
    (System.initial maxBytes : System ε τ κ).Settled where
  balanced :=
    { accounted := fun _ => List.Perm.refl _
      inOrder := fun _ => List.Sublist.refl _
      distinct := nodup_nil
      queues := fun p => by
        show Finmap.lookup p ∅ ≠ _
        rw [lookup_empty]
        exact nofun
      total := rfl
      withinLimit := nofun
      onTheirWay := fun token endpoint =>
        iff_of_false (by
          show ¬ (∅ : MapWithIndex τ ε).tryGetValue token = some endpoint
          rw [tryGetValue_empty]
          exact nofun) nofun
      bytesizes := fun _ => rfl
      allocated := nofun
      received := nofun }
  noStall := .inl fun _ => rfl

/-- A proper operation keeps the balance and does not stall. -/
theorem Settled.step (h : t.Settled) {op : Op ε τ κ} (hop : t.Proper op) : (t.step op).Settled := by
  cases op with
  | addEndpoint endpoint => exact (h.addEndpoint endpoint).exec
  | dropEndpoint endpoint => exact (h.dropEndpoint hop).exec
  | allocateTransferId token size => exact (h.allocateTransferId hop size).exec
  | scheduleLargeMessage m =>
    obtain ⟨hm, hfresh, hlive⟩ := hop
    exact ((h.scheduleLargeMessage hm hfresh hlive).mono (fun _ _ hk => hk) fun _ _ => elim).exec
  | tokenReceived token => exact (h.tokenReceived hop).exec
  | updateBytecount token size =>
    exact ((h.updateBytecount token size).mono (fun _ _ hk => hk) fun _ _ => elim).exec
  | setThreshold limit =>
    exact ((h.setThreshold limit).mono (fun _ _ hk => hk) fun _ _ => elim).exec

/-- Every scheduled message waits, was sent or was reported as not going to be sent, once. Those of a priority are
sent in order. The total is the sum of the sizes on their way, nothing was sent above the limit, and something waits
only above it. A size is kept for a token from its allocation until it is received, if its message was not reported. -/
structure Accounted (t : System ε τ κ) : Prop where
  distinct : (t.scheduled.map DataTransfersQueuedCallback.token).Nodup
  accounted : ∀ p, (ofPriority p t.scheduled).Perm
    (t.kernel.queue p ++ ofPriority p t.sent ++ ofPriority p t.kernel.onCallbackNotGoingToBeSent)
  inOrder : ∀ p, (ofPriority p t.sent ++ t.kernel.queue p).Sublist (ofPriority p t.scheduled)
  total : t.kernel.totalBytesOutstanding = ∑ token ∈ t.outstanding, t.sizes.get token
  withinLimit : ∀ call ∈ t.kernel.onSendCallback, call.totalBytesOutstanding ≤ call.maxBytecountOutstanding
  noStall : (∀ p, t.kernel.queue p = []) ∨ t.kernel.mMaxOutstandingBytecount < t.kernel.totalBytesOutstanding
  sizesKept : ∀ token, (∀ m ∈ t.kernel.onCallbackNotGoingToBeSent, m.token ≠ token) →
    (token ∈ t.kernel.mTransferIdBytesizes ↔ (token ∈ t.sizes ∧ ∀ m ∈ t.scheduled, m.token ≠ token) ∨
      (∃ p, ∃ m ∈ t.kernel.queue p, m.token = token) ∨ token ∈ t.outstanding)

theorem Balanced.mem_bytesizes (h : t.Balanced) {token : τ} :
    token ∈ t.kernel.mTransferIdBytesizes ↔ token ∈ t.sizes ∧ token ∉ t.received := by
  rw [← Finmap.mem_keys, mem_keys_iff, ← Finmap.mem_keys, mem_keys_iff]
  simp only [h.bytesizes]
  split
  · next hr => exact iff_of_false nofun fun hno => hno.2 hr
  · next hr => exact (and_iff_left hr).symm

theorem Settled.accounted (h : t.Settled) : t.Accounted where
  distinct := h.balanced.distinct
  accounted := h.balanced.accounted
  inOrder := h.balanced.inOrder
  total := h.balanced.total
  withinLimit := h.balanced.withinLimit
  noStall := h.noStall
  sizesKept := by
    intro token hnot
    rw [h.balanced.mem_bytesizes, mem_outstanding]
    constructor
    · rintro ⟨hsize, hr⟩
      by_cases hs : ∃ m ∈ t.scheduled, m.token = token
      · obtain ⟨m, hm, rfl⟩ := hs
        have hmem := (h.balanced.accounted m.priority).subset (mem_ofPriority.2 ⟨hm, rfl⟩)
        rw [mem_append, mem_append] at hmem
        rcases hmem with (hq | hsent) | hreported
        · exact .inr (.inl ⟨_, m, hq, rfl⟩)
        · exact .inr (.inr ⟨⟨m, (mem_ofPriority.1 hsent).1, rfl⟩, hr⟩)
        · exact absurd rfl (hnot m (mem_ofPriority.1 hreported).1)
      · exact .inl ⟨hsize, fun m hm he => hs ⟨m, hm, he⟩⟩
    · rintro (⟨hsize, hno⟩ | ⟨p, m, hm, rfl⟩ | ⟨⟨m, hm, rfl⟩, hr⟩)
      · refine ⟨hsize, fun hr => ?_⟩
        obtain ⟨m, hm, he⟩ := h.balanced.received token hr
        exact hno m (h.balanced.of_mem_sent hm) he
      · refine ⟨h.balanced.allocated m (h.balanced.of_mem_queue hm).1, fun hr => ?_⟩
        obtain ⟨m', hm', he⟩ := h.balanced.received _ hr
        exact h.balanced.token_ne_of_mem_queue hm hm' he
      · exact ⟨h.balanced.allocated m (h.balanced.of_mem_sent hm), hr⟩

/-- Throughout every run of proper operations the messages and the bytes are accounted for. -/
theorem accounted_of_proper (maxBytes : ℤ) (ops : List (Op ε τ κ))
    (h : EveryStep (Run.total step) Proper (initial maxBytes) ops) :
    Always (Run.total step) Accounted (initial maxBytes) ops := by
  have hrun := always_of_everyStep (P := Settled) (settled_initial maxBytes)
    (fun t op t' ht hop he => total_eq_some.1 he ▸ ht.step hop) h
  exact hrun.mono fun _ ht => ht.accounted

/-- Two messages compete for a limit of fourteen bytes, one of them shrinks, and then an endpoint with a message that
waits is dropped. -/
theorem accounted_of_proper_competing : EveryStep (Run.total step) Proper (initial 14 : System ℕ ℕ ℕ)
        [.addEndpoint 1, .addEndpoint 2, .allocateTransferId 1 20, .scheduleLargeMessage ⟨1, 7, 1, 0⟩,
          .allocateTransferId 2 10, .scheduleLargeMessage ⟨1, 8, 2, 3⟩, .allocateTransferId 3 40,
          .scheduleLargeMessage ⟨2, 9, 3, 0⟩, .updateBytecount 1 5, .dropEndpoint 2, .tokenReceived 1] ∧
      Always (Run.total step) Accounted (initial 14 : System ℕ ℕ ℕ)
        [.addEndpoint 1, .addEndpoint 2, .allocateTransferId 1 20, .scheduleLargeMessage ⟨1, 7, 1, 0⟩,
          .allocateTransferId 2 10, .scheduleLargeMessage ⟨1, 8, 2, 3⟩, .allocateTransferId 3 40,
          .scheduleLargeMessage ⟨2, 9, 3, 0⟩, .updateBytecount 1 5, .dropEndpoint 2, .tokenReceived 1] :=
  ⟨by decide +kernel, accounted_of_proper 14 _ (by decide +kernel)⟩

/-- A size is kept for a token that is allocated and not scheduled yet. -/
theorem not_onlyQueuedOrSent : ¬ ∀ (maxBytes : ℤ) (ops : List (Op ℕ ℕ ℕ)),
      EveryStep (Run.total step) Proper (initial maxBytes) ops →
      Always (Run.total step)
        (fun t => ∀ token ∈ t.kernel.mTransferIdBytesizes.keys, ∃ m ∈ t.scheduled, m.token = token ∧
          (m ∈ t.kernel.queue m.priority ∨ m ∈ t.sent))
        (initial maxBytes) ops := by
  intro h
  have hlast := (h 0 [.allocateTransferId 1 10] (by decide +kernel)).last rfl
  obtain ⟨m, hm, -⟩ := hlast 1 (by decide +kernel)
  cases hm

/-- The size of a message that is reported as not going to be sent is never erased. -/
example : ((run (Run.total step) (initial (-1) : System ℕ ℕ ℕ)
    [.addEndpoint 1, .allocateTransferId 1 10, .scheduleLargeMessage ⟨1, 7, 1, 0⟩, .dropEndpoint 1]).any
      fun t => t.sent.isEmpty && t.kernel.untriggered.isEmpty &&
        decide (t.kernel.onCallbackNotGoingToBeSent.length = 1 ∧ 1 ∈ t.kernel.mTransferIdBytesizes.keys)) =
    true := by decide +kernel

end System

end Cumulus.DataTransfersKernel
