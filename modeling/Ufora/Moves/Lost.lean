import Ufora.Moves.Stays

/-!
# The computations that the map loses

The map keeps one side of each move that was reported by one of its two machines only. So once all reports have
arrived it has no flow of a computation exactly when each of its moves was received, and it signals the computation
with the last report if no machine holds it then. The effect of one report is `Reports.wp_setComputationStatus`.
-/

open Ordered Effect List Finset TwoWaySetMap StdMap Option Function Prod Cumulus.MachineComputationMap.Stay

namespace Cumulus.MachineComputationMap

open ComputationStatusOnMachine (Inactive Active Moving ReceivedFrom)

/-! ## What has reached the map -/

/-- The last status of a stay that has reached the map. -/
def Stay.shown (stay : Stay) : ComputationStatusOnMachine := stay.delivered.getLast?.getD Inactive

variable (stays : List Stay)

/-- The source of a flow has reported it. -/
def Departed (flow : ComputationFlow) : Prop :=
  ∃ s ∈ stays, s.machine = flow.source ∧ moveOf s.delivered = some (flow.dest, flow.moveGuid)

/-- The target of a flow has reported it. -/
def Arrived (flow : ComputationFlow) : Prop :=
  ∃ s ∈ stays, s.machine = flow.dest ∧ s.cameFrom = some (flow.source, flow.moveGuid) ∧ s.delivered ≠ []

/-- The flows of a computation that one side has reported: the one to depart, or the one to arrive. -/
structure OneSided (departed arrived : ComputationFlow → Prop) (c : ComputationId)
    (outFlows inFlows : Finset ComputationFlow) : Prop where
  outFlow : ∀ flow, flow.computation = c → (flow ∈ outFlows ↔ departed flow ∧ ¬ arrived flow)
  inFlow : ∀ flow, flow.computation = c → (flow ∈ inFlows ↔ arrived flow ∧ ¬ departed flow)

/-- What the map holds of a computation. -/
structure Told (map : MachineComputationMap) (c : ComputationId) (stays : List Stay) : Prop where
  statuses : ∀ m st, st ≠ Inactive → (map.mStatuses.get (c, m) = st ↔ ∃ s ∈ stays, s.machine = m ∧ s.shown = st)
  machines : ∀ m, map.mComputationToMachineMap.contains c m ↔ ∃ s ∈ stays, s.machine = m ∧ s.shown ≠ Inactive
  flows : OneSided (Departed stays) (Arrived stays) c map.mComputationOutFlows map.mComputationInFlows

/-- The map has called `mOnComputationsLost` for the computation. -/
def Signalled (map : MachineComputationMap) (c : ComputationId) : Prop := ∃ call ∈ map.onComputationsLost, c ∈ call

/-- A machine reports a stay after its earlier ones. -/
def InTurn : Prop := stays.Pairwise fun later s => later.machine = s.machine → later.delivered ≠ [] → s.pending = []

/-- No machine holds the computation, and no move of it is in flight. -/
def Gone : Prop := (∀ s ∈ stays, s.status = Inactive) ∧ ∀ last ∈ stays.head?, moveOf last.reports = none

/-- All reports have arrived. -/
def AllDelivered : Prop := ∀ s ∈ stays, s.pending = []

variable {s s' : Stay} {stays pre post : List Stay} {c : ComputationId} {m : MachineId} {g : Hash}
  {r : ComputationStatusOnMachine} {pending : List ComputationStatusOnMachine} {flow : ComputationFlow}

theorem shown_eq_status (h : s.pending = []) : s.shown = s.status := by
  unfold shown status reports
  rw [h, append_nil]

theorem reports_eq_delivered (h : s.pending = []) : s.reports = s.delivered := by
  unfold reports
  rw [h, append_nil]

theorem delivered_ne_nil_of_shown (h : s.shown ≠ Inactive) : s.delivered ≠ [] := by
  intro hnil
  unfold shown at h
  rw [hnil] at h
  exact h rfl

/-- A stay that the map was told the end of was reported as a whole. -/
theorem pending_eq_nil (hvalid : s.reports.IsChain Next) (hne : s.delivered ≠ []) (h : s.shown = Inactive) :
    s.pending = [] := by
  rcases eq_nil_or_concat s.delivered with hnil | ⟨l, last, hl⟩
  · exact absurd hnil hne
  · unfold shown at h
    rw [hl, concat_eq_append, getLast?_concat] at h
    obtain rfl : last = Inactive := h
    unfold reports at hvalid
    rw [hl, concat_eq_append, append_assoc] at hvalid
    exact isChain_inactive hvalid

section
variable (h : Itinerary stays)
include h

/-- A move is made in one stay. -/
theorem Itinerary.eq_of_mem_guids (hs : s ∈ stays) (hs' : s' ∈ stays) (hg : g ∈ guidsOf s.reports)
    (hg' : g ∈ guidsOf s'.reports) : s = s' := by
  have hsymm : Std.Symm fun a b : Stay => ∀ g ∈ a.leg.guids, g ∉ b.leg.guids := ⟨fun a b hab g hb ha => hab g ha hb⟩
  by_contra hne
  exact (pairwise_map.1 h.linked.movedOnce).forall hs hs' hne g hg hg'

/-- A move is received in one stay. -/
theorem Itinerary.eq_of_cameFrom {m' : MachineId} (hs : s ∈ stays) (hs' : s' ∈ stays)
    (hm : s.cameFrom = some (m, g)) (hm' : s'.cameFrom = some (m', g)) : s = s' := by
  have hsymm : Std.Symm fun a b : Stay =>
      ∀ g, a.leg.cameFrom.map snd = some g → b.leg.cameFrom.map snd ≠ some g :=
    ⟨fun a b hab g hb ha => hab g ha hb⟩
  by_contra hne
  refine (pairwise_map.1 h.linked.arrivedOnce).forall hs hs' hne g ?_ ?_
  · exact congrArg (Option.map snd) hm
  · exact congrArg (Option.map snd) hm'

/-- A computation that came to a machine left another one. -/
theorem Itinerary.exists_before (hs : s ∈ stays) (hm : s.cameFrom = some (m, g)) :
    ∃ before ∈ stays, before.machine = m ∧ moveOf before.reports = some (s.machine, g) := by
  cases stays with
  | nil => cases hs
  | cons last stays =>
    obtain ⟨leg, hleg, hmachine, hleaves⟩ := @Linked.exists_before _ s.leg _ _ _ h.linked (mem_map_of_mem hs) hm
    obtain ⟨before, hbefore, rfl⟩ := mem_map.1 hleg
    exact ⟨before, .tail _ hbefore, hmachine, hleaves⟩

end

/-! ## The stay that is reported -/

/-- The stays of a computation one of which is about to report `r`. -/
structure Reports (pre : List Stay) (s : Stay) (post : List Stay) (r : ComputationStatusOnMachine)
    (pending : List ComputationStatusOnMachine) : Prop where
  itinerary : Itinerary (pre ++ s :: post)
  inTurn : InTurn (pre ++ s :: post)
  isNext : s.IsNext post
  pending : s.pending = r :: pending

/-- The stay after the report. -/
def Stay.afterReport (s : Stay) (r : ComputationStatusOnMachine) (pending : List ComputationStatusOnMachine) : Stay :=
  { s with delivered := s.delivered ++ [r], pending }

theorem shown_afterReport : (s.afterReport r pending).shown = r := by
  unfold shown afterReport
  rw [getLast?_concat]
  rfl

theorem exists_mem_middle {P : Stay → Prop} : (∃ s' ∈ pre ++ s :: post, P s') ↔ P s ∨ ∃ s' ∈ pre ++ post, P s' := by
  simp only [perm_middle.mem_iff, List.mem_cons, exists_eq_or_imp]

theorem departed_middle : Departed (pre ++ s :: post) flow ↔
    (s.machine = flow.source ∧ moveOf s.delivered = some (flow.dest, flow.moveGuid)) ∨
      Departed (pre ++ post) flow := exists_mem_middle

theorem arrived_middle : Arrived (pre ++ s :: post) flow ↔
    (s.machine = flow.dest ∧ s.cameFrom = some (flow.source, flow.moveGuid) ∧ s.delivered ≠ []) ∨
      Arrived (pre ++ post) flow := exists_mem_middle

theorem mem_middle : s ∈ pre ++ s :: post := mem_append_right _ (.head _)

section
variable (h : Reports pre s post r pending)
include h

theorem Reports.reports_eq : s.reports = s.delivered ++ r :: pending := by
  unfold reports
  rw [h.pending]

/-- No other stay on the machine is shown. -/
theorem Reports.shown_other (hs' : s' ∈ pre ++ post) (hm : s'.machine = s.machine) : s'.shown = Inactive := by
  have hturn := h.inTurn
  have hover := h.itinerary.ended
  unfold InTurn at hturn
  rw [pairwise_append, List.pairwise_cons] at hturn hover
  rcases mem_append.1 hs' with hs' | hs'
  · by_contra hshown
    have hnil := hturn.2.2 s' hs' s (.head _) hm (delivered_ne_nil_of_shown hshown)
    rw [h.pending] at hnil
    cases hnil
  · rw [shown_eq_status (h.isNext s' hs' hm)]
    exact hover.2.1.1 s' hs' hm.symm

/-- The map shows the last report of the stay for its machine. -/
theorem Reports.get_eq {map : MachineComputationMap} (htold : map.Told c (pre ++ s :: post)) :
    map.mStatuses.get (c, s.machine) = s.shown := by
  by_cases hshown : s.shown = Inactive
  · by_contra hne
    rw [hshown] at hne
    have hother := (htold.statuses s.machine _ hne).1 rfl
    rw [exists_mem_middle] at hother
    rcases hother with ⟨-, hst⟩ | ⟨y, hy, hm, hst⟩
    · exact hne (hst.symm.trans hshown)
    · exact hne (hst.symm.trans (h.shown_other hy hm))
  · exact (htold.statuses s.machine _ hshown).2 ⟨s, mem_middle, rfl, rfl⟩

/-- The moves that the stay makes are not made in another one. -/
theorem Reports.notMem_guids (hs' : s' ∈ pre ++ post) (hg : g ∈ guidsOf s.reports) : g ∉ guidsOf s'.reports := by
  have hpair := pairwise_map.1 h.itinerary.linked.movedOnce
  rw [perm_middle.pairwise_iff fun hab g hb ha => hab g ha hb, List.pairwise_cons] at hpair
  exact hpair.1 s' hs' g hg

/-- The move that the stay came by is not received in another one. -/
theorem Reports.cameFrom_ne {m' : MachineId} (hs' : s' ∈ pre ++ post) (hm : s.cameFrom = some (m, g)) :
    s'.cameFrom ≠ some (m', g) := by
  intro hm'
  have hpair := pairwise_map.1 h.itinerary.linked.arrivedOnce
  rw [perm_middle.pairwise_iff fun hab g hb ha => hab g ha hb, List.pairwise_cons] at hpair
  refine hpair.1 s' hs' g ?_ ?_
  · exact congrArg (Option.map snd) hm
  · exact congrArg (Option.map snd) hm'

/-- No other stay has departed by a move that the stay makes. -/
theorem Reports.not_departed (hg : flow.moveGuid ∈ guidsOf s.reports) : ¬ Departed (pre ++ post) flow := by
  rintro ⟨y, hy, -, hmove⟩
  refine h.notMem_guids hy hg (mem_guidsOf.2 ⟨flow.dest, mem_append_left _ ?_⟩)
  exact mem_guidsOf_of_moveOf hmove

/-- No other stay has arrived by the move that the stay came by. -/
theorem Reports.not_arrived (hm : s.cameFrom = some (m, flow.moveGuid)) : ¬ Arrived (pre ++ post) flow := by
  rintro ⟨y, hy, -, hcame, -⟩
  exact h.cameFrom_ne hy hm hcame

/-- The report is the first one of the stay, or may follow what the map was told. -/
theorem Reports.next : s.delivered = [] ∧ r = s.first ∨ s.delivered ≠ [] ∧ Next s.shown r := by
  have hvalid := h.itinerary.valid s mem_middle
  rw [h.reports_eq] at hvalid
  rcases eq_nil_or_concat s.delivered with hnil | ⟨l, last, hl⟩
  · rw [hnil] at hvalid
    exact .inl ⟨hnil, some.inj hvalid.1⟩
  · rw [concat_eq_append] at hl
    refine .inr ⟨by simp [hl], ?_⟩
    unfold shown
    rw [hl, append_assoc] at hvalid
    rw [hl, getLast?_concat]
    exact (isChain_append_cons_cons.1 hvalid.2).2.1

end

/-! ## The flows -/

namespace OneSided

variable {departed departed' arrived arrived' : ComputationFlow → Prop} {outFlows inFlows : Finset ComputationFlow}

theorem symm (h : OneSided departed arrived c outFlows inFlows) : OneSided arrived departed c inFlows outFlows :=
  ⟨h.inFlow, h.outFlow⟩

theorem congr (h : OneSided departed arrived c outFlows inFlows)
    (hd : ∀ flow, flow.computation = c → (departed' flow ↔ departed flow))
    (ha : ∀ flow, flow.computation = c → (arrived' flow ↔ arrived flow)) :
    OneSided departed' arrived' c outFlows inFlows := by
  refine ⟨fun flow hc => ?_, fun flow hc => ?_⟩
  · rw [hd flow hc, ha flow hc]
    exact h.outFlow flow hc
  · rw [hd flow hc, ha flow hc]
    exact h.inFlow flow hc

/-- A flow has arrived: it ends if it has departed, and waits for that otherwise. -/
theorem arrive (departed' arrived' : ComputationFlow → Prop) (h : OneSided departed arrived c outFlows inFlows)
    (hc : flow.computation = c)
    (hnot : ¬ arrived flow) (hd : ∀ f, f.computation = c → (departed' f ↔ departed f))
    (ha : ∀ f, f.computation = c → (arrived' f ↔ f = flow ∨ arrived f)) :
    if flow ∈ outFlows then OneSided departed' arrived' c (outFlows.erase flow) (inFlows.erase flow)
    else OneSided departed' arrived' c outFlows (insert flow inFlows) := by
  split
  · next hmem =>
    have hdep := ((h.outFlow flow hc).1 hmem).1
    refine ⟨fun f hf => ?_, fun f hf => ?_⟩
    · rw [hd f hf, ha f hf, mem_erase, h.outFlow f hf, not_or]
      exact and_left_comm
    · rw [hd f hf, ha f hf, mem_erase, h.inFlow f hf]
      grind
  · next hmem =>
    have hdep : ¬ departed flow := fun hd => hmem ((h.outFlow flow hc).2 ⟨hd, hnot⟩)
    refine ⟨fun f hf => ?_, fun f hf => ?_⟩
    · rw [hd f hf, ha f hf, h.outFlow f hf]
      grind
    · rw [hd f hf, ha f hf, mem_insert, h.inFlow f hf]
      grind

/-- A flow that has not arrived is taken back. -/
theorem reject (h : OneSided departed arrived c outFlows inFlows)
    (hnot : ¬ arrived flow) (hd : ∀ f, f.computation = c → (departed' f ↔ departed f ∧ f ≠ flow))
    (ha : ∀ f, f.computation = c → (arrived' f ↔ arrived f)) :
    OneSided departed' arrived' c (outFlows.erase flow) (inFlows.erase flow) := by
  refine ⟨fun f hf => ?_, fun f hf => ?_⟩
  · rw [hd f hf, ha f hf, mem_erase, h.outFlow f hf]
    tauto
  · rw [hd f hf, ha f hf, mem_erase, h.inFlow f hf]
    grind

end OneSided

/-- A flow is completed of a computation that is held. -/
theorem flowCompleted_eq {map : MachineComputationMap} (hkey : map.mComputationToMachineMap.hasKey flow.computation) :
    map.flowCompleted flow = { map with
      mComputationOutFlows := map.mComputationOutFlows.erase flow
      mComputationInFlows := map.mComputationInFlows.erase flow } := by
  unfold flowCompleted signalIfDropped isDropped
  rw [if_pos hkey]
  simp

/-! ### What departs and arrives with a report -/

theorem arrived_afterReport (h : s.delivered = [] → s.cameFrom = none) :
    Arrived (pre ++ s.afterReport r pending :: post) flow ↔ Arrived (pre ++ s :: post) flow := by
  rw [arrived_middle, arrived_middle]
  refine or_congr_left ⟨fun ⟨hm, hcame, _⟩ => ⟨hm, hcame, fun hnil => ?_⟩, fun ⟨hm, hcame, _⟩ => ⟨hm, hcame, ?_⟩⟩
  · have hcame : s.cameFrom = some (flow.source, flow.moveGuid) := hcame
    rw [h hnil] at hcame
    cases hcame
  · exact append_ne_nil_of_right_ne_nil _ (cons_ne_nil _ _)

/-- A stay that is first reported has arrived by the move that it came by. -/
theorem arrived_afterReport_received (hnil : s.delivered = []) (hcame : s.cameFrom = some (m, g))
    (hc : flow.computation = c) : Arrived (pre ++ s.afterReport r pending :: post) flow ↔
      flow = ⟨c, m, s.machine, g⟩ ∨ Arrived (pre ++ s :: post) flow := by
  obtain ⟨c', source, dest, guid⟩ := flow
  obtain rfl : c' = c := hc
  rw [arrived_middle, arrived_middle, hnil, afterReport, hcame]
  simp only [some.injEq, Prod.mk.injEq, ComputationFlow.mk.injEq, ne_eq, append_eq_nil_iff,
    cons_ne_self, and_false, not_false_eq_true, and_true, true_and, not_true_eq_false, false_or]
  refine or_congr_left ⟨?_, ?_⟩
  · rintro ⟨rfl, rfl, rfl⟩
    exact ⟨rfl, rfl, rfl⟩
  · rintro ⟨rfl, rfl, rfl⟩
    exact ⟨rfl, rfl, rfl⟩

theorem departed_afterReport (h : moveOf (s.delivered ++ [r]) = moveOf s.delivered) :
    Departed (pre ++ s.afterReport r pending :: post) flow ↔ Departed (pre ++ s :: post) flow := by
  rw [departed_middle, departed_middle, afterReport, h]

/-- The move that reports end with. -/
theorem departs_iff {l : List ComputationStatusOnMachine} (hl : moveOf l = some (m, g))
    (hc : flow.computation = c) : s.machine = flow.source ∧ moveOf l = some (flow.dest, flow.moveGuid) ↔
      flow = ⟨c, s.machine, m, g⟩ := by
  obtain ⟨c', source, dest, guid⟩ := flow
  obtain rfl : c' = c := hc
  rw [hl]
  simp only [some.injEq, Prod.mk.injEq, ComputationFlow.mk.injEq, true_and]
  constructor
  · rintro ⟨rfl, rfl, rfl⟩
    exact ⟨rfl, rfl, rfl⟩
  · rintro ⟨rfl, rfl, rfl⟩
    exact ⟨rfl, rfl, rfl⟩

theorem departed_middle_none (h : moveOf s.delivered = none) :
    Departed (pre ++ s :: post) flow ↔ Departed (pre ++ post) flow := by
  rw [departed_middle, h]
  exact or_iff_right nofun

theorem departed_middle_some (h : moveOf s.delivered = some (m, g)) (hc : flow.computation = c) :
    Departed (pre ++ s :: post) flow ↔ flow = ⟨c, s.machine, m, g⟩ ∨ Departed (pre ++ post) flow := by
  rw [departed_middle, departs_iff h hc]

/-! ### The effect of a report -/

/-- What a report does to the flows. -/
structure FlowsAfter (map : MachineComputationMap) (c : ComputationId) (stays : List Stay)
    (r : ComputationStatusOnMachine) (map' : MachineComputationMap) : Prop where
  flows : OneSided (Departed stays) (Arrived stays) c map'.mComputationOutFlows map'.mComputationInFlows
  otherOut : ∀ flow, flow.computation ≠ c → (flow ∈ map'.mComputationOutFlows ↔ flow ∈ map.mComputationOutFlows)
  otherIn : ∀ flow, flow.computation ≠ c → (flow ∈ map'.mComputationInFlows ↔ flow ∈ map.mComputationInFlows)
  completed : ∀ g ∈ map'.mMovesCompleted, g ∈ map.mMovesCompleted ∨ ∃ m, r = Moving m g
  same : ∃ outFlows inFlows completed, map' = { map with
    mComputationOutFlows := outFlows
    mComputationInFlows := inFlows
    mMovesCompleted := completed }

variable {map : MachineComputationMap}

theorem FlowsAfter.unchanged (h : OneSided (Departed stays) (Arrived stays) c map.mComputationOutFlows
    map.mComputationInFlows) : FlowsAfter map c stays r map :=
  ⟨h, fun _ _ => Iff.rfl, fun _ _ => Iff.rfl, fun _ => .inl, _, _, _, rfl⟩

/-- A flow is completed. -/
theorem FlowsAfter.flowCompleted (hc : flow.computation = c) (hkey : map.mComputationToMachineMap.hasKey c)
    (h : OneSided (Departed stays) (Arrived stays) c (map.mComputationOutFlows.erase flow)
      (map.mComputationInFlows.erase flow)) : FlowsAfter map c stays r (map.flowCompleted flow) := by
  have hother (flows : Finset ComputationFlow) (f : ComputationFlow) (hf : f.computation ≠ c) :
      f ∈ flows.erase flow ↔ f ∈ flows := by
    rw [mem_erase]
    exact and_iff_right fun he => hf (he ▸ hc)
  rw [flowCompleted_eq (hc ▸ hkey)]
  exact ⟨h, hother _, hother _, fun _ => .inl, _, _, _, rfl⟩

theorem mem_insert_other {flows : Finset ComputationFlow} (hc : flow.computation = c) (f : ComputationFlow)
    (hf : f.computation ≠ c) : f ∈ insert flow flows ↔ f ∈ flows := by
  rw [mem_insert]
  exact or_iff_right fun he => hf (he ▸ hc)

/-- The move that the reports of a stay end with, by the last of them. -/
theorem moveOf_delivered (hne : s.delivered ≠ []) : moveOf s.delivered = match s.shown with
    | Moving m g => some (m, g)
    | Inactive => moveOf s.delivered.dropLast
    | _ => none := by
  rcases eq_nil_or_concat s.delivered with hnil | ⟨l, last, hl⟩
  · exact absurd hnil hne
  · unfold shown
    rw [hl, concat_eq_append, moveOf_concat, getLast?_concat, dropLast_concat]
    rfl

section
variable (hflows : OneSided (Departed (pre ++ s :: post)) (Arrived (pre ++ s :: post)) c map.mComputationOutFlows
  map.mComputationInFlows)
include hflows

section
variable (hkey : map.mComputationToMachineMap.hasKey c)
include hkey

/-- A machine has received the computation. -/
theorem Reports.wp_setFlows_received (h : Reports pre s post (ReceivedFrom m g) pending) (hnil : s.delivered = [])
    (hcame : s.cameFrom = some (m, g)) : wp (setFlows s.machine c Inactive (ReceivedFrom m g))
    (fun _ map' => FlowsAfter map c (pre ++ s.afterReport (ReceivedFrom m g) pending :: post) (ReceivedFrom m g) map')
    (fun _ _ => False) map := by
  have hnot : ¬ Arrived (pre ++ s :: post) ⟨c, m, s.machine, g⟩ := by
    rw [arrived_middle, hnil]
    rintro (⟨-, -, hne⟩ | harrived)
    · exact hne rfl
    · exact h.not_arrived hcame harrived
  have hafter := OneSided.arrive (Departed (pre ++ s.afterReport (ReceivedFrom m g) pending :: post))
    (Arrived (pre ++ s.afterReport (ReceivedFrom m g) pending :: post)) hflows rfl hnot
    (fun f _ => departed_afterReport (by rw [moveOf_concat, hnil]; rfl))
    (fun f hf => arrived_afterReport_received hnil hcame hf)
  unfold setFlows
  rw [wp_bind, wp_get, wp_ite]
  split at hafter
  · next hmem =>
    rw [if_pos hmem, wp_modify]
    exact .flowCompleted rfl hkey hafter
  · next hmem =>
    rw [if_neg hmem, wp_modify]
    exact ⟨hafter, fun _ _ => Iff.rfl, mem_insert_other rfl, fun _ => .inl, _, _, _, rfl⟩

/-- A machine has started to move the computation. -/
theorem Reports.wp_setFlows_moved (h : Reports pre s post (Moving m g) pending) (hne : s.delivered ≠ [])
    (hshown : s.shown = Active) (hconsidered : map.mMovesToConsiderCompleted = ∅)
    (hcompleted : g ∉ map.mMovesCompleted) : wp (setFlows s.machine c Active (Moving m g))
    (fun _ map' => FlowsAfter map c (pre ++ s.afterReport (Moving m g) pending :: post) (Moving m g) map')
    (fun _ _ => False) map := by
  have hmove : moveOf s.delivered = none := by rw [moveOf_delivered hne, hshown]
  have hg : g ∈ guidsOf s.reports := mem_guidsOf.2 ⟨m, by rw [h.reports_eq]; simp⟩
  have hnot : ¬ Departed (pre ++ s :: post) ⟨c, s.machine, m, g⟩ := by
    rw [departed_middle_none hmove]
    exact h.not_departed hg
  have hafter := OneSided.arrive (Arrived (pre ++ s.afterReport (Moving m g) pending :: post))
    (Departed (pre ++ s.afterReport (Moving m g) pending :: post)) hflows.symm rfl hnot
    (fun f _ => arrived_afterReport fun hnil => absurd hnil hne)
    (fun f hf => by
      rw [departed_middle_none hmove]
      exact departed_middle_some moveOf_concat hf)
  unfold setFlows flowStarted
  rw [wp_bind, wp_get, wp_ite, hconsidered]
  split at hafter
  · next hmem =>
    rw [if_pos (.inl hmem), wp_modify]
    exact .flowCompleted rfl hkey hafter.symm
  · next hmem =>
    have hout : (⟨c, s.machine, m, g⟩ : ComputationFlow) ∉ map.mComputationOutFlows := fun hmem' =>
      hnot ((hflows.outFlow _ rfl).1 hmem').1
    rw [if_neg (by simpa using hmem), wp_bind, wp_lassert, if_pos hout, wp_bind, wp_modify, wp_bind, wp_get,
      wp_bind, wp_lassert, if_pos hcompleted, wp_modify]
    refine ⟨hafter.symm, mem_insert_other rfl, fun _ _ => Iff.rfl, fun g' hg' => ?_, _, _, _, rfl⟩
    rcases mem_insert.1 hg' with rfl | hg'
    · exact .inr ⟨m, rfl⟩
    · exact .inl hg'

/-- A move was rejected. -/
theorem Reports.wp_setFlows_rejected (h : Reports pre s post Active pending) (hne : s.delivered ≠ [])
    (hshown : s.shown = Moving m g) : wp (setFlows s.machine c (Moving m g) Active)
    (fun _ map' => FlowsAfter map c (pre ++ s.afterReport Active pending :: post) Active map')
    (fun _ _ => False) map := by
  have hmove : moveOf s.delivered = some (m, g) := by rw [moveOf_delivered hne, hshown]
  have hmem : Moving m g ∈ s.delivered := mem_guidsOf_of_moveOf hmove
  have hg : g ∈ guidsOf s.reports := mem_guidsOf.2 ⟨m, mem_append_left _ hmem⟩
  have hnotRest : ¬ Departed (pre ++ post) ⟨c, s.machine, m, g⟩ := h.not_departed hg
  -- the move was not received: its source would not have become active again
  have hnot : ¬ Arrived (pre ++ s :: post) ⟨c, s.machine, m, g⟩ := by
    rintro ⟨y, hy, -, hcame, -⟩
    obtain ⟨before, hbefore, -, hleaves⟩ := h.itinerary.exists_before hy hcame
    have hmoving := mem_guidsOf_of_moveOf hleaves
    obtain rfl := h.itinerary.eq_of_mem_guids mem_middle hbefore hg (mem_guidsOf.2 ⟨_, hmoving⟩)
    rw [h.reports_eq] at hleaves
    have hlater := mem_of_moveOf_append hleaves
    have hnodup := (h.itinerary.linked.own s.leg (mem_map_of_mem mem_middle)).1
    unfold leg at hnodup
    rw [h.reports_eq, guidsOf_append, nodup_append] at hnodup
    exact hnodup.2.2 g (mem_guidsOf.2 ⟨m, hmem⟩) g (mem_guidsOf.2 ⟨_, .tail _ hlater⟩) rfl
  have hout : (⟨c, s.machine, m, g⟩ : ComputationFlow) ∈ map.mComputationOutFlows :=
    (hflows.outFlow _ rfl).2 ⟨(departed_middle_some hmove rfl).2 (.inl rfl), hnot⟩
  unfold setFlows
  rw [wp_bind, wp_get, wp_ite, if_pos hout, wp_modify]
  refine .flowCompleted rfl hkey (hflows.reject hnot (fun f hf => ?_) fun f _ => ?_)
  · rw [departed_middle_some hmove hf, departed_middle_none (by exact moveOf_concat)]
    constructor
    · exact fun hd => ⟨.inr hd, fun he => hnotRest (he ▸ hd)⟩
    · exact fun hd => hd.1.resolve_left hd.2
  · exact arrived_afterReport fun hnil => absurd hnil hne

end

/-- The call makes the flows of the new stays out of those of the old ones. -/
theorem Reports.wp_setFlows (h : Reports pre s post r pending)
    (hkey : r ≠ Inactive → map.mComputationToMachineMap.hasKey c) (hconsidered : map.mMovesToConsiderCompleted = ∅)
    (hcompleted : ∀ m g, r = Moving m g → g ∉ map.mMovesCompleted) : wp (setFlows s.machine c s.shown r)
    (fun _ map' => FlowsAfter map c (pre ++ s.afterReport r pending :: post) r map') (fun _ _ => False) map := by
  have hsame (hmove : moveOf (s.delivered ++ [r]) = moveOf s.delivered)
      (hcame : s.delivered = [] → s.cameFrom = none) :
      FlowsAfter map c (pre ++ s.afterReport r pending :: post) r map :=
    .unchanged (hflows.congr (fun _ _ => departed_afterReport hmove) fun _ _ => arrived_afterReport hcame)
  rcases h.next with ⟨hnil, hr⟩ | ⟨hne, hnext⟩
  · have hshown : s.shown = Inactive := by
      unfold shown
      rw [hnil]
      rfl
    rw [hshown]
    unfold first at hr
    split at hr
    · next hcame =>
      subst hr
      exact hsame (by rw [moveOf_concat, hnil]; rfl) fun _ => hcame
    · next source g hcame =>
      subst hr
      exact h.wp_setFlows_received hflows (hkey nofun) hnil hcame
  · have hmove := moveOf_delivered hne
    generalize hshown : s.shown = shown at hnext hmove ⊢
    cases hnext with
    | activated | updated => exact hsame (by rw [moveOf_concat, hmove]) fun hnil => absurd hnil hne
    | moved => exact h.wp_setFlows_moved hflows (hkey nofun) hne hshown hconsidered (hcompleted _ _ rfl)
    | rejected => exact h.wp_setFlows_rejected hflows (hkey nofun) hne hshown
    | released | finished => exact hsame moveOf_concat fun hnil => absurd hnil hne

end

/-! ## The statuses -/

theorem get_setStatus {c' : ComputationId} {m' : MachineId} : (map.setStatus m c r).mStatuses.get (c', m') =
    if c' = c ∧ m' = m then r else map.mStatuses.get (c', m') := by
  unfold setStatus
  split
  · next hr =>
    subst hr
    simp only [get_erase, Prod.mk.injEq]
    rfl
  · simp only [get_insert, Prod.mk.injEq]

theorem contains_setStatus {c' : ComputationId} {m' : MachineId} :
    (map.setStatus m c r).mComputationToMachineMap.contains c' m' ↔
      if c' = c ∧ m' = m then r ≠ Inactive else map.mComputationToMachineMap.contains c' m' := by
  unfold setStatus
  split
  · next hr =>
    subst hr
    split
    · rw [contains_drop]
      split
      · next he => simp [he]
      · next he => simp [he]
    · next hnot =>
      split
      · next he =>
        obtain ⟨rfl, rfl⟩ := he
        simpa using hnot
      · exact Iff.rfl
  · next hr =>
    rw [TwoWaySetMap.contains_insert]
    split
    · next he => simp [he, hr]
    · next he => simp [he]

theorem exists_setStatus : ∃ statuses machines hashes, map.setStatus m c r = { map with
    mStatuses := statuses
    mComputationToMachineMap := machines
    mComputationHashToComputation := hashes } := by
  unfold setStatus
  split <;> exact ⟨_, _, _, rfl⟩

/-- What the map holds once the status of a stay is set, but for the flows. -/
theorem Reports.setStatus (h : Reports pre s post r pending) (htold : map.Told c (pre ++ s :: post)) :
    (∀ m st, st ≠ Inactive → ((map.setStatus s.machine c r).mStatuses.get (c, m) = st ↔
      ∃ s' ∈ pre ++ s.afterReport r pending :: post, s'.machine = m ∧ s'.shown = st)) ∧
    ∀ m, (map.setStatus s.machine c r).mComputationToMachineMap.contains c m ↔
      ∃ s' ∈ pre ++ s.afterReport r pending :: post, s'.machine = m ∧ s'.shown ≠ Inactive := by
  have hother (P : ComputationStatusOnMachine → Prop) (hP : ¬ P Inactive) (m : MachineId) :
      (∃ s' ∈ pre ++ s.afterReport r pending :: post, s'.machine = m ∧ P s'.shown) ↔
        if m = s.machine then P r else ∃ s' ∈ pre ++ s :: post, s'.machine = m ∧ P s'.shown := by
    rw [exists_mem_middle, exists_mem_middle, shown_afterReport]
    split
    · next hm =>
      subst hm
      refine ⟨?_, fun hr => .inl ⟨rfl, hr⟩⟩
      rintro (⟨-, hr⟩ | ⟨y, hy, hm, hy'⟩)
      · exact hr
      · rw [h.shown_other hy hm] at hy'
        exact absurd hy' hP
    · next hm =>
      refine or_congr_left (iff_of_false (fun he => hm he.1.symm) fun he => hm he.1.symm)
  refine ⟨fun m st hst => ?_, fun m => ?_⟩
  · rw [get_setStatus, hother (· = st) hst.symm]
    simp only [true_and]
    split
    · exact Iff.rfl
    · exact htold.statuses m st hst
  · rw [contains_setStatus, hother (· ≠ Inactive) (fun hne => hne rfl)]
    simp only [true_and]
    split
    · exact Iff.rfl
    · exact htold.machines m

/-! ## When a computation is dropped -/

theorem isDropped_iff : map.isDropped c ↔
    (∀ flow, flow.computation = c → flow ∉ map.mComputationInFlows ∧ flow ∉ map.mComputationOutFlows) ∧
      ∀ m, ¬ map.mComputationToMachineMap.contains c m := by
  have hcard (flows : Finset ComputationFlow) : (flows.filter fun flow => flow.computation = c).card ≠ 0 ↔
      ∃ flow ∈ flows, flow.computation = c := by
    rw [card_ne_zero]
    constructor
    · rintro ⟨flow, hflow⟩
      exact ⟨flow, mem_filter.1 hflow⟩
    · rintro ⟨flow, hflow⟩
      exact ⟨flow, mem_filter.2 hflow⟩
  unfold isDropped
  split
  · next hin =>
    obtain ⟨flow, hflow, hc⟩ := (hcard _).1 hin
    exact iff_of_false nofun fun h => (h.1 flow hc).1 hflow
  · next hin =>
    split
    · next hout =>
      obtain ⟨flow, hflow, hc⟩ := (hcard _).1 hout
      exact iff_of_false nofun fun h => (h.1 flow hc).2 hflow
    · next hout =>
      split
      · next hkey =>
        obtain ⟨m, hm⟩ := hasKey_iff.1 hkey
        exact iff_of_false nofun fun h => h.2 m hm
      · next hkey =>
        refine iff_of_true rfl ⟨fun flow hc => ⟨fun hf => ?_, fun hf => ?_⟩, fun m hm => ?_⟩
        · exact hin ((hcard _).2 ⟨flow, hf, hc⟩)
        · exact hout ((hcard _).2 ⟨flow, hf, hc⟩)
        · exact hkey (hasKey_iff.2 ⟨m, hm⟩)

/-- No flow is left exactly when all moves have departed and arrived. -/
theorem Told.isDropped_iff (h : map.Told c stays) : map.isDropped c ↔
    (∀ flow, flow.computation = c → (Departed stays flow ↔ Arrived stays flow)) ∧ ∀ s ∈ stays, s.shown = Inactive := by
  rw [MachineComputationMap.isDropped_iff]
  refine and_congr (forall₂_congr fun flow hc => ?_) ⟨fun hm s hs => ?_, fun hs m hm => ?_⟩
  · rw [h.flows.inFlow flow hc, h.flows.outFlow flow hc]
    tauto
  · by_contra hne
    exact hm s.machine ((h.machines _).2 ⟨s, hs, rfl, hne⟩)
  · obtain ⟨s, hs', -, hne⟩ := (h.machines m).1 hm
    exact hne (hs s hs')

section
variable (h : Itinerary stays)
include h

/-- Where a stay that another one follows is reported as a whole, its departure has reached the map. -/
theorem Itinerary.departed_arrived (hall : AllDelivered stays) (hgone : Gone stays) :
    Departed stays flow ↔ Arrived stays flow := by
  constructor
  · rintro ⟨s, hs, hm, hmove⟩
    rw [← reports_eq_delivered (hall s hs)] at hmove
    cases stays with
    | nil => cases hs
    | cons last stays =>
      rcases mem_cons.1 hs with rfl | hs'
      · rw [hgone.2 s rfl] at hmove
        cases hmove
      · obtain ⟨leg, hleg, g, hcame, hleaves⟩ := @exists_leg_after _ s.leg _ h.linked.chain (mem_map_of_mem hs')
        rw [← List.map_cons] at hleg
        obtain ⟨after, hafter, rfl⟩ := mem_map.1 hleg
        have hleaves : moveOf s.reports = some (after.machine, g) := hleaves
        rw [hmove] at hleaves
        obtain ⟨hdest, rfl⟩ := Prod.mk.inj (some.inj hleaves)
        refine ⟨after, hafter, hdest.symm, hcame.trans (by rw [← hm]; rfl), ?_⟩
        rw [← reports_eq_delivered (hall after hafter)]
        intro hnil
        have hhead := (h.valid after hafter).1
        rw [hnil] at hhead
        cases hhead
  · rintro ⟨s, hs, hm, hcame, -⟩
    obtain ⟨before, hbefore, hsource, hmove⟩ := h.exists_before hs hcame
    refine ⟨before, hbefore, hsource, ?_⟩
    rw [← reports_eq_delivered (hall before hbefore), hmove, hm]

/-- Where each departure was followed by its arrival and each arrival by its departure, and nothing is shown, all
has been reported as soon as something has. -/
theorem Itinerary.allDelivered (hflows : ∀ flow, flow.computation = c → (Departed stays flow ↔ Arrived stays flow))
    (hshown : ∀ s ∈ stays, s.shown = Inactive) (hs : s ∈ stays) (hne : s.delivered ≠ []) :
    AllDelivered stays := by
  have hpending (x : Stay) (hx : x ∈ stays) (hxne : x.delivered ≠ []) : x.pending = [] :=
    pending_eq_nil (h.valid x hx).2 hxne (hshown x hx)
  have hchain : stays.IsChain fun a b => a.delivered ≠ [] ↔ b.delivered ≠ [] := by
    have hfollows := h.linked.chain
    rw [isChain_map] at hfollows
    refine hfollows.imp_of_mem_imp fun a b ha hb ⟨g, hcame, hleaves⟩ => ⟨fun hane => ?_, fun hbne => ?_⟩
    · obtain ⟨y, hy, -, hmove⟩ := (hflows ⟨c, b.machine, a.machine, g⟩ rfl).2 ⟨a, ha, rfl, hcame, hane⟩
      have hg := mem_guidsOf_of_moveOf hmove
      obtain rfl := h.eq_of_mem_guids hy hb (mem_guidsOf.2 ⟨_, mem_append_left _ hg⟩)
        (mem_guidsOf.2 ⟨_, mem_guidsOf_of_moveOf hleaves⟩)
      exact ne_nil_of_mem hg
    · have hleaves : moveOf b.reports = some (a.machine, g) := hleaves
      rw [reports_eq_delivered (hpending b hb hbne)] at hleaves
      obtain ⟨y, hy, -, hy', hyne⟩ := (hflows ⟨c, b.machine, a.machine, g⟩ rfl).1 ⟨b, hb, rfl, hleaves⟩
      obtain rfl := h.eq_of_cameFrom hy ha hy' hcame
      exact hyne
  have hall := all_of_chain hchain hs hne
  exact fun x hx => hpending x hx (hall x hx)

end

/-- The map drops a computation of which it was told something exactly when the computation is gone and all reports
have arrived. -/
theorem Told.isDropped_iff_gone (h : map.Told c stays) (hitinerary : Itinerary stays) (hs : s ∈ stays)
    (hne : s.delivered ≠ []) : map.isDropped c ↔ Gone stays ∧ AllDelivered stays := by
  rw [h.isDropped_iff]
  constructor
  · rintro ⟨hflows, hshown⟩
    have hall := hitinerary.allDelivered hflows hshown hs hne
    refine ⟨⟨fun x hx => shown_eq_status (hall x hx) ▸ hshown x hx, fun last hlast => ?_⟩, hall⟩
    by_contra hmove
    obtain ⟨⟨m, g⟩, hmove⟩ := ne_none_iff_exists'.1 hmove
    have hmem := mem_of_mem_head? hlast
    have hleaves := hmove
    rw [reports_eq_delivered (hall last hmem)] at hleaves
    obtain ⟨y, hy, -, hcame, -⟩ := (hflows ⟨c, last.machine, m, g⟩ rfl).1 ⟨last, hmem, rfl, hleaves⟩
    cases stays with
    | nil => cases hs
    | cons last' stays =>
      obtain rfl := some.inj hlast
      obtain ⟨before, hbefore, -, hbefore'⟩ :=
        @Linked.exists_before _ y.leg _ _ _ hitinerary.linked (mem_map_of_mem hy) hcame
      refine hitinerary.linked.notMem_guids_head (mem_guidsOf.2 ⟨m, mem_guidsOf_of_moveOf hmove⟩) before hbefore ?_
      exact (hitinerary.linked.own before (.tail _ hbefore)).2 (y.leg.machine, g) hbefore'
  · rintro ⟨hgone, hall⟩
    refine ⟨fun flow _ => hitinerary.departed_arrived hall hgone, fun x hx => ?_⟩
    rw [shown_eq_status (hall x hx)]
    exact hgone.1 x hx

theorem exists_signalIfDropped : ∃ hashes lost, map.signalIfDropped c = { map with
    mComputationHashToComputation := hashes
    onComputationsLost := lost } := by
  unfold signalIfDropped
  split
  · exact ⟨_, _, rfl⟩
  · exact ⟨_, _, rfl⟩

/-- What a call of `setComputationStatus` does to the map. -/
structure After (map : MachineComputationMap) (c : ComputationId) (stays : List Stay)
    (r : ComputationStatusOnMachine) (map' : MachineComputationMap) : Prop where
  told : map'.Told c stays
  other : ∀ c' stays', c' ≠ c → map.Told c' stays' → map'.Told c' stays'
  completed : ∀ g ∈ map'.mMovesCompleted, g ∈ map.mMovesCompleted ∨ ∃ m, r = Moving m g
  lost : ∀ c', map'.Signalled c' ↔ map.Signalled c' ∨ c' = c ∧ Gone stays ∧ AllDelivered stays
  dropped : map'.mMachinesEverDropped = map.mMachinesEverDropped
  active : map'.mMachinesActive = map.mMachinesActive
  considered : map'.mMovesToConsiderCompleted = map.mMovesToConsiderCompleted

theorem signalled_signalIfDropped {c' : ComputationId} :
    (map.signalIfDropped c).Signalled c' ↔ map.Signalled c' ∨ c' = c ∧ map.isDropped c := by
  unfold signalIfDropped
  split
  · next hd =>
    unfold Signalled signalDropped
    simp only [mem_append, List.mem_singleton, or_and_right, exists_or, exists_eq_left, Finset.mem_singleton]
    exact or_congr_right (and_iff_left hd).symm
  · next hd => exact (or_iff_left fun h => hd h.2).symm

/-- A report of another computation changes nothing that the map holds of a computation. -/
theorem Told.of_other {map' : MachineComputationMap} (h : map.Told c stays)
    (hstatuses : ∀ m, map'.mStatuses.get (c, m) = map.mStatuses.get (c, m))
    (hmachines : ∀ m, map'.mComputationToMachineMap.contains c m ↔ map.mComputationToMachineMap.contains c m)
    (hout : ∀ flow, flow.computation = c → (flow ∈ map'.mComputationOutFlows ↔ flow ∈ map.mComputationOutFlows))
    (hin : ∀ flow, flow.computation = c →
      (flow ∈ map'.mComputationInFlows ↔ flow ∈ map.mComputationInFlows)) : map'.Told c stays where
  statuses m st hst := by
    rw [hstatuses]
    exact h.statuses m st hst
  machines m := (hmachines m).trans (h.machines m)
  flows := ⟨fun flow hc => (hout flow hc).trans (h.flows.outFlow flow hc),
    fun flow hc => (hin flow hc).trans (h.flows.inFlow flow hc)⟩

theorem Reports.wp_setComputationStatus (h : Reports pre s post r pending) (htold : map.Told c (pre ++ s :: post))
    (hdropped : map.mMachinesEverDropped = ∅) (hactive : s.machine ∈ map.mMachinesActive)
    (hconsidered : map.mMovesToConsiderCompleted = ∅) (hcompleted : ∀ m g, r = Moving m g → g ∉ map.mMovesCompleted) :
    wp (setComputationStatus s.machine c r) (fun _ map' =>
      After map c (pre ++ s.afterReport r pending :: post) r map') (fun _ _ => False) map := by
  obtain ⟨hstatuses, hmachines⟩ := h.setStatus htold
  have hget (c' : ComputationId) (m : MachineId) (hc : c' ≠ c) :
      (map.setStatus s.machine c r).mStatuses.get (c', m) = map.mStatuses.get (c', m) := by
    rw [get_setStatus, if_neg fun he => hc he.1]
  have hcontains (c' : ComputationId) (m : MachineId) (hc : c' ≠ c) :
      (map.setStatus s.machine c r).mComputationToMachineMap.contains c' m ↔
        map.mComputationToMachineMap.contains c' m := by
    rw [contains_setStatus, if_neg fun he => hc he.1]
  have hkey hr : (map.setStatus s.machine c r).mComputationToMachineMap.hasKey c :=
    hasKey_iff.2 ⟨s.machine, contains_setStatus.2 (by rwa [if_pos ⟨rfl, rfl⟩])⟩
  obtain ⟨statuses, machines, hashes, hset⟩ := exists_setStatus (m := s.machine)
  unfold setComputationStatus
  rw [wp_bind, wp_get, wp_ite, if_neg (by rw [hdropped]; exact notMem_empty _), wp_bind, wp_lassert,
    if_pos hactive, wp_bind, wp_modify, wp_bind, h.get_eq htold]
  generalize map.setStatus s.machine c r = map₁ at hset hstatuses hmachines hget hcontains hkey ⊢
  have hflows : OneSided (Departed (pre ++ s :: post)) (Arrived (pre ++ s :: post)) c map₁.mComputationOutFlows
      map₁.mComputationInFlows := by
    rw [hset]
    exact htold.flows
  have hconsidered₁ : map₁.mMovesToConsiderCompleted = ∅ := by
    rw [hset]
    exact hconsidered
  have hcompleted₁ (m : MachineId) (g : Hash) (hr : r = Moving m g) : g ∉ map₁.mMovesCompleted := by
    rw [hset]
    exact hcompleted m g hr
  refine (h.wp_setFlows hflows hkey hconsidered₁ hcompleted₁).imp fun _ map₂ hafter => ?_
  obtain ⟨hflows₂, hotherOut, hotherIn, hcompleted₂, outFlows, inFlows, completed, hsame⟩ := hafter
  have htold₂ : map₂.Told c (pre ++ s.afterReport r pending :: post) := by
    refine ⟨?_, ?_, hflows₂⟩
    · rw [hsame]
      exact hstatuses
    · rw [hsame]
      exact hmachines
  have hne : (s.afterReport r pending).delivered ≠ [] := append_ne_nil_of_right_ne_nil _ (cons_ne_nil _ _)
  have hgone := htold₂.isDropped_iff_gone (h.itinerary.deliver h.pending) mem_middle hne
  rw [wp_modify]
  obtain ⟨hashes', lost, hsignal⟩ := @exists_signalIfDropped c map₂
  refine ⟨?_, fun c' stays' hc htold' => ?_, ?_, fun c' => ?_, ?_, ?_, ?_⟩
  · rw [hsignal]
    exact ⟨htold₂.statuses, htold₂.machines, htold₂.flows⟩
  · rw [hsignal]
    refine htold'.of_other (fun m => ?_) (fun m => ?_) (fun flow hf => ?_) fun flow hf => ?_
    · rw [hsame]
      exact hget c' m hc
    · rw [hsame]
      exact hcontains c' m hc
    · refine (hotherOut flow (hf ▸ hc)).trans ?_
      rw [hset]
    · refine (hotherIn flow (hf ▸ hc)).trans ?_
      rw [hset]
  · rw [hsignal]
    intro g hg
    rw [hset] at hcompleted₂
    exact hcompleted₂ g hg
  · rw [signalled_signalIfDropped, hgone]
    refine or_congr_left ?_
    unfold Signalled
    rw [hsame, hset]
  · rw [hsignal, hsame, hset]
  · rw [hsignal, hsame, hset]
  · rw [hsignal, hsame, hset]

/-! ## All computations -/

namespace System

/-- No assertion has failed, and a computation was signalled as lost exactly if no machine holds it, no move of it is
in flight and the map was told so. -/
structure Correct (t : System) : Prop where
  notFailed : t.failed = none
  lost : ∀ c, t.map.Signalled c ↔ t.stays c ≠ [] ∧ Gone (t.stays c) ∧ AllDelivered (t.stays c)

/-- What holds of the machines and the map, whatever the order in which the reports arrive. -/
structure Tracked (t : System) : Prop extends Correct t where
  itinerary : ∀ c, Itinerary (t.stays c)
  inTurn : ∀ c, InTurn (t.stays c)
  told : ∀ c, t.map.Told c (t.stays c)
  guids : ∀ c, ∀ s ∈ t.stays c, ∀ g ∈ guidsOf s.reports, g ∈ t.guids
  exclusive : ∀ c, ∀ s ∈ t.stays c, ∀ g ∈ guidsOf s.reports, ∀ c', ∀ s' ∈ t.stays c', g ∈ guidsOf s'.reports → c' = c
  completed : ∀ g ∈ t.map.mMovesCompleted, ∃ c, ∃ s ∈ t.stays c, g ∈ guidsOf s.delivered
  active : ∀ c, ∀ s ∈ t.stays c, s.machine ∈ t.map.mMachinesActive
  targets : ∀ c, ∀ s ∈ t.stays c, ∀ m g, Moving m g ∈ s.reports → m ∈ t.map.mMachinesActive
  dropped : t.map.mMachinesEverDropped = ∅
  considered : t.map.mMovesToConsiderCompleted = ∅

/-! ### What the machines do -/

theorem told_pending {stays' : List ComputationStatusOnMachine} (h : map.Told c (pre ++ s :: post)) :
    map.Told c (pre ++ { s with pending := stays' } :: post) := by
  have hsame {P : Stay → Prop} (hP : P { s with pending := stays' } ↔ P s) :
      (∃ x ∈ pre ++ { s with pending := stays' } :: post, P x) ↔ ∃ x ∈ pre ++ s :: post, P x := by
    rw [exists_mem_middle, exists_mem_middle, hP]
  refine ⟨fun m st hst => ?_, fun m => ?_, h.flows.congr (fun flow _ => ?_) fun flow _ => ?_⟩
  · rw [h.statuses m st hst]
    exact (hsame Iff.rfl).symm
  · rw [h.machines m]
    exact (hsame Iff.rfl).symm
  · exact hsame Iff.rfl
  · exact hsame Iff.rfl

/-- The map knows nothing of a stay that was not reported. -/
theorem told_cons (h : map.Told c stays) (hnil : s.delivered = []) : map.Told c (s :: stays) := by
  have hshown : s.shown = Inactive := by
    unfold shown
    rw [hnil]
    rfl
  have hsame {P : Stay → Prop} (hP : ¬ P s) : (∃ x ∈ s :: stays, P x) ↔ ∃ x ∈ stays, P x := by
    rw [exists_mem_cons_iff]
    exact or_iff_right hP
  refine ⟨fun m st hst => ?_, fun m => ?_, h.flows.congr (fun flow _ => ?_) fun flow _ => ?_⟩
  · rw [h.statuses m st hst]
    exact (hsame fun hs => hst (hs.2.symm.trans hshown)).symm
  · rw [h.machines m]
    exact (hsame fun hs => hs.2 hshown).symm
  · exact hsame fun hs => by
      rw [hnil] at hs
      cases hs.2
  · exact hsame fun hs => hs.2.2 hnil

variable {t t' : System}

theorem stays_withStays_self : (t.withStays c stays).stays c = stays := update_self _ _ _

theorem stays_withStays_other {c' : ComputationId} (hc : c' ≠ c) : (t.withStays c stays).stays c' = t.stays c' :=
  update_of_ne hc _ _

section

variable (h : t.Tracked)
include h

/-- The stays of one computation change, of which the map has not been told. -/
theorem Tracked.of_stays (hother : ∀ c', c' ≠ c → t'.stays c' = t.stays c')
    (hmap : t'.map = t.map) (hfailed : t'.failed = t.failed) (hguids : t.guids ⊆ t'.guids)
    (hitinerary : Itinerary (t'.stays c)) (hturn : InTurn (t'.stays c)) (htold : t.map.Told c (t'.stays c))
    (hmem : ∀ s ∈ t'.stays c, ∀ g ∈ guidsOf s.reports,
      (∃ s' ∈ t.stays c, g ∈ guidsOf s'.reports) ∨ g ∉ t.guids ∧ g ∈ t'.guids)
    (hdelivered : ∀ s ∈ t.stays c, ∃ s' ∈ t'.stays c, s'.delivered = s.delivered)
    (hactive : ∀ s ∈ t'.stays c, s.machine ∈ t.map.mMachinesActive)
    (htargets : ∀ s ∈ t'.stays c, ∀ m g, Moving m g ∈ s.reports → m ∈ t.map.mMachinesActive)
    (hbefore : t.stays c ≠ [] → ¬ Gone (t.stays c)) (hafter : ¬ AllDelivered (t'.stays c)) : t'.Tracked := by
  have hfrom (c' : ComputationId) (s : Stay) (hs : s ∈ t'.stays c') (g : Hash) (hg : g ∈ guidsOf s.reports) :
      (∃ s' ∈ t.stays c', g ∈ guidsOf s'.reports) ∨ c' = c ∧ g ∉ t.guids ∧ g ∈ t'.guids := by
    by_cases hc : c' = c
    · subst hc
      exact (hmem s hs g hg).imp_right fun hnew => ⟨rfl, hnew⟩
    · rw [hother c' hc] at hs
      exact .inl ⟨s, hs, hg⟩
  have hof {P : ComputationId → List Stay → Prop} (hP : ∀ c', P c' (t.stays c')) (hself : P c (t'.stays c))
      (c' : ComputationId) : P c' (t'.stays c') := by
    by_cases hc : c' = c
    · rwa [hc]
    · rw [hother c' hc]
      exact hP c'
  constructor
  case toCorrect =>
    refine ⟨hfailed.trans h.notFailed, ?_⟩
    rw [hmap]
    refine hof (P := fun c l => t.map.Signalled c ↔ l ≠ [] ∧ Gone l ∧ AllDelivered l) h.lost
      ⟨fun hlost => ?_, fun hall => absurd hall.2.2 hafter⟩
    have hgone := (h.lost c).1 hlost
    exact absurd hgone.2.1 (hbefore hgone.1)
  case itinerary => exact hof (P := fun _ => Itinerary) h.itinerary hitinerary
  case inTurn => exact hof (P := fun _ => InTurn) h.inTurn hturn
  case told =>
    rw [hmap]
    exact hof (P := t.map.Told) h.told htold
  case guids =>
    intro c' s hs g hg
    rcases hfrom c' s hs g hg with ⟨s', hs', hg'⟩ | ⟨-, -, hg'⟩
    · exact hguids (h.guids c' s' hs' g hg')
    · exact hg'
  case exclusive =>
    intro c' s hs g hg c'' s' hs' hg'
    rcases hfrom c' s hs g hg with ⟨x, hx, hgx⟩ | ⟨rfl, hno, -⟩
    · rcases hfrom c'' s' hs' g hg' with ⟨y, hy, hgy⟩ | ⟨-, hno, -⟩
      · exact h.exclusive c' x hx g hgx c'' y hy hgy
      · exact absurd (h.guids c' x hx g hgx) hno
    · rcases hfrom c'' s' hs' g hg' with ⟨y, hy, hgy⟩ | ⟨rfl, -, -⟩
      · exact absurd (h.guids c'' y hy g hgy) hno
      · rfl
  case completed =>
    rw [hmap]
    intro g hg
    obtain ⟨c', s, hs, hgs⟩ := h.completed g hg
    by_cases hc : c' = c
    · subst hc
      obtain ⟨s', hs', he⟩ := hdelivered s hs
      exact ⟨c', s', hs', he ▸ hgs⟩
    · exact ⟨c', s, (hother c' hc).symm ▸ hs, hgs⟩
  case active =>
    rw [hmap]
    exact hof (P := fun _ l => ∀ s ∈ l, s.machine ∈ t.map.mMachinesActive) h.active hactive
  case targets =>
    rw [hmap]
    exact hof (P := fun _ l => ∀ s ∈ l, ∀ m g, Moving m g ∈ s.reports → m ∈ t.map.mMachinesActive) h.targets htargets
  case dropped => rw [hmap, h.dropped]
  case considered => rw [hmap, h.considered]

/-- A machine that holds the computation reports a new status. -/
theorem Tracked.report (hstays : t.stays c = pre ++ s :: post) (hstatus : s.status ≠ Inactive)
    (hother : ∀ c', c' ≠ c → t'.stays c' = t.stays c') (hself : t'.stays c = pre ++ s.report r :: post)
    (hmap : t'.map = t.map) (hfailed : t'.failed = t.failed) (hguids : t.guids ⊆ t'.guids)
    (hitinerary : Itinerary (pre ++ s.report r :: post))
    (hfresh : ∀ m g, r = Moving m g → g ∉ t.guids ∧ g ∈ t'.guids ∧ m ∈ t.map.mMachinesActive) : t'.Tracked := by
  have hold := h.itinerary c
  have hturn := h.inTurn c
  have hs : s ∈ t.stays c := hstays ▸ mem_middle
  have hsplit (x : Stay) (hx : x ∈ t'.stays c) : x = s.report r ∨ x ∈ t.stays c := by
    rw [hself] at hx
    rw [hstays]
    grind
  have hreports (r' : ComputationStatusOnMachine) (hr' : r' ∈ (s.report r).reports) : r' ∈ s.reports ∨ r' = r := by
    rw [reports_report] at hr'
    exact (mem_append.1 hr').imp_right List.mem_singleton.1
  rw [hstays] at hold hturn
  refine h.of_stays hother hmap hfailed hguids (hself ▸ hitinerary) ?_ ?_ ?_ ?_ ?_ ?_ ?_ ?_
  · rw [hself]
    unfold InTurn at hturn ⊢
    have hover := hold.ended
    rw [pairwise_append, List.pairwise_cons] at hturn hover ⊢
    refine ⟨hturn.1, ⟨hturn.2.1.1, hturn.2.1.2⟩, fun x hx y hy => ?_⟩
    rcases mem_cons.1 hy with rfl | hy
    · exact fun hm _ => absurd (hover.2.2 x hx s (.head _) hm) hstatus
    · exact hturn.2.2 x hx y (.tail _ hy)
  · rw [hself]
    exact told_pending (hstays ▸ h.told c)
  · intro x hx g hg
    rcases hsplit x hx with rfl | hx
    · obtain ⟨m, hm⟩ := mem_guidsOf.1 hg
      rcases hreports _ hm with hm | rfl
      · exact .inl ⟨s, hs, mem_guidsOf.2 ⟨m, hm⟩⟩
      · exact .inr ⟨(hfresh m g rfl).1, (hfresh m g rfl).2.1⟩
    · exact .inl ⟨x, hx, hg⟩
  · intro x hx
    rw [hself]
    rw [hstays] at hx
    rcases mem_append.1 hx with hx | hx
    · exact ⟨x, mem_append_left _ hx, rfl⟩
    · rcases mem_cons.1 hx with rfl | hx
      · exact ⟨x.report r, mem_middle, rfl⟩
      · exact ⟨x, mem_append_right _ (.tail _ hx), rfl⟩
  · intro x hx
    rcases hsplit x hx with rfl | hx
    · exact h.active c s hs
    · exact h.active c x hx
  · intro x hx m g hm
    rcases hsplit x hx with rfl | hx
    · rcases hreports _ hm with hm | rfl
      · exact h.targets c s hs m g hm
      · exact (hfresh m g rfl).2.2
    · exact h.targets c x hx m g hm
  · exact fun _ hgone => hstatus (hgone.1 s hs)
  · intro hall
    rw [hself] at hall
    exact absurd (hall _ mem_middle) (by simp [Stay.report])

/-- The last machine reports a new status that makes no move. -/
theorem Tracked.reportHead (hstays : t.stays c = s :: stays) (hnext : Next s.status r)
    (hmove : ∀ m g, r ≠ Moving m g) : (t.withStays c (s.report r :: stays)).Tracked := by
  have hold := h.itinerary c
  rw [hstays] at hold
  have hhead : t.stays c = [] ++ s :: stays := hstays
  refine h.report hhead ?_ (fun _ => stays_withStays_other) stays_withStays_self rfl rfl
    (Finset.Subset.refl _) (hold.report hnext fun m g hr => absurd hr (hmove m g)) fun m g hr => absurd hr (hmove m g)
  intro hst
  rw [hst] at hnext
  cases hnext

/-- The last machine starts a move. -/
theorem Tracked.startMove (hstays : t.stays c = s :: stays) (hstatus : s.status = Active)
    (hg : g ∉ t.guids) (hm : m ∈ t.map.mMachinesActive) :
    Tracked { t.withStays c (s.report (Moving m g) :: stays) with guids := insert g t.guids } := by
  have hold := h.itinerary c
  rw [hstays] at hold
  have hhead : t.stays c = [] ++ s :: stays := hstays
  refine h.report hhead (by rw [hstatus]; exact nofun) (fun _ => stays_withStays_other)
    stays_withStays_self rfl rfl (subset_insert _ _) (hold.report (hstatus ▸ .moved) fun m' g' hr => ?_)
    fun m' g' hr => ?_
  · obtain ⟨rfl, rfl⟩ := ComputationStatusOnMachine.Moving.inj hr
    exact fun s' hs' hg' => hg (h.guids c s' (hstays ▸ hs') g hg')
  · obtain ⟨rfl, rfl⟩ := ComputationStatusOnMachine.Moving.inj hr
    exact ⟨hg, mem_insert_self _ _, hm⟩

theorem Tracked.create (hstays : t.stays c = []) (hm : m ∈ t.map.mMachinesActive) :
    (t.withStays c [⟨m, none, [], [Active]⟩]).Tracked := by
  have htold := h.told c
  rw [hstays] at htold
  refine h.of_stays (fun _ => stays_withStays_other) rfl rfl (Finset.Subset.refl _) ?_ ?_ ?_ ?_ ?_ ?_ ?_
    (fun hne => absurd hstays hne) ?_
  all_goals rw [stays_withStays_self]
  · exact .create m
  · exact pairwise_singleton _ _
  · exact told_cons htold rfl
  · intro s hs g hg
    obtain rfl := List.mem_singleton.1 hs
    cases hg
  · intro s hs
    rw [hstays] at hs
    cases hs
  · intro s hs
    obtain rfl := List.mem_singleton.1 hs
    exact hm
  · intro s hs m' g hmoving
    obtain rfl := List.mem_singleton.1 hs
    cases List.mem_singleton.1 hmoving
  · exact fun hall => nomatch hall _ (.head _)

theorem Tracked.receive (hstays : t.stays c = s :: stays) (hmove : moveOf s.reports = some (m, g))
    (hfree : ∀ other ∈ s :: stays, other.machine = m → other.status = Inactive) :
    (t.withStays c (⟨m, some (s.machine, g), [], [ReceivedFrom s.machine g]⟩ :: s :: stays)).Tracked := by
  have hold := h.itinerary c
  have hturn := h.inTurn c
  have htold := h.told c
  rw [hstays] at hold hturn htold
  have hnotGone (_ : t.stays c ≠ []) : ¬ Gone (t.stays c) := by
    intro hgone
    rw [hstays] at hgone
    have hnone := hgone.2 s rfl
    rw [hmove] at hnone
    cases hnone
  refine h.of_stays (fun _ => stays_withStays_other) rfl rfl (Finset.Subset.refl _) ?_ ?_ ?_ ?_ ?_ ?_ ?_ hnotGone ?_
  all_goals rw [stays_withStays_self]
  · exact hold.receive hmove hfree
  · exact pairwise_cons.2 ⟨fun _ _ _ hne => absurd rfl hne, hturn⟩
  · exact told_cons htold rfl
  · intro x hx g' hg'
    rcases mem_cons.1 hx with rfl | hx
    · cases hg'
    · exact .inl ⟨x, hstays ▸ hx, hg'⟩
  · exact fun x hx => ⟨x, .tail _ (hstays ▸ hx), rfl⟩
  · intro x hx
    rcases mem_cons.1 hx with rfl | hx
    · exact h.targets c s (hstays ▸ .head _) m g (mem_guidsOf_of_moveOf hmove)
    · exact h.active c x (hstays ▸ hx)
  · intro x hx m' g' hmoving
    rcases mem_cons.1 hx with rfl | hx
    · cases List.mem_singleton.1 hmoving
    · exact h.targets c x (hstays ▸ hx) m' g' hmoving
  · exact fun hall => nomatch hall _ (.head _)

/-- A machine gives up a computation that it has sent away. -/
theorem Tracked.release (hstays : t.stays c = pre ++ s :: post) (hstatus : s.status = Moving m g) :
    (t.withStays c (pre ++ s.report Inactive :: post)).Tracked := by
  have hold := h.itinerary c
  rw [hstays] at hold
  exact h.report hstays (by rw [hstatus]; exact nofun) (fun _ => stays_withStays_other) stays_withStays_self rfl rfl
    (Finset.Subset.refl _) (hold.release hstatus) fun _ _ => nofun

/-! ### What arrives at the map -/

end

theorem call_of_wp {x : Call Unit} {Q : MachineComputationMap → Prop}
    (h : wp x (fun _ map => Q map) (fun _ _ => False) t.map) :
    ∃ map, t.call x = { t with map } ∧ Q map := by
  obtain ⟨_, map, hx, hmap⟩ := h.exists_run
  refine ⟨map, ?_, hmap⟩
  unfold System.call
  rw [hx]

theorem Tracked.addMachine (h : t.Tracked) (hm : m ∉ t.map.mMachinesActive) :
    (t.call (MachineComputationMap.addMachine m)).Tracked := by
  have hadd : wp (MachineComputationMap.addMachine m) (fun _ map => map = { t.map with
      mMachinesActive := insert m t.map.mMachinesActive }) (fun _ _ => False) t.map := by
    unfold MachineComputationMap.addMachine
    rw [wp_bind, wp_get, wp_bind, wp_lassert, if_pos (by rw [h.dropped]; exact notMem_empty _), wp_bind,
      wp_lassert, if_pos hm, wp_modify]
  obtain ⟨map, hcall, rfl⟩ := call_of_wp hadd
  rw [hcall]
  exact {
    h with
    lost := h.lost
    told := fun c => ⟨(h.told c).statuses, (h.told c).machines, (h.told c).flows⟩
    active := fun c s hs => mem_insert_of_mem (h.active c s hs)
    targets := fun c s hs m' g hmoving => mem_insert_of_mem (h.targets c s hs m' g hmoving) }

theorem reports_afterReport (hs : s.pending = r :: pending) : (s.afterReport r pending).reports = s.reports := by
  unfold reports afterReport
  rw [hs, append_assoc]
  rfl

theorem inTurn_afterReport (h : Reports pre s post r pending) : InTurn (pre ++ s.afterReport r pending :: post) := by
  have hturn := h.inTurn
  unfold InTurn at hturn ⊢
  rw [pairwise_append, List.pairwise_cons] at hturn ⊢
  refine ⟨hturn.1, ⟨fun y hy hm _ => h.isNext y hy hm.symm, hturn.2.1.2⟩, fun x hx y hy => ?_⟩
  rcases List.mem_cons.1 hy with rfl | hy
  · intro hm hne
    have hnil := hturn.2.2 x hx s (.head _) hm hne
    rw [h.pending] at hnil
    cases hnil
  · exact hturn.2.2 x hx y (.tail _ hy)

/-- A report arrives at the map. -/
theorem Tracked.deliver (h : t.Tracked) (hstays : t.stays c = pre ++ s :: post) (hs : s.pending = r :: pending)
    (hnext : s.IsNext post) :
    ((t.withStays c (pre ++ s.afterReport r pending :: post)).call (setComputationStatus s.machine c r)).Tracked := by
  have hreports : Reports pre s post r pending := ⟨hstays ▸ h.itinerary c, hstays ▸ h.inTurn c, hnext, hs⟩
  have hmem : s ∈ t.stays c := hstays ▸ mem_middle
  have hfresh (m : MachineId) (g : Hash) (hr : r = Moving m g) : g ∉ t.map.mMovesCompleted := by
    intro hg
    obtain ⟨c', s', hs', hgs'⟩ := h.completed g hg
    have hgs : g ∈ guidsOf s.reports := mem_guidsOf.2 ⟨m, by rw [hreports.reports_eq, hr]; simp⟩
    have hgr : g ∈ guidsOf s'.reports := by
      unfold reports
      rw [guidsOf_append]
      exact mem_append_left _ hgs'
    obtain rfl := h.exclusive c s hmem g hgs c' s' hs' hgr
    obtain rfl := (h.itinerary c').eq_of_mem_guids hmem hs' hgs hgr
    have hnodup := ((h.itinerary c').linked.own s.leg (mem_map_of_mem hmem)).1
    unfold leg at hnodup
    rw [hreports.reports_eq, guidsOf_append, nodup_append] at hnodup
    exact hnodup.2.2 g hgs' g (mem_guidsOf.2 ⟨m, hr ▸ .head _⟩) rfl
  have htold := h.told c
  rw [hstays] at htold
  obtain ⟨map, hcall, hafter⟩ := call_of_wp (t := t.withStays c (pre ++ s.afterReport r pending :: post))
    (hreports.wp_setComputationStatus htold h.dropped (h.active c s hmem) h.considered hfresh)
  rw [hcall]
  -- what does not depend on what has been reported is as before
  have hof {P : ComputationId → List Stay → Prop} (hP : ∀ c', c' ≠ c → P c' (t.stays c'))
      (hself : P c (pre ++ s.afterReport r pending :: post)) (c' : ComputationId) :
      P c' ((t.withStays c (pre ++ s.afterReport r pending :: post)).stays c') := by
    by_cases hc : c' = c
    · rw [hc, stays_withStays_self]
      exact hself
    · rw [stays_withStays_other hc]
      exact hP c' hc
  have hold (c' : ComputationId) (x : Stay)
      (hx : x ∈ (t.withStays c (pre ++ s.afterReport r pending :: post)).stays c') :
      ∃ y ∈ t.stays c', x.machine = y.machine ∧ x.reports = y.reports := by
    refine hof (P := fun c' l => ∀ x ∈ l, ∃ y ∈ t.stays c', x.machine = y.machine ∧ x.reports = y.reports)
      (fun c' _ x hx => ⟨x, hx, rfl, rfl⟩) (fun x hx => ?_) c' x hx
    rw [hstays]
    rcases mem_append.1 hx with hx | hx
    · exact ⟨x, mem_append_left _ hx, rfl, rfl⟩
    · rcases mem_cons.1 hx with rfl | hx
      · exact ⟨s, mem_middle, rfl, reports_afterReport hs⟩
      · exact ⟨x, mem_append_right _ (.tail _ hx), rfl, rfl⟩
  constructor
  case toCorrect =>
    refine ⟨h.notFailed, fun c' => (hafter.lost c').trans ?_⟩
    refine hof (P := fun c' l => t.map.Signalled c' ∨ c' = c ∧ Gone (pre ++ s.afterReport r pending :: post) ∧
      AllDelivered (pre ++ s.afterReport r pending :: post) ↔ l ≠ [] ∧ Gone l ∧ AllDelivered l)
      (fun c' hc => ?_) ?_ c'
    · rw [or_iff_left fun he => hc he.1]
      exact h.lost c'
    · rw [h.lost c]
      have hnot : ¬ AllDelivered (t.stays c) := fun hall => by
        have hnil := hall s hmem
        rw [hs] at hnil
        cases hnil
      simp [hnot]
  case itinerary =>
    exact hof (P := fun _ => Itinerary) (fun c' _ => h.itinerary c') (hreports.itinerary.deliver hs)
  case inTurn =>
    exact hof (P := fun _ => InTurn) (fun c' _ => h.inTurn c') (inTurn_afterReport hreports)
  case told =>
    exact hof (P := map.Told) (fun c' hc => hafter.other c' _ hc (h.told c')) hafter.told
  case guids =>
    intro c' x hx g hg
    obtain ⟨y, hy, -, he⟩ := hold c' x hx
    exact h.guids c' y hy g (he ▸ hg)
  case exclusive =>
    intro c' x hx g hg c'' x' hx' hg'
    obtain ⟨y, hy, -, he⟩ := hold c' x hx
    obtain ⟨y', hy', -, he'⟩ := hold c'' x' hx'
    exact h.exclusive c' y hy g (he ▸ hg) c'' y' hy' (he' ▸ hg')
  case completed =>
    intro g hg
    rcases hafter.completed g hg with hg | ⟨m, rfl⟩
    · obtain ⟨c', y, hy, hgy⟩ := h.completed g hg
      refine ⟨c', ?_⟩
      by_cases hc : c' = c
      · subst hc
        rw [stays_withStays_self]
        rw [hstays] at hy
        rcases mem_append.1 hy with hy | hy
        · exact ⟨y, mem_append_left _ hy, hgy⟩
        · rcases mem_cons.1 hy with rfl | hy
          · refine ⟨_, mem_middle, ?_⟩
            rw [afterReport, guidsOf_append]
            exact mem_append_left _ hgy
          · exact ⟨y, mem_append_right _ (.tail _ hy), hgy⟩
      · refine ⟨y, ?_, hgy⟩
        rw [stays_withStays_other hc]
        exact hy
    · refine ⟨c, s.afterReport (Moving m g) pending, ?_, mem_guidsOf.2 ⟨m, ?_⟩⟩
      · rw [stays_withStays_self]
        exact mem_middle
      · exact mem_append_right _ (.head _)
  case active =>
    intro c' x hx
    obtain ⟨y, hy, hm, -⟩ := hold c' x hx
    rw [hm, hafter.active]
    exact h.active c' y hy
  case targets =>
    intro c' x hx m g hmoving
    obtain ⟨y, hy, -, he⟩ := hold c' x hx
    rw [hafter.active]
    exact h.targets c' y hy m g (he ▸ hmoving)
  case dropped => exact hafter.dropped.trans h.dropped
  case considered => exact hafter.considered.trans h.considered

/-! ### Runs -/

theorem tracked_empty : Tracked {} where
  notFailed := rfl
  lost _ := iff_of_false (fun ⟨_, hcall, _⟩ => nomatch hcall) fun h => h.1 rfl
  itinerary _ := ⟨⟨isChain_nil, nofun, nofun, .nil, .nil⟩, nofun, .nil⟩
  inTurn _ := .nil
  told _ := by
    refine ⟨fun m st hst => iff_of_false ?_ nofun, fun m => iff_of_false contains_empty ?_,
      fun _ _ => ⟨nofun, nofun⟩, fun _ _ => ⟨nofun, nofun⟩⟩
    · exact fun he => hst (he.symm.trans (get_empty _))
    · exact fun ⟨_, hs, _⟩ => nomatch hs
  guids _ := nofun
  exclusive _ := nofun
  completed _ := nofun
  active _ := nofun
  targets _ := nofun
  dropped := rfl
  considered := rfl

theorem take_cons_drop {α : Type} {l : List α} {i : ℕ} {a : α} (h : l[i]? = some a) :
    l = l.take i ++ a :: l.drop (i + 1) := by
  obtain ⟨hi, rfl⟩ := List.getElem?_eq_some_iff.1 h
  rw [← drop_eq_getElem_cons, take_append_drop]

theorem set_eq {α : Type} {l : List α} {i : ℕ} {a b : α} (h : l[i]? = some a) :
    l.set i b = l.take i ++ b :: l.drop (i + 1) := by
  obtain ⟨hi, -⟩ := List.getElem?_eq_some_iff.1 h
  rw [set_eq_take_append_cons_drop, if_pos hi]

theorem Tracked.step (h : t.Tracked) {op : Op} (hstep : t.step op = some t') : t'.Tracked := by
  unfold System.step at hstep
  cases op with
  | addMachine machine =>
    dsimp only at hstep
    split at hstep
    · cases hstep
    · next hm =>
      obtain rfl := some.inj hstep
      exact h.addMachine hm
  | create computation machine =>
    dsimp only at hstep
    split at hstep
    · next hm =>
      obtain rfl := some.inj hstep
      exact h.create hm.1 hm.2
    · cases hstep
  | activate computation | update computation | rejectMove computation | finish computation =>
    dsimp only at hstep
    split at hstep
    · cases hstep
    · next s stays hstays =>
      split at hstep
      · next hstatus =>
        obtain rfl := some.inj hstep
        refine h.reportHead hstays ?_ fun _ _ => nofun
        rw [hstatus]
        constructor
      · cases hstep
  | startMove computation targetMachine moveGuid =>
    dsimp only at hstep
    split at hstep
    · cases hstep
    · next s stays hstays =>
      split at hstep
      · next hstatus =>
        split at hstep
        · next hfresh =>
          obtain rfl := some.inj hstep
          exact h.startMove hstays hstatus hfresh.1 hfresh.2
        · cases hstep
      · cases hstep
  | receive computation =>
    dsimp only at hstep
    split at hstep
    · cases hstep
    · next s stays hstays =>
      split at hstep
      · next hmove =>
        split at hstep
        · next hfree =>
          obtain rfl := some.inj hstep
          exact h.receive hstays hmove hfree
        · cases hstep
      · cases hstep
  | release computation index =>
    dsimp only at hstep
    split at hstep
    · cases hstep
    · next s hs =>
      split at hstep
      · next hstatus =>
        obtain rfl := some.inj hstep
        rw [set_eq hs]
        exact h.release (take_cons_drop hs) hstatus
      · cases hstep
  | deliver computation index =>
    dsimp only at hstep
    split at hstep
    · cases hstep
    · next s hs =>
      split at hstep
      · cases hstep
      · next r pending hpending =>
        split at hstep
        · next hnext =>
          obtain rfl := some.inj hstep
          rw [set_eq hs]
          exact h.deliver (take_cons_drop hs) hpending hnext
        · cases hstep

/-- In every run, the map calls `mOnComputationsLost` for a computation once no machine holds it, no move of it is in
flight and the last report of that has arrived, and not before. -/
theorem matchesExternal_run (ops : List Op) : Run.Always step Correct {} ops := by
  have htracked : Run.Always step Tracked {} ops := Run.always tracked_empty fun _ _ _ h hs => h.step hs
  exact fun pre t hp ht => (htracked pre t hp ht).toCorrect

/-- In every run, the statuses, the machines and the moves in flight that the map holds are those of the reports that
have arrived. -/
theorem always_told (ops : List Op) : Run.Always step (fun t => ∀ c, t.map.Told c (t.stays c)) {} ops :=
  (Run.always tracked_empty fun _ _ _ h hs => h.step hs).mono fun _ h => h.told

end System

end Cumulus.MachineComputationMap
