import Ufora.Moves.MachineComputationMap

/-!
# The stays of a computation

What is known of the stays of a computation whatever has reached the map. Its stays are linked: each but the first
was entered by the move that the stay before it was left by. A move is made once and received at most once.
-/

open List Option Cumulus.MachineComputationMap.Stay

namespace Cumulus.MachineComputationMap

open ComputationStatusOnMachine (Inactive Active Moving ReceivedFrom)

/-! ## The reports of a stay -/

/-- What may follow a status in the reports of a stay. -/
inductive Next : ComputationStatusOnMachine → ComputationStatusOnMachine → Prop
  | activated {m : MachineId} {g : Hash} : Next (ReceivedFrom m g) Active
  | updated : Next Active Active
  | moved {m : MachineId} {g : Hash} : Next Active (Moving m g)
  | rejected {m : MachineId} {g : Hash} : Next (Moving m g) Active
  | released {m : MachineId} {g : Hash} : Next (Moving m g) Inactive
  | finished : Next Active Inactive

/-- The first report of a stay. -/
def Stay.first (stay : Stay) : ComputationStatusOnMachine :=
  match stay.cameFrom with
  | none => Active
  | some (source, guid) => ReceivedFrom source guid

/-- The guid of a move that a report starts. -/
def guidOf : ComputationStatusOnMachine → Option Hash
  | Moving _ g => some g
  | _ => none

/-- The guids of the moves that some reports start. -/
def guidsOf (reports : List ComputationStatusOnMachine) : List Hash := reports.filterMap guidOf

variable {reports : List ComputationStatusOnMachine} {r : ComputationStatusOnMachine}

theorem moveOf_concat : moveOf (reports ++ [r]) = match r with
    | Moving m g => some (m, g)
    | Inactive => moveOf reports
    | _ => none := by
  unfold moveOf
  rw [foldl_append]
  cases r <;> rfl

variable {l l' : List ComputationStatusOnMachine}

theorem guidsOf_append : guidsOf (l ++ l') = guidsOf l ++ guidsOf l' := filterMap_append

theorem mem_guidsOf {g : Hash} : g ∈ guidsOf reports ↔ ∃ m, Moving m g ∈ reports := by
  unfold guidsOf
  rw [mem_filterMap]
  constructor
  · rintro ⟨r, hr, hg⟩
    cases r with
    | Moving m g' =>
      obtain rfl := some.inj hg
      exact ⟨m, hr⟩
    | _ => cases hg
  · rintro ⟨m, hm⟩
    exact ⟨Moving m g, hm, rfl⟩

/-- The move that some reports end with is one that they start. -/
theorem mem_guidsOf_of_moveOf {move : MachineId × Hash} (h : moveOf reports = some move) :
    Moving move.1 move.2 ∈ reports := by
  induction reports using reverseRecOn with
  | nil => cases h
  | append_singleton l r ih =>
    rw [moveOf_concat] at h
    cases r with
    | Moving m g =>
      obtain rfl := some.inj h
      exact mem_append_right _ (mem_singleton_self _)
    | Inactive => exact mem_append_left _ (ih h)
    | Active => cases h
    | ReceivedFrom m g => cases h

/-- After a status that is active the reports end with a move only if they start one. -/
theorem mem_of_moveOf_append {move : MachineId × Hash}
    (h : moveOf (l ++ Active :: l') = some move) : Moving move.1 move.2 ∈ l' := by
  induction l' using reverseRecOn with
  | nil =>
    rw [moveOf_concat] at h
    cases h
  | append_singleton l' r ih =>
    rw [← cons_append, ← append_assoc, moveOf_concat] at h
    cases r with
    | Moving m g =>
      obtain rfl := some.inj h
      exact mem_append_right _ (mem_singleton_self _)
    | Inactive => exact mem_append_left _ (ih h)
    | Active => cases h
    | ReceivedFrom m g => cases h

/-- After a status that is inactive nothing is reported. -/
theorem isChain_inactive (h : (l ++ Inactive :: l').IsChain Next) : l' = [] := by
  cases l' with
  | nil => rfl
  | cons r l' =>
    obtain ⟨-, hnext, -⟩ := isChain_append_cons_cons.1 h
    cases hnext

/-! ## The stays and their moves -/

/-- What a stay is for the other stays of the computation. -/
structure Leg where
  machine : MachineId
  cameFrom : Option (MachineId × Hash)
  leavesFor : Option (MachineId × Hash)
  guids : List Hash

/-- The leg of a stay. -/
def Stay.leg (stay : Stay) : Leg where
  machine := stay.machine
  cameFrom := stay.cameFrom
  leavesFor := moveOf stay.reports
  guids := guidsOf stay.reports

/-- A leg is entered by the move that the one before it is left by. -/
def Leg.Follows (later earlier : Leg) : Prop :=
  ∃ g, later.cameFrom = some (earlier.machine, g) ∧ earlier.leavesFor = some (later.machine, g)

/-- The legs of a computation, the last one first. -/
structure Linked (legs : List Leg) : Prop where
  chain : legs.IsChain Leg.Follows
  created : ∀ first ∈ legs.getLast?, first.cameFrom = none
  own : ∀ leg ∈ legs, leg.guids.Nodup ∧ ∀ move ∈ leg.leavesFor, move.2 ∈ leg.guids
  movedOnce : legs.Pairwise fun a b => ∀ g ∈ a.guids, g ∉ b.guids
  arrivedOnce : legs.Pairwise fun a b => ∀ g, a.cameFrom.map Prod.snd = some g → b.cameFrom.map Prod.snd ≠ some g

section
variable {leg leg' : Leg} {legs : List Leg} {m m' : MachineId} {g : Hash}

/-- The leg before one that was entered by a move. -/
theorem exists_leg_before (hchain : (leg :: legs).IsChain Leg.Follows)
    (hcreated : ∀ first ∈ (leg :: legs).getLast?, first.cameFrom = none) (hleg : leg' ∈ leg :: legs)
    (hcame : leg'.cameFrom = some (m, g)) :
    ∃ before ∈ legs, before.machine = m ∧ before.leavesFor = some (leg'.machine, g) := by
  induction legs generalizing leg with
  | nil =>
    obtain rfl := mem_singleton.1 hleg
    rw [hcreated leg' rfl] at hcame
    cases hcame
  | cons b legs ih =>
    obtain ⟨⟨g', hlater, hearlier⟩, hchain⟩ := isChain_cons_cons.1 hchain
    rcases mem_cons.1 hleg with rfl | hleg
    · rw [hcame] at hlater
      obtain ⟨rfl, rfl⟩ := Prod.mk.inj (some.inj hlater)
      exact ⟨b, mem_cons_self, rfl, hearlier⟩
    · have hcreated : ∀ first ∈ (b :: legs).getLast?, first.cameFrom = none := by
        rwa [getLast?_cons_cons] at hcreated
      obtain ⟨before, hmem, hbefore⟩ := ih hchain hcreated hleg
      exact ⟨before, .tail _ hmem, hbefore⟩

theorem Linked.exists_before (h : Linked (leg :: legs)) (hleg : leg' ∈ leg :: legs)
    (hcame : leg'.cameFrom = some (m, g)) :
    ∃ before ∈ legs, before.machine = m ∧ before.leavesFor = some (leg'.machine, g) :=
  exists_leg_before h.chain h.created hleg hcame

/-- The leg after one that is not the last. -/
theorem exists_leg_after (hchain : (leg :: legs).IsChain Leg.Follows) (hleg : leg' ∈ legs) :
    ∃ after ∈ leg :: legs, Leg.Follows after leg' := by
  induction legs generalizing leg with
  | nil => cases hleg
  | cons b legs ih =>
    obtain ⟨hfollows, hchain⟩ := isChain_cons_cons.1 hchain
    rcases mem_cons.1 hleg with rfl | hleg
    · exact ⟨leg, mem_cons_self, hfollows⟩
    · obtain ⟨after, hmem, hafter⟩ := ih hchain hleg
      exact ⟨after, .tail _ hmem, hafter⟩

/-- What passes from each leg to its neighbours holds of all legs or of none. -/
theorem all_of_chain {α : Type} {l : List α} {P : α → Prop} (h : l.IsChain fun a b => P a ↔ P b) {a : α}
    (ha : a ∈ l) (hp : P a) : ∀ b ∈ l, P b := by
  have hhead : ∀ l a, (a :: l).IsChain (fun a b => P a ↔ P b) → ∀ b ∈ a :: l, P b ↔ P a := by
    intro l
    induction l with
    | nil =>
      intro a _ b hb
      rw [mem_singleton.1 hb]
    | cons b l ih =>
      intro a hchain
      obtain ⟨hab, hchain⟩ := isChain_cons_cons.1 hchain
      exact forall_mem_cons.2 ⟨Iff.rfl, fun c hc => (ih b hchain c hc).trans hab.symm⟩
  cases l with
  | nil => cases ha
  | cons c l => exact fun b hb => (hhead l c h b hb).2 ((hhead l c h a ha).1 hp)

/-- The move that a leg is left by is received by the one after it only. -/
theorem Linked.notMem_guids_head (h : Linked (leg :: legs)) (hg : g ∈ leg.guids) :
    ∀ before ∈ legs, g ∉ before.guids := fun before hmem =>
  (pairwise_cons.1 h.movedOnce).1 before hmem g hg

end

/-! ## What the machines do -/

/-- What holds of the stays of a computation, the last one first. A machine has left a computation before it
receives it again. -/
structure Itinerary (stays : List Stay) : Prop where
  linked : Linked (stays.map leg)
  valid : ∀ s ∈ stays, s.reports.head? = some s.first ∧ s.reports.IsChain Next
  ended : stays.Pairwise fun later s => later.machine = s.machine → s.status = Inactive

variable {s s' : Stay} {stays : List Stay} {m : MachineId} {g : Hash}

theorem Stay.reports_report (s : Stay) (r : ComputationStatusOnMachine) :
    (s.report r).reports = s.reports ++ [r] := (append_assoc _ _ _).symm

theorem Itinerary.create (m : MachineId) : Itinerary [⟨m, none, [], [Active]⟩] where
  linked :=
    { chain := isChain_singleton _
      created := by
        rintro first hfirst
        obtain rfl := some.inj hfirst
        rfl
      own := by
        intro leg hleg
        obtain rfl := mem_singleton.1 hleg
        exact ⟨nodup_nil, nofun⟩
      movedOnce := pairwise_singleton _ _
      arrivedOnce := pairwise_singleton _ _ }
  valid := by
    intro s hs
    obtain rfl := mem_singleton.1 hs
    exact ⟨rfl, isChain_singleton _⟩
  ended := pairwise_singleton _ _

/-- The reports of a stay with one more report. -/
theorem valid_report (h : s.reports.head? = some s.first ∧ s.reports.IsChain Next) (hr : Next s.status r) :
    (s.report r).reports.head? = some (s.report r).first ∧ (s.report r).reports.IsChain Next := by
  rw [reports_report]
  have hne : s.reports ≠ [] := fun hnil => by
    rw [hnil] at h
    cases h.1
  refine ⟨?_, isChain_append.2 ⟨h.2, isChain_singleton _, ?_⟩⟩
  · rw [head?_append_of_ne_nil _ hne]
    exact h.1
  · intro x hx y hy
    obtain rfl := some.inj hy
    unfold status at hr
    rw [hx] at hr
    exact hr

/-- The last machine reports a new status. -/
theorem Itinerary.report (h : Itinerary (s :: stays)) (hr : Next s.status r)
    (hfresh : ∀ m g, r = Moving m g → ∀ s' ∈ s :: stays, g ∉ guidsOf s'.reports) :
    Itinerary (s.report r :: stays) := by
  obtain ⟨⟨hchain, hcreated, hown, hmoved, harrived⟩, hvalid, hover⟩ := h
  have hguids : ∀ g, g ∈ (s.report r).leg.guids → g ∈ s.leg.guids ∨ ∃ m, r = Moving m g := by
    intro g hg
    obtain ⟨m, hm⟩ := mem_guidsOf.1 hg
    rw [reports_report] at hm
    rcases mem_append.1 hm with hm | hm
    · exact .inl (mem_guidsOf.2 ⟨m, hm⟩)
    · exact .inr ⟨m, (mem_singleton.1 hm).symm⟩
  refine ⟨⟨?_, ?_, ?_, ?_, ?_⟩, ?_, ?_⟩
  · cases stays with
    | nil => exact isChain_singleton _
    | cons b stays =>
      obtain ⟨hfollows, hchain⟩ := isChain_cons_cons.1 hchain
      exact isChain_cons_cons.2 ⟨hfollows, hchain⟩
  · cases stays with
    | nil =>
      intro first hfirst
      obtain rfl := some.inj hfirst
      exact hcreated s.leg rfl
    | cons b stays => exact hcreated
  · refine forall_mem_cons.2 ⟨⟨?_, ?_⟩, fun leg hleg => hown leg (.tail _ hleg)⟩
    · show (guidsOf (s.report r).reports).Nodup
      rw [reports_report, guidsOf_append, nodup_append]
      refine ⟨(hown _ (.head _)).1, ?_, fun g hg g' hg' hgg => ?_⟩
      · cases r with
        | Moving m g => exact nodup_singleton g
        | _ => exact nodup_nil
      · obtain ⟨m, hm⟩ := mem_guidsOf.1 hg'
        exact hfresh m g' (mem_singleton.1 hm).symm s (.head _) (hgg ▸ hg)
    · intro move hmove
      exact mem_guidsOf.2 ⟨move.1, mem_guidsOf_of_moveOf hmove⟩
  · rw [map_cons, pairwise_cons] at hmoved ⊢
    refine ⟨fun b hb g hg => ?_, hmoved.2⟩
    rcases hguids g hg with hg | ⟨m, rfl⟩
    · exact hmoved.1 b hb g hg
    · obtain ⟨s', hs', rfl⟩ := mem_map.1 hb
      exact hfresh m g rfl s' (.tail _ hs')
  · rw [map_cons, pairwise_cons] at harrived ⊢
    exact harrived
  · exact forall_mem_cons.2 ⟨valid_report (hvalid s (.head _)) hr, fun s' hs' => hvalid s' (.tail _ hs')⟩
  · rw [pairwise_cons] at hover ⊢
    exact hover

/-- A computation is received. -/
theorem Itinerary.receive (h : Itinerary (s :: stays)) (hmove : moveOf s.reports = some (m, g))
    (hfree : ∀ other ∈ s :: stays, other.machine = m → other.status = Inactive) :
    Itinerary (⟨m, some (s.machine, g), [], [ReceivedFrom s.machine g]⟩ :: s :: stays) := by
  obtain ⟨hlinked, hvalid, hover⟩ := h
  have hg : g ∈ s.leg.guids := mem_guidsOf.2 ⟨m, mem_guidsOf_of_moveOf hmove⟩
  refine ⟨⟨?_, ?_, ?_, ?_, ?_⟩, ?_, ?_⟩
  · exact isChain_cons_cons.2 ⟨⟨g, rfl, hmove⟩, hlinked.chain⟩
  · exact hlinked.created
  · exact forall_mem_cons.2 ⟨⟨nodup_nil, nofun⟩, hlinked.own⟩
  · exact pairwise_cons.2 ⟨fun _ _ => nofun, hlinked.movedOnce⟩
  · refine pairwise_cons.2 ⟨fun leg hleg g' hg' hcame => ?_, hlinked.arrivedOnce⟩
    obtain rfl := some.inj hg'
    obtain ⟨⟨source, guid⟩, hfrom, hguid⟩ := map_eq_some_iff.1 hcame
    obtain ⟨before, hmem, -, hleaves⟩ := hlinked.exists_before hleg hfrom
    obtain rfl : guid = g := hguid
    exact hlinked.notMem_guids_head hg before hmem ((hlinked.own before (.tail _ hmem)).2 _ hleaves)
  · exact forall_mem_cons.2 ⟨⟨rfl, isChain_singleton _⟩, hvalid⟩
  · exact pairwise_cons.2 ⟨fun other hother he => hfree other hother he.symm, hover⟩

variable {pre post : List Stay}

/-- A stay changes in what the other stays do not see. -/
theorem Itinerary.set (h : Itinerary (pre ++ s :: post)) (hleg : s'.leg = s.leg)
    (hvalid : s'.reports.head? = some s'.first ∧ s'.reports.IsChain Next)
    (hstatus : s.status = Inactive → s'.status = Inactive) : Itinerary (pre ++ s' :: post) := by
  have hmap : (pre ++ s' :: post).map leg = (pre ++ s :: post).map leg := by
    rw [map_append, map_append, map_cons, map_cons, hleg]
  have hmachine : s'.machine = s.machine := congrArg Leg.machine hleg
  refine ⟨hmap ▸ h.linked, fun x hx => ?_, ?_⟩
  · rcases mem_append.1 hx with hx | hx
    · exact h.valid x (mem_append_left _ hx)
    · rcases mem_cons.1 hx with rfl | hx
      · exact hvalid
      · exact h.valid x (mem_append_right _ (.tail _ hx))
  · have hover := h.ended
    rw [pairwise_append, pairwise_cons] at hover ⊢
    refine ⟨hover.1, ⟨fun b hb => ?_, hover.2.1.2⟩, fun a ha b hb => ?_⟩
    · rw [hmachine]
      exact hover.2.1.1 b hb
    · rcases mem_cons.1 hb with rfl | hb
      · rw [hmachine]
        exact fun he => hstatus (hover.2.2 a ha s (.head _) he)
      · exact hover.2.2 a ha b (.tail _ hb)

/-- A machine that has sent a computation away gives it up. -/
theorem Itinerary.release (h : Itinerary (pre ++ s :: post))
    (hstatus : s.status = Moving m g) : Itinerary (pre ++ s.report Inactive :: post) := by
  have hs : s ∈ pre ++ s :: post := mem_append_right _ (.head _)
  refine h.set ?_ (valid_report (h.valid s hs) (hstatus ▸ .released)) fun hno => ?_
  · unfold leg
    rw [reports_report, moveOf_concat, guidsOf_append]
    exact congrArg (Leg.mk _ _ _) (append_nil _)
  · rw [hstatus] at hno
    cases hno

/-- A report arrives at the map. -/
theorem Itinerary.deliver (h : Itinerary (pre ++ s :: post))
    {pending : List ComputationStatusOnMachine} (hs : s.pending = r :: pending) :
    Itinerary (pre ++ { s with delivered := s.delivered ++ [r], pending := pending } :: post) := by
  have hreports : ({ s with delivered := s.delivered ++ [r], pending := pending } : Stay).reports = s.reports := by
    show s.delivered ++ [r] ++ pending = s.delivered ++ s.pending
    rw [hs, append_assoc]
    rfl
  have hmem : s ∈ pre ++ s :: post := mem_append_right _ (.head _)
  refine h.set ?_ ?_ fun hst => ?_
  · unfold leg
    rw [hreports]
  · rw [hreports]
    exact h.valid s hmem
  · unfold status at hst ⊢
    rw [hreports]
    exact hst

end Cumulus.MachineComputationMap
