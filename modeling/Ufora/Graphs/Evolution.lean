import Ufora.Graphs.Collapse

/-!
# What a call leaves of the cycles

A call of a `GraphCycles` takes cycles away and makes new ones. `Evolves` says what holds of those that it
leaves: a cycle that stays has the nodes it had, and the successors it had or a new one among them, but for
the cycles of nodes whose edges the call is about. Every creation and every destruction is called back.
-/

open Ordered List GraphCycles.CycleEvent

namespace GraphCycles

variable {α : Type} [LinearOrder α]

/-- A set of cycles to which a call back adds what is created, and from which it takes what is destroyed. -/
def CycleEvent.mark (cycles : Finset ℤ) : CycleEvent → Finset ℤ
  | .create cycle => insert cycle cycles
  | .destroy cycle => cycles.erase cycle
  | .collapse .. => cycles

/-- What the call backs between two states of a graph tell. -/
structure Follows (g : GraphCycles α) (events : List CycleEvent) (g' : GraphCycles α) : Prop where
  marked : ∀ cycles ⊆ g.mAllCycles, ∀ c, c ∈ events.foldl mark cycles ↔
    c ∈ g'.mAllCycles ∧ (c ∈ cycles ∨ g.mCycleIndex ≤ c)
  destroyed : ∀ c, .destroy c ∈ events → c ∉ g'.mAllCycles ∧ c < g'.mCycleIndex
  gone : ∀ c ∈ g.mAllCycles, c ∉ g'.mAllCycles → .destroy c ∈ events

/-- The cycles of `s'` are those of `s`, or new. `exempt` are the nodes whose edges have changed. -/
structure Evolves (exempt : α → Prop) (s s' : Observed α) : Prop where
  index : s.graph.mCycleIndex ≤ s'.graph.mCycleIndex
  live : ∀ c ∈ s'.graph.mAllCycles, c < s.graph.mCycleIndex → c ∈ s.graph.mAllCycles
  contents : ∀ c ∈ s'.graph.mAllCycles, c < s.graph.mCycleIndex → ∀ n,
    s'.graph.mNodeToCycle.tryGetValue n = some c ↔ s.graph.mNodeToCycle.tryGetValue n = some c
  successors : ∀ c ∈ s'.graph.mAllCycles, c < s.graph.mCycleIndex →
    (∃ n, exempt n ∧ s'.graph.mNodeToCycle.tryGetValue n = some c) ∨
    (∀ d, s'.graph.mCycleEdges.contains c d ↔ s.graph.mCycleEdges.contains c d) ∨
    ∃ d, s'.graph.mCycleEdges.contains c d ∧ s.graph.mCycleIndex ≤ d
  events : ∃ events, s'.events = s.events ++ events ∧ Follows s.graph events s'.graph

variable {exempt exempt' : α → Prop} {s s' s'' : Observed α}

theorem Follows.nil {g g' : GraphCycles α} (h : g.Indexed) (hlive : g'.mAllCycles = g.mAllCycles) :
    Follows g [] g' where
  marked cycles hsub c := by
    rw [hlive]
    constructor
    · exact fun hc => ⟨hsub hc, .inl hc⟩
    · rintro ⟨hc, hmem | hle⟩
      · exact hmem
      · exact absurd (h.lt c hc) (not_lt.2 hle)
  destroyed := nofun
  gone c hc hn := absurd (hlive ▸ hc) hn

/-- A change that takes no cycle away and makes none. -/
theorem Evolves.of_same (h : s.graph.Indexed) (hindex : s'.graph.mCycleIndex = s.graph.mCycleIndex)
    (hlive : s'.graph.mAllCycles = s.graph.mAllCycles)
    (hlabel : s'.graph.mNodeToCycle = s.graph.mNodeToCycle) (hevents : s'.events = s.events)
    (hedge : ∀ c, (∀ n, exempt n → s.graph.mNodeToCycle.tryGetValue n ≠ some c) → ∀ d,
      s'.graph.mCycleEdges.contains c d ↔ s.graph.mCycleEdges.contains c d) : Evolves exempt s s' where
  index := hindex.ge
  live c hc _ := hlive ▸ hc
  contents c _ _ n := by rw [hlabel]
  successors c _ _ := by
    rw [hlabel]
    by_cases he : ∃ n, exempt n ∧ s.graph.mNodeToCycle.tryGetValue n = some c
    · exact .inl he
    · exact .inr (.inl (hedge c fun n hn hl => he ⟨n, hn, hl⟩))
  events := ⟨[], by rw [hevents, append_nil], Follows.nil h hlive⟩

theorem Evolves.refl (h : s.graph.Indexed) : Evolves exempt s s := .of_same h rfl rfl rfl rfl fun _ _ _ => Iff.rfl

theorem Evolves.mono (h : Evolves exempt s s') (himp : ∀ n, exempt n → exempt' n) : Evolves exempt' s s' where
  index := h.index
  live := h.live
  contents := h.contents
  successors c hc hlt := (h.successors c hc hlt).imp_left fun ⟨n, hn, hl⟩ => ⟨n, himp n hn, hl⟩
  events := h.events

/-- Where a cycle with a changed edge has a new successor, there is nothing to exempt. -/
theorem Evolves.of_exempt (h : Evolves exempt s s') (hnew : ∀ n c, exempt n → c < s.graph.mCycleIndex →
    s'.graph.mNodeToCycle.tryGetValue n = some c →
    ∃ d, s'.graph.mCycleEdges.contains c d ∧ s.graph.mCycleIndex ≤ d) : Evolves exempt' s s' where
  index := h.index
  live := h.live
  contents := h.contents
  successors c hc hlt := by
    rcases h.successors c hc hlt with ⟨n, hn, hl⟩ | hwhy
    · exact .inr (.inr (hnew n c hn hlt hl))
    · exact .inr hwhy
  events := h.events

/-- A cycle that stays to the end was there in between. -/
theorem Evolves.live_mid (h : Evolves exempt s s') (h' : Evolves exempt' s' s'') {c : ℤ}
    (hc : c ∈ s''.graph.mAllCycles) (hlt : c < s.graph.mCycleIndex) : c ∈ s'.graph.mAllCycles :=
  h'.live c hc (hlt.trans_le h.index)

theorem Follows.append {g g' g'' : GraphCycles α} {es events' : List CycleEvent}
    (h : Follows g es g') (h' : Follows g' events' g'')
    (hindex : g.mCycleIndex ≤ g'.mCycleIndex) (hindex' : g'.mCycleIndex ≤ g''.mCycleIndex)
    (hlive : ∀ c ∈ g''.mAllCycles, c < g'.mCycleIndex → c ∈ g'.mAllCycles) :
    Follows g (es ++ events') g'' where
  marked cycles hsub c := by
    have hmid := h.marked cycles hsub
    rw [foldl_append, h'.marked _ (fun x hx => ((hmid x).1 hx).1), hmid]
    constructor
    · rintro ⟨hc, ⟨-, hwhy⟩ | hle⟩
      · exact ⟨hc, hwhy⟩
      · exact ⟨hc, .inr (hindex.trans hle)⟩
    · rintro ⟨hc, hwhy⟩
      rcases lt_or_ge c g'.mCycleIndex with hlt' | hle
      · exact ⟨hc, .inl ⟨hlive c hc hlt', hwhy⟩⟩
      · exact ⟨hc, .inr hle⟩
  destroyed c hc := by
    rcases mem_append.1 hc with hc | hc
    · obtain ⟨hno, hlt'⟩ := h.destroyed c hc
      exact ⟨fun hmem => hno (hlive c hmem hlt'), hlt'.trans_le hindex'⟩
    · exact h'.destroyed c hc
  gone c hc hn := by
    by_cases hmid : c ∈ g'.mAllCycles
    · exact mem_append_right _ (h'.gone c hmid hn)
    · exact mem_append_left _ (h.gone c hc hmid)

theorem Evolves.trans (h : Evolves exempt s s') (h' : Evolves exempt s' s'') : Evolves exempt s s'' where
  index := h.index.trans h'.index
  live c hc hlt := h.live c (h.live_mid h' hc hlt) hlt
  contents c hc hlt n := (h'.contents c hc (hlt.trans_le h.index) n).trans (h.contents c (h.live_mid h' hc hlt) hlt n)
  successors c hc hlt := by
    have hmid := h.live_mid h' hc hlt
    have hlabel := h'.contents c hc (hlt.trans_le h.index)
    rcases h'.successors c hc (hlt.trans_le h.index) with he | hsame | ⟨d, hd, hle⟩
    · exact .inl he
    · rcases h.successors c hmid hlt with ⟨n, hn, hl⟩ | hsame' | ⟨d, hd, hle⟩
      · exact .inl ⟨n, hn, (hlabel n).2 hl⟩
      · exact .inr (.inl fun d => (hsame d).trans (hsame' d))
      · exact .inr (.inr ⟨d, (hsame d).2 hd, hle⟩)
    · exact .inr (.inr ⟨d, hd, h.index.trans hle⟩)
  events := by
    obtain ⟨events, he, hf⟩ := h.events
    obtain ⟨events', he', hf'⟩ := h'.events
    refine ⟨events ++ events', by rw [he', he, append_assoc], ?_⟩
    exact hf.append hf' h.index h'.index h'.live

/-! ## New cycles and destroyed ones -/

theorem mem_foldl_create {created : List ℤ} {cycles : Finset ℤ} {c : ℤ} :
    c ∈ (created.map create).foldl mark cycles ↔ c ∈ created ∨ c ∈ cycles := by
  induction created generalizing cycles with
  | nil => simp
  | cons x created ih =>
    rw [map_cons, foldl_cons, ih, mark, Finset.mem_insert, mem_cons, or_left_comm, or_assoc]

theorem mem_foldl_destroy {destroyed : List ℤ} {cycles : Finset ℤ} {c : ℤ} :
    c ∈ (destroyed.map destroy).foldl mark cycles ↔ c ∉ destroyed ∧ c ∈ cycles := by
  induction destroyed generalizing cycles with
  | nil => simp
  | cons x destroyed ih =>
    rw [map_cons, foldl_cons, ih, mark, Finset.mem_erase, mem_cons, not_or]
    tauto

/-- The call backs where some cycles are destroyed first and others created then. -/
theorem Follows.of_lists {g g' : GraphCycles α} (h : g.Indexed) {destroyed created : List ℤ} {es : List CycleEvent}
    (hevents : ∀ cycles, es.foldl mark cycles =
      (destroyed.map destroy ++ created.map create).foldl mark cycles)
    (hmem : ∀ c, .destroy c ∈ es ↔ c ∈ destroyed) (hold : ∀ c ∈ destroyed, c ∈ g.mAllCycles)
    (hindex : g.mCycleIndex ≤ g'.mCycleIndex) (hcreated : ∀ c, c ∈ created ↔ g.mCycleIndex ≤ c ∧ c < g'.mCycleIndex)
    (hlive : ∀ c, c ∈ g'.mAllCycles ↔ (c ∈ g.mAllCycles ∧ c ∉ destroyed) ∨ c ∈ created) :
    Follows g es g' where
  marked cycles hsub c := by
    rw [hevents, foldl_append, mem_foldl_create, mem_foldl_destroy, hlive]
    constructor
    · rintro (hc | ⟨hno, hc⟩)
      · exact ⟨.inr hc, .inr ((hcreated c).1 hc).1⟩
      · exact ⟨.inl ⟨hsub hc, hno⟩, .inl hc⟩
    · rintro ⟨⟨hc, hno⟩ | hc, hwhy⟩
      · exact .inr ⟨hno, hwhy.resolve_right fun hle => absurd (h.lt c hc) (not_lt.2 hle)⟩
      · exact .inl hc
  destroyed c hc := by
    rw [hmem] at hc
    have hlt := h.lt c (hold c hc)
    refine ⟨fun hl => ?_, hlt.trans_le hindex⟩
    rcases (hlive c).1 hl with ⟨-, hno⟩ | hnew
    · exact hno hc
    · exact absurd ((hcreated c).1 hnew).1 (not_le.2 hlt)
  gone c hc hn := by
    rw [hmem]
    by_contra hno
    exact hn ((hlive c).2 (.inl ⟨hc, hno⟩))

end GraphCycles
