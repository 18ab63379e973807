import Ufora.Graphs.Evolution
import Ufora.Graphs.Rings

/-!
# Updating cycles

`updateCycle` searches and collapses until nothing is found. It ends, since every collapse leaves
fewer cycles, and then all depths are right, and so the edges between the cycles are acyclic
(`Updating.updateCycle`). Where each collapse took together only cycles that reach each other, the
nodes of one cycle still reach each other.
-/

open Ordered Effect Finset Digraph Option Relation Relation.ReflTransGen

namespace GraphCycles

variable {α : Type} [LinearOrder α]

/-- A collapse takes together only cycles that reach each other. -/
def CycleEvent.Clean : CycleEvent → Prop
  | .collapse stack mCycleEdges =>
    ∀ c ∈ stack, ∀ d ∈ stack, StronglyConnected mCycleEdges.contains c d
  | _ => True

/-- All cycles were collapsed so. -/
abbrev Observed.Clean (s : Observed α) : Prop := ∀ e ∈ s.events, e.Clean

/-- Where all collapses so far were clean, the nodes of one cycle reach each other. -/
def Connected (s : Observed α) : Prop := s.Clean →
    ClassesConnected s.graph.mEdges.contains s.graph.mNodeToCycle.tryGetValue

/-- The cycles that edges yet to be added start from. -/
def Spared (g : GraphCycles α) (pending : List (α × α)) (c : ℤ) : Prop :=
  ∃ e ∈ pending, g.mNodeToCycle.tryGetValue e.1 = some c

/-- Between two calls: every depth is right, but for the cycles that edges yet to be added start from. -/
structure Stable (pending : List (α × α)) (s : Observed α) : Prop where
  indexed : s.graph.Indexed
  settled : ∀ c, Settled s.graph.mCycleEdges s.graph.mCycleDepth (Spared s.graph pending) c
  connected : Connected s

/-- The edges between the cycles are acyclic, since the depths fall along them. -/
theorem Stable.acyclic {pending : List (α × α)} {s : Observed α} (h : Stable pending s) :
    Acyclic s.graph.mCycleEdges.contains :=
  acyclic_of_rank s.graph.mCycleDepth.get fun a _ hab => (h.settled a).lt hab

/-- Before the search from a cycle: all cycles between cycles pass through it, and it is not settled. -/
structure Updating (pending : List (α × α)) (cycle : ℤ) (s : Observed α) : Prop where
  indexed : s.graph.Indexed
  live : cycle ∈ s.graph.mAllCycles
  acyclic : Acyclic (without s.graph.mCycleEdges.contains cycle)
  settled : SettledBut s.graph.mCycleEdges (Spared s.graph pending)
    (Unsettled s.graph.mCycleEdges cycle s.graph.mCycleDepth) s.graph.mCycleDepth
  connected : Connected s

/-- What leads to a node of the cycle is reached from it. -/
def Alone (g : GraphCycles α) (cycle : ℤ) : Prop := ∀ n m, g.mNodeToCycle.tryGetValue m = some cycle →
  ReflTransGen g.mEdges.contains n m → ReflTransGen g.mEdges.contains m n

/-- The cycle is on a ring, whose depths are below the one that it is about to get. -/
structure Ringed (g : GraphCycles α) (cycle : ℤ) : Prop where
  ring : Ring g.mCycleEdges g.mCycleDepth cycle cycle
  low : ∀ c, Inside g.mCycleEdges cycle cycle c → g.mCycleDepth.get c < depth g.mCycleEdges g.mCycleDepth cycle

/-- A search from a cycle finds nothing, or leaves only what reaches it both ways on its stack. -/
def Closable (g : GraphCycles α) (cycle : ℤ) : Prop :=
  Acyclic g.mCycleEdges.contains ∨ g.Alone cycle ∨ g.Ringed cycle

/-- A cycle that leads to one that stands alone is reached from it. -/
theorem Alone.reaches {g : GraphCycles α} {cycle c : ℤ} (h : g.Alone cycle) (hi : g.Indexed)
    (hconn : ClassesConnected g.mEdges.contains g.mNodeToCycle.tryGetValue) (hlive : cycle ∈ g.mAllCycles)
    (hc : c ∈ g.mAllCycles) (hreach : ReflTransGen g.mCycleEdges.contains c cycle) :
    ReflTransGen g.mCycleEdges.contains cycle c := by
  obtain ⟨m, hm⟩ := (hi.cycle cycle).1 hlive
  obtain ⟨n, hn⟩ := (hi.cycle c).1 hc
  have hnm := reaches_of_quotient hconn (mono (fun a b hab => (hi.edge a b).1 hab) _ _ hreach) hn hm
  refine mono (fun a b hab => (hi.edge a b).2 hab) _ _ ?_
  exact reaches_quotient (fun _ _ huv => hi.dest huv) (h n m hm hnm) hm hn

/-! ## One collapse -/

section
variable {s s' : Observed α} {stack : List ℤ} {cycle : ℤ} {pending : List (α × α)}

theorem Collapsed.notMem (h : s.graph.Indexed) (hc : Collapsed s stack cycle s') :
    cycle ∉ s.graph.mAllCycles := fun hlive => (h.lt cycle hlive).ne hc.fresh

/-- The nodes of the new cycle are those of the collapsed ones. -/
theorem Collapsed.label_new (h : s.graph.Indexed) (hc : Collapsed s stack cycle s') {n : α} :
    s'.graph.mNodeToCycle.tryGetValue n = some cycle ↔ ∃ c ∈ stack, s.graph.mNodeToCycle.tryGetValue n = some c := by
  rw [hc.label]
  split
  · next hn => exact iff_of_true rfl hn
  · next hn => exact iff_of_false (fun he => hc.notMem h (h.mem_cycle he)) hn

/-- The nodes of the other cycles stay in them. -/
theorem Collapsed.label_old (hc : Collapsed s stack cycle s') {n : α} {c : ℤ} (hne : c ≠ cycle) :
    s'.graph.mNodeToCycle.tryGetValue n = some c ↔ s.graph.mNodeToCycle.tryGetValue n = some c ∧ c ∉ stack := by
  rw [hc.label]
  split
  · next hn =>
    obtain ⟨d, hd, hnd⟩ := hn
    refine ⟨fun he => absurd (some.inj he).symm hne, fun ⟨he, hcs⟩ => ?_⟩
    exact absurd (some.inj (hnd.symm.trans he) ▸ hd) hcs
  · next hn => exact ⟨fun he => ⟨he, fun hcs => hn ⟨c, hcs, he⟩⟩, And.left⟩

variable (h : s.graph.Indexed)
include h

variable (hc : Collapsed s stack cycle s')
include hc

/-- The cycles after a collapse. -/
theorem Collapsed.mem_allCycles {c : ℤ}
    (hmem : c ∈ s'.graph.mAllCycles) : c = cycle ∨ c ∈ s.graph.mAllCycles ∧ c ∉ stack := by
  obtain ⟨n, hn⟩ := (hc.indexed.cycle c).1 hmem
  by_cases hne : c = cycle
  · exact .inl hne
  · obtain ⟨hn, hcs⟩ := (hc.label_old hne).1 hn
    exact .inr ⟨h.mem_cycle hn, hcs⟩

/-- The edges between the other cycles stay. -/
theorem Collapsed.edge_old {a b : ℤ} (ha : a ≠ cycle) (hb : b ≠ cycle) : s'.graph.mCycleEdges.contains a b ↔
      s.graph.mCycleEdges.contains a b ∧ a ∉ stack ∧ b ∉ stack := by
  rw [hc.indexed.edge, h.edge, hc.edges]
  constructor
  · rintro ⟨hab, u, v, huv, hu, hv⟩
    rw [hc.label_old ha] at hu
    rw [hc.label_old hb] at hv
    exact ⟨⟨hab, u, v, huv, hu.1, hv.1⟩, hu.2, hv.2⟩
  · rintro ⟨⟨hab, u, v, huv, hu, hv⟩, has, hbs⟩
    exact ⟨hab, u, v, huv, (hc.label_old ha).2 ⟨hu, has⟩, (hc.label_old hb).2 ⟨hv, hbs⟩⟩

/-- The parents of the new cycle are those of the collapsed ones. -/
theorem Collapsed.edge_new {a : ℤ} (ha : a ≠ cycle) : s'.graph.mCycleEdges.contains a cycle ↔
      a ∉ stack ∧ ∃ c ∈ stack, s.graph.mCycleEdges.contains a c := by
  rw [hc.indexed.edge, hc.edges]
  constructor
  · rintro ⟨-, u, v, huv, hu, hv⟩
    rw [hc.label_old ha] at hu
    obtain ⟨c, hcs, hv⟩ := (hc.label_new h).1 hv
    exact ⟨hu.2, c, hcs, (h.edge a c).2 ⟨fun he => hu.2 (he ▸ hcs), u, v, huv, hu.1, hv⟩⟩
  · rintro ⟨has, c, hcs, hac⟩
    obtain ⟨-, u, v, huv, hu, hv⟩ := (h.edge a c).1 hac
    exact ⟨ha, u, v, huv, (hc.label_old ha).2 ⟨hu, has⟩, (hc.label_new h).2 ⟨c, hcs, hv⟩⟩

/-- A collapse that takes together cycles that reach each other leaves cycles whose nodes do. -/
theorem Collapsed.connected (hconn : Connected s) : Connected s' := by
  intro hclean u v a hu hv
  have hs := hconn fun e he => hclean e (hc.events e he)
  rw [hc.edges]
  by_cases ha : a = cycle
  · subst ha
    obtain ⟨c, hcs, hu⟩ := (hc.label_new h).1 hu
    obtain ⟨d, hds, hv⟩ := (hc.label_new h).1 hv
    have hcd := (hclean _ hc.logged c hcs d hds).1
    exact reaches_of_quotient hs (mono (fun a b hab => (h.edge a b).1 hab) _ _ hcd) hu hv
  · rw [hc.label_old ha] at hu hv
    exact hs u v a hu.1 hv.1

/-- A collapse of cycles that lead to one that stands alone leaves a cycle that stands alone. -/
theorem Collapsed.alone {root : ℤ} (hlive : root ∈ s.graph.mAllCycles) (halone : s.graph.Alone root)
    (hconn : ClassesConnected s.graph.mEdges.contains s.graph.mNodeToCycle.tryGetValue)
    (hleads : ∀ c ∈ stack, ReflTransGen s.graph.mCycleEdges.contains c root) : s'.graph.Alone cycle := by
  intro n m hm hnm
  rw [hc.edges] at hnm ⊢
  obtain ⟨c, hcs, hm⟩ := (hc.label_new h).1 hm
  obtain ⟨r, hr⟩ := (h.cycle root).1 hlive
  have hmr := reaches_of_quotient hconn
    (mono (fun a b hab => (h.edge a b).1 hab) _ _ (hleads c hcs)) hm hr
  exact hmr.trans (halone n r hr (hnm.trans hmr))

/-- A collapse of all cycles on paths from one cycle back to it leaves no edges in cycles. -/
theorem Collapsed.acyclic {root : ℤ}
    (hacyclic : Acyclic (without s'.graph.mCycleEdges.contains cycle))
    (hconn : ClassesConnected s'.graph.mEdges.contains s'.graph.mNodeToCycle.tryGetValue)
    (hinside : ∀ c, c ∈ stack ↔ Inside s.graph.mCycleEdges root root c) : Acyclic s'.graph.mCycleEdges.contains := by
  refine acyclic_of_without hacyclic fun hround => ?_
  obtain ⟨x, hx, hback⟩ := Relation.TransGen.head'_iff.1 hround
  obtain ⟨hne, u, v, huv, hu, hv⟩ := (hc.indexed.edge cycle x).1 hx
  obtain ⟨c, hcs, hu'⟩ := (hc.label_new h).1 hu
  obtain ⟨hv', hxs⟩ := (hc.label_old hne.symm).1 hv
  -- back at the node that the edge starts from, the path has come to a cycle of the stack
  have hvu := reaches_of_quotient hconn
    (mono (fun a b hab => (hc.indexed.edge a b).1 hab) _ _ hback) hv hu
  rw [hc.edges] at huv hvu
  have hxc := mono (fun a b hab => (h.edge a b).2 hab) _ _
    (reaches_quotient (fun _ _ huv => h.dest huv) hvu hv' hu')
  have hcx := (h.edge c x).2 ⟨fun he => hxs (he ▸ hcs), u, v, huv, hu', hv'⟩
  have hin := (hinside c).1 hcs
  exact hxs ((hinside x).2 ⟨hin.1.tail hcx, hxc.trans hin.2⟩)

/-- After a collapse, the search starts from the new cycle. -/
theorem Collapsed.updating {root : ℤ} (hroot : root ∈ stack) (hlive : root ∈ s.graph.mAllCycles)
    (hacyclic : Acyclic (without s.graph.mCycleEdges.contains root))
    (hsettled : SettledBut s.graph.mCycleEdges (Spared s.graph pending)
      (Collapsing s.graph.mCycleEdges stack) s.graph.mCycleDepth)
    (hconn : Connected s) : Updating pending cycle s' where
  indexed := hc.indexed
  live := by
    obtain ⟨n, hn⟩ := (h.cycle root).1 hlive
    exact hc.indexed.mem_cycle ((hc.label_new h).2 ⟨root, hroot, hn⟩)
  acyclic := hacyclic.mono fun a b ⟨ha, hb, hab⟩ => by
    obtain ⟨hab, has, hbs⟩ := (hc.edge_old h ha hb).1 hab
    exact ⟨fun he => has (he ▸ hroot), fun he => hbs (he ▸ hroot), hab⟩
  settled := by
    intro x
    have hnew : s'.graph.mCycleDepth.get cycle = -1 := by rw [hc.depth, if_pos rfl]
    by_cases hx : x = cycle
    · exact .inl (.inl hx)
    by_cases hxs : x ∈ stack
    · have hdead : ∀ b, ¬ s'.graph.mCycleEdges.contains x b := by
        intro b hb
        rcases hc.mem_allCycles h (hc.indexed.joins.left x b hb) with he | he
        · exact hx he
        · exact he.2 hxs
      right
      left
      rw [hc.depth, if_neg hx, if_pos hxs]
      exact le_antisymm depth_nonneg (depth_le_iff.2 ⟨le_rfl, fun b hb => absurd hb (hdead b)⟩)
    by_cases hparent : ∃ y ∈ stack, s.graph.mCycleEdges.contains x y
    · left
      right
      refine ⟨(hc.edge_new h hx).2 ⟨hxs, hparent⟩, ?_⟩
      have hnonneg := @depth_nonneg s'.graph.mCycleEdges s'.graph.mCycleDepth cycle
      omega
    · have hch : ∀ b, s.graph.mCycleEdges.contains x b ↔ s'.graph.mCycleEdges.contains x b := by
        intro b
        by_cases hb : b = cycle
        · subst hb
          refine iff_of_false (fun hxb => hc.notMem h (h.joins.right x b hxb)) fun hxb => ?_
          exact hparent ((hc.edge_new h hx).1 hxb).2
        · rw [hc.edge_old h hx hb]
          exact ⟨fun hxb => ⟨hxb, hxs, fun hbs => hparent ⟨b, hbs, hxb⟩⟩, And.left⟩
      have hkept : ∀ b, b ∉ stack → b ≠ cycle → s.graph.mCycleDepth.get b = s'.graph.mCycleDepth.get b := by
        intro b hbs hb
        rw [hc.depth, if_neg hb, if_neg hbs]
      refine .inr (((hsettled x).resolve_left fun hcol => hcol.elim hxs hparent).of_eq hch
        (hkept x hxs hx) (fun b hb => hkept b (fun hbs => hparent ⟨b, hbs, hb⟩) fun he => ?_) ?_)
      · exact hc.notMem h (he ▸ h.joins.right x b hb)
      · rintro ⟨e, he, hl⟩
        exact ⟨e, he, (hc.label_old hx).2 ⟨hl, hxs⟩⟩
  connected := hc.connected h hconn

/-- A collapse keeps the other cycles. A parent of a collapsed cycle has the new one for a successor. -/
theorem Collapsed.evolves (hstack : ∃ c ∈ stack, c ∈ s.graph.mAllCycles) {destroyed : List ℤ}
    (hevents : s'.events = s.events ++ .collapse stack s.graph.mCycleEdges ::
      (destroyed.map CycleEvent.destroy ++ [.create cycle]))
    (hdestroyed : ∀ c, c ∈ destroyed ↔ c ∈ stack ∧ c ∈ s.graph.mAllCycles) {exempt : α → Prop} :
    Evolves exempt s s' := by
  have hlive : ∀ c, c ∈ s'.graph.mAllCycles ↔ (c ∈ s.graph.mAllCycles ∧ c ∉ destroyed) ∨ c ∈ [cycle] := by
    intro c
    rw [List.mem_singleton, hdestroyed]
    constructor
    · intro hmem
      rcases hc.mem_allCycles h hmem with he | ⟨hl, hs⟩
      · exact .inr he
      · exact .inl ⟨hl, fun hd => hs hd.1⟩
    · rintro (⟨hl, hs⟩ | rfl)
      · obtain ⟨n, hn⟩ := (h.cycle c).1 hl
        have hne : c ≠ cycle := fun he => hc.notMem h (he ▸ hl)
        exact hc.indexed.mem_cycle ((hc.label_old hne).2 ⟨hn, fun hd => hs ⟨hd, hl⟩⟩)
      · obtain ⟨d, hd, hl⟩ := hstack
        obtain ⟨n, hn⟩ := (h.cycle d).1 hl
        exact hc.indexed.mem_cycle ((hc.label_new h).2 ⟨d, hd, hn⟩)
  have hold : ∀ {c}, c ∈ s'.graph.mAllCycles → c < s.graph.mCycleIndex →
      c ≠ cycle ∧ c ∈ s.graph.mAllCycles ∧ c ∉ stack := by
    intro c hmem hlt
    have hne : c ≠ cycle := fun he => hlt.ne (he.trans hc.fresh)
    exact ⟨hne, (hc.mem_allCycles h hmem).resolve_left hne⟩
  refine ⟨?_, fun c hmem hlt => (hold hmem hlt).2.1, fun c hmem hlt n => ?_, fun c hmem hlt => .inr ?_, _, hevents, ?_⟩
  · rw [hc.index, hc.fresh]
    exact Int.le.intro 1 rfl
  · obtain ⟨hne, -, hs⟩ := hold hmem hlt
    rw [hc.label_old hne]
    exact and_iff_left hs
  · obtain ⟨hne, -, hs⟩ := hold hmem hlt
    by_cases hparent : ∃ d ∈ stack, s.graph.mCycleEdges.contains c d
    · exact .inr ⟨cycle, (hc.edge_new h hne).2 ⟨hs, hparent⟩, hc.fresh.ge⟩
    · refine .inl fun d => ?_
      by_cases hd : d = cycle
      · rw [hd, hc.edge_new h hne]
        exact iff_of_false (fun he => hparent he.2) fun he => hc.notMem h (h.joins.right c cycle he)
      · rw [hc.edge_old h hne hd]
        exact and_iff_left_of_imp fun hcd => ⟨hs, fun hds => hparent ⟨d, hds, hcd⟩⟩
  · refine @Follows.of_lists _ _ _ _ h destroyed [cycle] _ (fun _ => rfl) (fun c => ?_)
      (fun c hd => ((hdestroyed c).1 hd).2) ?_ (fun c => ?_) hlive
    · simp
    · rw [hc.index, hc.fresh]
      exact Int.le.intro 1 rfl
    · rw [List.mem_singleton, hc.index, hc.fresh]
      omega

/-- A collapse of two cycles or more leaves fewer cycles. -/
theorem Collapsed.card_lt {c d : ℤ} (hcs : c ∈ stack) (hds : d ∈ stack) (hne : c ≠ d) (hclive : c ∈ s.graph.mAllCycles)
    (hdlive : d ∈ s.graph.mAllCycles) : s'.graph.mAllCycles.card < s.graph.mAllCycles.card := by
  have hsub : s'.graph.mAllCycles ⊆ insert cycle ((s.graph.mAllCycles.erase c).erase d) := by
    intro x hx
    rcases hc.mem_allCycles h hx with rfl | ⟨hx, hxs⟩
    · exact mem_insert_self _ _
    · refine mem_insert_of_mem (mem_erase.2 ⟨fun he => hxs (he ▸ hds), ?_⟩)
      exact mem_erase.2 ⟨fun he => hxs (he ▸ hcs), hx⟩
  have hle := (card_le_card hsub).trans (card_insert_le _ _)
  have h1 := card_erase_add_one hclive
  have h2 := card_erase_add_one (mem_erase.2 ⟨hne.symm, hdlive⟩)
  omega

end

/-! ## The loop -/

variable {s : Observed α} {cycle : ℤ} {pending : List (α × α)}

/-- What the search of a ring returns. -/
theorem Ringed.search {g : GraphCycles α} (h : g.Ringed cycle) {rank : ℤ → ℕ}
    (hrank : ∀ p c, without g.mCycleEdges.contains cycle p c → rank p < rank c)
    (hround : TransGen g.mCycleEdges.contains cycle cycle) {n : ℕ} {found : Bool} {search : Search}
    (hr : (updateCycleDepth g.mCycleEdges n cycle).run ⟨g.mCycleDepth, [cycle]⟩ = .ok found search) (c : ℤ) :
    c ∈ search.ioStack ↔ Inside g.mCycleEdges cycle cycle c :=
  (wp_updateCycleDepth_ring h.ring (fun p c hpc hp hc => hrank p c ⟨hp, hc, hpc⟩) hround h.low).of_ok hr c

/-- The loop ends, since every collapse leaves fewer cycles. -/
theorem Updating.updateCycleDepths {n : ℕ} (h : Updating pending cycle s)
    (hlimit : s.graph.mAllCycles.card < n) :
    wp (updateCycleDepths n cycle) (fun _ s' => Stable pending s' ∧
      s'.graph.mNodes = s.graph.mNodes ∧ s'.graph.mEdges = s.graph.mEdges ∧ (∀ exempt, Evolves exempt s s') ∧
      (s.graph.Closable cycle → s.Clean → s'.Clean))
      (fun _ _ => False) s := by
  induction n generalizing cycle s with
  | zero => exact absurd hlimit (Nat.not_lt_zero _)
  | succ n ih =>
    unfold GraphCycles.updateCycleDepths
    rw [wp_bind, wp_get]
    obtain ⟨rank, hbound, hrank⟩ := exists_rank h.acyclic s.graph.mAllCycles
      fun a b hab => h.indexed.joins.left a b hab.2.2
    have hsearch := @wp_updateCycleDepth _ _ (Spared s.graph pending) h.indexed.joins cycle _ _ hbound
      (fun p c hpc hp hc => hrank p c ⟨hp, hc, hpc⟩) (s.graph.mAllCycles.card + 3) cycle
      ⟨s.graph.mCycleDepth, [cycle]⟩ (fun _ => False)
      ⟨h.indexed.keys, fun c hc => List.mem_singleton.1 hc ▸ h.live, fun c hc =>
      List.mem_singleton.1 hc ▸ .refl⟩ rfl rfl
      (fun hlt => absurd hlt (lt_irrefl 1)) (fun hlt => absurd hlt (lt_irrefl 1)) (by simp) fun x =>
      (h.settled x).imp Or.inr id
    dsimp only
    split
    · next hr => exact (hsearch.of_error hr).elim
    · next found search hr =>
      have hfound := hsearch.of_ok hr
      rw [wp_bind, wp_modifyGraph, wp_ite]
      split
      · next hyes =>
        rw [if_pos hyes] at hfound
        obtain ⟨hlive, ⟨⟨other, hother, hne⟩, hround⟩, hpre, hsettled⟩ := hfound
        have hroot : cycle ∈ search.ioStack := hpre.subset (List.mem_singleton_self cycle)
        have hindexed := h.indexed.withDepth hlive.keys
        rw [wp_bind]
        refine (Indexed.collapse (s := ⟨_, s.events⟩) hindexed ⟨cycle, hroot, h.live⟩).imp fun new s' hc => ?_
        obtain ⟨hc, destroyed, hevents, hdestroyed⟩ := hc
        have hsame : ∀ exempt, Evolves exempt s
            ⟨{ s.graph with mCycleDepth := search.mCycleDepth }, s.events⟩ := fun _ =>
          .of_same h.indexed rfl rfl rfl rfl fun _ _ _ => Iff.rfl
        have hevolves := fun exempt => (hsame exempt).trans
          (hc.evolves hindexed ⟨cycle, hroot, h.live⟩ hevents hdestroyed)
        have hcard := hc.card_lt hindexed hroot hother hne.symm h.live (hlive.live other hother)
        have hup := @Collapsed.updating _ _ _ _ _ _ pending hindexed hc _ hroot h.live h.acyclic
          (fun x => (hsettled x).imp (fun hx => hx.resolve_left id) id) h.connected
        refine (ih hup (by exact hcard.trans_le (Nat.lt_succ_iff.1 hlimit))).imp fun _ s'' hs => ?_
        refine ⟨hs.1, hs.2.1.trans hc.nodes, hs.2.2.1.trans hc.edges, fun exempt =>
          (hevolves exempt).trans (hs.2.2.2.1 exempt), fun hclosable hclean => ?_⟩
        have hconn := h.connected hclean
        have hstack := hclosable.resolve_left fun hacyclic => hacyclic cycle hround
        have hback : ∀ c ∈ search.ioStack, Relation.ReflTransGen s.graph.mCycleEdges.contains cycle c := by
          intro c hcs
          rcases hstack with halone | hringed
          · exact halone.reaches h.indexed hconn h.live (hlive.live c hcs) (hlive.leads c hcs)
          · exact (((hringed.search hrank hround hr) c).1 hcs).1
        have hclean' : ∀ e ∈ s'.events, e.Clean := by
          rw [hevents]
          simp only [List.forall_mem_append, List.forall_mem_cons, List.forall_mem_map]
          refine ⟨hclean, fun c hcs d hds => ?_, fun _ _ => trivial, trivial, nofun⟩
          exact ⟨(hlive.leads c hcs).trans (hback d hds), (hlive.leads d hds).trans (hback c hcs)⟩
        refine hs.2.2.2.2 ?_ hclean'
        rcases hstack with halone | hringed
        · exact .inr (.inl (hc.alone hindexed h.live halone hconn hlive.leads))
        · exact .inl (hc.acyclic hindexed hup.acyclic (hup.connected hclean')
            (hringed.search hrank hround hr))
      · next hno =>
        rw [if_neg hno] at hfound
        obtain ⟨hlive, -, hsettled⟩ := hfound
        exact ⟨⟨h.indexed.withDepth hlive.keys, fun x => (hsettled x).resolve_left id, h.connected⟩,
          rfl, rfl, fun _ => .of_same h.indexed rfl rfl rfl rfl fun _ _ _ => Iff.rfl, fun _ => id⟩

/-- So the search of a call does. -/
theorem Updating.updateCycle (h : Updating pending cycle s) : wp (updateCycle cycle) (fun _ s' => Stable pending s' ∧
      s'.graph.mNodes = s.graph.mNodes ∧ s'.graph.mEdges = s.graph.mEdges ∧ (∀ exempt, Evolves exempt s s') ∧
      (s.graph.Closable cycle → s.Clean → s'.Clean))
      (fun _ _ => False) s := by
  unfold GraphCycles.updateCycle
  rw [wp_bind, wp_get]
  exact h.updateCycleDepths (Nat.lt_succ_self _)

end GraphCycles
