import Mathlib.Algebra.Order.BigOperators.Group.Finset
import Mathlib.Data.Finset.Max

/-!
# Directed graphs

A directed graph is a relation. This module has what the graph algorithms of the development share:
acyclicity and the ranks that witness it (`acyclic_of_rank`, `exists_rank`), strong connectivity,
and the quotient of a graph by a labelling of its nodes. When the classes of a labelling are
strongly connected and the quotient is acyclic, two nodes have one label exactly when they are
strongly connected (`label_eq_iff`): the classes are the strongly connected components.
-/

open Relation Finset Function ReflTransGen

namespace Digraph

variable {α β γ : Type*} {r s : α → α → Prop}

/-! ## Acyclic graphs -/

/-- No node reaches itself along one edge or more. -/
def Acyclic (r : α → α → Prop) : Prop := ∀ a, ¬ TransGen r a a

/-- A rank that falls along every edge falls along every path. -/
theorem rank_lt_of_transGen [Preorder γ] (rank : α → γ) (h : ∀ a b, r a b → rank b < rank a)
    {a b : α} (hab : TransGen r a b) : rank b < rank a := by
  induction hab with
  | single hab => exact h _ _ hab
  | tail _ hbc ih => exact (h _ _ hbc).trans ih

/-- A graph with a rank that falls along every edge is acyclic. -/
theorem acyclic_of_rank [Preorder γ] (rank : α → γ) (h : ∀ a b, r a b → rank b < rank a) :
    Acyclic r := fun _ ha => lt_irrefl _ (rank_lt_of_transGen rank h ha)

/-- Fewer edges keep a graph acyclic. -/
theorem Acyclic.mono (hr : Acyclic r) (h : ∀ a b, s a b → r a b) : Acyclic s := fun a ha =>
    hr a (TransGen.mono h a a ha)

open Classical in
/-- An acyclic graph whose edges start in a finite set has a rank that grows along every edge: the
number of nodes that reach a node. -/
theorem exists_rank (hr : Acyclic r) (nodes : Finset α) (hn : ∀ a b, r a b → a ∈ nodes) :
    ∃ rank : α → ℕ, (∀ a, rank a ≤ nodes.card) ∧ ∀ a b, r a b → rank a < rank b := by
  refine ⟨fun a => (nodes.filter fun x => TransGen r x a).card,
    fun a => card_filter_le _ _, fun a b hab => card_lt_card ?_⟩
  refine Finset.ssubset_iff_subset_ne.2 ⟨fun x hx => ?_, fun he => ?_⟩
  · obtain ⟨hx, hxa⟩ := mem_filter.1 hx
    exact mem_filter.2 ⟨hx, hxa.tail hab⟩
  · have ha : a ∈ nodes.filter fun x => TransGen r x b := mem_filter.2 ⟨hn a b hab, .single hab⟩
    rw [← he] at ha
    exact hr a (mem_filter.1 ha).2

/-- Weights for a search against the edges of an acyclic graph: a node weighs more than all its
predecessors together, and all nodes together weigh less than two to their number. -/
theorem exists_weight [DecidableEq α] [DecidableRel r] [LinearOrder γ] (rank : α → γ)
    (h : ∀ a b, r a b → rank b < rank a) (nodes : Finset α) : ∃ weight : α → ℕ,
      (∀ b ∈ nodes, ∑ a ∈ nodes with r a b, weight a < weight b) ∧ ∑ a ∈ nodes, weight a < 2 ^ nodes.card := by
  induction nodes using induction_on_min_value rank with
  | empty => exact ⟨fun _ => 0, by simp, by simp⟩
  | insert a nodes ha hmin ih =>
    obtain ⟨weight, hweight, hsum⟩ := ih
    have hno : ∀ b ∈ insert a nodes, ¬ r a b := by
      intro b hb hab
      rcases mem_insert.1 hb with rfl | hb
      · exact (h b b hab).false
      · exact absurd (h a b hab) (not_lt.2 (hmin b hb))
    set weight' : α → ℕ := Function.update weight a (1 + ∑ p ∈ nodes with r p a, weight p)
    have hself : weight' a = 1 + ∑ p ∈ nodes with r p a, weight p := update_self _ _ _
    have hold : ∀ b ∈ nodes, weight' b = weight b := fun b hb => update_of_ne (by rintro rfl; exact ha hb) _ _
    have hin : ∀ b ∈ insert a nodes, ∑ p ∈ insert a nodes with r p b, weight' p = ∑ p ∈ nodes with r p b, weight p := by
      intro b hb
      rw [filter_insert, if_neg (hno b hb)]
      exact sum_congr rfl fun p hp => hold p (mem_filter.1 hp).1
    refine ⟨weight', fun b hb => ?_, ?_⟩
    · rw [hin b hb]
      rcases mem_insert.1 hb with rfl | hb
      · rw [hself]
        omega
      · rw [hold b hb]
        exact hweight b hb
    · have hle : ∑ p ∈ nodes with r p a, weight p ≤ ∑ p ∈ nodes, weight p := sum_le_sum_of_subset (filter_subset _ _)
      have hsame : ∑ b ∈ nodes, weight' b = ∑ b ∈ nodes, weight b := sum_congr rfl hold
      rw [sum_insert ha, hself, hsame, card_insert_of_notMem ha, pow_succ]
      omega

/-- The graph without the edges at one node. -/
def without (r : α → α → Prop) (c : α) : α → α → Prop := fun a b => a ≠ c ∧ b ≠ c ∧ r a b

/-- A graph is acyclic if it is so without a node that is on no cycle. -/
theorem acyclic_of_without {c : α} (hr : Acyclic (without r c)) (hc : ¬ TransGen r c c) : Acyclic r := by
  have hthrough : ∀ {a b}, TransGen r a b → TransGen (without r c) a b ∨ ReflTransGen r a c ∧ ReflTransGen r c b := by
    intro a b hab
    induction hab with
    | @single b hab =>
      by_cases ha : a = c
      · exact .inr ⟨ha ▸ .refl, ha ▸ .single hab⟩
      · by_cases hb : b = c
        · exact .inr ⟨hb ▸ .single hab, hb ▸ .refl⟩
        · exact .inl (.single ⟨ha, hb, hab⟩)
    | @tail b d hab hbd ih =>
      rcases ih with ih | ih
      · by_cases hb : b = c
        · exact .inr ⟨hb ▸ hab.to_reflTransGen, hb ▸ .single hbd⟩
        · by_cases hd : d = c
          · exact .inr ⟨hd ▸ hab.to_reflTransGen.tail hbd, hd ▸ .refl⟩
          · exact .inl (ih.tail ⟨hb, hd, hbd⟩)
      · exact .inr ⟨ih.1, ih.2.tail hbd⟩
  intro a ha
  rcases hthrough ha with h | ⟨hac, hca⟩
  · exact hr a h
  · exact hc ((TransGen.trans_right hca ha).trans_left hac)

/-- A path in a graph with one edge more is one without it, or passes it. -/
theorem reaches_insert {a b x y : α} (h : TransGen (fun c d => (c = a ∧ d = b) ∨ r c d) x y) :
    TransGen r x y ∨ ReflTransGen r x a ∧ ReflTransGen r b y := by
  induction h with
  | single h =>
    rcases h with ⟨rfl, rfl⟩ | h
    · exact .inr ⟨.refl, .refl⟩
    · exact .inl (.single h)
  | tail _ h ih =>
    rcases h with ⟨rfl, rfl⟩ | h
    · exact .inr ⟨ih.elim TransGen.to_reflTransGen And.left, .refl⟩
    · exact ih.imp (·.tail h) fun ih => ⟨ih.1, ih.2.tail h⟩

/-- An edge from where its end does not lead closes no cycle. -/
theorem Acyclic.insert {a b : α} (hr : Acyclic r) (h : ¬ ReflTransGen r b a) :
    Acyclic fun c d => (c = a ∧ d = b) ∨ r c d := fun x hx =>
  (reaches_insert hx).elim (hr x) fun hx => h (hx.2.trans hx.1)

/-- An edge from a node makes no more nodes lead to it. -/
theorem reaches_source {a b x : α} (h : ReflTransGen (fun c d => (c = a ∧ d = b) ∨ r c d) x a) :
    ReflTransGen r x a := by
  rcases reflTransGen_iff_eq_or_transGen.1 h with rfl | h
  · exact .refl
  · exact (reaches_insert h).elim TransGen.to_reflTransGen And.left

/-! ## Paths through a set of nodes -/

/-- A path of one edge or more whose intermediate nodes all have a property. -/
inductive Via (r : α → α → Prop) (P : α → Prop) : α → α → Prop
  | edge {a b : α} (hab : r a b) : Via r P a b
  | tail {a b c : α} (hab : Via r P a b) (hb : P b) (hbc : r b c) : Via r P a c

section
variable {P Q : α → Prop} {a b c t : α}

theorem Via.exists_edge (h : Via r P a c) : ∃ b, r a b := by
  induction h with
  | edge hab => exact ⟨_, hab⟩
  | tail _ _ _ ih => exact ih

theorem Via.mono (h : Via r P a c) (hi : ∀ b c, P b → r b c → Q b) : Via r Q a c := by
  induction h with
  | edge hab => exact .edge hab
  | tail _ hb hbc ih => exact ih.tail (hi _ _ hb hbc) hbc

theorem Via.trans (h : Via r P a b) (hb : P b) (h' : Via r P b c) : Via r P a c := by
  induction h' with
  | edge hbc => exact h.tail hb hbc
  | tail _ hd hdc ih => exact ih.tail hd hdc

/-- A path through one node more is one without that node, or two of them that meet there. -/
theorem via_or : Via r (fun b => P b ∨ b = t) a c ↔ Via r P a c ∨ Via r P a t ∧ Via r P t c := by
  constructor
  · intro h
    induction h with
    | edge hab => exact .inl (.edge hab)
    | tail _ hb hbc ih =>
      rcases hb with hb | rfl
      · exact ih.imp (·.tail hb hbc) fun h => ⟨h.1, h.2.tail hb hbc⟩
      · exact .inr ⟨ih.elim id And.left, .edge hbc⟩
  · rintro (h | ⟨h, h'⟩)
    · exact h.mono fun _ _ hb _ => .inl hb
    · exact (h.mono fun _ _ hb _ => .inl hb).trans (.inr rfl) (h'.mono fun _ _ hb _ => .inl hb)

/-- A graph is acyclic within a set exactly when none of its nodes reaches itself through the set. -/
theorem acyclic_within : Acyclic (fun a b => r a b ∧ P a ∧ P b) ↔ ∀ a, P a → ¬ Via r P a a := by
  have hto : ∀ {a c}, Via r P a c → P a → P c → TransGen (fun a b => r a b ∧ P a ∧ P b) a c := by
    intro a c h ha hc
    induction h with
    | edge hab => exact .single ⟨hab, ha, hc⟩
    | tail _ hb hbc ih => exact (ih hb).tail ⟨hbc, hb, hc⟩
  have hof : ∀ {a c}, TransGen (fun a b => r a b ∧ P a ∧ P b) a c → P a ∧ Via r P a c := by
    intro a c h
    induction h with
    | single hab => exact ⟨hab.2.1, .edge hab.1⟩
    | tail _ hbc ih => exact ⟨ih.1, ih.2.tail hbc.2.1 hbc.1⟩
  exact ⟨fun h a ha hvia => h a (hto hvia ha ha), fun h a ha => h a (hof ha).1 (hof ha).2⟩

end

/-! ## Strong connectivity -/

/-- Each of two nodes reaches the other. -/
def StronglyConnected (r : α → α → Prop) (a b : α) : Prop := ReflTransGen r a b ∧ ReflTransGen r b a

/-- In an acyclic graph a node is strongly connected to itself only. -/
theorem Acyclic.eq_of_stronglyConnected (hr : Acyclic r) {a b : α} (h : StronglyConnected r a b) : a = b := by
  rcases reflTransGen_iff_eq_or_transGen.1 h.1 with rfl | hab
  · rfl
  · exact absurd (hab.trans_left h.2) (hr a)

/-! ## Quotients -/

/-- The quotient of a graph by a labelling: an edge joins two labels when they differ and some edge
joins nodes that have them. -/
def quotient (r : α → α → Prop) (f : α → Option β) : β → β → Prop :=
  fun a b => a ≠ b ∧ ∃ u v, r u v ∧ f u = some a ∧ f v = some b

/-- The classes of a labelling are strongly connected. -/
def ClassesConnected (r : α → α → Prop) (f : α → Option β) : Prop :=
  ∀ u v a, f u = some a → f v = some a → ReflTransGen r u v

variable {f : α → Option β}

/-- A path projects to a path of the quotient. -/
theorem reaches_quotient (hf : ∀ u v, r u v → ∃ b, f v = some b) {u v : α} {a b : β}
    (h : ReflTransGen r u v) (hu : f u = some a) (hv : f v = some b) :
    ReflTransGen (quotient r f) a b := by
  induction h generalizing b with
  | refl =>
    rw [hu] at hv
    cases hv
    exact .refl
  | @tail w v huw hwv ih =>
    obtain ⟨c, hw⟩ : ∃ c, f w = some c := by
      rcases cases_tail huw with rfl | ⟨x, -, hxw⟩
      · exact ⟨a, hu⟩
      · exact hf x w hxw
    have hac := ih hw
    by_cases hcb : c = b
    · exact hcb ▸ hac
    · exact hac.tail ⟨hcb, w, v, hwv, hw, hv⟩

/-- A path of the quotient lifts to a path between any two nodes of its end classes, when the
classes are connected. -/
theorem reaches_of_quotient (hc : ClassesConnected r f) {a b : β}
    (h : ReflTransGen (quotient r f) a b) {u v : α} (hu : f u = some a) (hv : f v = some b) :
    ReflTransGen r u v := by
  induction h generalizing v with
  | refl => exact hc u v a hu hv
  | tail _ hcb ih =>
    obtain ⟨-, x, y, hxy, hx, hy⟩ := hcb
    exact ((ih hx).tail hxy).trans (hc y v _ hy hv)

/-- Where the quotient is acyclic, a path between nodes of one class stays in it: it needs only the edges
inside the class. -/
theorem reaches_within (hf : ∀ u v, r u v → ∃ b, f v = some b) (hq : Acyclic (quotient r f)) {a : β}
    (hs : ∀ u v, r u v → f u = some a → f v = some a → s u v) {u v : α} (h : ReflTransGen r u v)
    (hu : f u = some a) (hv : f v = some a) : ReflTransGen s u v := by
  induction h with
  | refl => exact .refl
  | @tail w v huw hwv ih =>
    obtain ⟨c, hw⟩ : ∃ c, f w = some c := by
      rcases cases_tail huw with rfl | ⟨x, -, hxw⟩
      · exact ⟨a, hu⟩
      · exact hf x w hxw
    have hac := reaches_quotient hf huw hu hw
    have hca : c = a := by
      by_contra hne
      exact hq a (.tail' hac ⟨hne, w, v, hwv, hw, hv⟩)
    subst hca
    exact (ih hw).tail (hs w v hwv hw hv)

/-- With connected classes and an acyclic quotient, the classes of a labelling are the strongly
connected components. -/
theorem label_eq_iff (hf : ∀ u v, r u v → ∃ b, f v = some b) (hc : ClassesConnected r f)
    (hq : Acyclic (quotient r f)) {u v : α} {a b : β} (hu : f u = some a) (hv : f v = some b) :
    a = b ↔ StronglyConnected r u v := by
  constructor
  · rintro rfl
    exact ⟨hc u v a hu hv, hc v u a hv hu⟩
  · intro h
    exact hq.eq_of_stronglyConnected ⟨reaches_quotient hf h.1 hu hv, reaches_quotient hf h.2 hv hu⟩

end Digraph
