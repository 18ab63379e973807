import Ufora.Containers.TwoWaySetMap
import Ufora.Lib.Digraph

/-!
# Graphs without some of their nodes

The functions of `core/containers/TwoWaySetMap.hpp` that take nodes out of a graph and join what comes before one to
what comes after it. An edge between two nodes that were not taken out stands for a path through those that were
(`contains_eliminate_iff`). So no cycle escapes `minimumGraphCovering`, which keeps every node that it finds an edge
to itself at. `graphRestriction` does not look for such an edge, and puts the node back (`not_restricts`).
-/

open Digraph Ordered List Relation

namespace TwoWaySetMap

variable {T : Type*} [LinearOrder T] {tree : TwoWaySetMap T T}

/-- What both functions do with a node `t` that they take out. -/
def eliminate (tree : TwoWaySetMap T T) (t : T) : TwoWaySetMap T T :=
  let down := tree.getValues t
  let up := tree.getKeys t
  (ascending up).foldl (fun tree u => tree.insertValues u down) ((tree.dropKeys up t).dropValues t down)

/-- `graphRestriction(tree, toRemove)`. -/
def graphRestriction (tree : TwoWaySetMap T T) (toRemove : Finset T) : TwoWaySetMap T T :=
  (ascending toRemove).foldl eliminate tree

/-- One turn of `minimumGraphCovering`: what is left of the graph, and the nodes that were chosen. -/
def coverNode (required : Finset T) (pruneRootNodes : Bool) (s : TwoWaySetMap T T × Finset T) (t : T) :
    TwoWaySetMap T T × Finset T :=
  if t ∈ required then s
  else if t ∉ s.1.getValues t ∧ (pruneRootNodes = true ∨ (s.1.getKeys t).card ≠ 0) then (s.1.eliminate t, s.2)
  else (s.1, Insert.insert t s.2)

/-- `minimumGraphCovering(tree, out, required, pruneRootNodes)`. -/
def minimumGraphCovering (tree : TwoWaySetMap T T) (required : Finset T) (pruneRootNodes : Bool) : Finset T :=
  ((ascending tree.mKeysToValues.keys).foldl (coverNode required pruneRootNodes) (tree, required)).2

/-! ## Taking nodes out -/

variable {a c t : T} {l : List T}

theorem contains_eliminate : (tree.eliminate t).contains a c ↔
    tree.contains a c ∧ a ≠ t ∧ c ≠ t ∨ tree.contains a t ∧ tree.contains t c := by
  have hinsert : ∀ (l : List T) (tree' : TwoWaySetMap T T),
      (l.foldl (fun tree' u => tree'.insertValues u (tree.getValues t)) tree').contains a c ↔
        a ∈ l ∧ tree.contains t c ∨ tree'.contains a c := by
    intro l
    induction l with
    | nil => simp
    | cons u l ih =>
      intro tree'
      rw [foldl_cons, ih, contains_insertValues, mem_cons, mem_getValues]
      tauto
  unfold eliminate
  rw [hinsert, mem_ascending, mem_getKeys, contains_dropValues, contains_dropKeys]
  simp only [mem_getKeys, mem_getValues]
  grind

/-- The edges between nodes that were not taken out stand for the paths through those that were. -/
theorem contains_eliminate_iff (hl : l.Nodup) (ha : a ∉ l) (hc : c ∉ l) :
    (l.foldl eliminate tree).contains a c ↔ Via tree.contains (· ∈ l) a c := by
  induction l using reverseRecOn generalizing a c with
  | nil => exact ⟨.edge, fun h => by cases h with | edge h => exact h | tail _ hb => cases hb⟩
  | append_singleton l t ih =>
    rw [nodup_append_comm, singleton_append, nodup_cons] at hl
    rw [mem_append, not_or, mem_singleton] at ha hc
    rw [foldl_append, foldl_cons, foldl_nil, contains_eliminate, ih hl.2 ha.1 hc.1, ih hl.2 ha.1 hl.1,
      ih hl.2 hl.1 hc.1, and_iff_left (And.intro ha.2 hc.2), ← via_or]
    simp only [mem_append, mem_singleton]

/-- A node is taken out for good where it has no edge to itself. -/
theorem notMem_of_contains_eliminate (hl : ∀ a c, (l.foldl eliminate tree).contains a c → a ∉ l ∧ c ∉ l)
    (ht : ¬ (l.foldl eliminate tree).contains t t) (h : ((l ++ [t]).foldl eliminate tree).contains a c) :
    a ∉ l ++ [t] ∧ c ∉ l ++ [t] := by
  rw [foldl_append, foldl_cons, foldl_nil, contains_eliminate] at h
  simp only [mem_append, mem_singleton, not_or]
  rcases h with ⟨h, hat, hct⟩ | ⟨hat, htc⟩
  · exact ⟨⟨(hl a c h).1, hat⟩, (hl a c h).2, hct⟩
  · exact ⟨⟨(hl a t hat).1, fun he => ht (he ▸ hat)⟩, (hl t c htc).2, fun he => ht (he ▸ htc)⟩

/-- A cycle through nodes that were taken out leaves one of them with an edge to itself. -/
theorem exists_contains_self (hl : l.Nodup) (ha : a ∈ l) (h : Via tree.contains (· ∈ l) a a) :
    ∃ t ∈ l, (l.foldl eliminate tree).contains t t := by
  induction l using reverseRecOn generalizing a with
  | nil => cases ha
  | append_singleton l t ih =>
    rw [nodup_append_comm, singleton_append, nodup_cons] at hl
    simp only [mem_append, mem_singleton] at h ha ⊢
    simp only [foldl_append, foldl_cons, foldl_nil, contains_eliminate]
    have hself (h : Via tree.contains (· ∈ l) t t) : (l.foldl eliminate tree).contains t t :=
      (contains_eliminate_iff hl.2 hl.1 hl.1).2 h
    rcases via_or.1 h with hvia | ⟨hvia, hvia'⟩
    · rcases ha with ha | rfl
      · obtain ⟨b, hb, hloop⟩ := ih hl.2 ha hvia
        have hbt : b ≠ t := fun he => hl.1 (he ▸ hb)
        exact ⟨b, .inl hb, .inl ⟨hloop, hbt, hbt⟩⟩
      · exact ⟨a, .inr rfl, .inr ⟨hself hvia, hself hvia⟩⟩
    · have hloop : Via tree.contains (· ∈ l) t t := by
        rcases ha with ha | rfl
        · exact hvia'.trans ha hvia
        · exact hvia
      exact ⟨t, .inr rfl, .inr ⟨hself hloop, hself hloop⟩⟩

/-- No edge touches the nodes that were taken out exactly where no cycle runs through them only. -/
theorem clean_iff (hl : l.Nodup) : (∀ a c, (l.foldl eliminate tree).contains a c → a ∉ l ∧ c ∉ l) ↔
    ∀ a ∈ l, ¬ Via tree.contains (· ∈ l) a a := by
  constructor
  · intro h a ha hvia
    obtain ⟨t, ht, hloop⟩ := exists_contains_self hl ha hvia
    exact (h t t hloop).1 ht
  · intro h
    induction l using reverseRecOn with
    | nil => exact fun a c _ => ⟨not_mem_nil, not_mem_nil⟩
    | append_singleton l t ih =>
      rw [nodup_append_comm, singleton_append, nodup_cons] at hl
      have hmem : ∀ b c, b ∈ l → tree.contains b c → b ∈ l ++ [t] := fun b _ hb _ => mem_append_left [t] hb
      have hclean := ih hl.2 fun a ha hvia => h a (mem_append_left [t] ha) (hvia.mono hmem)
      refine fun a c => notMem_of_contains_eliminate hclean fun hloop => ?_
      have hvia := (contains_eliminate_iff hl.2 hl.1 hl.1).1 hloop
      exact h t (mem_append_right l (mem_singleton_self t)) (hvia.mono hmem)

/-! ## What is left -/

/-- What `graphRestriction` is for: no edge touches a node that was taken out, and an edge between two others is a
path through nodes that were. -/
def Restricts (tree : TwoWaySetMap T T) (toRemove : Finset T) : Prop :=
  (∀ a c, (tree.graphRestriction toRemove).contains a c → a ∉ toRemove ∧ c ∉ toRemove) ∧
    ∀ a c, a ∉ toRemove → c ∉ toRemove →
      ((tree.graphRestriction toRemove).contains a c ↔ Via tree.contains (· ∈ toRemove) a c)

/-- `graphRestriction` does its work exactly where no cycle runs through the nodes to remove only. -/
theorem restricts_iff {toRemove : Finset T} :
    tree.Restricts toRemove ↔ Acyclic fun a b => tree.contains a b ∧ a ∈ toRemove ∧ b ∈ toRemove := by
  have hnodup := ascending_nodup toRemove
  have hclean : _ ↔ ∀ a ∈ _, ¬ Via tree.contains _ a a := clean_iff hnodup
  simp only [mem_ascending] at hclean
  rw [acyclic_within, ← hclean]
  refine and_iff_left fun a c ha hc => ?_
  have hiff : _ ↔ Via tree.contains _ a c :=
    contains_eliminate_iff hnodup (mt mem_ascending.1 ha) (mt mem_ascending.1 hc)
  simp only [mem_ascending] at hiff
  exact hiff

/-- A node with an edge to itself is put back. -/
theorem not_restricts : ¬ ((∅ : TwoWaySetMap ℕ ℕ).insert 1 1).Restricts {1} := by
  intro h
  exact (h.1 1 1 (by decide)).1 (Finset.mem_singleton_self 1)

/-- What holds after `minimumGraphCovering` looked at the nodes `l`: each was taken out or chosen, and no edge touches
one that was taken out. -/
def Covering (tree : TwoWaySetMap T T) (required : Finset T) (l : List T) (s : TwoWaySetMap T T × Finset T) : Prop :=
  required ⊆ s.2 ∧ ∃ gone : List T, gone.Nodup ∧ gone ⊆ l ∧ s.1 = gone.foldl eliminate tree ∧
    (∀ a c, s.1.contains a c → a ∉ gone ∧ c ∉ gone) ∧ ∀ t ∈ l, t ∈ gone ∨ t ∈ s.2

theorem covering_foldl {required : Finset T} {pruneRootNodes : Bool} (hl : l.Nodup) :
    Covering tree required l (l.foldl (coverNode required pruneRootNodes) (tree, required)) := by
  induction l using reverseRecOn with
  | nil => exact ⟨subset_rfl, [], nodup_nil, Subset.refl [], rfl, fun a c _ => ⟨not_mem_nil, not_mem_nil⟩, by simp⟩
  | append_singleton l t ih =>
    rw [nodup_append_comm, singleton_append, nodup_cons] at hl
    obtain ⟨hreq, gone, hnodup, hsub, hs, hclean, hall⟩ := ih hl.2
    rw [foldl_append, foldl_cons, foldl_nil]
    generalize l.foldl _ _ = s at hreq hs hclean hall ⊢
    have hsub' := Subset.trans hsub (List.subset_append_left l [t])
    fun_cases coverNode with
    | case1 ht =>
      refine ⟨hreq, gone, hnodup, hsub', hs, hclean, ?_⟩
      rw [forall_mem_append, forall_mem_singleton]
      exact ⟨hall, .inr (hreq ht)⟩
    | case2 ht h =>
      have hgone : t ∉ gone := fun hg => hl.1 (hsub hg)
      refine ⟨hreq, gone ++ [t], ?_, ?_, ?_, fun a c hac => ?_, ?_⟩
      · exact hnodup.append (nodup_singleton t) (disjoint_singleton.2 hgone)
      · exact append_subset.2 ⟨hsub', List.subset_append_right l [t]⟩
      · rw [foldl_append, ← hs, foldl_cons, foldl_nil]
      · rw [hs] at hclean h hac
        exact notMem_of_contains_eliminate hclean h.1 (by rwa [foldl_append])
      · intro b hb
        rcases mem_append.1 hb with hb | hb
        · exact (hall b hb).imp_left (mem_append_left [t])
        · exact .inl (mem_append_right gone hb)
    | case3 ht h =>
      refine ⟨subset_trans hreq (Finset.subset_insert t _), gone, hnodup, hsub', hs, hclean, ?_⟩
      rw [forall_mem_append, forall_mem_singleton]
      exact ⟨fun b hb => (hall b hb).imp_right Finset.mem_insert_of_mem, .inr (Finset.mem_insert_self t _)⟩

/-- The nodes that `minimumGraphCovering` returns hold those required and a node of each cycle. -/
theorem minimumGraphCovering_covers (required : Finset T) (pruneRootNodes : Bool) :
    required ⊆ minimumGraphCovering tree required pruneRootNodes ∧ Acyclic fun a b => tree.contains a b ∧
      a ∉ minimumGraphCovering tree required pruneRootNodes ∧
      b ∉ minimumGraphCovering tree required pruneRootNodes := by
  obtain ⟨hreq, gone, hnodup, -, hs, hclean, hall⟩ : Covering tree _ _ _ :=
    covering_foldl (ascending_nodup tree.mKeysToValues.keys)
  refine ⟨hreq, acyclic_within.2 fun a ha hvia => ?_⟩
  have hgone : ∀ a b, a ∉ minimumGraphCovering tree required pruneRootNodes → tree.contains a b → a ∈ gone := by
    intro a b ha hab
    exact (hall a (mem_ascending.2 (Finmap.mem_keys.2 (hasKey_iff.2 ⟨b, hab⟩)))).resolve_right ha
  obtain ⟨b, hab⟩ := hvia.exists_edge
  rw [hs] at hclean
  exact (clean_iff hnodup).1 hclean a (hgone a b ha hab) (hvia.mono hgone)

end TwoWaySetMap
