import Mathlib.Data.Finmap
import Mathlib.Data.Finset.Sort
import Mathlib.Data.List.DropRight

/-!
# Finite ordered sets and maps

`std::set` is `Finset` and `std::map` is `Finmap` here. A loop over a set or over the keys of a map
visits them in ascending order, which `ascending` lists: the list of `Finset.sort`, but built on
insertion sort, a structural recursion, so that a loop over a concrete set evaluates.
-/

open List Finset Finmap Multiset

namespace Ordered

section
variable {α : Type*} [LinearOrder α] {l : List α}

/-- Sorting forgets the order of the list it sorts. -/
theorem insertionSort_congr {m : List α} (h : l.Perm m) : l.insertionSort (· ≤ ·) = m.insertionSort (· ≤ ·) := by
  have hl := perm_insertionSort (· ≤ ·) l
  have hm := perm_insertionSort (· ≤ ·) m
  exact ((hl.trans h).trans hm.symm).eq_of_pairwise' (pairwise_insertionSort _ l) (pairwise_insertionSort _ m)

/-- The elements of a set in ascending order, the order in which a loop visits them. -/
def ascending (s : Finset α) : List α := Quot.lift (insertionSort (· ≤ ·)) (fun _ _ => insertionSort_congr) s.val

/-- The ascending list of a set is a permutation of any list of its elements. -/
theorem ascending_coe (s : Finset α) : (ascending s : Multiset α) = s.val := by
  obtain ⟨m, hm⟩ := s
  induction m using Quot.inductionOn with
  | h l => exact Quot.sound (perm_insertionSort _ l)

variable {s : Finset α} {a b : α}

/-- A loop over a set visits exactly its elements. -/
@[simp] theorem mem_ascending : a ∈ ascending s ↔ a ∈ s := by
  rw [← Multiset.mem_coe, ascending_coe, mem_val]

@[simp] theorem toFinset_ascending (s : Finset α) : (ascending s).toFinset = s := by
  ext a
  rw [List.mem_toFinset, mem_ascending]

/-- A loop over a set visits no element twice. -/
theorem ascending_nodup (s : Finset α) : (ascending s).Nodup := by
  rw [← coe_nodup, ascending_coe]
  exact s.nodup

/-- There are as many loop steps as elements. -/
@[simp] theorem length_ascending (s : Finset α) : (ascending s).length = s.card := by
  rw [← coe_card, ascending_coe, card_val]

/-- A loop over a set visits its elements in order. -/
theorem pairwise_ascending (s : Finset α) : (ascending s).Pairwise (· ≤ ·) := by
  obtain ⟨m, hm⟩ := s
  induction m using Quot.inductionOn with
  | h l => exact pairwise_insertionSort (· ≤ ·) l

/-- A loop over a set visits the smallest element first. -/
theorem le_of_head?_ascending (h : (ascending s).head? = some a) (hb : b ∈ s) : a ≤ b := by
  obtain ⟨l, hl⟩ := head?_eq_some_iff.1 h
  have hs := pairwise_ascending s
  rw [← mem_ascending, hl] at hb
  rw [hl] at hs
  rcases mem_cons.1 hb with rfl | hb
  · exact le_rfl
  · exact rel_of_pairwise_cons hs hb

/-- A loop over a set visits the greatest element last. -/
theorem le_of_getLast?_ascending (h : (ascending s).getLast? = some a) (hb : b ∈ s) : b ≤ a := by
  obtain ⟨l, hl⟩ := getLast?_eq_some_iff.1 h
  have hs := pairwise_ascending s
  rw [← mem_ascending, hl] at hb
  rw [hl, pairwise_append] at hs
  rcases mem_append.1 hb with hb | hb
  · exact hs.2.2 b hb a (List.mem_singleton_self a)
  · exact (List.mem_singleton.1 hb).le

/-- Taking the first element out of a set leaves the others in the same order. -/
theorem ascending_erase_of_cons (h : ascending s = a :: l) : ascending (s.erase a) = l := by
  have hs := pairwise_ascending s
  rw [h] at hs
  refine List.Perm.eq_of_pairwise' (pairwise_ascending _) hs.of_cons ?_
  rw [← coe_eq_coe, ascending_coe, erase_val, ← ascending_coe s, h, Multiset.coe_erase, List.erase_cons_head]

/-- An element above all others comes last. -/
theorem ascending_insert_of_lt (h : ∀ b ∈ s, b < a) : ascending (insert a s) = ascending s ++ [a] := by
  have hnot : a ∉ s := fun ha => lt_irrefl a (h a ha)
  refine List.Perm.eq_of_pairwise' (pairwise_ascending _) ?_ ?_
  · refine pairwise_append.2 ⟨pairwise_ascending s, pairwise_singleton _ _, ?_⟩
    intro b hb c hc
    obtain rfl := List.mem_singleton.1 hc
    exact (h b (mem_ascending.1 hb)).le
  · rw [← coe_eq_coe, ascending_coe, insert_val_of_notMem hnot,
      ← coe_add, ascending_coe, Multiset.coe_singleton, ← singleton_add, add_comm]

/-- What lies from the first element with a property to the last one. -/
def between (p : α → Bool) (l : List α) : List α := (l.dropWhile fun a => !p a).rdropWhile fun a => !p a

omit [LinearOrder α] in
theorem between_sublist (p : α → Bool) (l : List α) : (between p l).Sublist l :=
  Sublist.trans (IsPrefix.sublist <| rdropWhile_prefix _ _) (dropWhile_sublist _)

variable {p : α → Bool}

omit [LinearOrder α] in
theorem between_cons (h : p a = true) : ∃ m, between p (a :: l) = a :: m := by
  unfold between
  rw [dropWhile_cons_of_neg (by simp [h])]
  cases hr : (a :: l).rdropWhile fun b => !p b with
  | nil =>
    have hall := rdropWhile_eq_nil_iff.1 hr a mem_cons_self
    rw [h] at hall
    cases hall
  | cons b m =>
    have hpre := rdropWhile_prefix (fun b => !p b) (a :: l)
    rw [hr] at hpre
    obtain rfl := (cons_prefix_cons.1 hpre).1
    exact ⟨m, rfl⟩

omit [LinearOrder α] in
/-- The elements with the property lie between. -/
theorem mem_between_of_mem (ha : a ∈ l) (hp : p a = true) : a ∈ between p l := by
  have hdrop : a ∈ l.dropWhile fun b => !p b := by
    rw [← takeWhile_append_dropWhile (p := fun b => !p b) (l := l), mem_append] at ha
    refine ha.resolve_left fun h => ?_
    have hno := mem_takeWhile_imp h
    rw [hp] at hno
    cases hno
  have happ : between p l ++ (l.dropWhile fun b => !p b).rtakeWhile (fun b => !p b) =
      l.dropWhile fun b => !p b := rdropWhile_append_rtakeWhile
  rw [← happ, mem_append] at hdrop
  refine hdrop.resolve_right fun h => ?_
  have hno := mem_rtakeWhile_imp h
  rw [hp] at hno
  cases hno

/-- What lies between has an element with the property on either side. -/
theorem mem_between (hl : l.Pairwise (· ≤ ·)) {x : α} (h : x ∈ between p l) :
    x ∈ l ∧ (∃ a ∈ l, a ≤ x ∧ p a = true) ∧ ∃ b ∈ l, x ≤ b ∧ p b = true := by
  have hsub := (between_sublist p l).subset
  have hpair := hl.sublist (between_sublist p l)
  have hne : between p l ≠ [] := ne_nil_of_mem h
  have hlast : p ((between p l).getLast hne) = true := by
    have hnot : ¬ (!p ((between p l).getLast hne)) = true := rdropWhile_last_not _ _ hne
    simpa using hnot
  have hhead : p ((between p l).head hne) = true := by
    have hdrop : (l.dropWhile fun b => !p b) ≠ [] := fun he => hne (by rw [between, he]; rfl)
    have heq : (between p l).head hne = (l.dropWhile fun b => !p b).head hdrop := by
      have hprefix := rdropWhile_prefix (fun b => !p b) (l.dropWhile fun b => !p b)
      exact hprefix.head hne
    have hnot := head_dropWhile_not (fun b => !p b) hdrop
    rw [heq]
    simpa using hnot
  refine ⟨hsub h, ⟨_, hsub (head_mem hne), ?_, hhead⟩, _, hsub (getLast_mem hne), ?_, hlast⟩
  · have hcons := cons_head_tail hne
    rw [← hcons] at h hpair
    rcases mem_cons.1 h with he | h
    · exact he.ge
    · exact (pairwise_cons.1 hpair).1 x h
  · have happ := dropLast_append_getLast hne
    rw [← happ] at h hpair
    rw [pairwise_append] at hpair
    rcases mem_append.1 h with h | h
    · exact hpair.2.2 x h _ (List.mem_singleton_self _)
    · exact (List.mem_singleton.1 h).le

omit [LinearOrder α] in
/-- Dropping from the end keeps the elements with the property, where these come first. -/
theorem rdropWhile_eq_filter
    (h : l.Pairwise fun a b => p b = true → p a = true) :
    (l.rdropWhile fun a => !p a) = l.filter p := by
  induction l using reverseRecOn with
  | nil => rfl
  | append_singleton l a ih =>
    rw [pairwise_append] at h
    cases ha : p a with
    | false => rw [rdropWhile_concat_pos _ _ _ (by simp [ha]), ih h.1]; simp [ha]
    | true =>
      have hall : ∀ b ∈ l, p b = true := fun b hb => h.2.2 b hb a (List.mem_singleton_self a) ha
      rw [rdropWhile_concat_neg _ _ _ (by simp [ha]), filter_append, filter_eq_self.2 hall]
      simp [ha]

/-- Where the elements with the property are neighbours, these are what lies between. -/
theorem between_eq_filter (hl : l.Pairwise (· ≤ ·))
    (h : ∀ a ∈ l, ∀ b ∈ l, ∀ c ∈ l, a ≤ b → b ≤ c → p a = true → p c = true → p b = true) :
    between p l = l.filter p := by
  induction l with
  | nil => rfl
  | cons a l ih =>
    rw [List.pairwise_cons] at hl
    cases ha : p a with
    | false =>
      rw [between, dropWhile_cons_of_pos (by simp [ha]), filter_cons_of_neg (by simp [ha])]
      exact ih hl.2 fun a ha b hb c hc => h a (.tail _ ha) b (.tail _ hb) c (.tail _ hc)
    | true =>
      rw [between, dropWhile_cons_of_neg (by simp [ha])]
      refine rdropWhile_eq_filter (pairwise_cons.2 ⟨fun _ _ _ => ha, ?_⟩)
      refine hl.2.imp_of_mem fun {b c} hb hc hbc hpc => ?_
      exact h a (.head _) b (.tail _ hb) c (.tail _ hc) (hl.1 b hb) hbc ha hpc

/-- The set that `operator[]` makes is empty. -/
@[simp] theorem default_finset {β : Type*} : (default : Finset β) = ∅ := rfl

@[simp] theorem ascending_empty : ascending (∅ : Finset α) = [] := rfl

end

/-- `std::map`: finitely many keys, each with one value. -/
abbrev StdMap (κ : Type*) (ν : Type*) := Finmap fun _ : κ => ν

namespace StdMap
variable {κ ν : Type*} [DecidableEq κ]

/-- Reading a map after `m[k] = v`. -/
@[simp] theorem lookup_insert (m : StdMap κ ν) (k k' : κ) (v : ν) :
    lookup k' (insert k v m) = if k' = k then some v else lookup k' m := by
  split
  · next h => subst h; exact Finmap.lookup_insert m
  · next h => exact lookup_insert_of_ne m h

/-- Reading a map after `m.erase(k)`. -/
@[simp] theorem lookup_erase (m : StdMap κ ν) (k k' : κ) :
    lookup k' (erase k m) = if k' = k then none else lookup k' m := by
  split
  · next h => subst h; exact Finmap.lookup_erase k' m
  · next h => exact lookup_erase_ne h

variable {m : StdMap κ ν}

/-- A key of a map is one that has a value. -/
theorem mem_keys_iff {k : κ} : k ∈ m.keys ↔ ∃ v, Finmap.lookup k m = some v := by
  rw [Finmap.mem_keys, ← lookup_isSome, Option.isSome_iff_exists]

/-- `m[k]` where `k` may be missing: `operator[]` makes a value of `default` for it. -/
def get (m : StdMap κ ν) [Inhabited ν] (k : κ) : ν := (lookup k m).getD default

@[simp] theorem get_insert [Inhabited ν] (m : StdMap κ ν) (k k' : κ) (v : ν) :
    StdMap.get (insert k v m) k' = if k' = k then v else StdMap.get m k' := by
  unfold StdMap.get; rw [lookup_insert]; split <;> rfl

@[simp] theorem get_erase [Inhabited ν] (m : StdMap κ ν) (k k' : κ) :
    StdMap.get (erase k m) k' = if k' = k then default else StdMap.get m k' := by
  unfold StdMap.get; rw [lookup_erase]; split <;> rfl

/-- `m[k]` makes nothing where `k` is there. -/
theorem insert_get [Inhabited ν] {k : κ} (h : k ∈ m) : insert k (m.get k) m = m := by
  refine ext_lookup fun k' => ?_
  rw [lookup_insert]
  split
  · next hk =>
    obtain ⟨v, hv⟩ := mem_keys_iff.1 (mem_keys.2 h)
    rw [hk, StdMap.get, hv]
    rfl
  · rfl

@[simp] theorem get_empty [Inhabited ν] (k : κ) : StdMap.get (∅ : StdMap κ ν) k = default := by
  unfold StdMap.get; rw [lookup_empty]; rfl

theorem keys_insert_of_mem {k : κ} {v : ν} (h : k ∈ m.keys) : (Finmap.insert k v m).keys = m.keys := by
  ext k'
  rw [Finmap.mem_keys, Finmap.mem_insert, Finmap.mem_keys]
  refine or_iff_right_of_imp ?_
  rintro rfl
  exact mem_keys.1 h

theorem get_of_notMem [Inhabited ν] {k : κ} (h : k ∉ m.keys) : m.get k = default := by
  rw [StdMap.get, lookup_eq_none.2 fun hm => h (mem_keys.2 hm)]
  rfl

/-- A loop that updates every value of the map in place. -/
def updateEach {κ : Type*} [LinearOrder κ] (f : ν → ν) (m : StdMap κ ν) : StdMap κ ν :=
  (ascending m.keys).foldl (fun m k =>
    match lookup k m with
    | some v => insert k (f v) m
    | none => m) m

@[simp] theorem lookup_updateEach {κ : Type*} [LinearOrder κ] (f : ν → ν) (m : StdMap κ ν)
    (k : κ) : lookup k (updateEach f m) = (lookup k m).map f := by
  have hloop : ∀ (l : List κ) (m : StdMap κ ν), l.Nodup → lookup k (l.foldl (fun m k =>
        match lookup k m with
        | some v => insert k (f v) m
        | none => m) m) = if k ∈ l then (lookup k m).map f else lookup k m := by
    intro l
    induction l with
    | nil => simp
    | cons a l ih =>
      intro m hn
      rw [List.nodup_cons] at hn
      rw [List.foldl_cons, ih _ hn.2]
      by_cases hk : k = a
      · subst hk
        cases h : lookup k m <;> simp [h, hn.1]
      · cases h : lookup a m <;> simp [hk]
  rw [updateEach, hloop _ _ (ascending_nodup _)]
  split
  · rfl
  · next h =>
    rw [mem_ascending, Finmap.mem_keys, ← lookup_eq_none] at h
    rw [h]
    rfl

/-- The entries of a map, in the order of their keys. -/
def ascendingEntries {κ : Type*} [LinearOrder κ] [Inhabited ν] (m : StdMap κ ν) : List (κ × ν) :=
  (ascending m.keys).map fun k => (k, m.get k)

theorem mem_ascendingEntries {κ : Type*} [LinearOrder κ] [Inhabited ν] {m : StdMap κ ν} {k : κ} {v : ν} :
    (k, v) ∈ ascendingEntries m ↔ lookup k m = some v := by
  rw [ascendingEntries, List.mem_map]
  constructor
  · rintro ⟨k', hk, he⟩
    obtain ⟨rfl, rfl⟩ := Prod.mk.inj he
    obtain ⟨w, hw⟩ := mem_keys_iff.1 (mem_ascending.1 hk)
    rw [StdMap.get, hw]
    rfl
  · intro hv
    refine ⟨k, mem_ascending.2 (mem_keys_iff.2 ⟨v, hv⟩), ?_⟩
    rw [StdMap.get, hv]
    rfl

/-- The entries tell maps apart. -/
theorem ascendingEntries_injective {κ : Type*} [LinearOrder κ] [Inhabited ν] :
    Function.Injective (ascendingEntries : StdMap κ ν → List (κ × ν)) := by
  intro m m' h
  refine ext_lookup fun k => Option.ext fun v => ?_
  rw [← mem_ascendingEntries, ← mem_ascendingEntries, h]

end StdMap

end Ordered
