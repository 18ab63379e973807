import Ufora.Graphs.Search

/-!
# The search of a ring

Where a search meets a cycle whose depth does not change it leaves it on its stack. It meets none if what it finds
is a ring, in which each cycle has one predecessor, and what leads into the ring from outside does so by one way
only and is no deeper than this way makes it (`Ring`): then all it has on its stack in the end is the ring
(`wp_updateCycleDepth_ring`).
-/

open Ordered Effect List TwoWaySetMap StdMap Finmap Relation ReflTransGen

namespace GraphCycles

section
variable (E : TwoWaySetMap ℤ ℤ) (D : StdMap ℤ ℤ) (start root : ℤ)

/-- A cycle on a path from `start` to `root`. -/
def Inside (c : ℤ) : Prop := Leads E start c ∧ Leads E c root

/-- A cycle that leads to `root` and is not reached from `start`. -/
def Outside (c : ℤ) : Prop := Leads E c root ∧ ¬ Leads E start c

/-- The cycles inside have one predecessor there each, and each cycle outside has one way to `root`, along which its
depth goes up by one at most. -/
structure Ring : Prop where
  pred : ∀ x y z, Inside E start root x → Inside E start root y →
    Inside E start root z → E.contains x z → E.contains y z → x = y
  way : ∀ q, Outside E start root q → ∃ y, E.contains q y ∧
    D.get q ≤ D.get y + 1 ∧
    ∀ x, E.contains q x → Leads E x root → x = y

end

variable {E : TwoWaySetMap ℤ ℤ} {D₀ : StdMap ℤ ℤ} {root c p q x : ℤ}

section
variable {E' : TwoWaySetMap ℤ ℤ} {a b : ℤ}
  (hedge : ∀ x y, E'.contains x y ↔ (x = a ∧ y = b) ∨ E.contains x y)
  (hback : Leads E b a)
include hedge

/-- An edge makes no more cycles lead to the one that it starts from. -/
theorem reaches_of_inserted (h : Leads E' x a) : Leads E x a :=
  Digraph.reaches_source (mono (fun x y => (hedge x y).1) _ _ h)

include hback

/-- What an edge that closes a cycle reaches both ways. -/
theorem Inside.of_inserted (h : Inside E' a a x) : Inside E b a x := by
  refine ⟨?_, reaches_of_inserted hedge h.2⟩
  rcases reflTransGen_iff_eq_or_transGen.1 h.1 with rfl | hax
  · exact hback
  · rcases Digraph.reaches_insert (TransGen.mono (fun x y => (hedge x y).1) _ _ hax) with hax | hbx
    · exact hback.trans hax.to_reflTransGen
    · exact hbx.2

/-- An edge that closes a ring. -/
theorem Ring.inserted (h : Ring E D₀ b a) (hacyclic : Digraph.Acyclic E.contains) :
    Ring E' D₀ a a where
  pred x y z hx hy hz hxz hyz := by
    have hb : ∀ {x}, Inside E' a a x → ¬ E.contains x b := fun hx hxb =>
      hacyclic b (TransGen.tail' (hx.of_inserted hedge hback).1 hxb)
    rcases (hedge x z).1 hxz with ⟨rfl, rfl⟩ | hxz <;> rcases (hedge y z).1 hyz with ⟨rfl, hz'⟩ | hyz
    · rfl
    · exact absurd hyz (hb hy)
    · exact absurd (hz' ▸ hxz) (hb hx)
    · exact h.pred x y z (hx.of_inserted hedge hback) (hy.of_inserted hedge hback) (hz.of_inserted hedge hback) hxz hyz
  way q hq := by
    have hbq : ¬ Leads E b q := fun hbq =>
      hq.2 (.head ((hedge a b).2 (.inl ⟨rfl, rfl⟩)) (mono (fun x y hxy => (hedge x y).2 (.inr hxy)) _ _ hbq))
    obtain ⟨y, hqy, hle, hy⟩ := h.way q ⟨reaches_of_inserted hedge hq.1, hbq⟩
    refine ⟨y, (hedge q y).2 (.inr hqy), hle, fun x hqx hx => hy x ?_ (reaches_of_inserted hedge hx)⟩
    refine ((hedge q x).1 hqx).resolve_left fun he => hq.2 ?_
    rw [he.1]

end

/-- What leads to a cycle outside is outside. -/
theorem Outside.of_reaches (h : Outside E root root q) (hx : Leads E x q) :
    Outside E root root x := ⟨hx.trans h.1, fun hr => h.2 (hr.trans hx)⟩

theorem Outside.ne_root (h : Outside E root root q) : q ≠ root := fun he => h.2 (he ▸ .refl)

/-- A path to a cycle outside stays there, and leads on to the first one. -/
theorem Outside.path (h : Outside E root root q) (hx : Leads E x q) :
    ReflTransGen (fun a b => E.contains a b ∧ Outside E root root a ∧
      Leads E b root) x q := by
  induction hx using head_induction_on with
  | refl => exact .refl
  | head hab hbq ih => exact .head ⟨hab, h.of_reaches (.head hab hbq), hbq.trans h.1⟩ ih

/-- No cycle inside leads to one outside. -/
theorem Inside.not_reaches (hc : Inside E root root c) (hq : Outside E root root q) :
    ¬ Leads E c q := fun h => hq.2 (hc.1.trans h)

/-- A parent of a cycle inside is inside or outside. -/
theorem Inside.parent (hc : Inside E root root c) (hp : E.contains p c) :
    Inside E root root p ∨ Outside E root root p := by
  by_cases hr : Leads E root p
  · exact .inl ⟨hr, .head hp hc.2⟩
  · exact .inr ⟨.head hp hc.2, hr⟩

/-- A cycle inside has a predecessor there, if the first one is on a cycle. -/
theorem Inside.exists_parent (hc : Inside E root root c) (hround : TransGen E.contains root root) :
    ∃ p, Inside E root root p ∧ E.contains p c := by
  obtain ⟨p, hrp, hpc⟩ : ∃ p, Leads E root p ∧ E.contains p c := by
    rcases cases_tail hc.1 with rfl | h
    · exact TransGen.tail'_iff.1 hround
    · exact h
  exact ⟨p, ⟨hrp, .head hpc hc.2⟩, hpc⟩

/-- What `depthForCycle` returns is the depth. -/
theorem depth_of_depthForCycle {D : StdMap ℤ ℤ} {d : ℤ}
    (h : depthForCycle E D c = some d) : depth E D c = d := by
  have hloop : ∀ (l : List ℤ) (a : ℤ), l.foldlM (fun curDepth subcycle =>
      (lookup subcycle D).map fun depth => max curDepth (depth + 1)) a = some d →
      l.foldl (fun curDepth subcycle => max curDepth (D.get subcycle + 1)) a = d := by
    intro l
    induction l with
    | nil => exact fun a ha => Option.some.inj ha
    | cons b l ih =>
      intro a ha
      rw [foldlM_cons] at ha
      cases hb : lookup b D with
      | none => simp [hb] at ha
      | some e =>
        rw [hb] at ha
        rw [foldl_cons, StdMap.get, hb]
        exact ih _ ha
  exact hloop _ 0 h

/-- What a visit pushes and searches. -/
abbrev parentSearch (E : TwoWaySetMap ℤ ℤ) (limit : ℕ) (parentCycle : ℤ) : EStateM GraphError Search Bool := do
  modify fun s => { s with ioStack := s.ioStack ++ [parentCycle] }
  updateCycleDepth E limit parentCycle

/-- A visit of a cycle whose depth changes. -/
theorem wp_updateCycleDepth_of_changed {n : ℕ} {s : Search} {Q : Bool → Search → Prop}
    (hnot : ¬ (1 < s.ioStack.length ∧ s.ioStack.head? = s.ioStack.getLast?))
    (hchanged : depth E s.mCycleDepth c ≠ s.mCycleDepth.get c)
    (h : wp ((ascending (E.getKeys c)).anyM (parentSearch E n))
      (fun found s' => Q found (if found = true then s' else { s' with ioStack := s'.ioStack.dropLast }))
      (fun _ _ => True) ⟨insert c (depth E s.mCycleDepth c) s.mCycleDepth, s.ioStack⟩) :
    wp (updateCycleDepth E (n + 1) c) Q (fun _ _ => True) s := by
  unfold updateCycleDepth
  rw [wp_bind, wp_get, wp_ite, if_neg hnot, wp_bind, wp_get]
  dsimp only
  split
  · trivial
  · next d hdepth =>
    obtain rfl := depth_of_depthForCycle hdepth
    rw [wp_bind, wp_modify, wp_ite, if_neg hchanged, wp_bind]
    refine h.imp fun found s' hs' => ?_
    cases found with
    | true => exact hs'
    | false => exact hs'

section
variable (hring : Ring E D₀ root root)
include hring

/-- Of two cycles outside that one cycle leads to, one leads to the other. -/
theorem Ring.comparable (hp : Outside E root root p) (hq : Outside E root root q)
    (hxp : Leads E x p) (hxq : Leads E x q) :
    Leads E p q ∨ Leads E q p := by
  have hunique : Relator.RightUnique fun a b => E.contains a b ∧ Outside E root root a ∧
      Leads E b root := by
    intro a b b' hb hb'
    obtain ⟨y, -, -, hy⟩ := hring.way a hb.2.1
    rw [hy b hb.1 hb.2.2, hy b' hb'.1 hb'.2.2]
  exact (total_of_right_unique hunique (hp.path hxp) (hq.path hxq)).imp
    (mono (fun _ _ h => h.1) _ _) (mono (fun _ _ h => h.1) _ _)

/-- A cycle outside that leads to another one there does so by its way. -/
theorem Ring.way_reaches {y : ℤ} (hp : Outside E root root p) (hq : Outside E root root q) (hne : p ≠ q)
    (hpq : Leads E p q) (hpy : E.contains p y)
    (hy : Leads E y root) : Leads E y q := by
  rcases cases_head hpq with he | ⟨z, hpz, hzq⟩
  · exact absurd he hne
  · obtain ⟨w, -, -, hw⟩ := hring.way p hp
    exact (hw z hpz (hzq.trans hq.1)).trans (hw y hpy hy).symm ▸ hzq

variable {rank : ℤ → ℕ}
  (hrank : ∀ p c, E.contains p c → p ≠ root → c ≠ root → rank p < rank c)
include hrank

omit hring in
/-- The ranks grow along the paths outside. -/
theorem Outside.rank_le (hq : Outside E root root q) (hpq : Leads E p q) :
    rank p ≤ rank q := by
  induction hpq using head_induction_on with
  | refl => exact le_rfl
  | head hab hbq ih =>
    have hb := hq.of_reaches hbq
    exact (hrank _ _ hab (hb.of_reaches (.single hab)).ne_root hb.ne_root).le.trans ih

/-- No cycle leads to two parents of one cycle. -/
theorem Ring.apart (hp : Outside E root root p) (hq : Outside E root root q) (hne : p ≠ q)
    (hpc : E.contains p c) (hqc : E.contains q c)
    (hc : Leads E c root) (hxp : Leads E x p) :
    ¬ Leads E x q := by
  have hno : ∀ {p q}, Outside E root root p → Outside E root root q → p ≠ q →
      E.contains p c → E.contains q c → ¬ Leads E p q := by
    intro p q hp hq hne hpc hqc hpq
    have hcq := hring.way_reaches hp hq hne hpq hpc hc
    have hlt := hrank q c hqc hq.ne_root (hq.of_reaches hcq).ne_root
    exact absurd (hq.rank_le hrank hcq) (not_le.2 hlt)
  intro hxq
  rcases hring.comparable hp hq hxp hxq with hpq | hqp
  · exact hno hp hq hne hpc hqc hpq
  · exact hno hq hp hne.symm hqc hpc hqp

/-- A search from outside the ring finds nothing and leaves nothing on the stack. -/
theorem wp_updateCycleDepth_outside {n : ℕ} {s : Search} (hq : Outside E root root q)
    (hhead : s.ioStack.head? = some root) (hlast : s.ioStack.getLast? = some q)
    (hold : ∀ x, Leads E x q → s.mCycleDepth.get x = D₀.get x)
    (hup : D₀.get q < depth E s.mCycleDepth q) :
    wp (updateCycleDepth E n q) (fun found s' => found = false ∧ s'.ioStack = s.ioStack.dropLast ∧
      ∀ x, ¬ Leads E x q → s'.mCycleDepth.get x = s.mCycleDepth.get x)
      (fun _ _ => True) s := by
  induction n generalizing q s with
  | zero => trivial
  | succ n ih =>
    set d := depth E s.mCycleDepth q with hd
    have hchanged : d ≠ s.mCycleDepth.get q := fun he => hup.ne (by rw [he, hold q .refl])
    refine wp_updateCycleDepth_of_changed (fun h => hq.ne_root
      (Option.some.inj ((hlast.symm.trans h.2.symm).trans hhead))) hchanged ?_
    have hkept : ∀ x, x ≠ q → StdMap.get (insert q d s.mCycleDepth) x = s.mCycleDepth.get x := fun x hx => by
      rw [get_insert, if_neg hx]
    have hloop := wp_anyM (E := fun _ _ => True) (P := fun _ => False) (p := parentSearch E n)
      (fun l s' => s'.ioStack = s.ioStack ∧ l.Nodup ∧ (∀ p ∈ l, E.contains p q) ∧
        s'.mCycleDepth.get q = d ∧
        (∀ p ∈ l, ∀ x, Leads E x p → s'.mCycleDepth.get x = D₀.get x) ∧
        ∀ x, ¬ Leads E x q → s'.mCycleDepth.get x = s.mCycleDepth.get x)
      (fun p l s' hs' => ?_) (ascending (E.getKeys q))
      (s := ⟨insert q d s.mCycleDepth, s.ioStack⟩) ?_
    · refine hloop.imp fun found s' hs' => ?_
      cases found with
      | true => exact hs'.elim
      | false => exact ⟨rfl, congrArg dropLast hs'.1, hs'.2.2.2.2.2⟩
    · obtain ⟨hstack, hnodup, hl, hself, holds, hframe⟩ := hs'
      rw [forall_mem_cons] at hl holds
      rw [nodup_cons] at hnodup
      have hp := hq.of_reaches (.single hl.1)
      have hraised : D₀.get p < depth E s'.mCycleDepth p := by
        obtain ⟨y, hpy, hle, hy⟩ := hring.way p hp
        obtain rfl := hy q hl.1 hq.1
        have hlt := @lt_depth _ s'.mCycleDepth _ _ hl.1
        omega
      rw [wp_bind, wp_modify]
      refine (ih (s := ⟨s'.mCycleDepth, s'.ioStack ++ [p]⟩) hp ?_ getLast?_concat holds.1 hraised).imp
        fun found s'' hs'' => ?_
      · rw [hstack]
        exact head?_of_initial (prefix_append _ _) hhead
      · obtain ⟨rfl, hstack', hframe'⟩ := hs''
        refine ⟨?_, hnodup.2, hl.2, ?_, fun p' hp' x hx => ?_, fun x hx => ?_⟩
        · rw [hstack', dropLast_concat, hstack]
        · rw [hframe' q fun hqp => absurd (hp.rank_le hrank hqp)
            (not_le.2 (hrank p q hl.1 hp.ne_root hq.ne_root)), ← hself]
        · have hne : p ≠ p' := fun he => hnodup.1 (he ▸ hp')
          have hp₁ := hq.of_reaches (.single (hl.2 p' hp'))
          rw [hframe' x fun hxp => hring.apart hrank hp hp₁ hne hl.1 (hl.2 p' hp') hq.1 hxp hx, ← holds.2 p' hp' x hx]
        · rw [hframe' x fun hxp => hx (hxp.tail hl.1), ← hframe x hx]
    · refine ⟨rfl, ascending_nodup _, fun p hp => mem_getKeys.1 (mem_ascending.1 hp), ?_, fun p hp x hx => ?_,
        fun x hx => hkept x fun he => hx (he ▸ .refl)⟩
      · rw [get_insert, if_pos rfl]
      · have hpq := mem_getKeys.1 (mem_ascending.1 hp)
        have hp' := hq.of_reaches (.single hpq)
        rw [hkept x, hold x (hx.tail hpq)]
        rintro rfl
        exact absurd (hp'.rank_le hrank hx) (not_le.2 (hrank p _ hpq hp'.ne_root hq.ne_root))

omit hrank in
/-- A cycle outside has one way into the ring. -/
theorem Ring.way_eq {z : ℤ} (hp : Outside E root root p) (hq : Outside E root root q)
    (hc : Inside E root root c) (hz : Inside E root root z) (hpc : E.contains p c)
    (hqz : E.contains q z) (hxp : Leads E x p)
    (hxq : Leads E x q) : c = z := by
  by_cases hne : p = q
  · subst hne
    obtain ⟨y, -, -, hy⟩ := hring.way p hp
    rw [hy c hpc hc.2, hy z hqz hz.2]
  · rcases hring.comparable hp hq hxp hxq with hpq | hqp
    · exact absurd (hring.way_reaches hp hq hne hpq hpc hc.2) (hc.not_reaches hq)
    · exact absurd (hring.way_reaches hq hp (Ne.symm hne) hqp hqz hz.2) (hz.not_reaches hp)

omit hring hrank in
variable (E D₀ root) in
/-- The cycles that are not on the stack, and those that lead to them from outside, have the depths they had. -/
def Untouched (stack : List ℤ) (D : StdMap ℤ ℤ) : Prop :=
  (∀ x, Inside E root root x → x ∉ stack → D.get x = D₀.get x) ∧
  ∀ p c, Outside E root root p → Inside E root root c → E.contains p c → c ∉ stack →
    ∀ x, Leads E x p → D.get x = D₀.get x

/-- A search from a cycle of the ring goes on to its first cycle, and has all that it passes on the stack. -/
theorem wp_updateCycleDepth_inside (hround : TransGen E.contains root root) {n : ℕ} {s : Search}
    (hc : Inside E root root c) (hhead : s.ioStack.head? = some root) (hlast : s.ioStack.getLast? = some c)
    (hin : ∀ y ∈ s.ioStack, Inside E root root y)
    (hfresh : 1 < s.ioStack.length ∧ c = root ∨ c ∉ s.ioStack.dropLast ∧
      (c ≠ root → ∀ y ∈ s.ioStack.dropLast, y ≠ root → rank c < rank y) ∧
      Untouched E D₀ root s.ioStack.dropLast s.mCycleDepth ∧
      ∀ x, Inside E root root x → D₀.get x < depth E s.mCycleDepth c) :
    wp (updateCycleDepth E n c) (fun found s' => found = true ∧
      (∀ y ∈ s'.ioStack, Inside E root root y) ∧ s.ioStack <+: s'.ioStack ∧
      ∀ y ∈ s'.ioStack, y ∉ s.ioStack.dropLast → ∀ x, Inside E root root x → E.contains x y →
        x ∈ s'.ioStack) (fun _ _ => True) s := by
  induction n generalizing c s with
  | zero => trivial
  | succ n ih =>
    have hstack : s.ioStack.dropLast ++ [c] = s.ioStack := dropLast_append_getLast? c hlast
    have hmem : ∀ y, y ∈ s.ioStack ↔ y ∈ s.ioStack.dropLast ∨ y = c := fun y => by
      rw [← List.mem_singleton, ← mem_append, hstack]
    have hroot : root ∈ s.ioStack := mem_of_mem_head? hhead
    by_cases hfound : 1 < s.ioStack.length ∧ s.ioStack.head? = s.ioStack.getLast?
    · unfold updateCycleDepth
      rw [wp_bind, wp_get, wp_ite, if_pos hfound]
      refine ⟨rfl, hin, prefix_rfl, fun y hy hnot => absurd ?_ hnot⟩
      obtain rfl : c = root := Option.some.inj ((hlast.symm.trans hfound.2.symm).trans hhead)
      obtain rfl := ((hmem y).1 hy).resolve_left hnot
      rw [← hstack, length_append] at hfound
      cases hd : s.ioStack.dropLast with
      | nil => rw [hd] at hfound; exact absurd hfound.1 (lt_irrefl 1)
      | cons a l =>
        rw [← hstack, hd] at hhead
        exact Option.some.inj hhead ▸ mem_cons_self
    have hshort : c = root → s.ioStack.dropLast = [] := by
      rintro rfl
      refine eq_nil_of_length_eq_zero ?_
      have hlen : ¬ 1 < s.ioStack.length := fun h => hfound ⟨h, hhead.trans hlast.symm⟩
      rw [length_dropLast]
      omega
    obtain ⟨hnot, hranks, huntouched, hup⟩ := hfresh.resolve_left fun h => hfound ⟨h.1, by rw [hhead, hlast, h.2]⟩
    set d := depth E s.mCycleDepth c with hd
    have hchanged : d ≠ s.mCycleDepth.get c := fun he => (hup c hc).ne (by rw [he, huntouched.1 c hc hnot])
    have hkept : ∀ x, x ≠ c → StdMap.get (insert c d s.mCycleDepth) x = s.mCycleDepth.get x := fun x hx => by
      rw [get_insert, if_neg hx]
    refine wp_updateCycleDepth_of_changed hfound hchanged ?_
    have hloop := wp_anyM (E := fun _ _ => True) (p := parentSearch E n)
      (P := fun s' => (∀ y ∈ s'.ioStack, Inside E root root y) ∧ s.ioStack <+: s'.ioStack ∧
        ∀ y ∈ s'.ioStack, y ∉ s.ioStack.dropLast → ∀ x, Inside E root root x → E.contains x y →
          x ∈ s'.ioStack)
      (fun l s' => s'.ioStack = s.ioStack ∧ l.Nodup ∧ (∀ p ∈ l, E.contains p c) ∧
        (∃ p ∈ l, Inside E root root p) ∧ s'.mCycleDepth.get c = d ∧
        Untouched E D₀ root s.ioStack s'.mCycleDepth ∧
        ∀ p ∈ l, Outside E root root p → ∀ x, Leads E x p →
          s'.mCycleDepth.get x = D₀.get x)
      (fun p l s' hs' => ?_) (ascending (E.getKeys c))
      (s := ⟨insert c d s.mCycleDepth, s.ioStack⟩) ?_
    · refine hloop.imp fun found s' hs' => ?_
      cases found with
      | true => exact ⟨rfl, hs'⟩
      | false =>
        obtain ⟨p, hp, -⟩ := hs'.2.2.2.1
        exact absurd hp not_mem_nil
    · obtain ⟨hsame, hnodup, hl, hpred, hself, htouch, hout⟩ := hs'
      rw [forall_mem_cons] at hl hout
      rw [nodup_cons] at hnodup
      rw [parentSearch, wp_bind, wp_modify, hsame]
      have hhead' : (s.ioStack ++ [p]).head? = some root := head?_of_initial (prefix_append _ _) hhead
      rcases hc.parent hl.1 with hp | hp
      · refine (ih (s := ⟨s'.mCycleDepth, s.ioStack ++ [p]⟩) hp hhead' getLast?_concat (fun y hy => ?_) ?_).imp
          fun found s'' hs'' => ?_
        · rcases mem_append.1 hy with hy | hy
          · exact hin y hy
          · exact List.mem_singleton.1 hy ▸ hp
        · by_cases hpr : p = root
          · refine .inl ⟨?_, hpr⟩
            have hpos := length_pos_of_mem hroot
            rw [length_append, length_singleton]
            omega
          · have hless : ∀ y ∈ s.ioStack, y ≠ root → rank p < rank y := by
              intro y hy hyr
              rcases (hmem y).1 hy with hy | rfl
              · by_cases hcr : c = root
                · rw [hshort hcr] at hy
                  exact absurd hy not_mem_nil
                · exact (hrank p c hl.1 hpr hcr).trans (hranks hcr y hy hyr)
              · exact hrank p y hl.1 hpr hyr
            dsimp only
            rw [dropLast_concat]
            refine .inr ⟨fun hps => (hless p hps hpr).false, fun _ => hless, htouch, fun x hx => ?_⟩
            exact (hup x hx).trans (hself ▸ lt_depth hl.1)
        · obtain ⟨rfl, hin', hpre, hclosed⟩ := hs''
          dsimp only at hpre hclosed
          rw [dropLast_concat] at hclosed
          refine ⟨hin', (prefix_append _ _).trans hpre, fun y hy hny x hx hxy => ?_⟩
          by_cases hys : y ∈ s.ioStack
          · obtain rfl := ((hmem y).1 hys).resolve_left hny
            obtain rfl := hring.pred x p y hx hp hc hxy hl.1
            exact hpre.subset (mem_append_right _ (mem_singleton_self _))
          · exact hclosed y hy hys x hx hxy
      · have hraised : D₀.get p < depth E s'.mCycleDepth p := by
          obtain ⟨y, hpy, hle, hy⟩ := hring.way p hp
          obtain rfl := hy c hl.1 hc.2
          have hlt := @lt_depth _ s'.mCycleDepth _ _ hl.1
          have hlow := hup c hc
          omega
        refine (wp_updateCycleDepth_outside hring hrank
          (s := ⟨s'.mCycleDepth, s.ioStack ++ [p]⟩) hp hhead' getLast?_concat (hout.1 hp) hraised).imp
          fun found s'' hs'' => ?_
        obtain ⟨rfl, hstack', hframe⟩ := hs''
        refine ⟨?_, hnodup.2, hl.2, ?_, ?_, ⟨fun x hx hxs => ?_, fun p' c' hp' hc' hpc' hcs x hx => ?_⟩,
          fun p' hp' hout' x hx => ?_⟩
        · rw [hstack', dropLast_concat]
        · obtain ⟨p', hp', hinp⟩ := hpred
          rcases mem_cons.1 hp' with rfl | hp'
          · exact absurd hinp.1 hp.2
          · exact ⟨p', hp', hinp⟩
        · rw [hframe c (hc.not_reaches hp), ← hself]
        · rw [hframe x (hx.not_reaches hp), ← htouch.1 x hx hxs]
        · rw [hframe x fun hxp => hcs ?_, ← htouch.2 p' c' hp' hc' hpc' hcs x hx]
          rw [hring.way_eq hp' hp hc' hc hpc' hl.1 hx hxp, hmem]
          exact .inr rfl
        · have hne : p ≠ p' := fun he => hnodup.1 (he ▸ hp')
          rw [hframe x fun hxp => hring.apart hrank hp hout' hne hl.1 (hl.2 p' hp') hc.2 hxp hx,
            ← hout.2 p' hp' hout' x hx]
    · obtain ⟨p, hp, hpc⟩ := hc.exists_parent hround
      have hne : ∀ {p x}, Outside E root root p → Leads E x p → x ≠ c :=
        fun hp hx he => hc.not_reaches hp (he ▸ hx)
      refine ⟨rfl, ascending_nodup _, fun p hp => mem_getKeys.1 (mem_ascending.1 hp),
        ⟨p, mem_ascending.2 (mem_getKeys.2 hpc), hp⟩, ?_, ⟨fun x hx hxs => ?_, fun p c' hp hc' hpc hcs x hx => ?_⟩,
        fun p hp hout x hx => ?_⟩
      · rw [get_insert, if_pos rfl]
      · rw [hmem, not_or] at hxs
        rw [hkept x hxs.2, huntouched.1 x hx hxs.1]
      · rw [hmem, not_or] at hcs
        rw [hkept x (hne hp hx), huntouched.2 p c' hp hc' hpc hcs.1 x hx]
      · rw [hkept x (hne hout hx),
          huntouched.2 p c hout hc (mem_getKeys.1 (mem_ascending.1 hp)) hnot x hx]

/-- A search of a ring has the ring on its stack. -/
theorem wp_updateCycleDepth_ring (hround : TransGen E.contains root root) {n : ℕ}
    (hlow : ∀ x, Inside E root root x → D₀.get x < depth E D₀ root) :
    wp (updateCycleDepth E n root) (fun _ s' => ∀ c, c ∈ s'.ioStack ↔ Inside E root root c)
      (fun _ _ => True) ⟨D₀, [root]⟩ := by
  have hself : Inside E root root root := ⟨.refl, .refl⟩
  refine (wp_updateCycleDepth_inside hring hrank hround (s := ⟨D₀, [root]⟩) hself rfl rfl
    (fun y hy => List.mem_singleton.1 hy ▸ hself)
    (.inr ⟨not_mem_nil, fun h => absurd rfl h, ⟨fun _ _ _ => rfl, fun _ _ _ _ _ _ _ _ => rfl⟩, hlow⟩)).imp
    fun found s' hs' => ?_
  obtain ⟨-, hin, hpre, hclosed⟩ := hs'
  refine fun c => ⟨hin c, fun hc => ?_⟩
  have hall : ∀ c, Leads E c root → Leads E root c →
      c ∈ s'.ioStack := by
    intro c hcr
    induction hcr using head_induction_on with
    | refl => exact fun _ => hpre.subset (mem_singleton_self _)
    | head hab hb ih =>
      exact fun ha => hclosed _ (ih (ha.tail hab)) not_mem_nil _ ⟨ha, .head hab hb⟩ hab
  exact hall c hc.2 hc.1

end

end GraphCycles
