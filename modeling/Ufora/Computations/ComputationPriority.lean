import Ufora.Pages.Basic
import Mathlib.Data.Sum.Order
import Mathlib.Data.String.Basic

/-!
# Computations and their priorities

The identifiers of `cumulus/ComputationId.hppml` and `cumulus/CumulusClientId.hppml`, and
`cumulus/ComputationPriority.hppml`: what a priority is, how two of them compare, and how a priority
passes from a computation to the computations it depends on and to its splits.

Priorities compare through `operator<`, and `operator==` says that neither of two is less. Two null
priorities of one source are equal so, whatever their depths are.
-/

open List OrderDual Prod.Lex UInt64 LinearOrder

namespace Cumulus

/-- `CumulusClientId`. -/
structure CumulusClientId where
  guid : Hash

namespace CumulusClientId

theorem guid_injective : Function.Injective guid := by
  rintro ⟨a⟩ ⟨a'⟩ h
  cases h
  rfl

instance : LinearOrder CumulusClientId := lift' guid guid_injective

end CumulusClientId

/-- `ComputationId`: a root computation, or a split of one. A split holds the id of its root, which
`CreateIdForSplit` looks up and which is a `Root` then. -/
inductive ComputationId
  | Root (computationHash : Hash)
  | Split (rootComputation guid : Hash) (treeDepth : ℤ) (splitPath : String)

namespace ComputationId

/-- What the comparison operators of `ComputationId` compare: the case, then its fields. -/
def fields : ComputationId → Hash ⊕ₗ (Hash ×ₗ Hash ×ₗ ℤ ×ₗ String)
  | Root computationHash => Sum.inlₗ computationHash
  | Split rootComputation guid treeDepth splitPath =>
    Sum.inrₗ (toLex (rootComputation, toLex (guid, toLex (treeDepth, splitPath))))

theorem fields_injective : Function.Injective fields := by
  intro id id' h
  cases id <;> cases id' <;> cases h <;> rfl

instance : LinearOrder ComputationId := lift' fields fields_injective

/-- `isRoot()`. -/
def isRoot : ComputationId → Bool
  | Root _ => true
  | Split .. => false

/-- `isSplit()`. -/
def isSplit (id : ComputationId) : Bool := !id.isRoot

/-- `rootComputation()`. -/
def rootComputation : ComputationId → ComputationId
  | Root computationHash => Root computationHash
  | Split rootComputation .. => Root rootComputation

/-- `getSplit().treeDepth()`, which is read of splits only. -/
def treeDepth : ComputationId → ℤ
  | Root _ => 0
  | Split _ _ treeDepth _ => treeDepth

@[simp] theorem isRoot_rootComputation (id : ComputationId) : id.rootComputation.isRoot := by
  cases id <;> rfl

theorem rootComputation_of_isRoot {id : ComputationId} (h : id.isRoot) : id.rootComputation = id := by
  cases id with
  | Root _ => rfl
  | Split => cases h

end ComputationId

/-- `ComputationPriority`. A priority without a level is null. -/
structure ComputationPriority where
  prioritySource : UInt64
  priorityLevel : Option UInt64
  treeDepth : UInt64
  splitDepth : UInt64

namespace ComputationPriority

/-- `ComputationPriority()`. -/
instance : Inhabited ComputationPriority := ⟨⟨0, none, 0, 0⟩⟩

/-- The depth of a circular priority, `numeric_limits<uint64_t>::max()`. -/
def maxDepth : UInt64 := -1

variable (p : ComputationPriority)

/-- `isCircular()`. -/
def isCircular : Bool := p.treeDepth == maxDepth

/-- `makeCircular()`. -/
def makeCircular : ComputationPriority := ⟨p.prioritySource, p.priorityLevel, maxDepth, 0⟩

/-- `priorityForDependentComputation()`: what a computation hands to those it depends on. -/
def priorityForDependentComputation : ComputationPriority :=
  if p.isCircular then p
  else if p.priorityLevel.isSome then
    ⟨p.prioritySource, p.priorityLevel, p.treeDepth + 1, 0⟩
  else p

/-- `priorityForSplitComputation(depth)`. -/
def priorityForSplitComputation (depth : ℤ) : ComputationPriority :=
  if p.isCircular then p
  else if p.priorityLevel.isSome then
    ⟨p.prioritySource, p.priorityLevel, p.treeDepth, ofInt depth⟩
  else p

/-- `isNull()`. -/
def isNull : Bool := !p.priorityLevel.isSome

/-- `operator<`: a lower source, or a lower level of one source, or a deeper one of one level. -/
def lt (inOther : ComputationPriority) : Bool :=
  if p.prioritySource < inOther.prioritySource then true
  else if p.prioritySource > inOther.prioritySource then false
  else match p.priorityLevel, inOther.priorityLevel with
    | none, some _ => true
    | none, none => false
    | some _, none => false
    | some level, some otherLevel =>
      if level < otherLevel then true
      else if level > otherLevel then false
      else if p.treeDepth > inOther.treeDepth then true
      else if p.treeDepth < inOther.treeDepth then false
      else decide (p.splitDepth > inOther.splitDepth)

/-- `isShallower(inOther)`: a lower source, or a lower level of one source, or a less deep one of
one level. -/
def isShallower (inOther : ComputationPriority) : Bool :=
  if p.prioritySource < inOther.prioritySource then true
  else if p.prioritySource > inOther.prioritySource then false
  else match p.priorityLevel, inOther.priorityLevel with
    | none, some _ => true
    | none, none => false
    | some _, none => false
    | some level, some otherLevel =>
      if level < otherLevel then true
      else if level > otherLevel then false
      else decide (p.treeDepth < inOther.treeDepth)

/-- `operator==`: neither priority is less than the other. -/
instance : BEq ComputationPriority := ⟨fun p q => !p.lt q && !q.lt p⟩

/-- The loop by which `computePriorityFor` takes the deepest of several priorities:
`if (priority.isShallower(other)) priority = other`. -/
def deepest (priority : ComputationPriority) (others : List ComputationPriority) : ComputationPriority :=
  others.foldl (fun priority other => if priority.isShallower other then other else priority) priority

/-! ## What the operators read of a priority -/

variable {p q priority : ComputationPriority}

/-- `operator==` compares everything, but the depths only where there is a level. -/
theorem beq_iff : p == q ↔ p.prioritySource = q.prioritySource ∧ p.priorityLevel = q.priorityLevel ∧
      (p.priorityLevel.isSome → p.treeDepth = q.treeDepth ∧ p.splitDepth = q.splitDepth) := by
  change (!p.lt q && !q.lt p) = true ↔ _
  unfold lt
  cases p.priorityLevel <;> cases q.priorityLevel <;> grind

theorem beq_refl (p : ComputationPriority) : p == p := beq_iff.2 ⟨rfl, rfl, fun _ => ⟨rfl, rfl⟩⟩

theorem beq_symm (h : p == q) : q == p := by
  obtain ⟨hs, hl, hd⟩ := beq_iff.1 h
  refine beq_iff.2 ⟨hs.symm, hl.symm, fun hq => ?_⟩
  obtain ⟨ht, hp⟩ := hd (hl ▸ hq)
  exact ⟨ht.symm, hp.symm⟩

theorem beq_trans {r : ComputationPriority} (h : p == q) (h' : q == r) : p == r := by
  obtain ⟨hs, hl, hd⟩ := beq_iff.1 h
  obtain ⟨hs', hl', hd'⟩ := beq_iff.1 h'
  refine beq_iff.2 ⟨hs.trans hs', hl.trans hl', fun hp => ?_⟩
  obtain ⟨ht, he⟩ := hd hp
  obtain ⟨ht', he'⟩ := hd' (hl ▸ hp)
  exact ⟨ht.trans ht', he.trans he'⟩

/-- Equal priorities are null together. -/
theorem isNull_congr (h : p == q) : p.isNull = q.isNull := by
  unfold isNull
  rw [(beq_iff.1 h).2.1]

/-- Splits of equal priorities are equal. -/
theorem priorityForSplitComputation_congr (h : p == q) (depth : ℤ) :
    p.priorityForSplitComputation depth == q.priorityForSplitComputation depth := by
  have hpq := beq_iff.1 h
  obtain ⟨hs, hl, hd⟩ := hpq
  cases hp : p.priorityLevel with
  | none =>
    have hq : q.priorityLevel = none := hl ▸ hp
    have hsame : ∀ r : ComputationPriority, r.priorityLevel = none → r.priorityForSplitComputation depth = r := by
      intro r hr
      simp [priorityForSplitComputation, hr]
    rwa [hsame p hp, hsame q hq]
  | some level =>
    obtain ⟨ht, he⟩ := hd (by rw [hp]; rfl)
    have : p = q := by
      cases p
      cases q
      simp_all
    rw [this]
    exact beq_refl _

/-- What `operator<` compares: the source, whether there is a level, the level, and the depths backwards. -/
def rank (p : ComputationPriority) : ℕ ×ₗ WithBot (ℕ ×ₗ ℕᵒᵈ ×ₗ ℕᵒᵈ) :=
  toLex (p.prioritySource.toNat, match p.priorityLevel with
    | none => ⊥
    | some level => (toLex (level.toNat, toLex (toDual p.treeDepth.toNat, toDual p.splitDepth.toNat)) :
        ℕ ×ₗ ℕᵒᵈ ×ₗ ℕᵒᵈ))

theorem lt_iff_rank : p.lt q ↔ p.rank < q.rank := by
  unfold lt rank
  cases hp : p.priorityLevel with
  | none =>
    cases hq : q.priorityLevel with
    | none =>
      simp only [toLex_lt_toLex, lt_iff_toNat_lt]
      split <;> simp_all
    | some otherLevel =>
      simp only [toLex_lt_toLex, lt_iff_toNat_lt, WithBot.bot_lt_coe]
      split <;> simp_all
      omega
  | some level =>
    cases hq : q.priorityLevel with
    | none =>
      simp only [toLex_lt_toLex, lt_iff_toNat_lt, not_lt_bot]
      split <;> simp_all
    | some otherLevel =>
      simp only [toLex_lt_toLex, lt_iff_toNat_lt, WithBot.coe_lt_coe, toDual_lt_toDual, toDual_inj]
      grind

/-! ## Null priorities -/

/-- A null priority has the source 0, as `ComputationPriority()` has, so that it is the least of
all. -/
def Tame (p : ComputationPriority) : Prop := p.isNull → p.prioritySource = 0

theorem tame_default : Tame default := fun _ => rfl

theorem Tame.makeCircular (h : p.Tame) : p.makeCircular.Tame := h

@[simp] theorem isNull_default : (default : ComputationPriority).isNull := rfl

@[simp] theorem isNull_priorityForDependentComputation (p : ComputationPriority) :
    p.priorityForDependentComputation.isNull = p.isNull := by
  unfold priorityForDependentComputation
  split
  · rfl
  · split <;> rfl

theorem Tame.priorityForDependentComputation (h : p.Tame) : p.priorityForDependentComputation.Tame := by
  intro hn
  rw [isNull_priorityForDependentComputation] at hn
  unfold ComputationPriority.priorityForDependentComputation
  split
  · exact h hn
  · split <;> exact h hn

@[simp] theorem isNull_priorityForSplitComputation (p : ComputationPriority) (depth : ℤ) :
    (p.priorityForSplitComputation depth).isNull = p.isNull := by
  unfold priorityForSplitComputation
  split
  · rfl
  · split <;> rfl

theorem Tame.priorityForSplitComputation (h : p.Tame) (depth : ℤ) : (p.priorityForSplitComputation depth).Tame := by
  intro hn
  rw [isNull_priorityForSplitComputation] at hn
  unfold ComputationPriority.priorityForSplitComputation
  split
  · exact h hn
  · split <;> exact h hn

/-- Two null priorities are equal. -/
theorem Tame.beq_of_isNull (hp : p.Tame) (hq : q.Tame) (h : p.isNull) (h' : q.isNull) : p == q := by
  have hl : ∀ r : ComputationPriority, r.isNull → r.priorityLevel = none := by
    intro r hr
    simpa [isNull] using hr
  refine beq_iff.2 ⟨(hp h).trans (hq h').symm, (hl p h).trans (hl q h').symm, fun hs => ?_⟩
  rw [hl p h] at hs
  cases hs

/-- A null priority is shallower than exactly the priorities that are not null. -/
theorem Tame.isShallower_of_isNull (hp : p.Tame) (hq : q.Tame) (h : p.isNull) : p.isShallower q = !q.isNull := by
  unfold Tame isNull at *
  unfold isShallower
  cases hl : p.priorityLevel <;> cases hl' : q.priorityLevel <;> grind

/-- No priority is shallower than a null one. -/
theorem Tame.isShallower_isNull (hq : q.Tame) (h : q.isNull) : p.isShallower q = false := by
  have hs := hq h
  unfold isNull at *
  unfold isShallower
  cases hl : p.priorityLevel <;> cases hl' : q.priorityLevel <;> grind

/-- The deepest of several priorities is null exactly when all of them are. -/
theorem deepest_spec {others : List ComputationPriority} (hp : priority.Tame) (ho : ∀ other ∈ others, other.Tame) :
    (deepest priority others).Tame ∧
      ((deepest priority others).isNull ↔ priority.isNull ∧ ∀ other ∈ others, other.isNull) := by
  induction others generalizing priority with
  | nil => exact ⟨hp, by simp [deepest]⟩
  | cons other others ih =>
    have hother := ho other mem_cons_self
    have hrest := fun o ho' => ho o (mem_cons_of_mem _ ho')
    have hcons : deepest priority (other :: others) =
        deepest (if priority.isShallower other then other else priority) others := rfl
    rw [hcons, forall_mem_cons]
    cases hn : other.isNull with
    | true =>
      rw [hother.isShallower_isNull hn]
      simpa using ih hp hrest
    | false =>
      have hnull : ¬ (if priority.isShallower other then other else priority).isNull := by
        cases hpn : priority.isNull with
        | true => simp [hp.isShallower_of_isNull hother hpn, hn]
        | false => split <;> simp [hn, hpn]
      have htame : (if priority.isShallower other then other else priority).Tame := by
        split
        exacts [hother, hp]
      obtain ⟨ht, hiff⟩ := ih htame hrest
      exact ⟨ht, by simp [hiff, hnull]⟩

/-- The same for what several computations hand to one. -/
theorem deepest_map_spec {ι : Type*} (hp : priority.Tame)
    (l : List ι) (f : ι → ComputationPriority) (hf : ∀ i ∈ l, (f i).Tame) :
    (deepest priority (l.map fun i => (f i).priorityForDependentComputation)).Tame ∧
      ((deepest priority (l.map fun i => (f i).priorityForDependentComputation)).isNull ↔
        priority.isNull ∧ ∀ i ∈ l, (f i).isNull) := by
  have htame : ∀ other ∈ l.map fun i => (f i).priorityForDependentComputation, other.Tame := by
    intro other ho
    obtain ⟨i, hi, rfl⟩ := mem_map.1 ho
    exact (hf i hi).priorityForDependentComputation
  simpa using deepest_spec hp htame

end ComputationPriority

end Cumulus
