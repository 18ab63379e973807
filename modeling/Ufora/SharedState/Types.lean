import Ufora.Lib.Ordered
import Mathlib.Data.Prod.Lex

/-!
# The values and events of the shared state

`distributed/SharedState/Types.hppml` and `KeyState.hppml`: keyspaces, keys, and the events by which
clients update them. Names and values are JSON values, of which the code uses the order, so their
type is a parameter `Json` with one. Of an event's signature the code reads the id.
-/

open Ordered LinearOrder

namespace SharedState

/-- `UniqueId`: the number of an event and the client it is from. -/
structure UniqueId where
  eventId : ℕ
  clientId : ℕ

namespace UniqueId

/-- The pair that `operator<` compares. -/
def fields (i : UniqueId) : ℕ ×ₗ ℕ := toLex (i.eventId, i.clientId)

theorem fields_injective : Function.Injective fields := by
  rintro ⟨a, b⟩ ⟨a', b'⟩ h
  cases h
  rfl

instance : LinearOrder UniqueId := lift' fields fields_injective

end UniqueId

/-- The registered key types. `KeyTypeFactory::getTypeFor` asserts that the type string of a
keyspace names one of them. -/
inductive KeyType where
  | comparisonKeyType
  | takeHighestIdKeyType

namespace KeyType

/-- The type strings in their order. -/
def rank : KeyType → ℕ
  | comparisonKeyType => 0
  | takeHighestIdKeyType => 1

theorem rank_injective : Function.Injective rank := by
  intro t t' h
  cases t <;> cases t' <;> first | rfl | cases h

instance : LinearOrder KeyType := lift' rank rank_injective

end KeyType

variable {Json : Type} [LinearOrder Json]

variable (Json) in
/-- `Keyspace`: its type, its name and the number of its dimensions. -/
structure Keyspace where
  type : KeyType
  name : Json
  dimension : ℕ

variable (Json) in
/-- `Key`: one name for each dimension of its keyspace. -/
structure Key where
  keyspace : Keyspace Json
  id : List Json
  size_eq : id.length = keyspace.dimension

namespace Key

/-- The tuple that `operator<` compares. -/
def fields (k : Key Json) : KeyType ×ₗ Json ×ₗ ℕ ×ₗ List Json :=
  toLex (k.keyspace.type, toLex (k.keyspace.name, toLex (k.keyspace.dimension, k.id)))

omit [LinearOrder Json] in
theorem fields_injective : Function.Injective (fields : Key Json → _) := by
  rintro ⟨⟨t, n, d⟩, i, h⟩ ⟨⟨t', n', d'⟩, i', h'⟩ he
  cases he
  rfl

instance : LinearOrder (Key Json) := lift' fields fields_injective

/-- `operator[](ix)`: the name in one dimension, where the keyspace has it. -/
def atDimension (k : Key Json) (ix : ℕ) : Option Json := k.id[ix]?

end Key

variable (Json) in
/-- `ValueType`: a value, which may be null, and the event it is from. -/
structure ValueType where
  value : Option Json
  id : UniqueId

variable (Json) in
/-- `KeyUpdate`: the new value of a key, which may be null. -/
structure KeyUpdate where
  key : Key Json
  update : Option Json

variable (Json) in
/-- `PartialEvent`: the update of one key, and the id of the event it is part of. -/
structure PartialEvent where
  content : KeyUpdate Json
  id : UniqueId

variable (Json) in
/-- `KeyState`: the value that the events before `baseValueID` gave the key, and the later events. -/
structure KeyState where
  baseValue : Option (ValueType Json) := none
  baseValueID : Option UniqueId := none
  events : StdMap UniqueId (PartialEvent Json) := ∅

namespace KeyState

/-- A state that `operator[]` makes. -/
instance : Inhabited (KeyState Json) := ⟨{}⟩

/-- `wasDeleted()`. -/
def wasDeleted (s : KeyState Json) : Prop := s.events.keys = ∅ ∧ s.baseValue = none
deriving Decidable

end KeyState

variable (Json) in
/-- `LogEntry`: an event, or a new minimum id. -/
inductive LogEntry where
  | Event (event : PartialEvent Json)
  | Id (id : ℕ)

variable (Json) in
/-- The assertions that fail, with what they say. -/
inductive AssertionFailed where
  | duplicateEvent (id : UniqueId)
  | eventBeforeBase (base id : UniqueId)
  | invalidIndex (ix : ℕ) (key : Key Json)
  | alreadyLoaded
  | foreignPartial (id : UniqueId)
  | baseAfterEvents (base : UniqueId)

end SharedState
