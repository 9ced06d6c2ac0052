import Mathlib.Data.Set.Card
import Mathlib.Logic.Function.Basic

/-!
# Finite maps listed by their values

A map from keys to values, where a value has its key in it. A list of values with different keys
lists a map when the map has exactly these values, each under its key.
-/

namespace UtSystems.Lib.KeyedMap

set_option autoImplicit false

variable {Key Value : Type*} {key : Value → Key} {map : Key → Option Value} {values : List Value}
  {value : Value}

structure Lists (key : Value → Key) (map : Key → Option Value) (values : List Value) : Prop where
  distinct : (values.map key).Nodup
  lookup : ∀ k v, map k = some v ↔ v ∈ values ∧ key v = k

/-- The keys that have a value. -/
def domain (map : Key → Option Value) : Set Key := {k | map k ≠ none}

end UtSystems.Lib.KeyedMap
