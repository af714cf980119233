/-
Finite maps: inserting what is there already, and maps with the same bindings.
-/
import Mathlib.Data.Finmap

namespace ReplicatedStore
namespace Lib

variable {α : Type*} {β : α → Type*} [DecidableEq α]

theorem insert_of_lookup {s : Finmap β} {k : α} {x : β k} (h : s.lookup k = some x) :
    s.insert k x = s := by
  refine Finmap.ext_lookup fun k' => ?_
  by_cases hk : k' = k
  · subst hk; simp [h]
  · simp [hk]

theorem keys_insert (s : Finmap β) (k : α) (x : β k) : (s.insert k x).keys = insert k s.keys := by
  ext k'
  rw [Finmap.mem_keys, Finmap.mem_insert, Finset.mem_insert, Finmap.mem_keys]

theorem eq_empty_of_keys {s : Finmap β} (h : s.keys = ∅) : s = ∅ := by
  refine Finmap.ext_lookup fun k => ?_
  rw [Finmap.lookup_empty, Finmap.lookup_eq_none, ← Finmap.mem_keys, h]
  exact Finset.notMem_empty k

end Lib
end ReplicatedStore
