/-
The index ranges of the workers.

Start and end of a range are cut off separately.  The ranges of two threads never
overlap and stay below the number of keys, so a key index belongs to one worker at most.
They leave no index out exactly when the number of threads divides the number of keys.
-/
import ReplicatedStore.RunCluster

namespace ReplicatedStore
namespace RunCluster

open Lib

/-! ## Arithmetic -/

theorem int_eq_floor {x : ℚ} (hx : 0 ≤ x) : int x = ⌊x⌋ := by
  rw [int, Rat.floor_def', Int.tdiv_eq_ediv_of_nonneg (Rat.num_nonneg.mpr hx)]

theorem int_div (m d : ℕ) : int ((m : ℚ) / d) = ((m / d : ℕ) : ℤ) := by
  rw [int_eq_floor (by positivity), Rat.floor_natCast_div_natCast]
  rfl

theorem startIdx_eq (w : Worker) :
    w.startIdx = ((w.data.keys.length * w.threadId / w.args.numThreads : ℕ) : ℤ) := by
  rw [Worker.startIdx, div_mul_eq_mul_div, ← Nat.cast_mul, int_div]

theorem endIdx_eq (w : Worker) :
    w.endIdx = ((w.data.keys.length * w.threadId / w.args.numThreads +
      w.data.keys.length / w.args.numThreads : ℕ) : ℤ) := by
  rw [Worker.endIdx, startIdx_eq, int_div, Nat.cast_add]

/-- A range ends before the next one starts. -/
theorem end_le_start (n T : ℕ) {t t' : ℕ} (h : t < t') : n * t / T + n / T ≤ n * t' / T :=
  calc n * t / T + n / T ≤ (n * t + n) / T := Nat.div_add_div_le_add_div
    _ = n * (t + 1) / T := by rw [Nat.mul_succ]
    _ ≤ n * t' / T := Nat.div_le_div_right (Nat.mul_le_mul_left n h)

theorem end_le_length (n : ℕ) {T t : ℕ} (h : t < T) : n * t / T + n / T ≤ n :=
  calc n * t / T + n / T ≤ n * T / T := end_le_start n T h
    _ = n := Nat.mul_div_cancel n (Nat.zero_lt_of_lt h)

/-- The last index is in a range only if the ranges have no remainder. -/
theorem dvd_of_covers {n T : ℕ}
    (h : ∀ j < n, ∃ t < T, n * t / T ≤ j ∧ j < n * t / T + n / T) : T ∣ n := by
  rcases Nat.eq_zero_or_pos n with rfl | hn
  · exact Nat.dvd_zero T
  · obtain ⟨t, ht, -, hlt⟩ := h (n - 1) (by omega)
    have hle : n ≤ n * t / T + n / T := by omega
    have hstart : T * (n * t / T) ≤ n * t := Nat.mul_div_le _ _
    have hrem : T * (n / T) + n % T = n := Nat.div_add_mod n T
    have hmul : T * n ≤ T * (n * t / T) + T * (n / T) := by
      rw [← Nat.mul_add]
      exact Nat.mul_le_mul_left T hle
    have hnt : n * t + n ≤ T * n := by
      rw [← Nat.mul_succ, Nat.mul_comm T]
      exact Nat.mul_le_mul_left n ht
    exact Nat.dvd_of_mod_eq_zero (by omega)

theorem covers_of_dvd {n T : ℕ} (hT : 1 ≤ T) (h : T ∣ n) {j : ℕ} (hj : j < n) :
    ∃ t < T, n * t / T ≤ j ∧ j < n * t / T + n / T := by
  obtain ⟨q, rfl⟩ := h
  have hq : 0 < q := Nat.pos_of_mul_pos_left (Nat.zero_lt_of_lt hj)
  have hstart : ∀ t, T * q * t / T = q * t := fun t => by
    rw [Nat.mul_assoc, Nat.mul_div_cancel_left _ hT]
  refine ⟨j / q, Nat.div_lt_of_lt_mul (by rwa [Nat.mul_comm]), ?_, ?_⟩
  · rw [hstart]
    exact Nat.mul_div_le j q
  · rw [hstart, Nat.mul_div_cancel_left _ hT]
    exact Nat.lt_mul_div_succ j hq

/-! ## Indices of a worker -/

/-- The worker goes through this index. -/
def Worker.Owns (w : Worker) (idx : ℤ) : Prop := w.startIdx ≤ idx ∧ idx < w.endIdx

theorem Worker.startIdx_nonneg (w : Worker) : 0 ≤ w.startIdx := by
  rw [startIdx_eq]
  exact Int.natCast_nonneg _

theorem Worker.startIdx_le_endIdx (w : Worker) : w.startIdx ≤ w.endIdx := by
  rw [startIdx_eq, endIdx_eq]
  exact Int.ofNat_le.mpr (Nat.le_add_right _ _)

theorem Worker.Owns.nonneg {w : Worker} {idx : ℤ} (h : w.Owns idx) : 0 ≤ idx :=
  w.startIdx_nonneg.trans h.1

theorem Worker.Owns.lt_length {w : Worker} {idx : ℤ} (h : w.Owns idx)
    (ht : w.threadId < w.args.numThreads) : idx < w.data.keys.length := by
  have hend := h.2
  rw [endIdx_eq] at hend
  exact hend.trans_le (Int.ofNat_le.mpr (end_le_length _ ht))

/-- Two workers share no index. -/
theorem Worker.Owns.unique {w u : Worker} {idx : ℤ} (hd : w.data = u.data)
    (ha : w.args = u.args) (h : w.Owns idx) (h' : u.Owns idx) : w.threadId = u.threadId := by
  obtain ⟨hs, he⟩ := h
  obtain ⟨hs', he'⟩ := h'
  rw [startIdx_eq] at hs hs'
  rw [endIdx_eq] at he he'
  rw [hd, ha] at hs he
  rcases Nat.lt_trichotomy w.threadId u.threadId with hlt | heq | hlt
  · have hle := end_le_start u.data.keys.length u.args.numThreads hlt
    omega
  · exact heq
  · have hle := end_le_start u.data.keys.length u.args.numThreads hlt
    omega

/-! ## Lists -/

theorem length_range (start stop : ℤ) : (range start stop).length = (stop - start).toNat := by
  simp [range]

theorem nodup_range (start stop : ℤ) : (range start stop).Nodup := by
  refine List.Nodup.map (fun i j h => ?_) List.nodup_range
  simpa using h

theorem item_of_lt {α : Type} {l : List α} {idx : ℤ} (h0 : 0 ≤ idx) (h : idx < l.length) :
    ∃ x, item l idx = some x := by
  rw [item, if_pos h0]
  exact ⟨_, List.getElem?_eq_getElem (by omega)⟩

/-- A list with an item for each key has one at every index of a worker. -/
theorem Worker.Owns.exists_item {α : Type} {w : Worker} {idx : ℤ} (h : w.Owns idx)
    (ht : w.threadId < w.args.numThreads) {l : List α} (hl : l.length = w.data.keys.length) :
    ∃ x, item l idx = some x := by
  refine item_of_lt h.nonneg ?_
  rw [hl]
  exact h.lt_length ht

theorem item_mem {α : Type} {xs : List α} {idx : ℤ} {x : α} (h0 : 0 ≤ idx)
    (h : item xs idx = some x) : x ∈ xs := by
  rw [item, if_pos h0] at h
  exact List.mem_of_getElem? h

theorem item_inj {α : Type} {xs : List α} (hxs : xs.Nodup) {i j : ℤ} {x : α} (hi : 0 ≤ i)
    (hj : 0 ≤ j) (hx : item xs i = some x) (hy : item xs j = some x) : i = j := by
  rw [item, if_pos hi] at hx
  rw [item, if_pos hj] at hy
  obtain ⟨hlt, -⟩ := List.getElem?_eq_some_iff.mp hx
  have hij := (List.getElem?_inj hlt hxs).mp (hx.trans hy.symm)
  omega

/-- The lists are those that `testKVS` makes, in some order. -/
structure DataSet.Shuffled (args : Args) (d : DataSet) : Prop where
  keys : d.keys.Perm (range 0 args.numKeys)
  loadVals : d.loadVals.Perm (range 0 args.numKeys)
  runVals : d.runVals.Perm (range args.numKeys (args.numKeys * 2))

namespace DataSet.Shuffled

variable {args : Args} {d : DataSet}

theorem length_keys (h : d.Shuffled args) : d.keys.length = args.numKeys.toNat := by
  rw [h.keys.length_eq, length_range, Int.sub_zero]

theorem length_loadVals (h : d.Shuffled args) : d.loadVals.length = d.keys.length := by
  rw [h.loadVals.length_eq, length_range, Int.sub_zero, h.length_keys]

theorem length_runVals (h : d.Shuffled args) : d.runVals.length = d.keys.length := by
  rw [h.runVals.length_eq, length_range, h.length_keys]
  omega

theorem nodup (h : d.Shuffled args) : d.keys.Nodup := h.keys.nodup_iff.mpr (nodup_range _ _)

end DataSet.Shuffled

end RunCluster
end ReplicatedStore
