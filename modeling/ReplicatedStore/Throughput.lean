/-
How `runWorkload` ends when it measures the throughput.

A pass over the index range issues a request for each index, and the passes go on until
enough requests were issued.  The range is empty if there are fewer keys than threads.
Then no pass issues a request, and the loop around them never ends.
-/
import ReplicatedStore.Lib.Termination
import ReplicatedStore.Replies

namespace ReplicatedStore
namespace RunCluster

open Lib

theorem length_optypes (r : ℤ) : (optypes r).length = 100 := by
  rw [optypes, List.length_map, length_range]
  rfl

namespace Worker

variable {w : Worker} {p p' : Point} {a : Act} {tr : List (Point × Act)}

/-! ## The range and the number of requests -/

theorem range_nonempty_iff (hd : w.data.Shuffled w.args) (ht : w.threadId < w.args.numThreads) :
    w.startIdx < w.endIdx ↔ (w.args.numThreads : ℤ) ≤ w.args.numKeys := by
  have hT : 0 < w.args.numThreads := Nat.zero_lt_of_lt ht
  have hlen := hd.length_keys
  have hdiv : 0 < w.data.keys.length / w.args.numThreads ↔
      w.args.numThreads ≤ w.data.keys.length := Nat.div_pos_iff.trans (and_iff_right hT)
  rw [startIdx_eq, endIdx_eq]
  omega

theorem numRequests_eq (hn : 0 ≤ w.args.numRequests) :
    w.numRequests = ((w.args.numRequests.toNat / w.args.numThreads : ℕ) : ℤ) := by
  obtain ⟨m, hm⟩ := Int.eq_ofNat_of_zero_le hn
  rw [numRequests, hm, Int.cast_natCast, int_div, Int.toNat_natCast]

theorem numRequests_pos_iff (hn : 0 ≤ w.args.numRequests)
    (ht : w.threadId < w.args.numThreads) :
    0 < w.numRequests ↔ (w.args.numThreads : ℤ) ≤ w.args.numRequests := by
  have hT : 0 < w.args.numThreads := Nat.zero_lt_of_lt ht
  have hdiv : 0 < w.args.numRequests.toNat / w.args.numThreads ↔
      w.args.numThreads ≤ w.args.numRequests.toNat := Nat.div_pos_iff.trans (and_iff_right hT)
  rw [numRequests_eq hn]
  omega

/-! ## Requests -/

/-- The clients succeed, and a get returns the pair that the worker waits for. -/
def Expected (w : Worker) (p : Point) : Act → Prop
  | .reply r => ∀ k v, w.awaits p = some (k, v) → r = pairText k v
  | .fails => p.call = none
  | _ => True

/-- The step leads to a call. -/
def Issues (w : Worker) (e : Point × Act) : Bool := ((w.step e.1 e.2).bind Point.call).isSome

/-- The number of requests issued so far. -/
def issued (w : Worker) (tr : List (Point × Act)) : ℕ := tr.countP w.Issues

theorem issued_snoc (hs : w.step p a = some p') : w.issued (tr ++ [(p, a)]) =
    w.issued tr + if p'.call.isSome then 1 else 0 := by
  rw [issued, List.countP_append, List.countP_singleton, Issues, hs, Option.bind_some]
  split <;> simp [issued]

/-- The worker has returned after its share of the requests. -/
def Served (w : Worker) (tr : List (Point × Act)) (p : Point) : Prop :=
  p = .ended .returned ∧ (w.issued tr : ℤ) = w.numRequests

/-- Where a worker that counts its requests right is after `c` of them. -/
def After (w : Worker) (c : ℕ) : Point → Prop
  | .shuffle => c = 0 ∧ 0 ≤ w.numRequests
  | .outer _ n | .inner _ n _ => c = n ∧ n ≤ w.numRequests
  | .runPut _ n _ _ _ | .runGet _ n _ _ => c = n + 1 ∧ n < w.numRequests
  | .ended e => e = .returned ∧ c = w.numRequests
  | _ => False

theorem after_step {c : ℕ} (h : w.After c p) (hs : w.Sound p) (hd : w.data.Shuffled w.args)
    (ht : w.threadId < w.args.numThreads) (hok : w.Expected p a) (hstep : w.step p a = some p') :
    w.After (c + if p'.call.isSome then 1 else 0) p' := by
  cases move_of_step hstep with
  | shuffled hops => exact ⟨by simpa [Point.call] using h.1, h.2⟩
  | pass hn => exact ⟨by simpa [Point.call] using h.1, h.2⟩
  | passesEnd hn =>
    obtain ⟨hc, hle⟩ := h
    exact ⟨rfl, hc.trans (le_antisymm hle hn)⟩
  | passEnds => exact ⟨by simpa [Point.call] using h.1, h.2⟩
  | issueRunPut hidx hn => exact ⟨by simp [Point.call, h.1], lt_of_le_of_ne h.2 hn⟩
  | issueRunGet hidx hn => exact ⟨by simp [Point.call, h.1], lt_of_le_of_ne h.2 hn⟩
  | @passRaises ops n idx hidx hdata =>
    -- The lists are long enough for every index of the range.
    have howns : w.Owns idx := ⟨hs.2, hidx⟩
    obtain ⟨k, hk⟩ := howns.exists_item ht (l := w.data.keys) rfl
    obtain ⟨v, hv⟩ := howns.exists_item ht hd.length_runVals
    have hlen : idx % 100 < ops.length := by
      rw [hs.1.length_eq, length_optypes]
      omega
    obtain ⟨op, hop⟩ := item_of_lt (Int.emod_nonneg idx (by decide)) hlen
    simp [hk, hv, hop] at hdata
  | unknown hop hput hget =>
    rcases known_of_item hs.1 hop with rfl | rfl
    · exact absurd rfl hput
    · exact absurd rfl hget
  | runPutDone => exact ⟨by simpa [Point.call] using h.1, h.2⟩
  | @checkRunGet ops n idx k v r p' hv hp =>
    have hr : r = pairText k v := hok k v (by rw [awaits, hv]; rfl)
    subst hp hr
    rw [check_expected]
    exact ⟨by simpa [Point.call, Check.point] using h.1, h.2⟩
  | @checkRaises ops n idx k r hv =>
    obtain ⟨v, hv'⟩ := hs.2.1.exists_item ht hd.length_loadVals
    cases hv.symm.trans hv'
  | callFails hc => cases hc.symm.trans hok
  | _ => exact h.elim

theorem after_of_run (hd : w.data.Shuffled w.args) (ht : w.threadId < w.args.numThreads)
    (hn : 0 ≤ w.args.numRequests) (hm : w.args.testConsistency = 0)
    (h : Run w.step w.Expected w.runWorkload tr p) : w.After (w.issued tr) p := by
  refine h.invariant (I := fun tr p => w.After (w.issued tr) p) ?_ ?_
  · have hpos : 0 ≤ w.numRequests := by
      rw [numRequests_eq hn]
      exact Int.natCast_nonneg _
    rw [runWorkload, if_neg (by simp [hm])]
    exact ⟨rfl, hpos⟩
  · intro tr p a p' hrun hok hs ih
    rw [issued_snoc hs]
    exact after_step ih (sound_of_run hrun) hd ht hok hs

/-- With the expected replies a worker can go on until it has ended. -/
theorem served_of_stuck (h : w.After (w.issued tr) p) (hs : w.Sound p)
    (hd : w.data.Shuffled w.args) (ht : w.threadId < w.args.numThreads)
    (hstuck : Stuck w.step w.Expected p) : w.Served tr p := by
  cases p with
  | shuffle =>
    have hnone := hstuck (.order (optypes w.args.putRatio)) trivial
    simp [step] at hnone
  | outer ops n =>
    have hnone := hstuck .step trivial
    rw [step] at hnone
    split at hnone <;> cases hnone
  | inner ops n idx => cases hstuck .step trivial
  | runPut ops n idx k v => cases hstuck (.reply "") fun _ _ he => by cases he
  | runGet ops n idx k =>
    obtain ⟨v, hv⟩ := hs.2.1.exists_item ht hd.length_loadVals
    have hnone := hstuck (.reply (pairText k v)) fun k' v' he => by
      rw [awaits, hv] at he
      obtain ⟨rfl, rfl⟩ := Prod.mk.inj (Option.some.inj he)
      rfl
    simp [step, hv] at hnone
  | ended e =>
    obtain ⟨rfl, hc⟩ := h
    exact ⟨rfl, hc⟩
  | _ => exact h.elim

/-! ## The passes -/

/-- A bound on the steps to the end.  A pass that issues no request has to end before the
next one does. -/
def toGo (w : Worker) : Point → ℕ
  | .shuffle => 4 * w.numRequests.toNat + 3
  | .outer _ n => 4 * (w.numRequests - n).toNat + 2
  | .inner _ n idx =>
    if idx < w.endIdx ∧ n ≠ w.numRequests then 4 * (w.numRequests - n).toNat + 1
    else 4 * (w.numRequests - n).toNat + 3
  | .runPut _ n _ _ _ | .runGet _ n _ _ => 4 * (w.numRequests - n).toNat
  | _ => 0

theorem toGo_inner_le (ops : List String) (n idx : ℤ) :
    w.toGo (.inner ops n idx) ≤ 4 * (w.numRequests - n).toNat + 3 := by
  simp only [toGo]
  split <;> omega

theorem toGo_inner_pos (ops : List String) (n idx : ℤ) : 0 < w.toGo (.inner ops n idx) := by
  simp only [toGo]
  split <;> omega

theorem toGo_check_le (c : Check) (next : Point) : w.toGo (c.point next) ≤ w.toGo next := by
  cases c with
  | passes => exact le_rfl
  | prints line => exact Nat.zero_le _
  | raises => exact Nat.zero_le _

/-- If there are indices to go through, or no requests to issue, every step leads nearer to
the end. -/
theorem toGo_lt {c : ℕ} (h : w.After c p) (hr : 0 < w.numRequests → w.startIdx < w.endIdx)
    (hstep : w.step p a = some p') : w.toGo p' < w.toGo p := by
  cases move_of_step hstep with
  | shuffled hops =>
    simp only [toGo]
    omega
  | @pass ops n hn =>
    have hrange := hr (lt_of_le_of_lt (h.1 ▸ Int.natCast_nonneg c) hn)
    simp only [toGo, if_pos (And.intro hrange hn.ne)]
    omega
  | passesEnd hn => exact Nat.succ_pos _
  | @passEnds ops n idx hend =>
    have hnot : ¬ (idx < w.endIdx ∧ n ≠ w.numRequests) := by omega
    simp only [toGo, if_neg hnot]
    omega
  | issueRunPut hidx hn => simp [toGo, hidx, hn]
  | issueRunGet hidx hn => simp [toGo, hidx, hn]
  | passRaises => exact toGo_inner_pos _ _ _
  | unknown => exact toGo_inner_pos _ _ _
  | @runPutDone ops n idx k v r =>
    have hle := w.toGo_inner_le ops (n + 1) (idx + 1)
    have hlt := h.2
    simp only [toGo] at hle ⊢
    omega
  | @checkRunGet ops n idx k v r p' hv hp =>
    have hle := w.toGo_inner_le ops (n + 1) (idx + 1)
    have hcheck := w.toGo_check_le (check k v r) (.inner ops (n + 1) (idx + 1))
    have hlt := h.2
    subst hp
    simp only [toGo] at hle hcheck ⊢
    omega
  | @checkRaises ops n idx k r hv =>
    have hlt := h.2
    simp only [toGo]
    omega
  | @callFails p c hc =>
    cases p with
    | runPut ops n idx k v | runGet ops n idx k =>
      have hlt := h.2
      simp only [toGo]
      omega
    | _ => first | exact h.elim | cases hc
  | _ => exact h.elim

/-- A pass over the empty range is a loop. -/
theorem spins (ops : List String) {n : ℤ} (hn : n < w.numRequests) (he : w.endIdx ≤ w.startIdx) :
    Run w.step w.Expected (.outer ops n)
      [(.outer ops n, .step), (.inner ops n w.startIdx, .step)] (.outer ops n) := by
  have hpass : w.step (.outer ops n) .step = some (.inner ops n w.startIdx) := by
    rw [step, if_pos hn]
  have hback : w.step (.inner ops n w.startIdx) .step = some (.outer ops n) := by
    rw [step, innerStep, if_neg (by omega)]
  exact Run.cons trivial hpass (Run.cons trivial hback .nil)

/-- With requests to issue and no index to issue them for, the passes never end. -/
theorem not_terminates_of_empty (hm : w.args.testConsistency = 0) (hn : 0 < w.numRequests)
    (he : w.endIdx ≤ w.startIdx) :
    ¬ Terminates w.step w.Expected w.runWorkload w.Served := by
  have hstart : w.runWorkload = .shuffle := if_neg (by simp [hm])
  have hshuffle : w.step .shuffle (.order (optypes w.args.putRatio)) =
      some (.outer (optypes w.args.putRatio) 0) := if_pos (List.Perm.refl _)
  have hok : w.Expected .shuffle (.order (optypes w.args.putRatio)) := trivial
  rw [hstart]
  exact not_terminates_of_loop (Run.cons hok hshuffle .nil) (spins _ hn he)
    (List.cons_ne_nil _ _)

theorem call_of_empty {c : ℕ} (h : w.After c p) (hs : w.Sound p) (he : w.endIdx ≤ w.startIdx) :
    p.call = none := by
  cases p with
  | runPut ops n idx k v => exact absurd (hs.2.1.1.trans_lt hs.2.1.2) (not_lt.mpr he)
  | runGet ops n idx k => exact absurd (hs.2.1.1.trans_lt hs.2.1.2) (not_lt.mpr he)
  | shuffle | outer ops n | inner ops n idx | ended e => rfl
  | _ => exact h.elim

/-- In no run is a request issued, and none ends. -/
theorem never_ends_of_empty (hd : w.data.Shuffled w.args) (ht : w.threadId < w.args.numThreads)
    (hn : 0 ≤ w.args.numRequests) (hm : w.args.testConsistency = 0) (hpos : 0 < w.numRequests)
    (he : w.endIdx ≤ w.startIdx) (h : Run w.step w.Expected w.runWorkload tr p) :
    w.issued tr = 0 ∧ p.ending = none := by
  have hissued : w.issued tr = 0 := by
    refine h.invariant (I := fun tr _ => w.issued tr = 0) rfl ?_
    intro tr p a p' hrun hok hs ih
    have hafter := after_of_run hd ht hn hm (hrun.snoc hok hs)
    have hcall := call_of_empty hafter (sound_of_run (hrun.snoc hok hs)) he
    rw [issued_snoc hs, ih, hcall]
    rfl
  have hafter := after_of_run hd ht hn hm h
  refine ⟨hissued, ?_⟩
  cases p with
  | ended e =>
    have hc := hafter.2
    rw [hissued] at hc
    exact absurd hc hpos.ne
  | _ => rfl

/-- The run phase of a worker ends after its share of the requests if and only if there is no
request for it or no thread without a key. -/
theorem runWorkload_terminates_iff (hd : w.data.Shuffled w.args)
    (ht : w.threadId < w.args.numThreads) (hn : 0 ≤ w.args.numRequests)
    (hm : w.args.testConsistency = 0) :
    Terminates w.step w.Expected w.runWorkload w.Served ↔
      w.args.numRequests < w.args.numThreads ∨ (w.args.numThreads : ℤ) ≤ w.args.numKeys := by
  have hpos := numRequests_pos_iff hn ht
  have hrange := range_nonempty_iff hd ht
  constructor
  · intro hterm
    by_contra hcond
    push Not at hcond
    exact not_terminates_of_empty hm (hpos.mpr hcond.1)
      (not_lt.mp fun hlt => absurd (hrange.mp hlt) (not_le.mpr hcond.2)) hterm
  · intro hcond
    have hr : 0 < w.numRequests → w.startIdx < w.endIdx := fun h =>
      hrange.mpr (hcond.resolve_left (not_lt.mpr (hpos.mp h)))
    refine .of_measure (I := fun tr p => w.After (w.issued tr) p ∧ w.Sound p) (m := w.toGo)
      (fun tr p h => ⟨after_of_run hd ht hn hm h, sound_of_run h⟩) ?_ ?_
    · intro tr p a p' hI hok hs
      exact toGo_lt hI.1 hr hs
    · intro tr p hI hstuck
      exact served_of_stuck hI.1 hI.2 hd ht hstuck

/-- One worker of two, over these keys. -/
def oneOfTwo (keys : List ℤ) : Worker where
  threadId := 0
  data :=
    { keys := keys, loadVals := range 0 keys.length,
      runVals := range keys.length (keys.length * 2) }
  args :=
    { numKeys := keys.length, numThreads := 2, numRequests := 2, putRatio := 50,
      testConsistency := 0, crashServer := 0, addServer := 0, removeServer := 0 }

theorem runWorkload_terminates_twoKeys :
    Terminates (oneOfTwo [0, 1]).step (oneOfTwo [0, 1]).Expected (oneOfTwo [0, 1]).runWorkload
      (oneOfTwo [0, 1]).Served :=
  (runWorkload_terminates_iff (by constructor <;> decide) (by decide) (by decide) rfl).mpr
    (.inr (by decide))

/-- With a single key for two threads, the first of them goes round and round. -/
theorem oneKey_spins : (oneOfTwo [0]).data.Shuffled (oneOfTwo [0]).args ∧
    (oneOfTwo [0]).numRequests = 1 ∧
    (∀ tr p, Run (oneOfTwo [0]).step (oneOfTwo [0]).Expected (oneOfTwo [0]).runWorkload tr p →
      (oneOfTwo [0]).issued tr = 0 ∧ p.ending = none) ∧
    ¬ Terminates (oneOfTwo [0]).step (oneOfTwo [0]).Expected (oneOfTwo [0]).runWorkload
      (oneOfTwo [0]).Served := by
  have hd : (oneOfTwo [0]).data.Shuffled (oneOfTwo [0]).args := by constructor <;> decide
  have hpos : 0 < (oneOfTwo [0]).numRequests := by decide +kernel
  have he : (oneOfTwo [0]).endIdx ≤ (oneOfTwo [0]).startIdx := by decide +kernel
  exact ⟨hd, by decide +kernel,
    fun tr p => never_ends_of_empty hd (by decide) (by decide) rfl hpos he,
    not_terminates_of_empty rfl hpos he⟩

end Worker

end RunCluster
end ReplicatedStore
