/-
The load phase of `testKVS`.

The keys that are put are the keys of the indices the workers have reached, each of them
once.  The phase has a bounded number of steps and no worker gets stuck in it.  When all
workers have returned the indices are those in some range, so the whole data set is stored
exactly when the number of threads divides the number of keys.
-/
import Mathlib.Algebra.Order.BigOperators.Group.Finset
import ReplicatedStore.Workers

namespace ReplicatedStore
namespace RunCluster

open Lib

/-- The key of a call that puts. -/
def Call.putKey : Call → Option ℤ
  | .put k _ => some k
  | .get _ => none

namespace Driver

/-- The call that a step of a worker issues. -/
def issued (args : Args) (e : Driver × Label) : Option Call :=
  match e.2 with
  | .work t _ => (e.1.step args e.2).bind fun s => s.call t
  | _ => none

/-- The key that a step of the load phase puts. -/
def loadedKey (args : Args) (e : Driver × Label) : Option ℤ :=
  if e.1.main = .loading then (issued args e).bind Call.putKey else none

end Driver

/-! ## One worker -/

/-- The points of `loadDataset` while nothing raises. -/
def Point.Loads : Point → Prop
  | .load _ | .loadPut .. | .ended .returned => True
  | _ => False

namespace Worker

variable {w : Worker} {p p' : Point} {a : Act}

/-- The first index whose put has not been issued. -/
def reached (w : Worker) : Point → ℤ
  | .load idx => idx
  | .loadPut idx _ _ => idx + 1
  | _ => w.endIdx

theorem reached_le_endIdx (hl : p.Loads) (h : w.Sound p) : w.reached p ≤ w.endIdx := by
  cases p with
  | load idx => exact h.2
  | loadPut idx k v => exact h.1.2
  | ended e => exact le_refl _
  | _ => cases hl

/-- A step of `loadDataset` issues the put of the index it has reached, or none. -/
theorem reached_step (hl : p.Loads) (h : w.Sound p) (hd : w.data.Shuffled w.args)
    (ht : w.threadId < w.args.numThreads) (ha : a = .fails → p.call = none)
    (hs : w.step p a = some p') :
    p'.Loads ∧ ((p'.call = none ∧ w.reached p' = w.reached p) ∨
      ∃ k v, p'.call = some (.put k v) ∧ w.Owns (w.reached p) ∧
        item w.data.keys (w.reached p) = some k ∧ w.reached p' = w.reached p + 1) := by
  cases move_of_step hs with
  | @issueLoad idx k v hidx hk hv => exact ⟨trivial, .inr ⟨k, v, rfl, ⟨h.1, hidx⟩, hk, rfl⟩⟩
  | @loadRaises idx hidx hnone =>
    have howns : w.Owns idx := ⟨h.1, hidx⟩
    obtain ⟨k, hk⟩ := howns.exists_item ht (l := w.data.keys) rfl
    obtain ⟨v, hv⟩ := howns.exists_item ht hd.length_loadVals
    rcases hnone with hnone | hnone
    · exact absurd (hnone.symm.trans hk) (by simp)
    · exact absurd (hnone.symm.trans hv) (by simp)
  | loadEnds hidx => exact ⟨trivial, .inl ⟨rfl, le_antisymm hidx h.2⟩⟩
  | loaded => exact ⟨trivial, .inl ⟨rfl, rfl⟩⟩
  | callFails hc => exact absurd (ha rfl) (by simp [hc])
  | _ => cases hl

/-- A bound on the steps that a worker of the load phase has left. -/
def left (w : Worker) : Point → ℕ
  | .load idx => 2 * (w.endIdx - idx).toNat + 1
  | .loadPut idx _ _ => 2 * (w.endIdx - idx).toNat
  | _ => 0

theorem left_step_lt (hl : p.Loads) (h : w.Sound p) (hs : w.step p a = some p') (hl' : p'.Loads) :
    w.left p' < w.left p := by
  cases move_of_step hs with
  | issueLoad hidx hk hv => exact Nat.lt_succ_self _
  | loadRaises => cases hl'
  | loadEnds hidx => exact Nat.succ_pos _
  | @loaded idx k v r =>
    have hidx : idx < w.endIdx := h.1.2
    simp only [left]
    omega
  | callFails hc => cases hl'
  | _ => cases hl

theorem exists_load_step (hl : p.Loads) (hne : p.ending = none) :
    ∃ a p', a ≠ .fails ∧ w.step p a = some p' := by
  cases p with
  | load idx => exact ⟨.step, _, by simp, rfl⟩
  | loadPut idx k v => exact ⟨.reply "", _, by simp, rfl⟩
  | ended e => cases hne
  | _ => cases hl

end Worker

/-! ## The run -/

namespace Driver

variable {args : Args} {s s' : Driver} {l : Label} {tr : List (Driver × Label)}

/-- The keys of the puts of the load phase. -/
def loadedKeys (args : Args) (tr : List (Driver × Label)) : List ℤ := tr.filterMap (loadedKey args)

theorem loadedKeys_snoc (e : Driver × Label) :
    loadedKeys args (tr ++ [e]) = loadedKeys args tr ++ (loadedKey args e).toList := by
  rw [loadedKeys, List.filterMap_append]
  cases h : loadedKey args e <;> simp [loadedKeys, h]

theorem loadedKey_of_ne (h : s.main ≠ .loading) : loadedKey args (s, l) = none := if_neg h

theorem loadedKey_of_work (hm : s.main = .loading) {t : ℕ} {a : Act} {p p' : Point}
    (hp : s.points t = some p) (hs : (s.worker args t).step p a = some p') :
    loadedKey args (s, .work t a) = p'.call.bind Call.putKey := by
  rw [loadedKey, if_pos hm]
  simp [issued, step, call, hp, hs]

theorem loadedKey_of_not_work (hl : ∀ t a, l ≠ .work t a) : loadedKey args (s, l) = none := by
  rw [loadedKey]
  cases l with
  | work t a => exact absurd rfl (hl t a)
  | _ => exact ite_self _

/-- The put of this index has been issued. -/
def Reached (args : Args) (s : Driver) (idx : ℤ) : Prop :=
  ∃ t p, s.points t = some p ∧ (s.worker args t).startIdx ≤ idx ∧
    idx < (s.worker args t).reached p

/-- The index is in the range of some thread. -/
def Covered (args : Args) (s : Driver) (idx : ℤ) : Prop :=
  ∃ t < args.numThreads, (s.worker args t).Owns idx

/-- The keys are those of these indices, each once. -/
structure KeysOf (d : DataSet) (I : ℤ → Prop) (ks : List ℤ) : Prop where
  nodup : ks.Nodup
  mem_iff : ∀ k, k ∈ ks ↔ ∃ idx, I idx ∧ item d.keys idx = some k

theorem KeysOf.congr {d : DataSet} {I J : ℤ → Prop} {ks : List ℤ} (h : KeysOf d I ks)
    (hJ : ∀ idx, J idx ↔ I idx) : KeysOf d J ks :=
  ⟨h.nodup, fun k => (h.mem_iff k).trans
    (exists_congr fun idx => and_congr_left fun _ => (hJ idx).symm)⟩

/-- A new index brings a new key. -/
theorem KeysOf.snoc {d : DataSet} {I J : ℤ → Prop} {ks : List ℤ} {i k : ℤ} (h : KeysOf d I ks)
    (hd : d.keys.Nodup) (hnonneg : ∀ idx, J idx → 0 ≤ idx) (hJ : ∀ idx, J idx ↔ I idx ∨ idx = i)
    (hnew : ¬ I i) (hk : item d.keys i = some k) : KeysOf d J (ks ++ [k]) := by
  have hi : J i := (hJ i).mpr (.inr rfl)
  refine ⟨?_, fun k' => ?_⟩
  · refine List.nodup_append_comm.mp (List.nodup_cons.mpr ⟨fun hmem => ?_, h.nodup⟩)
    obtain ⟨idx, hidx, hk'⟩ := (h.mem_iff k).mp hmem
    obtain rfl := item_inj hd (hnonneg idx ((hJ idx).mpr (.inl hidx))) (hnonneg i hi) hk' hk
    exact hnew hidx
  · rw [List.mem_append, List.mem_singleton, h.mem_iff]
    constructor
    · rintro (⟨idx, hidx, hk'⟩ | rfl)
      · exact ⟨idx, (hJ idx).mpr (.inl hidx), hk'⟩
      · exact ⟨i, hi, hk⟩
    · rintro ⟨idx, hidx, hk'⟩
      rcases (hJ idx).mp hidx with hidx | rfl
      · exact .inl ⟨idx, hidx, hk'⟩
      · exact .inr (Option.some.inj (hk'.symm.trans hk))

/-- What has been put, phase by phase. -/
structure LoadInv (args : Args) (tr : List (Driver × Label)) (s : Driver) : Prop where
  before : ¬ s.Started → loadedKeys args tr = []
  loads : s.main = .loading → ∀ t p, s.points t = some p → p.Loads
  loading : s.main = .loading → KeysOf s.data (s.Reached args) (loadedKeys args tr)
  running : s.main = .running → KeysOf s.data (s.Covered args) (loadedKeys args tr)

theorem Sound.owns_of_reached (h : s.Sound args) {t : ℕ} {p : Point} {idx : ℤ}
    (hp : s.points t = some p) (hl : p.Loads) (hs : (s.worker args t).startIdx ≤ idx)
    (he : idx < (s.worker args t).reached p) : (s.worker args t).Owns idx :=
  ⟨hs, he.trans_le (Worker.reached_le_endIdx hl (h.worker t p hp))⟩

theorem reached_iff {t : ℕ} {p : Point} (hp : s.points t = some p) {idx : ℤ} :
    s.Reached args idx ↔
      ((s.worker args t).startIdx ≤ idx ∧ idx < (s.worker args t).reached p) ∨
        ∃ u q, u ≠ t ∧ s.points u = some q ∧ (s.worker args u).startIdx ≤ idx ∧
          idx < (s.worker args u).reached q := by
  constructor
  · rintro ⟨u, q, hq, hidx⟩
    by_cases hu : u = t
    · subst hu
      obtain rfl : q = p := Option.some.inj (hq.symm.trans hp)
      exact .inl hidx
    · exact .inr ⟨u, q, hu, hq, hidx⟩
  · rintro (hidx | ⟨u, q, -, hq, hidx⟩)
    · exact ⟨t, p, hp, hidx⟩
    · exact ⟨u, q, hq, hidx⟩

/-- A step of one worker changes what that worker has reached. -/
theorem reached_work_iff {t : ℕ} {p' : Point} {idx : ℤ} :
    Reached args { s with points := Function.update s.points t (some p') } idx ↔
      ((s.worker args t).startIdx ≤ idx ∧ idx < (s.worker args t).reached p') ∨
        ∃ u q, u ≠ t ∧ s.points u = some q ∧ (s.worker args u).startIdx ≤ idx ∧
          idx < (s.worker args u).reached q := by
  rw [reached_iff (t := t) (p := p') (Function.update_self ..)]
  refine or_congr Iff.rfl (exists_congr fun u => exists_congr fun q => and_congr_right fun hu => ?_)
  show Function.update s.points t (some p') u = some q ∧ _ ↔ _
  rw [Function.update_of_ne hu]
  rfl

/-- The index that a worker goes past is reached by its step. -/
theorem reached_next_iff {t : ℕ} {p p' : Point} (hp : s.points t = some p)
    (hstart : (s.worker args t).startIdx ≤ (s.worker args t).reached p)
    (hnext : (s.worker args t).reached p' = (s.worker args t).reached p + 1) {idx : ℤ} :
    Reached args { s with points := Function.update s.points t (some p') } idx ↔
      s.Reached args idx ∨ idx = (s.worker args t).reached p := by
  rw [reached_work_iff, reached_iff hp, hnext]
  constructor
  · rintro (⟨hs, hlt⟩ | hothers)
    · rcases Int.lt_or_eq_of_le (Int.le_of_lt_add_one hlt) with hlt | heq
      · exact .inl (.inl ⟨hs, hlt⟩)
      · exact .inr heq
    · exact .inl (.inr hothers)
  · rintro ((⟨hs, hlt⟩ | hothers) | rfl)
    · exact .inl ⟨hs, by omega⟩
    · exact .inr hothers
    · exact .inl ⟨hstart, by omega⟩

theorem Reached.nonneg {idx : ℤ} (h : s.Reached args idx) : 0 ≤ idx := by
  obtain ⟨u, q, -, hstart, -⟩ := h
  exact (Worker.startIdx_nonneg _).trans hstart

/-- In the load phase a worker that moves adds the key it puts to the keys. -/
theorem loadInv_work (h : s.Sound args) (hI : s.LoadInv args tr) (hm : s.main = .loading) {t : ℕ}
    {a : Act} {p p' : Point} (hp : s.points t = some p)
    (hs : (s.worker args t).step p a = some p') (ha : a = .fails → p.call = none) :
    LoadInv args (tr ++ [(s, .work t a)])
      { s with points := Function.update s.points t (some p') } := by
  have hd : s.data.Shuffled args := h.shuffled (.inl hm)
  have hl : p.Loads := hI.loads hm t p hp
  obtain ⟨hl', hcases⟩ := Worker.reached_step hl (h.worker t p hp) hd (h.lt_numThreads t p hp) ha hs
  have hkey := loadedKey_of_work hm hp hs
  have hK := hI.loading hm
  refine ⟨fun hno => absurd (.inl hm) hno, fun _ u q hq => ?_, fun _ => ?_,
    fun hr => absurd (hm.symm.trans hr) (by simp)⟩
  · rcases points_work hq with ⟨rfl, rfl⟩ | ⟨-, hq⟩
    · exact hl'
    · exact hI.loads hm u q hq
  · rw [loadedKeys_snoc, hkey]
    rcases hcases with ⟨hcall, hsame⟩ | ⟨k, v, hcall, howns, hk, hnext⟩
    · rw [hcall, Option.bind_none, Option.toList_none, List.append_nil]
      refine hK.congr fun idx => ?_
      rw [reached_work_iff, reached_iff hp, hsame]
    · have hnew : ¬ s.Reached args ((s.worker args t).reached p) := by
        rintro ⟨u, q, hq, hstart, hlt⟩
        have howns' := h.owns_of_reached hq (hI.loads hm u q hq) hstart hlt
        obtain rfl : t = u := Worker.Owns.unique (w := s.worker args t) (u := s.worker args u)
          rfl rfl howns howns'
        obtain rfl : q = p := Option.some.inj (hq.symm.trans hp)
        exact lt_irrefl _ hlt
      rw [hcall]
      exact hK.snoc hd.nodup (fun _ => Reached.nonneg)
        (fun _ => reached_next_iff hp howns.1 hnext) hnew hk

theorem loadInv_step (h : s.Sound args) (hI : s.LoadInv args tr)
    (hok : s.main = .loading → s.Succeeds l) (hstep : s.step args l = some s') :
    s'.LoadInv args (tr ++ [(s, l)]) := by
  have hnone : (∀ t a, l ≠ .work t a) → ¬ s.Started → loadedKeys args (tr ++ [(s, l)]) = [] :=
    fun hl hno => by
      rw [loadedKeys_snoc, loadedKey_of_not_work hl, hI.before hno]
      rfl
  cases move_of_step hstep with
  | prepare hl hs hm =>
    have hkeys := hnone hl (not_started hs)
    refine ⟨fun _ => hkeys, fun hm' => ?_, fun hm' => ?_, fun hm' => ?_⟩ <;>
      rcases hm with rfl | rfl | rfl | rfl <;> cases hm'
  | load hm hd =>
    have hkeys := hnone (by simp) (by simp [Started, hm])
    refine ⟨fun _ => hkeys, fun _ t p hp => ?_, fun _ => ?_, fun hm' => (by cases hm')⟩
    · rw [(submit_points hp).2]
      exact trivial
    · rw [hkeys]
      refine ⟨List.nodup_nil, fun k => ⟨fun hk => (by cases hk), ?_⟩⟩
      rintro ⟨idx, ⟨t, p, hp, hstart, hlt⟩, -⟩
      rw [(submit_points hp).2] at hlt
      exact absurd hlt (not_lt.mpr hstart)
  | run hm hi =>
    refine ⟨fun hno => absurd (.inr (.inl rfl)) hno, fun hm' => (by cases hm'),
      fun hm' => (by cases hm'), fun _ => ?_⟩
    rw [loadedKeys_snoc, loadedKey_of_not_work (by simp), Option.toList_none, List.append_nil]
    refine (hI.loading hm).congr fun idx => ?_
    constructor
    · rintro ⟨t, ht, hstart, hlt⟩
      obtain ⟨e, hp⟩ := hi.ended ht
      exact ⟨t, _, hp, hstart, hlt⟩
    · rintro ⟨t, p, hp, hstart, hlt⟩
      exact ⟨t, h.lt_numThreads t p hp, h.owns_of_reached hp (hI.loads hm t p hp) hstart hlt⟩
  | finish hm hi =>
    exact ⟨fun hno => absurd (.inr (.inr rfl)) hno, fun hm' => (by cases hm'),
      fun hm' => (by cases hm'), fun hm' => (by cases hm')⟩
  | @work t a p p' hp hs =>
    have hst := h.started t p hp
    by_cases hm : s.main = .loading
    · exact loadInv_work h hI hm hp hs ((hok hm).call_of_fails hp)
    · refine ⟨fun hno => absurd hst hno, fun hm' => absurd hm' hm, fun hm' => absurd hm' hm,
        fun hm' => ?_⟩
      rw [loadedKeys_snoc, loadedKey_of_ne hm, Option.toList_none, List.append_nil]
      exact hI.running hm'

theorem loadInv_init : LoadInv args [] init where
  before _ := rfl
  loads h := by cases h
  loading h := by cases h
  running h := by cases h

theorem loadInv_of_run (h : Run (step args) Succeeds init tr s) : s.LoadInv args tr :=
  h.invariant loadInv_init fun _ _ _ _ hrun hok hs hI =>
    loadInv_step (sound_of_run hrun) hI (fun _ => hok) hs

/-! ## The end of the load phase -/

/-- Every thread of the pool has a task once the tasks have been submitted. -/
theorem submitted_of_run {ok : Driver → Label → Prop} (h : Run (step args) ok init tr s)
    (hst : s.Started) {t : ℕ} (ht : t < args.numThreads) : ∃ p, s.points t = some p := by
  refine h.invariant (I := fun _ s => s.Started → ∃ p, s.points t = some p)
    (fun hst => by rcases hst with h | h | h <;> cases h) (fun tr s l s' _ _ hstep ih hst => ?_) hst
  cases move_of_step hstep with
  | prepare hl hs hm => rcases hm with rfl | rfl | rfl | rfl <;> simp [Started] at hst
  | load hm hd => exact ⟨_, if_pos ht⟩
  | run hm hi => exact ⟨_, if_pos ht⟩
  | finish hm hi => exact ih (.inr (.inl hm))
  | @work u a p p' hp hs =>
    by_cases hu : t = u
    · exact ⟨p', by rw [hu]; exact Function.update_self ..⟩
    · obtain ⟨q, hq⟩ := ih hst
      exact ⟨q, (Function.update_of_ne hu ..).trans hq⟩

/-- A bound on the steps that the workers of the load phase have left. -/
def left (args : Args) (s : Driver) : ℕ :=
  ∑ t ∈ Finset.range args.numThreads, (s.points t).elim 0 (s.worker args t).left

theorem left_work_lt {t : ℕ} {p p' : Point} (ht : t < args.numThreads) (hp : s.points t = some p)
    (hlt : (s.worker args t).left p' < (s.worker args t).left p) :
    left args { s with points := Function.update s.points t (some p') } < s.left args := by
  refine Finset.sum_lt_sum (fun u _ => ?_) ⟨t, Finset.mem_range.mpr ht, ?_⟩
  · show (Function.update s.points t (some p') u).elim 0 (s.worker args u).left ≤ _
    by_cases hu : u = t
    · subst hu
      rw [Function.update_self, hp]
      exact hlt.le
    · rw [Function.update_of_ne hu]
  · show (Function.update s.points t (some p') t).elim 0 (s.worker args t).left < _
    rw [Function.update_self, hp]
    exact hlt

/-- A step of the load phase ends it, or there is one step less left. -/
theorem left_step_lt (h : s.Sound args) (hI : s.LoadInv args tr) (hm : s.main = .loading)
    (hok : s.Succeeds l) (hstep : s.step args l = some s') :
    s'.main = .running ∨ s'.main = .loading ∧ s'.left args < s.left args := by
  have hI' := loadInv_step h hI (fun _ => hok) hstep
  cases move_of_step hstep with
  | prepare hl hs hm' => rcases hs with hs | hs <;> cases hm.symm.trans hs
  | load hm' hd => cases hm.symm.trans hm'
  | run hm' hi => exact .inl rfl
  | finish hm' hi => cases hm.symm.trans hm'
  | @work t a p p' hp hs =>
    have hlt := Worker.left_step_lt (hI.loads hm t p hp) (h.worker t p hp) hs
      (hI'.loads hm t p' (Function.update_self ..))
    exact .inr ⟨hm, left_work_lt (h.lt_numThreads t p hp) hp hlt⟩

/-- While a worker of the load phase has not ended, it can go on. -/
theorem exists_load_step (h : Run (step args) Succeeds init tr s) (hm : s.main = .loading) :
    ∃ l s', s.Succeeds l ∧ s.step args l = some s' := by
  by_cases hi : s.Idle args
  · exact ⟨.step, s.submit args .running s.data Worker.runWorkload, trivial,
      by simp [step, hi, hm]⟩
  · unfold Idle at hi
    push Not at hi
    obtain ⟨t, ht, hend⟩ := hi
    obtain ⟨p, hp⟩ := submitted_of_run h (.inl hm) (List.mem_range.mp ht)
    have hne : p.ending = none := by simpa [hp] using hend
    obtain ⟨a, p', ha, hs⟩ := Worker.exists_load_step (w := s.worker args t)
      ((loadInv_of_run h).loads hm t p hp) hne
    refine ⟨.work t a, { s with points := Function.update s.points t (some p') }, ?_, ?_⟩
    · cases a with
      | fails => exact absurd rfl ha
      | _ => trivial
    · rw [step, hp, Option.bind_some, hs, Option.map_some]

/-- The load phase does not come again. -/
theorem loaded_stays (hst : s.Started) (hm : s.main ≠ .loading) (hstep : s.step args l = some s') :
    s'.Started ∧ s'.main ≠ .loading := by
  cases move_of_step hstep with
  | prepare hl hs hm' => exact absurd hst (not_started hs)
  | load hm' hd => simp [Started, hm'] at hst
  | run hm' hi => exact absurd hm' hm
  | finish hm' hi => exact ⟨.inr (.inr rfl), by simp⟩
  | work hp hs => exact ⟨hst, hm⟩

/-- The load phase lasts for a bounded number of steps. -/
theorem load_length_le (h : Run (step args) Succeeds init tr s) (hm : s.main = .loading)
    {tr' : List (Driver × Label)} (h' : Run (step args) Succeeds s tr' s')
    (hm' : s'.main = .loading) : tr'.length + s'.left args ≤ s.left args := by
  have hbound : s'.Started ∧ (s'.main = .loading → tr'.length + s'.left args ≤ s.left args) := by
    refine h'.invariant (I := fun tr' s' => s'.Started ∧
      (s'.main = .loading → tr'.length + s'.left args ≤ s.left args))
      ⟨.inl hm, fun _ => (Nat.zero_add _).le⟩ ?_
    rintro tr' u l u' hrun hok hstep ⟨hst, hle⟩
    have hu := h.append hrun
    by_cases hload : u.main = .loading
    · rcases left_step_lt (sound_of_run hu) (loadInv_of_run hu) hload hok hstep with
        hend | ⟨hload', hlt⟩
      · exact ⟨.inr (.inl hend), fun hm' => absurd (hend.symm.trans hm') (by simp)⟩
      · refine ⟨.inl hload', fun _ => ?_⟩
        have hbefore := hle hload
        rw [List.length_append, List.length_singleton]
        omega
    · obtain ⟨hst', hload'⟩ := loaded_stays hst hload hstep
      exact ⟨hst', fun hm' => absurd hm' hload'⟩
  exact hbound.2 hm'

/-- Wherever a run is in the load phase, the load phase can be brought to its end. -/
theorem load_ends (h : Run (step args) Succeeds init tr s) (hm : s.main = .loading) :
    ∃ tr' s', Run (step args) Succeeds s tr' s' ∧ s'.main = .running := by
  induction hn : s.left args using Nat.strong_induction_on generalizing tr s with
  | _ n ih =>
    obtain ⟨l, s', hok, hstep⟩ := exists_load_step h hm
    rcases left_step_lt (sound_of_run h) (loadInv_of_run h) hm hok hstep with hm' | ⟨hm', hlt⟩
    · exact ⟨_, s', Run.cons hok hstep .nil, hm'⟩
    · obtain ⟨tr', s'', hrun, hend⟩ := ih _ (hn ▸ hlt) (h.snoc hok hstep) hm' rfl
      exact ⟨_, s'', Run.cons hok hstep hrun, hend⟩

/-! ## The whole data set -/

theorem owns_iff {t : ℕ} {j : ℕ} : (s.worker args t).Owns j ↔
    s.data.keys.length * t / args.numThreads ≤ j ∧
      j < s.data.keys.length * t / args.numThreads + s.data.keys.length / args.numThreads := by
  rw [Worker.Owns, startIdx_eq, endIdx_eq, Int.ofNat_le, Int.ofNat_lt]
  rfl

/-- The ranges leave no index out if they have no remainder, and only then. -/
theorem covered_iff (hT : 1 ≤ args.numThreads) :
    (∀ j : ℕ, j < s.data.keys.length → s.Covered args j) ↔
      args.numThreads ∣ s.data.keys.length := by
  constructor
  · intro h
    refine dvd_of_covers fun j hj => ?_
    obtain ⟨t, ht, howns⟩ := h j hj
    exact ⟨t, ht, owns_iff.mp howns⟩
  · intro h j hj
    obtain ⟨t, ht, howns⟩ := covers_of_dvd hT h hj
    exact ⟨t, ht, owns_iff.mpr howns⟩

/-- The keys in the ranges are all keys just if the ranges leave no index out. -/
theorem KeysOf.perm_iff {ks : List ℤ} (h : KeysOf s.data (s.Covered args) ks)
    (hd : s.data.Shuffled args) :
    ks.Perm (range 0 args.numKeys) ↔ ∀ j : ℕ, j < s.data.keys.length → s.Covered args j := by
  rw [List.perm_ext_iff_of_nodup h.nodup (nodup_range _ _)]
  simp only [h.mem_iff, ← hd.keys.mem_iff]
  constructor
  · intro hall j hj
    have hk : item s.data.keys j = some s.data.keys[j] := by
      rw [item, if_pos (Int.natCast_nonneg j), Int.toNat_natCast, List.getElem?_eq_getElem hj]
    obtain ⟨idx, hidx, hk'⟩ := (hall _).mpr (List.getElem_mem hj)
    obtain ⟨t, ht, howns⟩ := hidx
    obtain rfl := item_inj hd.nodup howns.nonneg (Int.natCast_nonneg j) hk' hk
    exact ⟨t, ht, howns⟩
  · intro hall k
    constructor
    · rintro ⟨idx, ⟨t, -, howns⟩, hk⟩
      exact item_mem howns.nonneg hk
    · intro hk
      obtain ⟨j, hj, rfl⟩ := List.mem_iff_getElem.mp hk
      refine ⟨j, hall j hj, ?_⟩
      rw [item, if_pos (Int.natCast_nonneg j), Int.toNat_natCast, List.getElem?_eq_getElem hj]

/-- When the load phase is over, it has put every key once if and only if the number of
threads divides the number of keys.  It lasts for a bounded number of steps, and it can always
be brought to its end. -/
theorem load_stores_iff (hT : 1 ≤ args.numThreads) (hn : 0 ≤ args.numKeys)
    (h : Run (step args) Succeeds init tr s) :
    (s.main = .running → ((loadedKeys args tr).Perm (range 0 args.numKeys) ↔
      (args.numThreads : ℤ) ∣ args.numKeys)) ∧
    (s.main = .loading →
      (∀ tr' s', Run (step args) Succeeds s tr' s' → s'.main = .loading →
        tr'.length ≤ s.left args) ∧
      ∃ tr' s', Run (step args) Succeeds s tr' s' ∧ s'.main = .running) := by
  refine ⟨fun hm => ?_, fun hm => ⟨fun tr' s' h' hm' => ?_, load_ends h hm⟩⟩
  · have hd : s.data.Shuffled args := (sound_of_run h).shuffled (.inr (.inl hm))
    rw [((loadInv_of_run h).running hm).perm_iff hd, covered_iff hT, hd.length_keys,
      ← Int.natCast_dvd_natCast, Int.toNat_of_nonneg hn]
  · have hle := load_length_le h hm h' hm'
    omega

/-- Two threads and three keys. -/
def threeKeys : Args where
  numKeys := 3
  numThreads := 2
  numRequests := 0
  putRatio := 50
  testConsistency := 0
  crashServer := 0
  addServer := 0
  removeServer := 0

def threeKeysLoad : List Label :=
  [.reply "0,1", .reply "",
    .shuffle { keys := [0, 1, 2], loadVals := [0, 1, 2], runVals := [3, 4, 5] },
    .work 0 .step, .work 0 (.reply "Success"), .work 0 .step,
    .work 1 .step, .work 1 (.reply "Success"), .work 1 .step, .step]

theorem threeKeys_exec :
    (exec (step threeKeys) init threeKeysLoad).map Driver.main = some .running := by
  decide +kernel

theorem load_stores_iff_threeKeys : ∃ tr s, Run (step threeKeys) Succeeds init tr s ∧
    s.main = .running ∧ ((loadedKeys threeKeys tr).Perm (range 0 threeKeys.numKeys) ↔
      (threeKeys.numThreads : ℤ) ∣ threeKeys.numKeys) := by
  obtain ⟨s, hrun, hm⟩ := Run.exists_of_exec Succeeds threeKeys_exec (by decide +kernel)
  exact ⟨_, s, hrun, hm, (load_stores_iff (by decide) (by decide) hrun).1 hm⟩

/-- The third key is never put. -/
theorem threeKeys_not_stored : ∃ tr s, Run (step threeKeys) Succeeds init tr s ∧
    s.main = .running ∧ ¬ (loadedKeys threeKeys tr).Perm (range 0 threeKeys.numKeys) := by
  obtain ⟨s, hrun, hm⟩ := Run.exists_of_exec Succeeds threeKeys_exec (by decide +kernel)
  exact ⟨_, s, hrun, hm, by decide +kernel⟩

end Driver

end RunCluster
end ReplicatedStore
