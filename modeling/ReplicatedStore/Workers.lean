/-
The steps of a worker, and the index behind each of its calls.

`Move` lists what a step can do, with the tests that lead there.  A key that a worker
puts or gets is the key of an index in its own range, so no key is ever in the hands of
two workers.
-/
import ReplicatedStore.Ranges

namespace ReplicatedStore
namespace RunCluster

open Lib

def Call.key : Call → ℤ
  | .put k _ | .get k => k

namespace Worker

variable {w : Worker} {p p' : Point} {a : Act}

/-! ## One step -/

/-- The steps of a worker. -/
inductive Move (w : Worker) : Point → Act → Point → Prop
  | issueLoad {idx k v} (hidx : idx < w.endIdx) (hk : item w.data.keys idx = some k)
      (hv : item w.data.loadVals idx = some v) : Move w (.load idx) .step (.loadPut idx k v)
  | loadRaises {idx} (hidx : idx < w.endIdx)
      (hd : item w.data.keys idx = none ∨ item w.data.loadVals idx = none) :
      Move w (.load idx) .step (.ended .raised)
  | loadEnds {idx} (hidx : w.endIdx ≤ idx) : Move w (.load idx) .step (.ended .returned)
  | loaded {idx k v r} : Move w (.loadPut idx k v) (.reply r) (.load (idx + 1))
  | emptyRange {n} (hn : n < w.numRequests) (hr : w.endIdx - 1 < w.startIdx) :
      Move w (.request n) .step (.ended .raised)
  | requestsEnd {n} (hn : w.numRequests ≤ n) : Move w (.request n) .step (.ended .returned)
  | pick {n idx p'} (hn : n < w.numRequests) (hs : w.startIdx ≤ idx) (he : idx < w.endIdx)
      (hp : p' = .change n idx ∨ p' = .draw n idx) : Move w (.request n) (.choose idx) p'
  | changed {n idx r} : Move w (.change n idx) (.reply r) (.draw n idx)
  | changeFails {n idx} : Move w (.change n idx) .fails (.ended .raised)
  | issuePut {n idx k v} (hk : item w.data.keys idx = some k) :
      Move w (.draw n idx) (.choose v) (.put n k v)
  | drawRaises {n idx v} (hk : item w.data.keys idx = none) :
      Move w (.draw n idx) (.choose v) (.ended .raised)
  | issueGet {n k v r} : Move w (.put n k v) (.reply r) (.get n k v)
  | checkGet {n k v r p'} (hp : p' = (check k v r).point (.request (n + 1))) :
      Move w (.get n k v) (.reply r) p'
  | shuffled {ops} (hops : ops.Perm (optypes w.args.putRatio)) :
      Move w .shuffle (.order ops) (.outer ops 0)
  | pass {ops n} (hn : n < w.numRequests) : Move w (.outer ops n) .step (.inner ops n w.startIdx)
  | passesEnd {ops n} (hn : w.numRequests ≤ n) : Move w (.outer ops n) .step (.ended .returned)
  | passEnds {ops n idx} (h : w.endIdx ≤ idx ∨ n = w.numRequests) :
      Move w (.inner ops n idx) .step (.outer ops n)
  | issueRunPut {ops n idx k v} (hidx : idx < w.endIdx) (hn : n ≠ w.numRequests)
      (hop : item ops (idx % 100) = some "Put") (hk : item w.data.keys idx = some k)
      (hv : item w.data.runVals idx = some v) :
      Move w (.inner ops n idx) .step (.runPut ops n idx k v)
  | issueRunGet {ops n idx k} (hidx : idx < w.endIdx) (hn : n ≠ w.numRequests)
      (hop : item ops (idx % 100) = some "Get") (hk : item w.data.keys idx = some k) :
      Move w (.inner ops n idx) .step (.runGet ops n idx k)
  | passRaises {ops n idx} (hidx : idx < w.endIdx)
      (hd : item ops (idx % 100) = none ∨ item w.data.keys idx = none ∨
        item w.data.runVals idx = none) :
      Move w (.inner ops n idx) .step (.ended .raised)
  | unknown {ops n idx op} (hop : item ops (idx % 100) = some op) (hput : op ≠ "Put")
      (hget : op ≠ "Get") :
      Move w (.inner ops n idx) .step (.ended (.printed "[Error] unknown operation type"))
  | runPutDone {ops n idx k v r} :
      Move w (.runPut ops n idx k v) (.reply r) (.inner ops (n + 1) (idx + 1))
  | checkRunGet {ops n idx k v r p'} (hv : item w.data.loadVals idx = some v)
      (hp : p' = (check k v r).point (.inner ops (n + 1) (idx + 1))) :
      Move w (.runGet ops n idx k) (.reply r) p'
  | checkRaises {ops n idx k r} (hv : item w.data.loadVals idx = none) :
      Move w (.runGet ops n idx k) (.reply r) (.ended .raised)
  | callFails {p c} (hc : p.call = some c) : Move w p .fails (.ended .raised)

/-- If two lookups do not both succeed, one of them fails. -/
theorem none_or_none {o o' : Option ℤ} (h : ∀ x y, o = some x → o' = some y → False) :
    o = none ∨ o' = none := by
  by_contra hne
  push Not at hne
  obtain ⟨x, hx⟩ := Option.ne_none_iff_exists'.mp hne.1
  obtain ⟨y, hy⟩ := Option.ne_none_iff_exists'.mp hne.2
  exact h x y hx hy

theorem loadStep_move (idx : ℤ) : w.Move (.load idx) .step (w.loadStep idx) := by
  unfold loadStep
  split
  · rename_i hidx
    split
    · rename_i hk hv
      exact .issueLoad hidx hk hv
    · rename_i hd
      exact .loadRaises hidx (none_or_none hd)
  · rename_i hidx
    exact .loadEnds (by omega)

theorem innerStep_move (ops : List String) (n idx : ℤ) :
    w.Move (.inner ops n idx) .step (w.innerStep ops n idx) := by
  unfold innerStep
  split
  · rename_i hidx
    split
    · rename_i hn
      exact .passEnds (.inr hn)
    · rename_i hn
      split
      · rename_i hop
        split
        · rename_i hk hv
          exact .issueRunPut hidx hn hop hk hv
        · rename_i hd
          exact .passRaises hidx (.inr (none_or_none hd))
      · rename_i hop
        split
        · rename_i hk
          exact .issueRunGet hidx hn hop hk
        · rename_i hk
          exact .passRaises hidx (.inr (.inl hk))
      · rename_i hput hget hop
        exact .unknown hop (fun e => hput (e ▸ rfl)) (fun e => hget (e ▸ rfl))
      · rename_i hop
        exact .passRaises hidx (.inl hop)
  · rename_i hidx
    exact .passEnds (.inl (by omega))

theorem move_of_step (h : w.step p a = some p') : w.Move p a p' := by
  unfold step at h
  split at h
  · obtain rfl := Option.some.inj h
    exact loadStep_move _
  · obtain rfl := Option.some.inj h
    exact .loaded
  · split at h
    · rename_i hn
      split at h
      · cases h
      · obtain rfl := Option.some.inj h
        exact .emptyRange hn (by omega)
    · obtain rfl := Option.some.inj h
      exact .requestsEnd (by omega)
  · split at h
    · rename_i hidx
      obtain ⟨hn, hs, he⟩ := hidx
      split at h
      · exact .pick hn hs (by omega) (.inl (Option.some.inj h).symm)
      · exact .pick hn hs (by omega) (.inr (Option.some.inj h).symm)
    · cases h
  · obtain rfl := Option.some.inj h
    exact .changed
  · obtain rfl := Option.some.inj h
    exact .changeFails
  · split at h
    · split at h
      · rename_i hk
        obtain rfl := Option.some.inj h
        exact .issuePut hk
      · rename_i hk
        obtain rfl := Option.some.inj h
        exact .drawRaises hk
    · cases h
  · obtain rfl := Option.some.inj h
    exact .issueGet
  · exact .checkGet (Option.some.inj h).symm
  · split at h
    · rename_i hops
      obtain rfl := Option.some.inj h
      exact .shuffled hops
    · cases h
  · split at h
    · rename_i hn
      obtain rfl := Option.some.inj h
      exact .pass hn
    · obtain rfl := Option.some.inj h
      exact .passesEnd (by omega)
  · obtain rfl := Option.some.inj h
    exact innerStep_move _ _ _
  · obtain rfl := Option.some.inj h
    exact .runPutDone
  · split at h
    · rename_i hv
      exact .checkRunGet hv (Option.some.inj h).symm
    · rename_i hv
      obtain rfl := Option.some.inj h
      exact .checkRaises hv
  · split at h
    · rename_i hc
      obtain ⟨c, hc⟩ := Option.isSome_iff_exists.mp hc
      obtain rfl := Option.some.inj h
      exact .callFails hc
    · cases h
  · cases h

/-! ## The indices a worker is at -/

/-- What a point says about the data and the range. -/
def Sound (w : Worker) : Point → Prop
  | .load idx => w.startIdx ≤ idx ∧ idx ≤ w.endIdx
  | .loadPut idx k v => w.Owns idx ∧ item w.data.keys idx = some k ∧
      item w.data.loadVals idx = some v
  | .change _ idx | .draw _ idx => w.Owns idx
  | .put _ k _ | .get _ k _ => ∃ idx, w.Owns idx ∧ item w.data.keys idx = some k
  | .outer ops _ => ops.Perm (optypes w.args.putRatio)
  | .inner ops _ idx => ops.Perm (optypes w.args.putRatio) ∧ w.startIdx ≤ idx
  | .runPut ops _ idx k v => ops.Perm (optypes w.args.putRatio) ∧ w.Owns idx ∧
      item ops (idx % 100) = some "Put" ∧ item w.data.keys idx = some k ∧
      item w.data.runVals idx = some v
  | .runGet ops _ idx k => ops.Perm (optypes w.args.putRatio) ∧ w.Owns idx ∧
      item ops (idx % 100) = some "Get" ∧ item w.data.keys idx = some k
  | .request _ | .shuffle | .ended _ => True

theorem sound_check {next : Point} {c : Check} (hp : p' = c.point next) (h : w.Sound next) :
    w.Sound p' := by
  subst hp
  cases c with
  | passes => exact h
  | prints line => exact trivial
  | raises => exact trivial

theorem sound_step (h : w.Sound p) (hstep : w.step p a = some p') : w.Sound p' := by
  cases move_of_step hstep with
  | issueLoad hidx hk hv => exact ⟨⟨h.1, hidx⟩, hk, hv⟩
  | loaded =>
    obtain ⟨⟨hs, he⟩, -, -⟩ := h
    exact ⟨by omega, by omega⟩
  | pick hn hs he hp =>
    rcases hp with rfl | rfl
    · exact ⟨hs, he⟩
    · exact ⟨hs, he⟩
  | changed => exact h
  | issuePut hk => exact ⟨_, h, hk⟩
  | issueGet => exact h
  | checkGet hp => exact sound_check hp trivial
  | shuffled hops => exact hops
  | pass hn => exact ⟨h, le_refl _⟩
  | passEnds => exact h.1
  | issueRunPut hidx hn hop hk hv => exact ⟨h.1, ⟨h.2, hidx⟩, hop, hk, hv⟩
  | issueRunGet hidx hn hop hk => exact ⟨h.1, ⟨h.2, hidx⟩, hop, hk⟩
  | runPutDone =>
    obtain ⟨hops, ⟨hs, he⟩, -⟩ := h
    exact ⟨hops, by omega⟩
  | checkRunGet hv hp =>
    obtain ⟨hops, ⟨hs, he⟩, -⟩ := h
    exact sound_check hp ⟨hops, by omega⟩
  | _ => exact trivial

theorem sound_loadDataset : w.Sound w.loadDataset := ⟨le_refl _, w.startIdx_le_endIdx⟩

theorem sound_runWorkload : w.Sound w.runWorkload := by
  unfold runWorkload
  split <;> exact trivial

/-- The key of a call belongs to an index of the worker. -/
theorem Sound.of_call (h : w.Sound p) {c : Call} (hc : p.call = some c) :
    ∃ idx, w.Owns idx ∧ item w.data.keys idx = some c.key := by
  cases p with
  | loadPut idx k v =>
    obtain rfl := Option.some.inj hc
    exact ⟨idx, h.1, h.2.1⟩
  | put n k v =>
    obtain rfl := Option.some.inj hc
    exact h
  | get n k v =>
    obtain rfl := Option.some.inj hc
    exact h
  | runPut ops n idx k v =>
    obtain rfl := Option.some.inj hc
    exact ⟨idx, h.2.1, h.2.2.2.1⟩
  | runGet ops n idx k =>
    obtain rfl := Option.some.inj hc
    exact ⟨idx, h.2.1, h.2.2.2⟩
  | _ => cases hc

end Worker

/-! ## The driver -/

namespace Driver

variable {args : Args} {s s' : Driver} {l : Label}

/-- The call that a worker is waiting for. -/
def call (s : Driver) (t : ℕ) : Option Call := (s.points t).bind Point.call

/-- No call of a client raises. -/
def Succeeds (s : Driver) : Label → Prop
  | .work t .fails => s.call t = none
  | _ => True

instance (s : Driver) (l : Label) : Decidable (s.Succeeds l) := by
  unfold Succeeds
  split <;> infer_instance

/-- The steps of `testKVS` and of its workers. -/
inductive Move (args : Args) (s : Driver) : Label → Driver → Prop
  | prepare {l m} (hl : ∀ t a, l ≠ .work t a) (hs : s.main = .listServer ∨ s.main = .addClients)
      (hm : m = .addClients ∨ m = .shuffle ∨ m = .ended .raised ∨
        m = .ended (.printed "[Error] Servers do not exist")) : Move args s l { s with main := m }
  | load {d} (hm : s.main = .shuffle) (hd : d.Shuffled args) :
      Move args s (.shuffle d) (s.submit args .loading d Worker.loadDataset)
  | run (hm : s.main = .loading) (hi : s.Idle args) :
      Move args s .step (s.submit args .running s.data Worker.runWorkload)
  | finish (hm : s.main = .running) (hi : s.Idle args) :
      Move args s .step { s with main := .ended .returned }
  | work {t a p p'} (hp : s.points t = some p) (hs : (s.worker args t).step p a = some p') :
      Move args s (.work t a) { s with points := Function.update s.points t (some p') }

theorem move_of_step (h : s.step args l = some s') : s.Move args l s' := by
  unfold step at h
  split at h
  · split at h
    · rename_i hm
      split at h
      · obtain rfl := Option.some.inj h
        exact .prepare (by simp) (.inl hm) (.inr (.inr (.inr rfl)))
      · obtain rfl := Option.some.inj h
        exact .prepare (by simp) (.inl hm) (.inl rfl)
    · rename_i hm
      obtain rfl := Option.some.inj h
      exact .prepare (by simp) (.inr hm) (.inr (.inl rfl))
    · cases h
  · split at h
    · rename_i hm
      obtain rfl := Option.some.inj h
      exact .prepare (by simp) (.inl hm) (.inr (.inr (.inl rfl)))
    · rename_i hm
      obtain rfl := Option.some.inj h
      exact .prepare (by simp) (.inr hm) (.inr (.inr (.inl rfl)))
    · cases h
  · split at h
    · rename_i hd
      obtain rfl := Option.some.inj h
      exact .load hd.1 ⟨hd.2.1, hd.2.2.1, hd.2.2.2⟩
    · cases h
  · split at h
    · rename_i hi
      split at h
      · rename_i hm
        obtain rfl := Option.some.inj h
        exact .run hm hi
      · rename_i hm
        obtain rfl := Option.some.inj h
        exact .finish hm hi
      · cases h
    · cases h
  · obtain ⟨p, hp, h⟩ := Option.bind_eq_some_iff.mp h
    obtain ⟨p', hs, rfl⟩ := Option.map_eq_some_iff.mp h
    exact .work hp hs

theorem Idle.ended (h : s.Idle args) {t : ℕ} (ht : t < args.numThreads) :
    ∃ e, s.points t = some (.ended e) := by
  obtain ⟨e, he⟩ := Option.isSome_iff_exists.mp (h t (List.mem_range.mpr ht))
  obtain ⟨p, hp, he⟩ := Option.bind_eq_some_iff.mp he
  cases p with
  | ended e' => exact ⟨e', hp⟩
  | _ => cases he

/-- The points after the step of a worker. -/
theorem points_work {t u : ℕ} {p' q : Point}
    (h : Function.update s.points t (some p') u = some q) :
    u = t ∧ q = p' ∨ u ≠ t ∧ s.points u = some q := by
  by_cases hu : u = t
  · subst hu
    rw [Function.update_self] at h
    exact .inl ⟨rfl, (Option.some.inj h).symm⟩
  · rw [Function.update_of_ne hu] at h
    exact .inr ⟨hu, h⟩

theorem Succeeds.call_of_fails {t : ℕ} {a : Act} {p : Point} (h : s.Succeeds (.work t a))
    (hp : s.points t = some p) : a = .fails → p.call = none := by
  rintro rfl
  simpa [Succeeds, call, hp] using h

/-- The tasks have been submitted. -/
def Started (s : Driver) : Prop :=
  s.main = .loading ∨ s.main = .running ∨ s.main = .ended .returned

/-- What holds in every state. -/
structure Sound (args : Args) (s : Driver) : Prop where
  started : ∀ t p, s.points t = some p → s.Started
  shuffled : s.Started → s.data.Shuffled args
  lt_numThreads : ∀ t p, s.points t = some p → t < args.numThreads
  worker : ∀ t p, s.points t = some p → (s.worker args t).Sound p

theorem not_started (hs : s.main = .listServer ∨ s.main = .addClients) : ¬ s.Started := by
  rcases hs with hs | hs <;> simp [Started, hs]

theorem sound_init : init.Sound args where
  started _ _ h := by cases h
  shuffled h := by rcases h with h | h | h <;> cases h
  lt_numThreads _ _ h := by cases h
  worker _ _ h := by cases h

/-- A point after the tasks have been submitted. -/
theorem submit_points {m : Main} {d : DataSet} {task : Worker → Point} {t : ℕ} {p : Point}
    (h : (s.submit args m d task).points t = some p) :
    t < args.numThreads ∧ p = task { threadId := t, data := d, args := args } := by
  simp only [submit] at h
  split at h
  · rename_i ht
    exact ⟨ht, (Option.some.inj h).symm⟩
  · cases h

theorem sound_submit {m : Main} {d : DataSet} {task : Worker → Point}
    (hm : m = .loading ∨ m = .running) (hd : d.Shuffled args)
    (htask : ∀ w : Worker, w.Sound (task w)) :
    (s.submit args m d task).Sound args where
  started _ _ _ := hm.imp_right .inl
  shuffled _ := hd
  lt_numThreads _ _ h := (submit_points h).1
  worker _ _ h := (submit_points h).2 ▸ htask _

theorem sound_step (h : s.Sound args) (hstep : s.step args l = some s') : s'.Sound args := by
  cases move_of_step hstep with
  | prepare hl hs hm =>
    have hno : ∀ t p, s.points t ≠ some p := fun t p hp => not_started hs (h.started t p hp)
    refine ⟨fun t p hp => absurd hp (hno t p), fun hst => ?_, fun t p hp => absurd hp (hno t p),
      fun t p hp => absurd hp (hno t p)⟩
    rcases hm with rfl | rfl | rfl | rfl <;> simp [Started] at hst
  | load hm hd => exact sound_submit (.inl rfl) hd fun w => w.sound_loadDataset
  | run hm hi =>
    exact sound_submit (.inr rfl) (h.shuffled (.inl hm)) fun w => w.sound_runWorkload
  | finish hm hi =>
    exact ⟨fun _ _ _ => .inr (.inr rfl), fun _ => h.shuffled (.inr (.inl hm)),
      h.lt_numThreads, h.worker⟩
  | @work t a p p' hp hs =>
    have hst := h.started t p hp
    refine ⟨fun _ _ _ => hst, h.shuffled, fun u q hq => ?_, fun u q hq => ?_⟩
    · rcases points_work hq with ⟨rfl, rfl⟩ | ⟨-, hq⟩
      · exact h.lt_numThreads u p hp
      · exact h.lt_numThreads u q hq
    · rcases points_work hq with ⟨rfl, rfl⟩ | ⟨-, hq⟩
      · exact Worker.sound_step (h.worker u p hp) hs
      · exact h.worker u q hq

theorem sound_of_run {ok : Driver → Label → Prop} {tr : List (Driver × Label)}
    (h : Run (Driver.step args) ok Driver.init tr s) : s.Sound args :=
  h.invariant sound_init fun _ _ _ _ _ _ hs hI => sound_step hI hs

/-- Two workers do not call for the same key. -/
theorem Sound.call_unique (h : s.Sound args) {t u : ℕ} {c d : Call} (ht : s.call t = some c)
    (hu : s.call u = some d) (hk : c.key = d.key) : t = u := by
  obtain ⟨p, hp, hc⟩ := Option.bind_eq_some_iff.mp ht
  obtain ⟨q, hq, hd⟩ := Option.bind_eq_some_iff.mp hu
  obtain ⟨i, hi, hik⟩ := (h.worker t p hp).of_call hc
  obtain ⟨j, hj, hjk⟩ := (h.worker u q hq).of_call hd
  obtain rfl : i = j := item_inj (h.shuffled (h.started t p hp)).nodup hi.nonneg hj.nonneg
    (hik.trans (congrArg some hk)) hjk
  exact Worker.Owns.unique (w := s.worker args t) (u := s.worker args u) rfl rfl hi hj

end Driver

end RunCluster
end ReplicatedStore
