/-
`testKVS` while servers crash.

`crash_server` makes a worker kill a server half way.  Servers may crash at any step here,
and attempts may throw before or after the method has run.  A call can then fail, and the
worker ends by an exception.  But a reply is never wrong: from the answer to its put to the
answer to its get the key has one value at every registered server, and a key that is only
loaded never has another value than the one it is loaded with.
-/
import ReplicatedStore.Durability
import ReplicatedStore.Testbed

namespace ReplicatedStore

open Lib

variable {k : Key} {x : Val}

/-! ## A binding that stays -/

/-- `k` is bound to `x` at every registered server, and the critical section under way
leaves it so. -/
def System.Keeps (s : System) (k : Key) (x : Val) : Prop :=
  Monitor.Holds (fun _ cl => cl.view.AllCurrent (· = x) k)
    (fun _ _ i cl => i.Keeps (· = x) k cl.view) ([] : Trace) s

/-- Nothing is executed late, no server is registered without a transfer, and no other value
is about to be put. -/
structure Unrivalled (k : Key) (x : Val) (s : System) (l : Label) : Prop where
  late : NoneLate l
  first : ∀ c id rpc, s.locals c ≠ .out (.synchronized (.registerFirst id rpc))
  value : ∀ c y, s.locals c = .out (Op.put k y).start → y = x

theorem keeps_resource (k : Key) (x : Val) : Monitor.Resource frontend (Unrivalled k x)
    (fun _ cl => cl.view.AllCurrent (· = x) k) (fun _ _ i cl => i.Keeps (· = x) k cl.view) where
  enter := by
    intro tr s t w i hok hl he hall
    obtain ⟨b, rfl, rfl⟩ := Outside.entry_eq_some he
    cases b with
    | withLock w =>
      cases w with
      | put k' y =>
        refine ⟨hall, fun e => ?_⟩
        subst e
        exact hok.value t y hl
      | addServer id rpc sender => exact hall
    | registerFirst id rpc => exact absurd hl (hok.first t id rpc)
    | _ => exact hall
  inside _ _ hs hi := ((Inside.Move.of_step hs).keeps hi).2 _ rfl
  leave _ _ hs hi := ((Inside.Move.of_step hs).keeps hi).1
  outside_free _ _ hs hall := by
    rw [Outside.step_view hs]
    exact hall
  outside_held _ _ hs _ hi := by
    rw [Outside.step_view hs]
    exact hi
  env_free := by
    intro tr s e σ' hok he _ hall
    obtain ⟨hs, hd⟩ := hok.late.env (Event.Move.of_step he)
    refine hall.of_le (fun id hid => hs ▸ hid) fun id hid => ?_
    rwa [hd]
  env_held := by
    intro tr s e σ' u i hok he _ _ hi
    obtain ⟨hs, hd⟩ := hok.late.env (Event.Move.of_step he)
    exact hi.of_eq hs hd

variable {s s' : System} {l : Label}

theorem System.Keeps.step (h : s.Keeps k x) (hx : Monitor.Exclusive s) (hok : Unrivalled k x s l)
    (hs : Monitor.Step frontend s l s') : s'.Keeps k x :=
  have h' := (keeps_resource k x).step hx hok hs h
  ⟨h'.free, h'.held⟩

theorem System.Keeps.all (h : s.Keeps k x) (hx : Monitor.Exclusive s) :
    s.shared.view.AllCurrent (· = x) k := by
  cases hlock : s.lock with
  | none => exact h.free hlock
  | some t =>
    obtain ⟨i, hi⟩ := (hx t).mp hlock
    exact (h.held t i hi).all

/-- A server that has been removed keeps its binding, too. -/
theorem System.Keeps.current (h : s.Keeps k x) (hok : NoneLate l)
    (hs : Monitor.Step frontend s l s') {id : ServerId}
    (hid : Current (· = x) k (s.shared.view.data id)) :
    Current (· = x) k (s'.shared.view.data id) := by
  cases hs with
  | outside _ ho => rwa [Outside.step_view ho]
  | inside hl hi => exact (Inside.Move.of_step hi).current (h.held _ _ hl) hid
  | leave hl hi => exact (Inside.Move.of_step hi).current (h.held _ _ hl) hid
  | enter => exact hid
  | env he => rwa [(hok.env (Event.Move.of_step he)).2]

/-- A get of `k` reads `x`, as long as the binding stays. -/
theorem Reading.step {g : CallId} (h : Reading (· = x) k s.shared.view (s.locals g))
    (hkeeps : s.Keeps k x) (hx : Monitor.Exclusive s) (hok : NoneLate l)
    (hs : Monitor.Step frontend s l s') :
    Reading (· = x) k s'.shared.view (s'.locals g) := by
  have hkeep : ∀ {lo}, Reading (· = x) k s.shared.view lo → Reading (· = x) k s'.shared.view lo :=
    fun hlo => hlo.mono (fun _ => id) fun _ hid => hkeeps.current hok hs hid
  cases hl : s.locals g with
  | inn i =>
    rw [hl] at h
    exact absurd h id
  | out w =>
    rw [hl] at h
    rcases hs.of_out hl with ⟨-, h'⟩ | ⟨a, w', -, ho, h'⟩ | ⟨i, -, he, -⟩
    · rw [h']
      exact hkeep h
    · rw [h']
      exact hkeep ((Outside.Move.of_step ho).reading h (hkeeps.all hx))
    · obtain ⟨b, rfl, rfl⟩ := Outside.entry_eq_some he
      exact absurd h id

/-! ## The put that sets it -/

/-- Where the only put of `k` under way is: the binding stays once it has returned. -/
inductive Stores (p : CallId) (k : Key) (x : Val) (s : System) : Prop
  | waits (hl : s.locals p = .out (Op.put k x).start)
  | holds {i : Inside} (hl : s.locals p = .inn i) (hi : i.Puts (· = x) k x s.shared.view)
  | returned {y : Reply} (hl : s.locals p = .out (.finished (.returned y))) (h : s.Keeps k x)
  | threw {e : Exn} (hl : s.locals p = .out (.finished (.threw e)))

/-- At its end the put leaves `serversLock` to nobody. -/
theorem Stores.leave {p : CallId} {i : Inside} {a : Act} {w : Outside}
    (hl : s.locals p = .inn i) (hi : i.Puts (· = x) k x s.shared.view)
    (hx : Monitor.Exclusive s) (hs : Monitor.Step frontend s (.run p a) s')
    (hin : i.step p s.shared a = some (s'.shared, .inr w)) (h' : s'.locals p = .out w) :
    Stores p k x s' := by
  obtain ⟨e, rfl, rfl, rfl, hv⟩ := (Inside.Move.of_step hin).leave_inv
  cases e with
  | finish o =>
    cases o with
    | returned y =>
      refine .returned h' ⟨fun _ => ?_, fun c j hj => ?_⟩
      · show s'.shared.view.AllCurrent _ k
        rw [hv]
        exact hi
      · have hcp : c ≠ p := by
          rintro rfl
          cases h'.symm.trans hj
        have hne : (Monitor.Label.run p .step : Label).thread ≠ some c := fun e =>
          hcp (Option.some.inj e).symm
        rw [hs.locals_of_ne hne] at hj
        exact absurd (hx.eq_of_inn hj hl) hcp
    | threw e => exact .threw h'
  | resume next => exact absurd hi id

theorem Stores.step {p : CallId} (h : Stores p k x s) (hx : Monitor.Exclusive s)
    (hok : Unrivalled k x s l) (hs : Monitor.Step frontend s l s') : Stores p k x s' := by
  cases h with
  | waits hl =>
    rcases hs.of_out hl with ⟨-, h'⟩ | ⟨a, w', -, ho, -⟩ | ⟨i, -, he, -, -, h'⟩
    · exact .waits h'
    · have ho : (Op.put k x).start.step p s.shared a = some (s'.shared, w') := ho
      exact absurd rfl (Outside.not_synchronized ho (.withLock (.put k x)))
    · obtain rfl := Option.some.inj he
      exact .holds h' rfl
  | @holds i hl hi =>
    rcases hs.of_inn hl with ⟨hne, h'⟩ | ⟨a, i', rfl, hin, h'⟩ | ⟨a, w, rfl, hin, h'⟩
    · obtain ⟨hservers, hdata⟩ := view_of_held hx hl hok.late hs hne
      exact .holds h' (hi.of_eq hservers hdata)
    · exact .holds h' ((Inside.Move.of_step hin).puts rfl hi)
    · exact Stores.leave hl hi hx hs hin h'
  | returned hl hkeeps => exact .returned (finished_stays hs hl) (hkeeps.step hx hok hs)
  | threw hl => exact .threw (finished_stays hs hl)

/-- A put begins to wait for `serversLock` when it is called. -/
theorem put_waits {c : CallId} {y : Val} (hs : Monitor.Step frontend s l s')
    (h' : s'.locals c = .out (Op.put k y).start) :
    s.locals c = .out (Op.put k y).start ∨ l = .run c (.call (.put k y)) := by
  cases hl : s.locals c with
  | inn i =>
    rcases hs.of_inn hl with ⟨-, hi⟩ | ⟨a, i', -, -, hi⟩ | ⟨a, w, -, hin, hw⟩
    · cases hi.symm.trans h'
    · cases hi.symm.trans h'
    · obtain ⟨e, -, -, rfl, -⟩ := (Inside.Move.of_step hin).leave_inv
      cases e <;> cases hw.symm.trans h'
  | out w =>
    rcases hs.of_out hl with ⟨-, hw⟩ | ⟨a, w', rfl, ho, hw⟩ | ⟨i, -, -, -, -, hi⟩
    · exact .inl (hw.symm.trans h')
    · obtain rfl : w' = (Op.put k y).start := Monitor.Local.out.inj (hw.symm.trans h')
      have hmove := Outside.Move.of_step ho
      generalize hp : (Op.put k y).start = w' at hmove
      cases hmove with
      | @call op =>
        right
        cases op <;> cases hp
        rfl
      | @beat w w' a _ hw' =>
        subst hp
        cases hw'
      | _ => cases hp
    · cases hi.symm.trans h'

/-! ## Values that are only loaded -/

namespace RunCluster

/-- What the worker puts at this index is the value to load. -/
def Point.Loading (j : ℤ) : Point → Prop
  | .load _ | .loadPut .. | .shuffle => True
  | .outer ops _ | .inner ops _ _ | .runPut ops _ _ _ _ | .runGet ops _ _ _ =>
    item ops (j % 100) = some "Get"
  | _ => False

theorem Point.loading_check {next : Point} {j : ℤ} (c : Check) (h : (c.point next).Loading j) :
    next.Loading j := by
  cases c with
  | passes => exact h
  | prints line => cases h
  | raises => cases h

/-- A worker goes from loading an index to putting other values, and not back. -/
theorem Worker.loading_step {w : Worker} {p p' : Point} {a : Act} {j : ℤ}
    (h : w.step p a = some p') (hp' : p'.Loading j) : p.Loading j := by
  cases move_of_step h with
  | issueLoad => exact trivial
  | loaded => exact trivial
  | pick _ _ _ hp => rcases hp with rfl | rfl <;> cases hp'
  | checkGet hp =>
    subst hp
    exact (Point.loading_check _ hp').elim
  | shuffled => exact trivial
  | pass => exact hp'
  | passEnds => exact hp'
  | issueRunPut => exact hp'
  | issueRunGet => exact hp'
  | runPutDone => exact hp'
  | @checkRunGet ops n idx k v r p' hv hp =>
    subst hp
    have hnext : (Point.inner ops (n + 1) (idx + 1)).Loading j := Point.loading_check _ hp'
    exact hnext
  | _ => cases hp'

theorem Check.not_printed {next : Point} {key expected : ℤ} {r line : String}
    (hr : r = pairText key expected ∨ ErrorWord r) (hnext : next ≠ .ended (.printed line)) :
    (check key expected r).point next ≠ .ended (.printed line) := by
  rcases hr with rfl | hr
  · rw [check_expected]
    exact hnext
  · rw [hr.check]
    simp [Check.point]

/-- A worker that hears the pair it waits for, or an error word, prints no error. -/
theorem Worker.not_printed {w : Worker} {p p' : Point} {a : Act} (h : w.step p a = some p')
    (hs : w.Sound p)
    (hr : ∀ k v r, w.awaits p = some (k, v) → a = .reply r → r = pairText k v ∨ ErrorWord r)
    (line : String) : p' ≠ .ended (.printed line) := by
  cases move_of_step h with
  | pick _ _ _ hp => rcases hp with rfl | rfl <;> simp
  | @checkGet n k v r p' hp =>
    subst hp
    exact Check.not_printed (hr k v r rfl rfl) (by simp)
  | @checkRunGet ops n idx k v r p' hv hp =>
    subst hp
    exact Check.not_printed (hr k v r (by simp [awaits, hv]) rfl) (by simp)
  | @unknown ops n idx op hop hput hget =>
    rcases known_of_item hs.1 hop with rfl | rfl
    · exact absurd rfl hput
    · exact absurd rfl hget
  | _ => simp

namespace Driver

variable {args : Args} {d d' : Driver} {l : Label}

/-- The index `j` is loaded, or will be, and the worker `t` puts nothing else there so far. -/
def OnlyLoads (d : Driver) (t : ℕ) (j : ℤ) : Prop :=
  d.main = .loading ∨ ∃ p, d.points t = some p ∧ p.Loading j

/-- The pair may have been put: at an index that is only loaded it is the one to load. -/
def MayPut (args : Args) (d : Driver) (k v : ℤ) : Prop :=
  d.Started ∧ ∀ t j, (d.worker args t).Owns j → d.OnlyLoads t j → item d.data.keys j = some k →
    item d.data.loadVals j = some v

theorem onlyLoads_step (hstep : d.step args l = some d') (hst : d.Started)
    {t : ℕ} {j : ℤ} (hj : d'.OnlyLoads t j) : d'.data = d.data ∧ d.OnlyLoads t j := by
  cases move_of_step hstep with
  | prepare hl hs => exact absurd hst (not_started hs)
  | load hm => rcases hst with hst | hst | hst <;> cases hm.symm.trans hst
  | run hm hi => exact ⟨rfl, .inl hm⟩
  | finish hm hi =>
    rcases hj with hj | hj
    · cases hj
    · exact ⟨rfl, .inr hj⟩
  | @work u a p p' hp hs =>
    refine ⟨rfl, hj.imp_right ?_⟩
    rintro ⟨q, hq, hload⟩
    rcases points_work hq with ⟨rfl, rfl⟩ | ⟨-, hq⟩
    · exact ⟨p, hp, Worker.loading_step hs hload⟩
    · exact ⟨q, hq, hload⟩

theorem started_step (hst : d.Started) (hstep : d.step args l = some d') : d'.Started := by
  cases move_of_step hstep with
  | prepare hl hs => exact absurd hst (not_started hs)
  | load => exact .inl rfl
  | run => exact .inr (.inl rfl)
  | finish => exact .inr (.inr rfl)
  | work => exact hst

/-- Nothing that may have been put is ruled out later. -/
theorem mayPut_step {k v : ℤ} (h : d.MayPut args k v) (hstep : d.step args l = some d') :
    d'.MayPut args k v := by
  refine ⟨started_step h.1 hstep, fun t j ho hj => ?_⟩
  obtain ⟨hd, hj⟩ := onlyLoads_step hstep h.1 hj
  rw [worker, hd] at ho
  rw [hd]
  exact h.2 t j ho hj

/-- The points of the load phase. -/
def InLoad (d : Driver) : Prop :=
  d.main = .loading → ∀ t p, d.points t = some p →
    (∃ idx, p = .load idx) ∨ (∃ idx k v, p = .loadPut idx k v) ∨ ∃ e, p = .ended e

theorem inLoad_step (h : d.Sound args) (hload : d.InLoad) (hstep : d.step args l = some d') :
    d'.InLoad := by
  intro hm t p hp
  cases move_of_step hstep with
  | prepare hl hs => exact absurd (h.started t p hp) (not_started hs)
  | load =>
    obtain ⟨-, rfl⟩ := submit_points hp
    exact .inl ⟨_, rfl⟩
  | run => cases hm
  | finish => cases hm
  | @work u a q q' hq hs =>
    rcases points_work hp with ⟨rfl, rfl⟩ | ⟨-, hp⟩
    · rcases hload hm t q hq with ⟨idx, rfl⟩ | ⟨idx, k, v, rfl⟩ | ⟨e, rfl⟩
      · cases Worker.move_of_step hs with
        | issueLoad => exact .inr (.inl ⟨_, _, _, rfl⟩)
        | callFails hc => cases hc
        | _ => exact .inr (.inr ⟨_, rfl⟩)
      · cases Worker.move_of_step hs with
        | loaded => exact .inl ⟨_, rfl⟩
        | callFails => exact .inr (.inr ⟨_, rfl⟩)
      · cases (Worker.step_ended e).symm.trans hs
    · exact hload hm t p hp

/-- A put that is called for may be put. -/
theorem Sound.mayPut (h : d.Sound args) (hload : d.InLoad) {t : ℕ} {k v : ℤ}
    (hc : d.call t = some (.put k v)) : d.MayPut args k v := by
  obtain ⟨p, hp, hcall⟩ := Option.bind_eq_some_iff.mp hc
  have hst := h.started t p hp
  have hd := h.shuffled hst
  refine ⟨hst, fun u j ho hj hk => ?_⟩
  have hsame : ∀ {idx}, (d.worker args t).Owns idx → item d.data.keys idx = some k →
      j = idx := fun hidx hk' => item_inj hd.nodup ho.nonneg hidx.nonneg hk hk'
  -- a put that is no load is of an index that is no longer only loaded
  have hother : ∀ {idx}, (d.worker args t).Owns idx → item d.data.keys idx = some k →
      ¬ p.Loading idx → d.main ≠ .loading → item d.data.loadVals j = some v := by
    intro idx hidx hk' hno hm
    obtain rfl := hsame hidx hk'
    obtain rfl := Worker.Owns.unique (w := d.worker args u) (u := d.worker args t) rfl rfl ho hidx
    rcases hj with hj | ⟨q, hq, hj⟩
    · exact absurd hj hm
    · obtain rfl := Option.some.inj (hp.symm.trans hq)
      exact absurd hj hno
  have hmain : (∀ idx k v, p ≠ .loadPut idx k v) → d.main ≠ .loading := by
    intro hno hm
    rcases hload hm t p hp with ⟨idx, rfl⟩ | ⟨idx, k, v, rfl⟩ | ⟨e, rfl⟩
    · cases hcall
    · exact hno idx k v rfl
    · cases hcall
  have hsound := h.worker t p hp
  cases p with
  | loadPut idx k' v' =>
    obtain ⟨rfl, rfl⟩ := Call.put.inj (Option.some.inj hcall)
    obtain ⟨hidx, hk', hv⟩ := hsound
    obtain rfl := hsame hidx hk'
    exact hv
  | put n k' v' =>
    obtain ⟨rfl, rfl⟩ := Call.put.inj (Option.some.inj hcall)
    obtain ⟨idx, hidx, hk'⟩ := hsound
    exact hother hidx hk' id (hmain (by simp))
  | runPut ops n idx k' v' =>
    obtain ⟨rfl, rfl⟩ := Call.put.inj (Option.some.inj hcall)
    obtain ⟨-, hidx, hop, hk', -⟩ := hsound
    have hno : ¬ (Point.runPut ops n idx k' v').Loading idx := by simp [Point.Loading, hop]
    exact hother hidx hk' hno (hmain (by simp))
  | _ => cases hcall

/-- No worker has printed an error. -/
def Silent (d : Driver) : Prop := ∀ t line, d.points t ≠ some (.ended (.printed line))

theorem silent_step (h : d.Sound args) (hsilent : d.Silent) (hstep : d.step args l = some d')
    (hr : ∀ t p k v r, d.points t = some p → l = .work t (.reply r) →
      (d.worker args t).awaits p = some (k, v) → r = pairText k v ∨ ErrorWord r) : d'.Silent := by
  intro t line hp
  cases move_of_step hstep with
  | prepare => exact hsilent t line hp
  | load => cases (submit_points hp).2
  | run =>
    have hp := (submit_points hp).2
    unfold Worker.runWorkload at hp
    split at hp <;> cases hp
  | finish => exact hsilent t line hp
  | @work u a q q' hq hs =>
    rcases points_work hp with ⟨rfl, rfl⟩ | ⟨-, hp⟩
    · refine Worker.not_printed hs (h.worker t q hq) ?_ line rfl
      rintro k v r hw rfl
      exact hr t q k v r hq rfl hw
    · exact hsilent t line hp

/-- A worker comes to the get of the consistency test by the answer to its put. -/
theorem get_before {t : ℕ} {n k v : ℤ} (hstep : d.step args l = some d')
    (hp : d'.points t = some (.get n k v)) : d.points t = some (.get n k v) ∨
      d.points t = some (.put n k v) ∧ ∃ r, l = .work t (.reply r) := by
  cases move_of_step hstep with
  | prepare => exact .inl hp
  | load => cases (submit_points hp).2
  | run =>
    have hp := (submit_points hp).2
    unfold Worker.runWorkload at hp
    split at hp <;> cases hp
  | finish => exact .inl hp
  | @work u a q q' hq hs =>
    rcases points_work hp with ⟨rfl, rfl⟩ | ⟨-, hp⟩
    · generalize hget : Point.get n k v = q' at hs
      cases Worker.move_of_step hs with
      | @issueGet n' k' v' r =>
        obtain ⟨rfl, rfl, rfl⟩ := Point.get.inj hget
        exact .inr ⟨hq, r, rfl⟩
      | pick _ _ _ hp =>
        subst hget
        rcases hp with hp | hp <;> cases hp
      | @checkGet n' k' v' r _ hp =>
        subst hget
        cases hc : check k' v' r <;> rw [hc] at hp <;> cases hp
      | @checkRunGet ops n' idx k' v' r _ _ hp =>
        subst hget
        cases hc : check k' v' r <;> rw [hc] at hp <;> cases hp
      | _ => cases hget
    · exact .inl hp

end Driver

end RunCluster

/-! ## The driver over the cluster -/

open RunCluster (Driver pairText ErrorWord)

namespace Testbed

variable {args : RunCluster.Args} {s s' : Testbed} {l : Label} {tr : List (Testbed × Label)}

/-- A server is registered, nothing is executed late in the cluster, and nobody else puts. -/
def Weathered (s : Testbed) : Label → Prop
  | .frontend l => s.cluster.shared.servers.keys.Nonempty ∧ NoneLate l ∧ CallsPut l = false
  | _ => s.cluster.shared.servers.keys.Nonempty

instance (s : Testbed) : DecidablePred s.Weathered
  | .frontend l =>
    inferInstanceAs (Decidable (s.cluster.shared.servers.keys.Nonempty ∧ NoneLate l ∧
      CallsPut l = false))
  | .driver _ | .issue .. | .refuse .. | .answer .. =>
    inferInstanceAs (Decidable s.cluster.shared.servers.keys.Nonempty)

theorem weathered_run {s₀ : Testbed} (h : Run (step args) Weathered s₀ tr s) :
    SystemRun (fun s l => NoneLate l ∧ s.shared.servers.keys.Nonempty) s₀.cluster
      (clusterTrace tr) s.cluster := by
  refine cluster_part h fun s l b hok hb => ?_
  cases l with
  | frontend l =>
    obtain rfl := Option.some.inj hb
    exact ⟨hok.2.1, hok.1⟩
  | issue t c =>
    obtain ⟨o, rfl⟩ := clusterLabel_issue hb
    exact ⟨by simp [NoneLate], hok⟩
  | _ => cases hb

theorem fits_toInt (x : Int32) : Fits x.toInt := ⟨x.le_toInt, x.toInt_lt⟩

theorem request_of_put {k : Key} {x : Val} :
    (RunCluster.Call.put k.toInt x.toInt).request = some (.put k x) := by
  simp [RunCluster.Call.request, fits_toInt]

theorem request_of_get {k : Key} : (RunCluster.Call.get k.toInt).request = some (.get k) := by
  simp [RunCluster.Call.request, fits_toInt]

/-- What holds of the driver over a cluster whose servers may crash. -/
structure Crashing (args : RunCluster.Args) (tr : List (Testbed × Label)) (s : Testbed) :
    Prop where
  inLoad : s.driver.InLoad
  silent : s.driver.Silent
  values : s.cluster.From fun k x => s.driver.MayPut args k.toInt x.toInt
  called : ∀ t c, s.thread t = some c → ∃ call o, s.driver.call t = some call ∧
    call.request = some o ∧ Started c o.toOp (clusterTrace tr)
  waits : ∀ c k x, s.cluster.locals c = .out (Op.put k x).start → ∃ t, s.thread t = some c ∧
    s.driver.call t = some (.put k.toInt x.toInt)
  puts : ∀ t c k x, s.thread t = some c → s.driver.call t = some (.put k.toInt x.toInt) →
    Stores c k x s.cluster
  gets : ∀ t n k v, s.driver.points t = some (.get n k v) → ∃ (k' : Key) (x : Val),
    k = k'.toInt ∧ v = x.toInt ∧ s.cluster.Keeps k' x ∧ ∀ c, s.thread t = some c →
      Reading (· = x) k' s.cluster.shared.view (s.cluster.locals c)

/-- What is known of a run up to some state. -/
structure Arrived (args : RunCluster.Args) (tr : List (Testbed × Label)) (s : Testbed) :
    Prop where
  sound : s.driver.Sound args
  exclusive : Monitor.Exclusive s.cluster
  first : ∀ c id rpc, s.cluster.locals c ≠ .out (.synchronized (.registerFirst id rpc))
  runs : ∀ c, Runs c (clusterTrace tr) (s.cluster.locals c)

theorem Arrived.of_run {servers : Finmap ServerRPC}
    (h : Run (step args) Weathered (.init (System.fresh servers)) tr s) : Arrived args tr s := by
  have hrun := weathered_run h
  have hquiet := System.fresh_quiet servers
  exact ⟨RunCluster.Driver.sound_of_run (driver_run h), Monitor.Run.exclusive hrun hquiet.exclusive,
    transfers_of_nonempty hquiet hrun fun _ _ hok => hok.2, fun c => Runs.of_run rfl hrun⟩

theorem Crashing.init (servers : Finmap ServerRPC) :
    Crashing args [] (init (System.fresh servers)) where
  inLoad hm := by cases hm
  silent t line h := by cases h
  values := by
    refine ⟨⟨fun id k x hx => ?_, fun r hr => by cases hr⟩, fun c => trivial⟩
    cases (Finmap.lookup_empty k).symm.trans hx
  called _ _ h := by cases h
  waits _ _ _ h := by cases h
  puts _ _ _ _ h := by cases h
  gets _ _ _ _ h := by cases h

/-- No other value is about to be put for the key that a worker waits for. -/
theorem Crashing.unrivalled (hI : s.Crashing args tr) (hr : Arrived args tr s)
    {l : ReplicatedStore.Label} (hok : NoneLate l) {t : ℕ} {call : RunCluster.Call} {k : Key}
    {x : Val} (hcall : s.driver.call t = some call) (hk : call.key = k.toInt)
    (hv : ∀ y, call = .put k.toInt y → y = x.toInt) : Unrivalled k x s.cluster l where
  late := hok
  first := hr.first
  value c y hc := by
    obtain ⟨u, -, hu⟩ := hI.waits c k y hc
    obtain rfl := hr.sound.call_unique hcall hu hk
    obtain rfl := Option.some.inj (hcall.symm.trans hu)
    exact Int32.toInt_inj.mp (hv _ rfl)

/-- A step of the cluster, with the calls that the clients make in it. -/
theorem Crashing.of_cluster {cl : ReplicatedStore.Label} {x : System} {th : ℕ → Option CallId}
    (hI : s.Crashing args tr) (hr : Arrived args tr s) (hs : System.step s.cluster cl = some x)
    (hok : NoneLate cl) (hcl : s.clusterLabel l = some cl)
    (hth : ∀ t c, s.thread t = some c → th t = some c)
    (hnew : ∀ t c, th t = some c → s.thread t = some c ∨ ∃ call o, s.driver.call t = some call ∧
      call.request = some o ∧ cl = .run c (.call o.toOp))
    (hput : ∀ c k x, cl = .run c (.call (.put k x)) → ∃ t, th t = some c ∧
      s.driver.call t = some (.put k.toInt x.toInt)) :
    Crashing args (tr ++ [(s, l)]) { driver := s.driver, cluster := x, thread := th } := by
  have hstep := Monitor.Step.of_step frontend hs
  have htrace : clusterTrace (tr ++ [(s, l)]) = clusterTrace tr ++ [(s.cluster, cl)] := by
    rw [clusterTrace, partOf_snoc, hcl]
    rfl
  refine ⟨hI.inLoad, hI.silent, hI.values.step hstep fun c k y e => ?_, fun t c ht => ?_,
    fun c k y hc => ?_, fun t c k y ht hcall => ?_, fun t n k v hp => ?_⟩
  · obtain ⟨t, -, hcall⟩ := hput c k y e
    exact hr.sound.mayPut hI.inLoad hcall
  · rw [htrace]
    rcases hnew t c ht with ht | ⟨call, o, hcall, ho, rfl⟩
    · obtain ⟨call, o, hcall, ho, hst⟩ := hI.called t c ht
      exact ⟨call, o, hcall, ho, started_snoc.mpr (.inl hst)⟩
    · exact ⟨call, o, hcall, ho, started_snoc.mpr (.inr rfl)⟩
  · rcases put_waits hstep hc with hc | e
    · obtain ⟨t, ht, hcall⟩ := hI.waits c k y hc
      exact ⟨t, hth t c ht, hcall⟩
    · exact hput c k y e
  · rcases hnew t c ht with ht | ⟨call, o, hcall', ho, rfl⟩
    · refine (hI.puts t c k y ht hcall).step hr.exclusive ?_ hstep
      refine hI.unrivalled hr hok hcall rfl fun z hz => ?_
      exact (RunCluster.Call.put.inj hz).2.symm
    · obtain rfl := Option.some.inj (hcall.symm.trans hcall')
      obtain rfl := Option.some.inj (request_of_put.symm.trans ho)
      exact .waits (call_start hstep).2.2
  · obtain ⟨k', y, rfl, rfl, hkeeps, hread⟩ := hI.gets t n k v hp
    have hcall : s.driver.call t = some (.get k'.toInt) := by
      rw [RunCluster.Driver.call, hp]
      rfl
    have hun := hI.unrivalled hr hok hcall rfl (x := y) (by simp)
    refine ⟨k', y, rfl, rfl, hkeeps.step hr.exclusive hun hstep, fun c ht => ?_⟩
    rcases hnew t c ht with ht | ⟨call, o, hcall', ho, rfl⟩
    · exact (hread c ht).step hkeeps hr.exclusive hok hstep
    · obtain rfl := Option.some.inj (hcall.symm.trans hcall')
      obtain rfl := Option.some.inj (request_of_get.symm.trans ho)
      show Reading (· = y) k' x.shared.view (x.locals c)
      rw [(call_start hstep).2.2]
      exact rfl

/-- A step of the driver. -/
theorem Crashing.of_driver {dl : RunCluster.Label} {d : Driver} {th : ℕ → Option CallId}
    (hI : s.Crashing args tr) (hr : Arrived args tr s)
    (hs : s.driver.step args dl = some d) (hcl : s.clusterLabel l = none)
    (hth : ∀ t c, th t = some c → s.thread t = some c ∧ d.call t = s.driver.call t)
    (hwaits : ∀ t c k x, s.thread t = some c → s.cluster.locals c = .out (Op.put k x).start →
      th t = some c ∧ d.call t = s.driver.call t)
    (hreply : ∀ t p k v r, s.driver.points t = some p → dl = .work t (.reply r) →
      (s.driver.worker args t).awaits p = some (k, v) → r = pairText k v ∨ ErrorWord r)
    (hgets : ∀ t n k v r, s.driver.points t = some (.put n k v) → dl = .work t (.reply r) →
      (∃ (k' : Key) (x : Val), k = k'.toInt ∧ v = x.toInt ∧ s.cluster.Keeps k' x) ∧
        th t = none) :
    Crashing args (tr ++ [(s, l)]) { driver := d, cluster := s.cluster, thread := th } := by
  have htrace : clusterTrace (tr ++ [(s, l)]) = clusterTrace tr := by
    rw [clusterTrace, partOf_snoc, hcl]
    exact List.append_nil _
  refine ⟨Driver.inLoad_step hr.sound hI.inLoad hs,
    Driver.silent_step hr.sound hI.silent hs hreply,
    hI.values.mono fun k y h => Driver.mayPut_step h hs, fun t c ht => ?_,
    fun c k y hc => ?_, fun t c k y ht hcall => ?_, fun t n k v hp => ?_⟩
  · obtain ⟨ht, hcall⟩ := hth t c ht
    rw [htrace, hcall]
    exact hI.called t c ht
  · obtain ⟨t, ht, hcall⟩ := hI.waits c k y hc
    obtain ⟨ht', hcall'⟩ := hwaits t c k y ht hc
    exact ⟨t, ht', hcall'.trans hcall⟩
  · obtain ⟨ht, hcall'⟩ := hth t c ht
    exact hI.puts t c k y ht (hcall'.symm.trans hcall)
  · rcases Driver.get_before hs hp with hp | ⟨hp, r, rfl⟩
    · obtain ⟨k', y, hk, hv, hkeeps, hread⟩ := hI.gets t n k v hp
      exact ⟨k', y, hk, hv, hkeeps, fun c ht => hread c (hth t c ht).1⟩
    · obtain ⟨⟨k', y, hk, hv, hkeeps⟩, hnone⟩ := hgets t n k v r hp rfl
      exact ⟨k', y, hk, hv, hkeeps, fun c ht => by cases hnone.symm.trans ht⟩

/-- A worker hears the answer to its call. -/
theorem Crashing.of_answer {t : ℕ} {c : CallId} {y : Outcome} {d : Driver}
    (hI : s.Crashing args tr) (hr : Arrived args tr s) (hc : s.thread t = some c)
    (hfin : s.cluster.locals c = .out (.finished y))
    (hs : s.driver.step args (.work t y.heard) = some d)
    (hreply : ∀ p k v r, s.driver.points t = some p → y.heard = .reply r →
      (s.driver.worker args t).awaits p = some (k, v) → r = pairText k v ∨ ErrorWord r)
    (hgets : ∀ n k v r, s.driver.points t = some (.put n k v) → y.heard = .reply r →
      ∃ (k' : Key) (x : Val), k = k'.toInt ∧ v = x.toInt ∧ s.cluster.Keeps k' x) :
    Crashing args (tr ++ [(s, .answer t)])
      { s with driver := d, thread := Function.update s.thread t none } := by
  refine hI.of_driver hr hs rfl (fun u c' hu => ?_) (fun u c' k' y' hu hw => ?_)
    (fun u p k v r hp e hw => ?_) fun u n k v r hp e => ?_
  · by_cases hut : u = t
    · subst hut
      cases (Function.update_self ..).symm.trans hu
    · rw [Function.update_of_ne hut] at hu
      exact ⟨hu, Driver.call_of_other hs hut⟩
  · have hut : u ≠ t := by
      rintro rfl
      obtain rfl := Option.some.inj (hc.symm.trans hu)
      cases hfin.symm.trans hw
    rw [Function.update_of_ne hut]
    exact ⟨hu, Driver.call_of_other hs hut⟩
  · obtain ⟨rfl, hheard⟩ := RunCluster.Label.work.inj e
    exact hreply p k v r hp hheard hw
  · obtain ⟨rfl, hheard⟩ := RunCluster.Label.work.inj e
    exact ⟨hgets n k v r hp hheard, Function.update_self ..⟩

/-- The answer to its put. -/
theorem Crashing.hear_put {t : ℕ} {c : CallId} {k : Key} {x : Val} {y : Outcome} {d : Driver}
    (hI : s.Crashing args tr) (hr : Arrived args tr s) (hc : s.thread t = some c)
    (hcall : s.driver.call t = some (.put k.toInt x.toInt))
    (hfin : s.cluster.locals c = .out (.finished y))
    (hs : s.driver.step args (.work t y.heard) = some d) :
    Crashing args (tr ++ [(s, .answer t)])
      { s with driver := d, thread := Function.update s.thread t none } := by
  refine hI.of_answer hr hc hfin hs (fun p j v r hp _ hw => ?_) fun n j v r hp hheard => ?_
  · -- a put waits for no pair
    have hget := RunCluster.Worker.call_of_awaits hw
    rw [RunCluster.Driver.call, hp] at hcall
    cases hget.symm.trans hcall
  · have hcall' := hcall
    rw [RunCluster.Driver.call, hp] at hcall'
    obtain ⟨rfl, rfl⟩ := RunCluster.Call.put.inj (Option.some.inj hcall')
    refine ⟨k, x, rfl, rfl, ?_⟩
    cases y with
    | threw e => cases hheard
    | returned y =>
      cases hI.puts t c k x hc hcall with
      | waits hl => cases hl.symm.trans hfin
      | holds hl => cases hl.symm.trans hfin
      | returned _ hkeeps => exact hkeeps
      | threw hl => cases hl.symm.trans hfin

/-- The pair that a worker hears is the one it waits for. -/
theorem Crashing.reads {t : ℕ} {c : CallId} {k : Key} {y : Val} {p : RunCluster.Point} {j v : ℤ}
    (hI : s.Crashing args tr) (hr : Arrived args tr s) (hc : s.thread t = some c)
    (hp : s.driver.points t = some p) (hw : (s.driver.worker args t).awaits p = some (j, v))
    (hj : j = k.toInt) (hfin : s.cluster.locals c = .out (.finished (.returned (.pair k y)))) :
    v = y.toInt := by
  cases p with
  | get n j' v' =>
    obtain ⟨rfl, rfl⟩ := Prod.mk.inj (Option.some.inj hw)
    obtain ⟨k', x, hk', hv, -, hread⟩ := hI.gets t n j' v' hp
    have hread := hread c hc
    rw [hfin] at hread
    obtain ⟨z, hz, rfl⟩ := hread _ rfl (by simp)
    obtain ⟨-, rfl⟩ := Reply.pair.inj hz
    exact hv
  | runGet ops n idx j' =>
    obtain ⟨v', hv', e⟩ := Option.map_eq_some_iff.mp hw
    obtain ⟨rfl, rfl⟩ := Prod.mk.inj e
    obtain ⟨-, hidx, hop, hk⟩ := hr.sound.worker t _ hp
    have hfrom := hI.values.points c
    rw [hfin] at hfrom
    have hload := hfrom.2 t idx hidx (.inr ⟨_, hp, hop⟩) (hj ▸ hk)
    exact Option.some.inj (hv'.symm.trans hload)
  | _ => cases hw

/-- The answer to its get. -/
theorem Crashing.hear_get {t : ℕ} {c : CallId} {k : Key} {y : Outcome} {d : Driver}
    (hI : s.Crashing args tr) (hr : Arrived args tr s) (hc : s.thread t = some c)
    (hcall : s.driver.call t = some (.get k.toInt)) (hst : Started c (.get k) (clusterTrace tr))
    (hfin : s.cluster.locals c = .out (.finished y))
    (hs : s.driver.step args (.work t y.heard) = some d) :
    Crashing args (tr ++ [(s, .answer t)])
      { s with driver := d, thread := Function.update s.thread t none } := by
  have hends : (Op.get k).Ends y := by
    have hruns := hr.runs c
    rw [hfin] at hruns
    rcases hruns with ⟨hidle, -⟩ | ⟨op, hop, hat⟩
    · cases hidle
    · obtain rfl := (hop _).mp hst
      exact hat
  refine hI.of_answer hr hc hfin hs (fun p j v r hp hheard hw => ?_) fun n j v r hp _ => ?_
  · cases y with
    | threw e => cases hheard
    | returned y =>
      obtain rfl := RunCluster.Act.reply.inj hheard
      rcases hends with ⟨z, rfl⟩ | rfl | rfl
      · have hget := RunCluster.Worker.call_of_awaits hw
        rw [RunCluster.Driver.call, hp] at hcall
        obtain rfl := RunCluster.Call.get.inj (Option.some.inj (hget.symm.trans hcall))
        obtain rfl := hI.reads hr hc hp hw rfl hfin
        exact .inl rfl
      · exact .inr (.inl rfl)
      · exact .inr (.inr rfl)
  · rw [RunCluster.Driver.call, hp] at hcall
    cases hcall

theorem Crashing.step (hI : s.Crashing args tr) (hr : Arrived args tr s) (hok : s.Weathered l)
    (hstep : s.step args l = some s') : s'.Crashing args (tr ++ [(s, l)]) := by
  cases move_of_step hstep with
  | @driver l d hl hs =>
    have hstays : ∀ t c, s.thread t = some c → d.call t = s.driver.call t := by
      intro t c ht
      obtain ⟨call, -, hcall, -⟩ := hI.called t c ht
      rw [hcall]
      exact Driver.call_stays hr.sound hs hl hcall
    have hwaiting : ∀ {t p call}, s.driver.points t = some p → p.call = some call →
        s.driver.call t ≠ none := by
      intro t p call hp hc
      rw [RunCluster.Driver.call, hp, Option.bind_some, hc]
      exact Option.some_ne_none _
    refine hI.of_driver hr hs rfl (fun t c ht => ⟨ht, hstays t c ht⟩)
      (fun t c _ _ ht _ => ⟨ht, hstays t c ht⟩) ?_ ?_
    · rintro t p k v r hp rfl hw
      exact absurd (hwaiting hp (RunCluster.Worker.call_of_awaits hw)) hl
    · rintro t n k v r hp rfl
      exact absurd (hwaiting hp rfl) hl
  | @frontend l x hs =>
    refine hI.of_cluster hr hs hok.2.1 rfl (fun _ _ => id) (fun _ _ => .inl) ?_
    rintro c k y rfl
    cases hok.2.2
  | @issue t c call o x hfree hcall ho hs =>
    refine hI.of_cluster hr hs (by simp [NoneLate]) (by simp [clusterLabel, hcall, ho])
      (fun u c' hu => ?_) (fun u c' hu => ?_) ?_
    · rw [Function.update_of_ne, hu]
      rintro rfl
      cases hfree.symm.trans hu
    · by_cases hut : u = t
      · subst hut
        rw [Function.update_self] at hu
        obtain rfl := Option.some.inj hu
        exact .inr ⟨call, o, hcall, ho, rfl⟩
      · rw [Function.update_of_ne hut] at hu
        exact .inl hu
    · intro c' k y e
      obtain ⟨rfl, he⟩ := Monitor.Label.run.inj e
      obtain rfl : o = .put k y := StoreOp.toOp_injective (Act.call.inj he)
      obtain rfl := RunCluster.Call.request_put ho
      exact ⟨t, Function.update_self .., hcall⟩
  | @refuse t call d hcall ho hs =>
    have hother : ∀ u c, s.thread u = some c → d.call u = s.driver.call u := by
      intro u c hu
      refine Driver.call_of_other hs ?_
      rintro rfl
      obtain ⟨call', o, hcall', ho', -⟩ := hI.called u c hu
      obtain rfl := Option.some.inj (hcall.symm.trans hcall')
      cases ho.symm.trans ho'
    exact hI.of_driver hr hs rfl (fun u c hu => ⟨hu, hother u c hu⟩)
      (fun u c _ _ hu _ => ⟨hu, hother u c hu⟩) (fun _ _ _ _ _ _ e => by cases e)
      fun _ _ _ _ _ _ e => by cases e
  | @answer t c y d hc hy hs =>
    obtain ⟨call, o, hcall, ho, hst⟩ := hI.called t c hc
    cases o with
    | put k x =>
      obtain rfl := RunCluster.Call.request_put ho
      exact hI.hear_put hr hc hcall (System.outcome_eq hy) hs
    | get k =>
      obtain rfl := RunCluster.Call.request_get ho
      exact hI.hear_get hr hc hcall hst (System.outcome_eq hy) hs

/-- Crashes and lost replies never make a worker print an error: on a cluster that has just
been started, in every run in which a server is always registered and nothing is executed
late, whatever servers crash, join and leave. -/
theorem crashes_print_no_error {servers : Finmap ServerRPC}
    (h : Run (step args) Weathered (.init (System.fresh servers)) tr s) (t : ℕ) (line : String) :
    s.driver.points t ≠ some (.ended (.printed line)) := by
  have hcrashing : s.Crashing args tr :=
    h.invariant (I := fun tr s => s.Crashing args tr) (.init servers)
      fun tr s l s' hrun hok hs hI => hI.step (.of_run hrun) hok hs
  exact hcrashing.silent t line

/-- Half way the worker kills server 0, and the heartbeat removes it. -/
def killHalfWay : RunCluster.Args := { checkedJoin with crashServer := 1, addServer := 0 }

def killHalfWayRun : List Label := List.flatten [
  [.driver (.reply "0,1"), .driver (.reply ""),
    .driver (.shuffle { keys := [0], loadVals := [0], runVals := [1] }),
    .driver (.work 0 .step), .issue 0 0],
  (putOn 0 0 0 [0, 1]).tail.map .frontend,
  [.answer 0, .driver (.work 0 .step), .driver .step, .driver (.work 0 (.choose 0)),
    .frontend (.env (.crash 0)), .driver (.work 0 (.reply ""))],
  [.run 1 (.call .heartBeat), .run 1 (.pick 1), .run 1 (.pick 0), .run 1 .exec, .run 1 .reply,
    .run 1 .step, .run 1 .throw, .run 1 .throw, .run 1 .throw, .run 1 .throw, .enter 1,
    .run 1 .step, .run 1 .step].map .frontend,
  [.driver (.work 0 (.choose 7)), .issue 0 2],
  (putOn 2 0 7 [1]).tail.map .frontend,
  [.answer 0, .issue 0 3],
  [.run 3 .step, .run 3 .step, .run 3 .step, .run 3 .step, .run 3 (.read .step),
    .run 3 (.read .step), .run 3 .reply].map .frontend,
  [.answer 0, .driver (.work 0 .step), .driver .step]]

theorem crashes_print_no_error_killHalfWay : ∃ tr s,
    Run (step killHalfWay) Weathered
      (.init (System.fresh (oneServer.insert 0 ⟨0, by decide⟩))) tr s ∧
      s.driver.main = .ended .returned ∧ s.cluster.outcome 3 = some (.returned (.pair 0 7)) ∧
      s.cluster.shared.crashed 0 = true ∧
      ∀ t line, s.driver.points t ≠ some (.ended (.printed line)) := by
  have hex : ((exec (step killHalfWay)
      (.init (System.fresh (oneServer.insert 0 ⟨0, by decide⟩))) killHalfWayRun).map
      fun s => (s.driver.main, s.cluster.outcome 3, s.cluster.shared.crashed 0)) =
        some (.ended .returned, some (.returned (.pair 0 7)), true) := by
    decide +kernel
  obtain ⟨s, hrun, hs⟩ := Run.exists_of_exec Weathered hex (by decide +kernel)
  simp only [Prod.mk.injEq] at hs
  exact ⟨_, s, hrun, hs.1, hs.2.1, hs.2.2, crashes_print_no_error hrun⟩

end Testbed

end ReplicatedStore
