/-
The read barrier of a write phase.

`ServerLockUtil.lock` catches what `Retry.run` throws and goes on to the next server,
so a call may write while a server that it could not lock is reachable again.  Every
other registered server is locked throughout the write phase of a put and the
transfer phase of `addServer`, and a reader that arrives at it does not pass.
-/
import ReplicatedStore.Loops
import ReplicatedStore.Runs

namespace ReplicatedStore

open Lib

/-- The phases in which `runWithLock` and `sendValuesToServer` write. -/
def Inside.writing : Inside → Bool
  | .write _ _ _ | .transfer _ _ _ _ => true
  | _ => false

/-- In this step of the call `c` the server `id` executes `lock()`. -/
def RanLock (c : CallId) (id : ServerId) (e : System × Label) : Prop :=
  e.2 = .run c .exec ∧ ∃ w todo n, e.1.locals c = .inn (.lock w (.body todo id ⟨n, .sent⟩))

/-- In this step of the call `c` the last attempt of `lock()` at `id` throws. -/
def GaveUpLock (c : CallId) (id : ServerId) (e : System × Label) : Prop :=
  e.2 = .run c .throw ∧
    ∃ w todo a, e.1.locals c = .inn (.lock w (.body todo id a)) ∧ RETRIES ≤ a.failures

/-- Since `c` took `serversLock`, every attempt of `lock()` at `id` has thrown, and
none of them was executed. -/
structure LockFailed (c : CallId) (tr : Trace) (id : ServerId) : Prop where
  gaveUp : ∃ e ∈ Monitor.sinceEnter c tr, GaveUpLock c id e
  never : ∀ e ∈ Monitor.sinceEnter c tr, ¬ RanLock c id e

/-! ## The invariant -/

/-- What is known of the barrier at each point of a critical section, with `es` the
steps since `serversLock` was taken. -/
def Inside.Barred (c : CallId) (es : Trace) (v : View) : Inside → Prop
  | .lock _ l => l.Within v ∧
      l.Swept (fun id v => v.isLocked id = true ∨ ∃ e ∈ es, GaveUpLock c id e) v ∧
      ∀ id ∈ v.servers, v.isLocked id = true ∨ ∀ e ∈ es, ¬ RanLock c id e
  | .write _ _ _ | .transfer _ _ _ _ => ∀ id ∈ v.servers, v.isLocked id = true ∨
      ((∃ e ∈ es, GaveUpLock c id e) ∧ ∀ e ∈ es, ¬ RanLock c id e)
  | _ => True

theorem Block.barred (b : Block) (c : CallId) (v : View) : b.start.Barred c [] v := by
  cases b with
  | withLock w => exact ⟨Loop.start_within v, Loop.start_swept _ v, fun id _ => .inr (by simp)⟩
  | _ => exact trivial

theorem Inside.Barred.of_writing {c : CallId} {es : Trace} {v : View} {i : Inside}
    (h : ∀ id ∈ v.servers, v.isLocked id = true ∨
      ((∃ e ∈ es, GaveUpLock c id e) ∧ ∀ e ∈ es, ¬ RanLock c id e))
    (hi : i.writing = true ∨ ∀ w l, i ≠ .lock w l) : i.Barred c es v := by
  cases i with
  | write k x l => exact h
  | transfer id rpc sender a => exact h
  | lock w l =>
    rcases hi with hi | hi
    · cases hi
    · exact absurd rfl (hi w l)
  | _ => exact trivial

/-- A step that runs no `lock()` keeps what is known of the servers. -/
theorem barred_cons {c : CallId} {es : Trace} {v v' : View} {e : System × Label}
    (h : ∀ id ∈ v.servers, v.isLocked id = true ∨
      ((∃ e ∈ es, GaveUpLock c id e) ∧ ∀ e ∈ es, ¬ RanLock c id e))
    (hs : v'.servers = v.servers) (hl : v'.isLocked = v.isLocked)
    (he : ∀ id, ¬ RanLock c id e) :
    ∀ id ∈ v'.servers, v'.isLocked id = true ∨
      ((∃ e' ∈ e :: es, GaveUpLock c id e') ∧ ∀ e' ∈ e :: es, ¬ RanLock c id e') := by
  intro id hid
  rw [hs] at hid
  rw [hl]
  rcases h id hid with hlock | ⟨⟨e', he', hgave⟩, hnever⟩
  · exact .inl hlock
  · refine .inr ⟨⟨e', List.mem_cons_of_mem _ he', hgave⟩, fun e'' he'' => ?_⟩
    rcases List.mem_cons.mp he'' with rfl | he''
    · exact he id
    · exact hnever e'' he''

/-- A writing phase locks and unlocks nothing. -/
theorem Inside.Move.isLocked_of_writing {c : CallId} {v v' : View} {i : Inside} {a : Act}
    {r : Inside ⊕ Outside} (h : Inside.Move c v i a v' r) (hi : i.writing = true) :
    v'.servers = v.servers ∧ v'.isLocked = v.isLocked := by
  cases h with
  | write h =>
    refine ⟨h.servers, ?_⟩
    cases h with
    | @exec todo id att _ _ => cases att.state <;> simp
    | _ => rfl
  | send _ h => exact ⟨h.servers, h.isLocked⟩
  | senderFound _ => exact ⟨rfl, rfl⟩
  | senderGone _ => exact ⟨rfl, rfl⟩
  | sent => exact ⟨rfl, rfl⟩
  | transferThrow _ => exact ⟨rfl, rfl⟩
  | _ => cases hi

/-- A step from a writing phase leads to no lock phase. -/
theorem Inside.Move.not_lock_of_writing {c : CallId} {v v' : View} {i i' : Inside} {a : Act}
    (h : Inside.Move c v i a v' (.inl i')) (hi : i.writing = true) :
    ∀ w l, i' ≠ .lock w l := by
  intro w l
  generalize hr : (Sum.inl i' : Inside ⊕ Outside) = r at h
  cases h with
  | @write k x l a v' f h =>
    obtain rfl := Sum.inl.inj hr
    cases f <;> simp [Flow.point, Inside.raise]
  | @senderGone id rpc sender n _ =>
    obtain rfl := Sum.inl.inj hr
    rcases Transfer.failed_cases id rpc sender ⟨n, .lookup⟩ with ⟨_, e⟩ | ⟨_, e⟩ <;> rw [e] <;>
      simp [Inside.raise]
  | @transferThrow id rpc sender n p _ =>
    obtain rfl := Sum.inl.inj hr
    rcases Transfer.failed_cases id rpc sender ⟨n, .remote p⟩ with ⟨_, e⟩ | ⟨_, e⟩ <;> rw [e] <;>
      simp [Inside.raise]
  | senderFound _ => obtain rfl := Sum.inl.inj hr; simp
  | send _ _ => obtain rfl := Sum.inl.inj hr; simp
  | sent => obtain rfl := Sum.inl.inj hr; simp
  | leave => cases hr
  | _ => cases hi

/-- `lock` unlocks no server. -/
theorem Loop.Move.lock_keeps {sw : Bool} {c : CallId} {v v' : View} {l : Loop} {a : Act}
    {f : Flow} (h : Loop.Move .lock sw c v l a v' f) {id : ServerId}
    (hid : v.isLocked id = true) : v'.isLocked id = true := by
  cases h with
  | @exec todo id' att _ _ =>
    by_cases he : id = id'
    · subst he
      cases att.state <;> simp [hid]
    · rw [Method.effect_isLocked_of_ne _ _ _ he]
      exact hid
  | _ => exact hid

theorem Inside.Move.barred {s : System} {c : CallId} {v' : View} {i i' : Inside} {a : Act}
    {es : Trace} (hl : s.locals c = .inn i) (h : Inside.Move c s.shared.view i a v' (.inl i'))
    (ha : a ≠ .linger) (hi : i.Barred c es s.shared.view) :
    i'.Barred c ((s, .run c a) :: es) v' := by
  by_cases hw : i.writing = true
  · have hnot : ∀ id, ¬ RanLock c id (s, .run c a) := by
      rintro id ⟨_, w, todo, n, hlock⟩
      obtain rfl := Monitor.Local.inn.inj (hl.symm.trans hlock)
      cases hw
    have hi' : ∀ id ∈ s.shared.view.servers, s.shared.view.isLocked id = true ∨
        ((∃ e ∈ es, GaveUpLock c id e) ∧ ∀ e ∈ es, ¬ RanLock c id e) := by
      cases i with
      | write k x l => exact hi
      | transfer id rpc sender a => exact hi
      | _ => cases hw
    have hsame := h.isLocked_of_writing hw
    exact .of_writing (barred_cons hi' hsame.1 hsame.2 hnot) (.inr (h.not_lock_of_writing hw))
  · generalize hr : (Sum.inl i' : Inside ⊕ Outside) = r at h
    cases h with
    | @lock w l a v' f h =>
      obtain rfl := Sum.inl.inj hr
      obtain ⟨hwithin, hswept, hran⟩ := hi
      have hran' : ∀ id ∈ v'.servers, v'.isLocked id = true ∨
          ∀ e ∈ (s, .run c a) :: es, ¬ RanLock c id e := by
        intro id hid
        rw [h.servers] at hid
        rcases hran id hid with hlock | hnever
        · exact .inl (h.lock_keeps hlock)
        · by_cases hnow : RanLock c id (s, .run c a)
          · -- the server has just executed `lock()`
            obtain ⟨hact, w', todo, n, hbody⟩ := hnow
            obtain ⟨rfl, rfl⟩ := Inside.lock.inj (Monitor.Local.inn.inj (hl.symm.trans hbody))
            obtain rfl : a = .exec := by simpa using hact
            cases h
            exact .inl (by simp)
          · refine .inr fun e he => ?_
            rcases List.mem_cons.mp he with rfl | he
            · exact hnow
            · exact hnever e he
      cases f with
      | again l' =>
        refine ⟨h.within hwithin, h.swept ?_ ?_ ?_ hswept, hran'⟩
        · intro id hid
          rcases hid with hlock | ⟨e, he, hgave⟩
          · exact .inl (h.lock_keeps hlock)
          · exact .inr ⟨e, List.mem_cons_of_mem _ he, hgave⟩
        · rintro todo id att _ _ _ rfl
          exact .inl (by simp)
        · rintro _ todo id att rfl hact hr
          have hthrow : a = .throw := hact.resolve_right ha
          exact .inr ⟨_, List.mem_cons_self, by rw [hthrow], w, todo, att, hl, hr⟩
      | done =>
        obtain ⟨rfl, rfl⟩ := h.done_inv
        refine .of_writing (fun id hid => ?_) (.inl (by cases w <;> rfl))
        rcases hran' id hid with hlock | hnever
        · exact .inl hlock
        · rcases Loop.swept_done hswept id hid with hlock | ⟨e, he, hgave⟩
          · exact .inl hlock
          · exact .inr ⟨⟨e, List.mem_cons_of_mem _ he, hgave⟩, hnever⟩
      | raised => cases h.raised_inv.1
    | @unlock w l a v' f h =>
      obtain rfl := Sum.inl.inj hr
      cases f <;> cases w <;> exact trivial
    | leave => cases hr
    | write _ => exact absurd rfl hw
    | senderFound _ => exact absurd rfl hw
    | senderGone _ => exact absurd rfl hw
    | send _ _ => exact absurd rfl hw
    | sent => exact absurd rfl hw
    | transferThrow _ => exact absurd rfl hw
    | _ => obtain rfl := Sum.inl.inj hr; exact trivial

/-- Steps of others add nothing to what has happened to a call's locks. -/
theorem Inside.Barred.other {c : CallId} {es : Trace} {v v' : View} {i : Inside}
    {e : System × Label} (h : i.Barred c es v) (hs : v'.servers = v.servers)
    (hl : v'.isLocked = v.isLocked) (he : ∀ id, ¬ RanLock c id e) :
    i.Barred c (e :: es) v' := by
  cases i with
  | lock w l =>
    obtain ⟨hwithin, hswept, hran⟩ := h
    refine ⟨by simpa [Loop.Within, hs] using hwithin, fun id hid => ?_, fun id hid => ?_⟩
    · rw [hs] at hid
      rw [hl]
      rcases hswept id hid with hlock | ⟨e', he', hgave⟩
      · exact .inl hlock
      · exact .inr ⟨e', List.mem_cons_of_mem _ he', hgave⟩
    · rw [hs] at hid
      rw [hl]
      rcases hran id hid with hlock | hnever
      · exact .inl hlock
      · refine .inr fun e' he' => ?_
        rcases List.mem_cons.mp he' with rfl | he'
        · exact he id
        · exact hnever e' he'
  | write k x l => exact barred_cons h hs hl he
  | transfer id rpc sender a => exact barred_cons h hs hl he
  | _ => exact trivial

/-! ## Runs -/

theorem barrier_resource : Monitor.Resource frontend (fun _ l => NoneLate l)
    (fun _ _ => True) (fun tr c i cl => i.Barred c (Monitor.sinceEnter c tr) cl.view) where
  enter _ _ he _ := by
    obtain ⟨b, _, rfl⟩ := Outside.entry_eq_some he
    rw [Monitor.sinceEnter_enter]
    exact b.barred _ _
  inside hok hl hs hI := by
    rw [Monitor.sinceEnter_run]
    exact (Inside.Move.of_step hs).barred hl hok hI
  leave _ _ _ _ := trivial
  outside_free _ _ _ _ := trivial
  outside_held {tr s t a w w' σ' u i} _ hl hs hu hI := by
    rw [Monitor.sinceEnter_run]
    have hview : σ'.view = s.shared.view := Outside.step_view hs
    refine hI.other (by rw [hview]) (by rw [hview]) ?_
    rintro id ⟨hlabel, w', todo, n, hlock⟩
    obtain ⟨rfl, rfl⟩ : t = u ∧ a = .exec := by simpa using hlabel
    rw [hl] at hlock
    cases hlock
  env_free _ _ _ _ := trivial
  env_held {tr s e σ' u i} hok hs _ _ hI := by
    rw [Monitor.sinceEnter_env]
    obtain ⟨id, rfl⟩ := hok
    obtain rfl := Option.some.inj hs
    refine hI.other rfl rfl ?_
    rintro id' ⟨hlabel, _⟩
    cases hlabel

/-! ## Readers at a locked server -/

/-- A reader that has not passed the test of `isLocked`. -/
def Reader.Waits : Reader → Prop
  | .test | .enter | .waiting => True
  | _ => False

/-- The reader `d` is still at the server `id`, and has not passed, or its connection
has broken. -/
def Blocked (d : CallId) (q : Query) (id : ServerId) (s : System) : Prop :=
  (∃ r, s.locals d = .out (.remote q id r) ∧ r.Waits) ∨
    s.locals d = .out (.finished (.threw .runtime))

theorem ServerRPCImpl.read_waits {p p' : ServerRPCImpl} {q : Query} {c : CallId}
    {r r' : Reader} {a : ReaderAct} (h : p.read q c r a = some (p', r'))
    (hp : p.isLocked = true) (hr : r.Waits) : r'.Waits := by
  cases r with
  | test =>
    cases a <;> simp only [ServerRPCImpl.read] at h <;> try contradiction
    obtain ⟨-, rfl⟩ := Prod.mk.inj (Option.some.inj h)
    rw [if_pos hp]
    exact trivial
  | enter =>
    cases a <;> simp only [ServerRPCImpl.read] at h <;> try contradiction
    obtain ⟨-, rfl⟩ := Prod.mk.inj (Option.some.inj h)
    exact trivial
  | waiting =>
    cases a <;> simp only [ServerRPCImpl.read] at h <;> try contradiction
    all_goals
      split at h
      all_goals first
        | contradiction
        | (obtain ⟨-, rfl⟩ := Prod.mk.inj (Option.some.inj h); exact trivial)
  | _ => exact absurd hr id

/-- While a call is in a writing phase, a reader that came to a locked server does not
pass. -/
theorem reader_blocked {s s' : System} {tr : Trace} {c d : CallId} {q : Query} {id : ServerId}
    (h : SystemRun (fun _ l => NoneLate l) s tr s') (hx : Monitor.Exclusive s)
    (hc : ∀ e ∈ tr, ∃ i, e.1.locals c = .inn i ∧ i.writing = true)
    (hlock : (s.shared.process id).isLocked = true)
    (hd : s.locals d = .out (.remote q id .test)) : Blocked d q id s' := by
  have hinv : (s'.shared.process id).isLocked = true ∧ Blocked d q id s' := by
    refine h.invariant (I := fun tr s' => (∀ e ∈ tr, ∃ i, e.1.locals c = .inn i ∧
      i.writing = true) → (s'.shared.process id).isLocked = true ∧ Blocked d q id s') ?_ ?_ hc
    · exact fun _ => ⟨hlock, .inl ⟨.test, hd, trivial⟩⟩
    · intro tr t l t' hrun hok hs ih hc
      obtain ⟨i, hi, hw⟩ := hc (t, l) (List.mem_append_right _ (List.mem_singleton_self _))
      obtain ⟨hl, hb⟩ := ih fun e he => hc e (List.mem_append_left _ he)
      have hstep := Monitor.Step.of_step frontend hs
      have hexcl : Monitor.Exclusive t := Monitor.Run.exclusive hrun hx
      constructor
      · cases hstep with
        | outside _ hp =>
          rw [← Cluster.view_isLocked, Outside.step_view hp]
          exact hl
        | inside hl' hp =>
          obtain rfl := hexcl.eq_of_inn hi hl'
          obtain rfl := Monitor.Local.inn.inj (hi.symm.trans hl')
          rw [← Cluster.view_isLocked, ((Inside.Move.of_step hp).isLocked_of_writing hw).2]
          exact hl
        | leave hl' hp =>
          obtain rfl := hexcl.eq_of_inn hi hl'
          obtain rfl := Monitor.Local.inn.inj (hi.symm.trans hl')
          rw [← Cluster.view_isLocked, ((Inside.Move.of_step hp).isLocked_of_writing hw).2]
          exact hl
        | enter _ _ _ => exact hl
        | env hp =>
          obtain ⟨id', rfl⟩ := hok
          obtain rfl := Option.some.inj hp
          exact hl
      · rcases hb with ⟨r, hr, hwait⟩ | hfin
        · rcases hstep.of_out hr with ⟨_, hsame⟩ | ⟨a, w', rfl, ha, hl'⟩ | ⟨j, rfl, he, _⟩
          · exact .inl ⟨r, hsame, hwait⟩
          · cases a <;> simp only [frontend, Outside.step] at ha <;> try contradiction
            case read b =>
              split at ha
              · cases ha
              · obtain ⟨⟨p, r'⟩, hread, heq⟩ := Option.map_eq_some_iff.mp ha
                obtain ⟨-, rfl⟩ := Prod.mk.inj heq
                exact .inl ⟨r', hl', ServerRPCImpl.read_waits hread hl hwait⟩
            case reply => cases r <;> simp only at ha <;> contradiction
            case throw =>
              obtain ⟨-, rfl⟩ := Prod.mk.inj (Option.some.inj ha)
              exact .inr hl'
          · simp [frontend, Outside.entry] at he
        · exact .inr (finished_stays hstep hfin)
  exact hinv.2

/-! ## The barrier -/

/-- When nothing is executed after its attempt has thrown, every registered server is locked
during a writing phase, except where all attempts of this call to lock it threw unexecuted,
and no reader that arrives at a locked one passes before the phase is over. -/
theorem write_barrier {s₀ s : System} {tr : Trace} {c : CallId} {i : Inside} (h₀ : Quiet s₀)
    (h : SystemRun (fun _ l => NoneLate l) s₀ tr s) (hl : s.locals c = .inn i)
    (hw : i.writing = true) :
    ∀ id ∈ s.shared.servers, LockFailed c tr id ∨
      ((s.shared.process id).isLocked = true ∧
        ∀ d q tr' s', SystemRun (fun _ l => NoneLate l) s tr' s' →
          (∀ e ∈ tr', ∃ j, e.1.locals c = .inn j ∧ j.writing = true) →
          s.locals d = .out (.remote q id .test) → Blocked d q id s') := by
  have hres := Monitor.Run.resource h barrier_resource h₀.exclusive
    ⟨fun _ => trivial, fun c i hi => absurd hi h₀.not_inn⟩
  have hbarred := hres.held c i hl
  intro id hid
  have hid' : (s.shared.process id).isLocked = true ∨ LockFailed c tr id := by
    cases i with
    | write k x l =>
      rcases hbarred id hid with hlock | ⟨hgave, hnever⟩
      · exact .inl hlock
      · exact .inr ⟨hgave, hnever⟩
    | transfer id' rpc sender a =>
      rcases hbarred id hid with hlock | ⟨hgave, hnever⟩
      · exact .inl hlock
      · exact .inr ⟨hgave, hnever⟩
    | _ => cases hw
  rcases hid' with hlock | hfailed
  · exact .inr ⟨hlock, fun d q tr' s' h' hc hd =>
      reader_blocked h' (Monitor.Run.exclusive h h₀.exclusive) hc hlock hd⟩
  · exact .inl hfailed

/-- A put that cannot reach server 1 in its lock phase, up to its first write. -/
def putUnlocked : List Label :=
  [.run 0 (.call (.put 5 7)), .enter 0, .run 0 .step, .run 0 (.pick 1), .run 0 .throw,
    .run 0 .throw, .run 0 .throw, .run 0 .throw, .run 0 (.pick 2), .run 0 .exec, .run 0 .reply,
    .run 0 .step, .run 0 .step, .run 0 (.pick 2)]

/-- What `putUnlocked` comes to: the first write, on server 2, with server 1 open. -/
theorem putUnlocked_exec :
    ∃ s todo, SystemRun (fun _ l => NoneLate l) (System.fresh twoServers)
        (traceOf System.step (System.fresh twoServers) putUnlocked) s ∧
      s.locals 0 = .inn (.write 5 7 (.body todo 2 (.first .sent))) ∧
      1 ∈ s.shared.servers ∧ 2 ∈ s.shared.servers ∧ s.shared.crashed 1 = false ∧
      s.shared.crashed 2 = false ∧ (s.shared.process 1).isLocked = false := by
  have hex : ((exec System.step (System.fresh twoServers) putUnlocked).map fun s =>
      (s.sends 0, decide (1 ∈ s.shared.servers ∧ 2 ∈ s.shared.servers ∧
        s.shared.crashed 1 = false ∧ s.shared.crashed 2 = false ∧
        (s.shared.process 1).isLocked = false))) =
      some (some (5, 7, 2), true) := by
    decide +kernel
  obtain ⟨s, hrun, hs⟩ := Run.exists_of_exec (fun _ l => NoneLate l) hex (by decide +kernel)
  simp only [Prod.mk.injEq, decide_eq_true_eq] at hs
  obtain ⟨todo, hloc⟩ := System.sends_eq hs.1
  exact ⟨s, todo, hrun, hloc, hs.2⟩

theorem write_barrier_putUnlocked :
    ∃ tr s, SystemRun (fun _ l => NoneLate l) (System.fresh twoServers) tr s ∧
      (s.shared.process 1).isLocked = false ∧ LockFailed 0 tr 1 := by
  obtain ⟨s, todo, hrun, hl, h1, _, _, _, hlock⟩ := putUnlocked_exec
  refine ⟨_, s, hrun, hlock, ?_⟩
  have hbar := write_barrier (System.fresh_quiet twoServers) hrun hl rfl 1 h1
  refine hbar.resolve_right ?_
  rintro ⟨hlocked, _⟩
  rw [hlock] at hlocked
  cases hlocked

/-- The steps in which `put` is executed, at a registered server for a put and at the
joining server for a transfer. -/
def ExecutesWrite (c : CallId) (s : System) (l : Label) : Prop :=
  (l = .run c .exec ∧ ∃ k x todo id n, s.locals c = .inn (.write k x (.body todo id ⟨n, .sent⟩))) ∨
  (l = .run c (.send .exec) ∧ ∃ id rpc sender n todo k x m, s.locals c =
    .inn (.transfer id rpc sender ⟨n, .remote (.put todo k x ⟨m, .sent⟩)⟩))

/-- The first write of `putUnlocked` is executed while server 1 is open. -/
theorem putUnlocked_not_barred :
    ¬ ∀ (s₀ s s' : System) (tr : Trace) (c : CallId) (l : Label), Quiet s₀ →
      SystemRun (fun _ l => NoneLate l) s₀ tr s → System.step s l = some s' →
      ExecutesWrite c s l → ∀ id ∈ s.shared.servers, s.shared.crashed id = false →
        (s.shared.process id).isLocked = true := by
  intro hclaim
  obtain ⟨s, todo, hrun, hl, h1, _, hc1, hc2, hlock⟩ := putUnlocked_exec
  have hstep : ∃ s', System.step s (.run 0 .exec) = some s' := by
    simp [System.step, Monitor.step, hl, frontend, Inside.step, ServerLockUtil.apply, Loop.step,
      Cluster.exec, Attempt.first, hc2, Method.step]
  obtain ⟨s', hs'⟩ := hstep
  have hwrite : ExecutesWrite 0 s (.run 0 .exec) := .inl ⟨rfl, 5, 7, todo, 2, 0, hl⟩
  have hlocked := hclaim _ s s' _ 0 _ (System.fresh_quiet _) hrun hs' hwrite 1 h1 hc1
  rw [hlock] at hlocked
  cases hlocked

end ReplicatedStore
