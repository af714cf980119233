/-
The read lock after a call.

`runWithLock` and `addServer` send `unlock` only when everything before it went
well: neither has a `finally`.  A call that gives up on an RPC in its write,
transfer or unlock phase therefore leaves the servers locked that it has not
unlocked yet.  A `lock` that comes late from the network, to a server that the running
call has no longer to unlock, is left behind too.  Runs in which no call gives up while
a live registered server is locked, and no `lock` comes late like that, keep every live
server open whenever `serversLock` is free.
-/
import ReplicatedStore.Loops
import ReplicatedStore.Runs

namespace ReplicatedStore

open Lib

namespace View

/-- No live server is locked. -/
def Open (v : View) : Prop := ∀ id, v.crashed id = false → v.isLocked id = false

/-- No live server outside the membership is locked. -/
def OpenOutside (v : View) : Prop :=
  ∀ id, id ∉ v.servers → v.crashed id = false → v.isLocked id = false

theorem Open.outside {v : View} (h : v.Open) : v.OpenOutside := fun id _ => h id

theorem OpenOutside.all {v : View} (h : v.OpenOutside)
    (hreg : ∀ id ∈ v.servers, v.crashed id = false → v.isLocked id = false) : v.Open := by
  intro id hc
  by_cases hid : id ∈ v.servers
  · exact hreg id hid hc
  · exact h id hid hc

end View

/-- The call has still to make the server `id` run `unlock`, if that is registered. -/
def Inside.BeforeUnlock (id : ServerId) : Inside → Prop
  | .lock _ _ | .write _ _ _ | .transfer _ _ _ _ => True
  | .unlock _ l => l.Before id
  | _ => False

instance (id : ServerId) : DecidablePred (Inside.BeforeUnlock id) := fun i => by
  unfold Inside.BeforeUnlock
  split <;> infer_instance

/-- The thread that holds `serversLock` has. -/
def System.BeforeUnlock (s : System) (id : ServerId) : Prop :=
  match s.holder with
  | some i => i.BeforeUnlock id
  | none => False

instance (s : System) (id : ServerId) : Decidable (s.BeforeUnlock id) := by
  unfold System.BeforeUnlock
  split <;> infer_instance

/-- The step ends the call by an exception from `Retry.run`: the last attempt of a
write, a transfer or an unlock throws. -/
def Inside.GivesUp (v : View) : Inside → Act → Prop
  | .write _ _ (.body _ _ a), act => RETRIES ≤ a.failures ∧ (act = .throw ∨ act = .linger)
  | .unlock _ (.body _ _ a), act => RETRIES ≤ a.failures ∧ (act = .throw ∨ act = .linger)
  | .transfer _ _ sender a, act =>
    RETRIES ≤ a.failures ∧ (act = .throw ∨ act = .step ∧ sender ∉ v.servers)
  | _, _ => False

instance (v : View) (i : Inside) (a : Act) : Decidable (i.GivesUp v a) := by
  unfold Inside.GivesUp
  split <;> infer_instance

/-- A live registered server is locked. -/
def View.SomeLocked (v : View) : Prop :=
  ∃ id ∈ v.servers.keys, v.crashed id = false ∧ v.isLocked id = true

-- The instance is named, since a search may decide `∃` over all values of `int`.
instance (v : View) : Decidable v.SomeLocked := Finset.decidableExistsAndFinset

/-- A thread at this point gives up while a live registered server is locked. -/
def View.Abandons (v : View) (a : Act) : Monitor.Local Outside Inside → Prop
  | .inn i => i.GivesUp v a ∧ v.SomeLocked
  | .out _ => False

/-- A `lock` request that was left in the network reaches an open server, and no `unlock` is
still to be run there by the call that holds the lock. -/
def System.LocksLate (s : System) : Option Request → Prop
  | some r => r.method = .lock ∧ r.progress = .sent ∧
      (s.shared.process r.serverId).isLocked = false ∧
      ¬ (r.serverId ∈ s.shared.servers ∧ s.BeforeUnlock r.serverId)
  | none => False

/-- The steps that leave a lock behind. -/
def LeavesLocked (s : System) : Label → Prop
  | .run c a => s.shared.view.Abandons a (s.locals c)
  | .enter _ => False
  | .env (.crash _) => False
  | .env (.deliver n) => s.LocksLate s.shared.outstanding[n]?

instance (v : View) (a : Act) : DecidablePred (v.Abandons a) := fun l =>
  match l with
  | .inn _ => instDecidableAnd
  | .out _ => isFalse not_false

instance (s : System) : DecidablePred s.LocksLate := fun q =>
  match q with
  | some _ => instDecidableAnd
  | none => isFalse not_false

instance (s : System) : DecidablePred (LeavesLocked s) := fun l =>
  match l with
  | .run c a => inferInstanceAs (Decidable (s.shared.view.Abandons a (s.locals c)))
  | .enter _ => isFalse not_false
  | .env (.crash _) => isFalse not_false
  | .env (.deliver n) => inferInstanceAs (Decidable (s.LocksLate s.shared.outstanding[n]?))

/-! ## The invariant -/

/-- What is known of the lock bits at each point of a critical section. -/
def Inside.LockBits (v : View) : Inside → Prop
  | .lock _ l => v.OpenOutside ∧ l.Within v
  | .write _ _ l => v.OpenOutside ∧ l.Within v
  | .transfer _ _ _ _ => v.OpenOutside
  | .unlock _ l => v.OpenOutside ∧ l.Within v ∧
      l.Swept (fun id v => v.crashed id = false → v.isLocked id = false) v
  | _ => v.Open

theorem Block.lockBits {v : View} (b : Block) (h : v.Open) : b.start.LockBits v := by
  cases b with
  | withLock w => exact ⟨h.outside, Loop.start_within v⟩
  | _ => exact h

theorem Method.effect_openOutside {m : Method} {pr : Progress} {id : ServerId} {v : View}
    (h : v.OpenOutside) (hid : id ∈ v.servers) : (m.effect pr id v).OpenOutside := by
  intro x hx hc
  rw [Method.effect_servers] at hx
  rw [Method.effect_crashed] at hc
  rw [Method.effect_isLocked_of_ne m pr v (ne_of_mem_of_not_mem hid hx).symm]
  exact h x hx hc

theorem Loop.Move.openOutside {m : Method} {sw : Bool} {c : CallId} {v v' : View} {l : Loop}
    {a : Act} {f : Flow} (h : Loop.Move m sw c v l a v' f) (hw : l.Within v)
    (ho : v.OpenOutside) : v'.OpenOutside := by
  cases h with
  | exec _ _ => exact Method.effect_openOutside ho hw.mem_servers
  | _ => exact ho

/-- `unlock` opens the server it runs on and locks none. -/
theorem Loop.Move.unlock_keeps {sw : Bool} {c : CallId} {v v' : View} {l : Loop} {a : Act}
    {f : Flow} (h : Loop.Move .unlock sw c v l a v' f) (id : ServerId)
    (hd : v.crashed id = false → v.isLocked id = false) :
    v'.crashed id = false → v'.isLocked id = false := by
  cases h with
  | @exec todo id' att _ _ =>
    rw [Method.effect_crashed]
    intro hc
    by_cases he : id = id'
    · subst he
      cases hst : att.state <;> simp [hd hc]
    · rw [Method.effect_isLocked_of_ne _ _ _ he]
      exact hd hc
  | _ => exact hd

theorem Inside.Move.lockBits {c : CallId} {v v' : View} {i : Inside} {a : Act}
    {r : Inside ⊕ Outside} (h : Inside.Move c v i a v' r) (hi : i.LockBits v)
    (hok : i.GivesUp v a → ¬ v.SomeLocked) :
    (∀ i', r = .inl i' → i'.LockBits v') ∧ (∀ w, r = .inr w → v'.Open) := by
  have hopen : v.OpenOutside → ¬ v.SomeLocked → v.Open := fun ho hn => ho.all fun id hid hc => by
    by_contra hl
    exact hn ⟨id, hid, hc, by simpa using hl⟩
  cases h with
  | @lock w l a v' f h =>
    refine ⟨fun i' e => ?_, by simp⟩
    obtain rfl := Sum.inl.inj e
    have ho := h.openOutside hi.2 hi.1
    cases f with
    | again l' => exact ⟨ho, h.within hi.2⟩
    | done =>
      cases w with
      | put k x => exact ⟨ho, Loop.start_within _⟩
      | addServer id rpc sender => exact ho
    | raised => cases h.raised_inv.1
  | @write k x l a v' f h =>
    refine ⟨fun i' e => ?_, by simp⟩
    obtain rfl := Sum.inl.inj e
    have ho := h.openOutside hi.2 hi.1
    cases f with
    | again l' => exact ⟨ho, h.within hi.2⟩
    | done => exact ⟨ho, Loop.start_within _, Loop.start_swept _ _⟩
    | raised =>
      obtain ⟨_, todo, id, att, rfl, hr, ⟨rfl, rfl⟩ | ⟨rfl, rfl⟩⟩ := h.raised_inv
      · exact hopen hi.1 (hok ⟨hr, .inl rfl⟩)
      · exact hopen hi.1 (hok ⟨hr, .inr rfl⟩)
  | @unlock w l a v' f h =>
    refine ⟨fun i' e => ?_, by simp⟩
    obtain rfl := Sum.inl.inj e
    have ho := h.openOutside hi.2.1 hi.1
    cases f with
    | again l' =>
      refine ⟨ho, h.within hi.2.1, h.swept (fun id => h.unlock_keeps id) ?_ (by simp) hi.2.2⟩
      intro todo id att _ _ _ hv _
      simp [hv]
    | done =>
      obtain ⟨rfl, rfl⟩ := h.done_inv
      have hall : v'.Open := ho.all (Loop.swept_done hi.2.2)
      cases w <;> exact hall
    | raised =>
      obtain ⟨_, todo, id, att, rfl, hr, ⟨rfl, rfl⟩ | ⟨rfl, rfl⟩⟩ := h.raised_inv
      · exact hopen hi.1 (hok ⟨hr, .inl rfl⟩)
      · exact hopen hi.1 (hok ⟨hr, .inr rfl⟩)
  | senderFound _ => exact ⟨fun i' e => by obtain rfl := Sum.inl.inj e; exact hi, by simp⟩
  | @senderGone id rpc sender n hs =>
    refine ⟨fun i' e => ?_, by simp⟩
    obtain rfl := Sum.inl.inj e
    rcases Transfer.failed_cases id rpc sender ⟨n, .lookup⟩ with ⟨_, e⟩ | ⟨hr, e⟩ <;> rw [e]
    · exact hi
    · exact hopen hi (hok ⟨hr, .inr ⟨rfl, hs⟩⟩)
  | @send id rpc sender n p p' b v' hc h =>
    refine ⟨fun i' e => ?_, by simp⟩
    obtain rfl := Sum.inl.inj e
    intro x hx hcx
    rw [h.servers] at hx
    rw [h.crashed] at hcx
    rw [h.isLocked]
    exact hi x hx hcx
  | sent =>
    refine ⟨fun i' e => ?_, by simp⟩
    obtain rfl := Sum.inl.inj e
    exact ⟨hi, Loop.start_within _, Loop.start_swept _ _⟩
  | @transferThrow id rpc sender n p _ =>
    refine ⟨fun i' e => ?_, by simp⟩
    obtain rfl := Sum.inl.inj e
    rcases Transfer.failed_cases id rpc sender ⟨n, .remote p⟩ with ⟨_, e⟩ | ⟨hr, e⟩ <;> rw [e]
    · exact hi
    · exact hopen hi (hok ⟨hr, .inl rfl⟩)
  | leave => exact ⟨by simp, fun w _ => hi⟩
  | _ => exact ⟨fun i' e => by obtain rfl := Sum.inl.inj e; exact hi, by simp⟩

/-- Nothing that comes late from the network locks a server that no unlock phase will
reach. -/
def View.LateOpen (v : View) (r : Request) : Prop :=
  r.method = .lock → r.progress = .sent → v.isLocked r.serverId = true

theorem Method.effect_keeps_open {m : Method} {pr : Progress} {id id' : ServerId} {v : View}
    (hlock : m = .lock → pr = .sent → v.isLocked id = true)
    (h : v.crashed id' = false → v.isLocked id' = false)
    (hc : v.crashed id' = false) : (m.effect pr id v).isLocked id' = false := by
  by_cases he : id' = id
  · subst he
    cases pr <;> cases m <;> simp [h hc]
    have := hlock rfl rfl
    simp [h hc] at this
  · rw [Method.effect_isLocked_of_ne m pr v he]
    exact h hc

theorem Event.Move.open {v v' : View} {e : Event} (h : Event.Move v e v') (ho : v.Open)
    (hlate : ∀ n r, e = .deliver n → v.outstanding[n]? = some r → v.LateOpen r) : v'.Open := by
  cases h with
  | @crash id =>
    intro x hx
    refine ho x ?_
    by_cases he : x = id
    · subst he; simp at hx
    · simpa [he] using hx
  | @deliver n r hr hc hp =>
    intro x hx
    exact Method.effect_keeps_open (hlate n r rfl hr) (ho x) (by simpa using hx)

theorem Event.Move.openOutside {v v' : View} {e : Event} (h : Event.Move v e v')
    (ho : v.OpenOutside)
    (hlate : ∀ n r, e = .deliver n → v.outstanding[n]? = some r → r.serverId ∉ v.servers →
      v.LateOpen r) : v'.OpenOutside := by
  cases h with
  | @crash id =>
    intro x hx hcx
    refine ho x hx ?_
    by_cases he : x = id
    · subst he; simp at hcx
    · simpa [he] using hcx
  | @deliver n r hr hc hp =>
    intro x hx hcx
    replace hx : x ∉ v.servers := by simpa using hx
    replace hcx : v.crashed x = false := by simpa using hcx
    by_cases hreg : r.serverId ∈ v.servers
    · show (r.method.effect r.progress r.serverId v).isLocked x = false
      rw [Method.effect_isLocked_of_ne _ _ _ (ne_of_mem_of_not_mem hreg hx).symm]
      exact ho x hx hcx
    · exact Method.effect_keeps_open (hlate n r rfl hr hreg) (ho x hx) hcx

theorem Event.Move.within {v v' : View} {e : Event} {l : Loop} (h : Event.Move v e v')
    (hw : l.Within v) : l.Within v' := by
  cases h with
  | crash => exact hw
  | deliver _ _ _ => simpa [Loop.Within] using hw

theorem Event.Move.lockBits {v v' : View} {e : Event} {i : Inside} (h : Event.Move v e v')
    (hi : i.LockBits v)
    (hlate : ∀ n r, e = .deliver n → v.outstanding[n]? = some r →
      ¬ (r.serverId ∈ v.servers ∧ i.BeforeUnlock r.serverId) → v.LateOpen r) : i.LockBits v' := by
  have hopen : v.Open → (∀ id, ¬ i.BeforeUnlock id) → v'.Open := fun ho hn =>
    h.open ho fun n r he hr => hlate n r he hr fun hb => hn _ hb.2
  cases i with
  | lock w l =>
    exact ⟨h.openOutside hi.1 fun n r he hr hn => hlate n r he hr fun hb => hn hb.1,
      h.within hi.2⟩
  | write k x l =>
    exact ⟨h.openOutside hi.1 fun n r he hr hn => hlate n r he hr fun hb => hn hb.1,
      h.within hi.2⟩
  | transfer id rpc sender a =>
    exact h.openOutside hi fun n r he hr hn => hlate n r he hr fun hb => hn hb.1
  | unlock w l =>
    refine ⟨h.openOutside hi.1 fun n r he hr hn => hlate n r he hr fun hb => hn hb.1,
      h.within hi.2.1, ?_⟩
    intro x hx hcx
    cases h with
    | @crash id =>
      refine hi.2.2 x hx ?_
      by_cases he : x = id
      · subst he; simp at hcx
      · simpa [he] using hcx
    | @deliver n r hr hc hp =>
      replace hx : l.Reached v.servers.keys x := by simpa using hx
      replace hcx : v.crashed x = false := by simpa using hcx
      show (r.method.effect r.progress r.serverId v).isLocked x = false
      by_cases hxr : x = r.serverId
      · -- the loop will not come to this server again, so no late `lock` may reach it
        have hbefore := hx.not_before
        rw [hxr] at hbefore
        exact Method.effect_keeps_open (hlate n r rfl hr fun hb => hbefore hb.2) (hi.2.2 x hx) hcx
      · rw [Method.effect_isLocked_of_ne _ _ _ hxr]
        exact hi.2.2 x hx hcx
  | _ => exact hopen hi fun _ => id

/-! ## Runs -/

/-- Every live server is open and no call is in progress. -/
structure AllOpen (s : System) : Prop where
  quiet : Quiet s
  isOpen : s.shared.view.Open

theorem lockBits_resource : Monitor.Resource frontend (fun s l => ¬ LeavesLocked s l)
    (fun _ cl => cl.view.Open) (fun _ _ i cl => i.LockBits cl.view) where
  enter _ _ he hJ := by
    obtain ⟨b, _, rfl⟩ := Outside.entry_eq_some he
    exact b.lockBits hJ
  inside hok hl hs hI := by
    refine ((Inside.Move.of_step hs).lockBits hI fun hg hsome => hok ?_).1 _ rfl
    simp only [LeavesLocked, View.Abandons, hl]
    exact ⟨hg, hsome⟩
  leave hok hl hs hI := by
    refine ((Inside.Move.of_step hs).lockBits hI fun hg hsome => hok ?_).2 _ rfl
    simp only [LeavesLocked, View.Abandons, hl]
    exact ⟨hg, hsome⟩
  outside_free _ _ hs hJ := by
    rw [Outside.step_view hs]
    exact hJ
  outside_held _ _ hs _ hI := by
    rw [Outside.step_view hs]
    exact hI
  env_free {tr s e σ'} hok hs hlock hJ := by
    refine (Event.Move.of_step hs).open hJ fun n r he hr hm hp => ?_
    subst he
    by_contra hl
    refine hok ?_
    rw [Cluster.view_outstanding] at hr
    simp only [LeavesLocked, System.LocksLate, hr]
    exact ⟨hm, hp, by simpa using hl, by simp [System.BeforeUnlock, Monitor.State.holder, hlock]⟩
  env_held {tr s e σ' u i} hok hs hlock hu hI := by
    refine (Event.Move.of_step hs).lockBits hI fun n r he hr hn hm hp => ?_
    subst he
    by_contra hl
    refine hok ?_
    rw [Cluster.view_outstanding] at hr
    simp only [LeavesLocked, System.LocksLate, hr]
    exact ⟨hm, hp, by simpa using hl,
      by simpa [System.BeforeUnlock, Monitor.State.holder, hlock, hu] using hn⟩

/-- In every run that takes no step of `LeavesLocked`, every live registered server is
open whenever `serversLock` is free. -/
theorem open_when_free {s₀ s : System} {tr : Trace} (h₀ : AllOpen s₀)
    (h : SystemRun (fun s l => ¬ LeavesLocked s l) s₀ tr s) (hlock : s.lock = none) :
    ∀ id ∈ s.shared.servers, s.shared.crashed id = false →
      (s.shared.process id).isLocked = false := by
  have hres := Monitor.Run.resource h lockBits_resource h₀.quiet.exclusive
    ⟨fun _ => h₀.isOpen, fun c i hi => absurd hi h₀.quiet.not_inn⟩
  exact fun id _ hc => hres.free hlock id hc

theorem fresh_allOpen (servers : Finmap ServerRPC) : AllOpen (System.fresh servers) :=
  ⟨System.fresh_quiet servers, fun _ _ => rfl⟩

/-- A put that cannot reach server 1 in its lock phase and gets through after that.  Its
first `lock` of server 1 arrives when the unlock loop has still to visit the server. -/
def putRetried : List Label :=
  [.run 0 (.call (.put 5 7)), .enter 0, .run 0 .step, .run 0 (.pick 1), .run 0 .linger,
    .run 0 .throw, .run 0 .throw, .run 0 .throw, .run 0 (.pick 2), .run 0 .exec, .run 0 .reply,
    .run 0 .step, .run 0 .step, .run 0 (.pick 2), .run 0 .exec, .run 0 .reply, .run 0 (.pick 1),
    .run 0 .exec, .run 0 .throw, .run 0 .exec, .run 0 .reply, .run 0 .step, .run 0 .step,
    .env (.deliver 0), .run 0 (.pick 1), .run 0 .exec, .run 0 .exec, .run 0 .reply,
    .run 0 (.pick 2), .run 0 .exec, .run 0 .exec, .run 0 .reply, .run 0 .step, .run 0 .step]

theorem open_when_free_putRetried :
    ∃ tr s, SystemRun (fun s l => ¬ LeavesLocked s l) (System.fresh twoServers) tr s ∧
      s.lock = none ∧ (s.shared.process 2).isLocked = false := by
  have hex : ((exec System.step (System.fresh twoServers) putRetried).map fun s =>
      (s.lock, decide (2 ∈ s.shared.servers), s.shared.crashed 2)) =
        some (none, true, false) := by decide +kernel
  obtain ⟨s, hrun, hs⟩ := Run.exists_of_exec
    (fun s l => ¬ LeavesLocked s l) hex (by decide +kernel)
  simp only [Prod.mk.injEq, decide_eq_true_eq] at hs
  obtain ⟨hlock, hreg, hc⟩ := hs
  exact ⟨_, s, hrun, hlock, open_when_free (fresh_allOpen _) hrun hlock 2 hreg hc⟩

/-- A put that gives up on server 1 in its write phase. -/
def putAbandoned : List Label :=
  [.run 0 (.call (.put 5 7)), .enter 0, .run 0 .step, .run 0 (.pick 1), .run 0 .exec,
    .run 0 .reply, .run 0 (.pick 2), .run 0 .exec, .run 0 .reply, .run 0 .step, .run 0 .step,
    .run 0 (.pick 1), .run 0 .throw, .run 0 .throw, .run 0 .throw, .run 0 .throw, .run 0 .step]

/-- After `putAbandoned` both servers are alive, `serversLock` is free, and both are
still locked. -/
theorem putAbandoned_leaves_locked :
    ¬ ∀ (s₀ s : System) (tr : Trace), AllOpen s₀ → SystemRun (fun _ _ => True) s₀ tr s →
      s.lock = none → ∀ id ∈ s.shared.servers, s.shared.crashed id = false →
        (s.shared.process id).isLocked = false := by
  intro hclaim
  have hex : ((exec System.step (System.fresh twoServers) putAbandoned).map fun s =>
      (s.lock, decide (2 ∈ s.shared.servers), s.shared.crashed 2,
        (s.shared.process 2).isLocked)) = some (none, true, false, true) := by decide +kernel
  obtain ⟨s, hrun, hs⟩ := Run.exists_of_exec (fun _ _ => True) hex (by simp)
  simp only [Prod.mk.injEq, decide_eq_true_eq] at hs
  obtain ⟨hlock, hreg, hc, hl⟩ := hs
  have := hclaim _ s _ (fresh_allOpen twoServers) hrun hlock 2 hreg hc
  rw [hl] at this
  cases this

/-- Conversely a call that gives up while a live registered server is locked only has
its monitor exit left, and that leaves the server locked. -/
theorem Inside.GivesUp.leaves_locked {c : CallId} {v v' : View} {i : Inside} {a : Act}
    {r : Inside ⊕ Outside} (h : Inside.Move c v i a v' r) (hg : i.GivesUp v a)
    (hsome : v.SomeLocked) : r = .inl (.raise .runtime) ∧ v'.SomeLocked := by
  have hlast : ∀ (m : Method) (l : Loop) (f : Flow) (todo : Finset ServerId) (id : ServerId)
      (att : Attempt Progress), l = .body todo id att → RETRIES ≤ att.failures →
      (a = .throw ∨ a = .linger) → Loop.Move m false c v l a v' f →
      f = .raised ∧ v'.SomeLocked := by
    intro m l f todo id att hl hr ha hm
    have hfailed : Loop.failed false todo id att = .raised := by
      simp [Loop.failed, Attempt.retry, Nat.not_lt.mpr hr]
    cases hm with
    | throw _ =>
      cases hl
      exact ⟨hfailed, hsome⟩
    | linger _ =>
      cases hl
      exact ⟨hfailed, hsome⟩
    | exec _ _ => rcases ha with ha | ha <;> cases ha
    | reply _ => rcases ha with ha | ha <;> cases ha
    | _ => cases hl
  cases h with
  | @write k x l a v' f h =>
    cases l with
    | body todo id att =>
      obtain ⟨rfl, hs⟩ := hlast _ _ f todo id att rfl hg.1 hg.2 h
      exact ⟨rfl, hs⟩
    | _ => exact absurd hg (by simp [Inside.GivesUp])
  | @unlock w l a v' f h =>
    cases l with
    | body todo id att =>
      obtain ⟨rfl, hs⟩ := hlast _ _ f todo id att rfl hg.1 hg.2 h
      exact ⟨rfl, hs⟩
    | _ => exact absurd hg (by simp [Inside.GivesUp])
  | @senderFound id rpc sender n hs =>
    rcases hg.2 with ha | ⟨_, hn⟩
    · cases ha
    · exact absurd hs hn
  | @senderGone id rpc sender n _ =>
    rcases Transfer.failed_cases id rpc sender ⟨n, .lookup⟩ with ⟨hlt, _⟩ | ⟨_, e⟩
    · exact absurd hg.1 (Nat.not_le.mpr hlt)
    · exact ⟨by rw [e], hsome⟩
  | @transferThrow id rpc sender n p _ =>
    rcases Transfer.failed_cases id rpc sender ⟨n, .remote p⟩ with ⟨hlt, _⟩ | ⟨_, e⟩
    · exact absurd hg.1 (Nat.not_le.mpr hlt)
    · exact ⟨by rw [e], hsome⟩
  | send _ _ => rcases hg.2 with ha | ⟨ha, _⟩ <;> cases ha
  | sent => rcases hg.2 with ha | ⟨ha, _⟩ <;> cases ha
  | _ => exact absurd hg (by simp [Inside.GivesUp])

end ReplicatedStore
