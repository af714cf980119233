/-
Which registration the heartbeat removes.

`HeartBeat.run` checks the proxy of the entry that its iterator has read, outside
`serversLock`, and removes the entry by its id alone.  A proxy is made by one call of
`addServer`, which registers it at most once, so the entry that is removed is another one
exactly when the id has been registered since the read and not removed after that.
-/
import ReplicatedStore.AddServer

namespace ReplicatedStore

open Lib

/-! ## Proxies and the calls that made them -/

/-- The proxy that a thread of `addServer` holds. -/
def proxyOf : Monitor.Local Outside Inside → Option Entry
  | .out (.addFindFirst id rpc) => some ⟨id, rpc⟩
  | .out (.synchronized (.registerFirst id rpc)) => some ⟨id, rpc⟩
  | .out (.synchronized (.withLock (.addServer id rpc _))) => some ⟨id, rpc⟩
  | .inn (.lock (.addServer id rpc _) _) => some ⟨id, rpc⟩
  | .inn (.transfer id rpc _ _) => some ⟨id, rpc⟩
  | .inn (.unlock (.addServer id rpc _) _) => some ⟨id, rpc⟩
  | .inn (.registerFirst id rpc) => some ⟨id, rpc⟩
  | .inn (.register id rpc) => some ⟨id, rpc⟩
  | _ => none

/-- The call has done all it will do. -/
def Past (l : Monitor.Local Outside Inside) : Prop :=
  (∃ o, l = .inn (.leave (.finish o))) ∨ ∃ o, l = .out (.finished o)

theorem Past.step {s s' : System} {l : Label} {c : CallId} (h : Past (s.locals c))
    (hs : Monitor.Step frontend s l s') : Past (s'.locals c) := by
  have hdecided : ∃ o, s.locals c = .inn (.leave (.finish o)) ∨ s.locals c = .out (.finished o) :=
    exists_or.mpr h
  obtain ⟨o, ho⟩ := hdecided
  exact exists_or.mp ⟨o, decided_stays hs ho⟩

theorem proxyOf_of_beats {w : Outside} (h : w.beats = true) : proxyOf (.out w) = none := by
  cases w <;> first | rfl | cases h

/-- A thread gets a proxy by making it. -/
theorem Outside.step_proxy {c : CallId} {cl cl' : Cluster} {w w' : Outside} {a : Act} {e : Entry}
    (h : w.step c cl a = some (cl', w')) (he : proxyOf (.out w') = some e) :
    proxyOf (.out w) = some e ∨ e.2.createdBy = c := by
  cases w with
  | addContains id =>
    obtain ⟨-, -, ⟨-, rfl⟩ | ⟨-, ⟨hport, rfl⟩ | ⟨-, message, rfl⟩⟩⟩ := addContains_step h
    · cases he
    · obtain rfl := Option.some.inj he
      exact .inr rfl
    · cases he
  | addFindFirst id rpc =>
    obtain ⟨-, rfl | ⟨sender, rfl⟩⟩ := addFindFirst_step h
    · exact .inl he
    · exact .inl he
  | idle =>
    cases a <;> simp only [Outside.step] at h <;> try contradiction
    rename_i op
    obtain ⟨-, rfl⟩ := Prod.mk.inj (Option.some.inj h)
    cases op <;> cases he
  | _ =>
    have hm := Outside.Move.of_step h
    cases hm with
    | beat _ hb' =>
      rw [proxyOf_of_beats hb'] at he
      cases he
    | _ => cases he

theorem Inside.Move.proxy {c : CallId} {v v' : View} {i i' : Inside} {a : Act} {e : Entry}
    (h : Inside.Move c v i a v' (.inl i')) (he : proxyOf (.inn i') = some e) :
    proxyOf (.inn i) = some e := by
  generalize hr : (Sum.inl i' : Inside ⊕ Outside) = r at h
  cases h with
  | @lock w l a v' f h =>
    obtain rfl := Sum.inl.inj hr
    cases w with
    | put k x => cases f <;> cases he
    | addServer id rpc sender =>
      cases f with
      | again l' => exact he
      | done => exact he
      | raised => cases he
  | @write k x l a v' f h =>
    obtain rfl := Sum.inl.inj hr
    cases f <;> cases he
  | @unlock w l a v' f h =>
    obtain rfl := Sum.inl.inj hr
    cases w with
    | put k x => cases f <;> cases he
    | addServer id rpc sender =>
      cases f with
      | again l' => exact he
      | done => exact he
      | raised => cases he
  | @senderGone id rpc sender n _ =>
    obtain rfl := Sum.inl.inj hr
    rcases Transfer.failed_cases id rpc sender ⟨n, .lookup⟩ with ⟨_, e'⟩ | ⟨_, e'⟩ <;>
      rw [e'] at he
    · exact he
    · cases he
  | @transferThrow id rpc sender n p _ =>
    obtain rfl := Sum.inl.inj hr
    rcases Transfer.failed_cases id rpc sender ⟨n, .remote p⟩ with ⟨_, e'⟩ | ⟨_, e'⟩ <;>
      rw [e'] at he
    · exact he
    · cases he
  | leave => cases hr
  | _ =>
    obtain rfl := Sum.inl.inj hr
    first | exact he | cases he

/-! ## One registration for each call -/

section
variable {s : System} {c : CallId}

theorem registered_out {w : Outside} (hl : s.locals c = .out w) (a : Act) :
    registered (s, .run c a) = none := by
  cases a with
  | step => simp [registered, hl]
  | _ => rfl

theorem removed_out {w : Outside} (hl : s.locals c = .out w) (a : Act) :
    removed (s, .run c a) = none := by
  cases a with
  | step => simp [removed, hl]
  | _ => rfl

theorem registered_inn {i : Inside} (hl : s.locals c = .inn i) (a : Act)
    (h₁ : ∀ id rpc, i ≠ .registerFirst id rpc) (h₂ : ∀ id rpc, i ≠ .register id rpc) :
    registered (s, .run c a) = none := by
  cases a with
  | step =>
    cases i with
    | registerFirst id rpc => exact absurd rfl (h₁ id rpc)
    | register id rpc => exact absurd rfl (h₂ id rpc)
    | _ => simp [registered, hl]
  | _ => rfl

theorem removed_inn {i : Inside} (hl : s.locals c = .inn i) (a : Act)
    (h₁ : ∀ id, i ≠ .shutdownRemove id) (h₂ : ∀ id next, i ≠ .beatRemove id next) :
    removed (s, .run c a) = none := by
  cases a with
  | step =>
    cases i with
    | shutdownRemove id => exact absurd rfl (h₁ id)
    | beatRemove id next => exact absurd rfl (h₂ id next)
    | _ => simp [removed, hl]
  | _ => rfl

end

/-- What a step does to the entry of `id`. -/
inductive Entered (id : ServerId) (s : System) (l : Label) (s' : System) : Prop
  | registers {c : CallId} {rpc : ServerRPC id} (hreg : registered (s, l) = some id)
      (hrem : removed (s, l) ≠ some id) (hproxy : proxyOf (s.locals c) = some ⟨id, rpc⟩)
      (hlookup : s'.shared.servers.lookup id = some rpc) (hbefore : ¬ Past (s.locals c))
      (hafter : Past (s'.locals c))
  | removes (hreg : registered (s, l) ≠ some id) (hrem : removed (s, l) = some id)
      (hlookup : s'.shared.servers.lookup id = none)
  | keeps (hreg : registered (s, l) ≠ some id) (hrem : removed (s, l) ≠ some id)
      (hlookup : s'.shared.servers.lookup id = s.shared.servers.lookup id)

theorem Entered.of_registration {id id' : ServerId} {rpc : ServerRPC id'} {s s' : System}
    {c : CallId} {i : Inside} (hl : s.locals c = .inn i)
    (hi : i = .registerFirst id' rpc ∨ i = .register id' rpc)
    (hs : s'.shared.servers = s.shared.servers.insert id' rpc)
    (hafter : s'.locals c = .inn (.leave (.finish (.returned .added)))) :
    Entered id s (.run c .step) s' := by
  have hreg : registered (s, .run c .step) = some id' := by
    rcases hi with rfl | rfl <;> simp [registered, hl]
  have hrem : removed (s, .run c .step) = none :=
    removed_inn hl .step (by rcases hi with rfl | rfl <;> simp)
      (by rcases hi with rfl | rfl <;> simp)
  by_cases hid : id = id'
  · subst hid
    have hproxy : proxyOf (s.locals c) = some ⟨id, rpc⟩ := by
      rcases hi with rfl | rfl <;> simp [hl, proxyOf]
    refine .registers hreg (by simp [hrem]) hproxy (by simp [hs]) ?_ (.inl ⟨_, hafter⟩)
    · rcases hi with rfl | rfl <;> simp [hl, Past]
  · refine .keeps (by simp [hreg, Ne.symm hid]) (by simp [hrem]) ?_
    rw [hs, Finmap.lookup_insert_of_ne _ hid]

theorem Entered.of_removal {id id' : ServerId} {s s' : System} {c : CallId} {i : Inside}
    (hl : s.locals c = .inn i) (hi : i = .shutdownRemove id' ∨ ∃ next, i = .beatRemove id' next)
    (hs : s'.shared.servers = s.shared.servers.erase id') :
    Entered id s (.run c .step) s' := by
  have hrem : removed (s, .run c .step) = some id' := by
    rcases hi with rfl | ⟨next, rfl⟩ <;> simp [removed, hl]
  have hreg : registered (s, .run c .step) = none :=
    registered_inn hl .step (by rcases hi with rfl | ⟨next, rfl⟩ <;> simp)
      (by rcases hi with rfl | ⟨next, rfl⟩ <;> simp)
  by_cases hid : id = id'
  · subst hid
    exact .removes (by simp [hreg]) hrem (by simp [hs])
  · refine .keeps (by simp [hreg]) (by simp [hrem, Ne.symm hid]) ?_
    rw [hs, Finmap.lookup_erase_ne hid]

theorem Entered.of_step {s s' : System} {l : Label} (hs : Monitor.Step frontend s l s')
    (id : ServerId) : Entered id s l s' := by
  cases hs with
  | @outside c a w w' σ' hl ho =>
    refine .keeps (by simp [registered_out hl]) (by simp [removed_out hl]) ?_
    have hv := congrArg View.servers (Outside.step_view ho)
    exact congrArg (Finmap.lookup id) hv
  | enter hl he hlock => exact .keeps nofun nofun rfl
  | env he =>
    have hv := (Event.Move.of_step he).servers
    exact .keeps nofun nofun (congrArg (Finmap.lookup id) hv)
  | @leave c a i w σ' hl hi =>
    obtain ⟨e, rfl, rfl, rfl, hv⟩ := (Inside.Move.of_step hi).leave_inv
    refine .keeps (by simp [registered, hl]) (by simp [removed, hl]) ?_
    exact congrArg (Finmap.lookup id) (congrArg View.servers hv)
  | @inside c a i i' σ' hl hi =>
    have hm := Inside.Move.of_step hi
    generalize hv : Cluster.view σ' = v' at hm
    generalize hr : (Sum.inl i' : Inside ⊕ Outside) = r at hm
    have hserv : σ'.servers = v'.servers := congrArg View.servers hv
    cases hm with
    | registerFirst =>
      obtain rfl := Sum.inl.inj hr
      exact .of_registration hl (.inl rfl) hserv (Function.update_self ..)
    | register =>
      obtain rfl := Sum.inl.inj hr
      exact .of_registration hl (.inr rfl) hserv (Function.update_self ..)
    | shutdownRemove => exact .of_removal hl (.inl rfl) hserv
    | beatRemove => exact .of_removal hl (.inr ⟨_, rfl⟩) hserv
    | leave => cases hr
    | lock h =>
      exact .keeps (by simp [registered_inn hl]) (by simp [removed_inn hl])
        (congrArg (Finmap.lookup id) (hserv.trans h.servers))
    | write h =>
      exact .keeps (by simp [registered_inn hl]) (by simp [removed_inn hl])
        (congrArg (Finmap.lookup id) (hserv.trans h.servers))
    | unlock h =>
      exact .keeps (by simp [registered_inn hl]) (by simp [removed_inn hl])
        (congrArg (Finmap.lookup id) (hserv.trans h.servers))
    | send _ h =>
      exact .keeps (by simp [registered_inn hl]) (by simp [removed_inn hl])
        (congrArg (Finmap.lookup id) (hserv.trans h.servers))
    | _ =>
      exact .keeps (by simp [registered_inn hl]) (by simp [removed_inn hl])
        (congrArg (Finmap.lookup id) hserv)

/-- A thread has made the proxy it holds, and a call whose proxy is registered has done all
it will do. -/
structure Owned (s : System) : Prop where
  held : ∀ c e, proxyOf (s.locals c) = some e → e.2.createdBy = c
  listed : ∀ id rpc, s.shared.servers.lookup id = some rpc → Past (s.locals rpc.createdBy)

theorem Owned.step {s s' : System} {l : Label} (h : Owned s)
    (hs : Monitor.Step frontend s l s') : Owned s' := by
  refine ⟨fun c e he => ?_, fun id rpc hrpc => ?_⟩
  · cases hl : s.locals c with
    | out w =>
      rcases hs.of_out hl with ⟨_, h'⟩ | ⟨a, w', _, ho, h'⟩ | ⟨i, _, hentry, _, _, h'⟩
      · exact h.held c e (by rw [hl, ← h']; exact he)
      · rw [h'] at he
        rcases Outside.step_proxy ho he with he | he
        · exact h.held c e (by rw [hl]; exact he)
        · exact he
      · obtain ⟨b, rfl, rfl⟩ := Outside.entry_eq_some hentry
        rw [h'] at he
        refine h.held c e ?_
        rw [hl]
        cases b with
        | withLock w => cases w <;> exact he
        | _ => exact he
    | inn i =>
      rcases hs.of_inn hl with ⟨_, h'⟩ | ⟨a, i', _, hi, h'⟩ | ⟨a, w, _, hi, h'⟩
      · exact h.held c e (by rw [hl, ← h']; exact he)
      · rw [h'] at he
        exact h.held c e (by rw [hl]; exact (Inside.Move.of_step hi).proxy he)
      · obtain ⟨ex, _, _, rfl, _⟩ := (Inside.Move.of_step hi).leave_inv
        rw [h'] at he
        cases ex <;> cases he
  · cases Entered.of_step hs id with
    | @registers c rpc' _ _ hproxy hlookup _ hafter =>
      obtain rfl : rpc' = rpc := Option.some.inj (hlookup.symm.trans hrpc)
      have hc : rpc'.createdBy = c := h.held c _ hproxy
      rw [hc]
      exact hafter
    | removes _ _ hlookup =>
      rw [hlookup] at hrpc
      cases hrpc
    | keeps _ _ hlookup => exact (h.listed id rpc (hlookup ▸ hrpc)).step hs

/-! ## The check -/

/-- The iterator of the heartbeat `h` reads the entry `e` in this step. -/
def Reads (h : CallId) (e : Entry) (x : System × Label) : Prop :=
  x.2 = .run h (.pick e.1) ∧ x.1.shared.servers.lookup e.1 = some e.2

/-- The last attempt of the heartbeat at `alive()` of the entry `e` throws. -/
def GivesUpOn (h : CallId) (e : Entry) (x : System × Label) : Prop :=
  x.2 = .run h .throw ∧
    ∃ next att, x.1.locals h = .out (.beatAlive e next att) ∧ RETRIES ≤ att.failures

/-- The heartbeat does something else than to take `serversLock`. -/
def MovesOn (h : CallId) (x : System × Label) : Prop :=
  x.2.thread = some h ∧ x.2 ≠ .enter h

/-- The heartbeat has read the entry `e` and then failed to reach its server, and `mid` is
what has happened since the read. -/
structure FailedCheck (h : CallId) (e : Entry) (tr mid : Trace) : Prop where
  read : ∃ pre x, tr = pre ++ x :: mid ∧ Reads h e x
  failed : LastOf (GivesUpOn h e) (MovesOn h) mid

def HasRead (h : CallId) (e : Entry) (tr : Trace) : Prop := ∃ x ∈ tr, Reads h e x

/-- What the heartbeat has read at each of its points. -/
def Beat (h : CallId) (tr : Trace) : Monitor.Local Outside Inside → Prop
  | .out (.beatNext next) => ∀ e ∈ next, HasRead h e tr
  | .out (.beatAlive e next _) => HasRead h e tr ∧ ∀ e ∈ next, HasRead h e tr
  | .out (.synchronized (.beatRemove id next)) =>
    (∃ rpc mid, FailedCheck h ⟨id, rpc⟩ tr mid) ∧ ∀ e ∈ next, HasRead h e tr
  | .inn (.beatRemove id next) =>
    (∃ rpc mid, FailedCheck h ⟨id, rpc⟩ tr mid) ∧ ∀ e ∈ next, HasRead h e tr
  | .inn (.leave (.resume next)) => ∀ e ∈ next, HasRead h e tr
  | _ => True

section
variable {h : CallId} {e : Entry} {tr : Trace} {s : System}

theorem HasRead.snoc (hr : HasRead h e tr) (x : System × Label) : HasRead h e (tr ++ [x]) := by
  obtain ⟨y, hy, hreads⟩ := hr
  exact ⟨y, List.mem_append_left _ hy, hreads⟩

theorem FailedCheck.snoc {mid : Trace} {x : System × Label} (hf : FailedCheck h e tr mid)
    (hx : ¬ MovesOn h x) : FailedCheck h e (tr ++ [x]) (mid ++ [x]) := by
  obtain ⟨⟨pre, y, rfl, hy⟩, hfail⟩ := hf
  exact ⟨⟨pre, y, by simp, hy⟩, lastOf_snoc.mpr (.inr ⟨hfail, hx⟩)⟩

/-- A step in which the heartbeat does not move on. -/
theorem Beat.snoc {y : Monitor.Local Outside Inside} {x : System × Label} (hb : Beat h tr y)
    (hx : ¬ MovesOn h x) : Beat h (tr ++ [x]) y := by
  unfold Beat at hb ⊢
  split at hb
  · exact fun e he => (hb e he).snoc x
  · exact ⟨hb.1.snoc x, fun e he => (hb.2 e he).snoc x⟩
  · obtain ⟨⟨rpc, mid, hf⟩, hn⟩ := hb
    exact ⟨⟨rpc, _, hf.snoc hx⟩, fun e he => (hn e he).snoc x⟩
  · obtain ⟨⟨rpc, mid, hf⟩, hn⟩ := hb
    exact ⟨⟨rpc, _, hf.snoc hx⟩, fun e he => (hn e he).snoc x⟩
  · exact fun e he => (hb e he).snoc x
  · trivial

/-- An entry that has been read and given up on. -/
theorem HasRead.failed {next : Option Entry} {att : Attempt Progress} (hr : HasRead h e tr)
    (hl : s.locals h = .out (.beatAlive e next att)) (ha : RETRIES ≤ att.failures) :
    ∃ mid, FailedCheck h e (tr ++ [(s, .run h .throw)]) mid := by
  obtain ⟨x, hx, hreads⟩ := hr
  obtain ⟨pre, mid, rfl⟩ := List.append_of_mem hx
  exact ⟨mid ++ [(s, .run h .throw)], ⟨pre, x, by simp, hreads⟩,
    lastOf_snoc.mpr (.inl ⟨rfl, next, att, hl, ha⟩)⟩

theorem Beat.outside {cl' : Cluster} {w w' : Outside} {a : Act} (hl : s.locals h = .out w)
    (ho : w.step h s.shared a = some (cl', w')) (hb : Beat h tr (.out w)) :
    Beat h (tr ++ [(s, .run h a)]) (.out w') := by
  cases w with
  | beatNext next =>
    have hnext : ∀ e ∈ next, HasRead h e (tr ++ [(s, .run h a)]) := fun e he => (hb e he).snoc _
    have hnew : ∀ {id rpc}, a = .pick id → s.shared.servers.lookup id = some rpc →
        HasRead h ⟨id, rpc⟩ (tr ++ [(s, .run h a)]) := fun ha hrpc =>
      ⟨_, List.mem_append_right _ (List.mem_singleton_self _), by rw [ha], hrpc⟩
    cases next with
    | none =>
      cases a <;> simp only [Outside.step] at ho <;> try contradiction
      obtain ⟨rpc, hrpc, heq⟩ := Option.map_eq_some_iff.mp ho
      obtain ⟨-, rfl⟩ := Prod.mk.inj heq
      rintro e ⟨⟩
      exact hnew rfl hrpc
    | some e =>
      cases a <;> simp only [Outside.step] at ho <;> try contradiction
      · obtain ⟨-, rfl⟩ := Prod.mk.inj (Option.some.inj ho)
        exact ⟨hnext e rfl, fun e' he' => by cases he'⟩
      · obtain ⟨rpc, hrpc, heq⟩ := Option.map_eq_some_iff.mp ho
        obtain ⟨-, rfl⟩ := Prod.mk.inj heq
        refine ⟨hnext e rfl, ?_⟩
        rintro e' ⟨⟩
        exact hnew rfl hrpc
  | beatAlive e next att =>
    obtain ⟨hread, hnext⟩ := hb
    have hread' := hread.snoc (s, .run h a)
    have hnext' : ∀ e ∈ next, HasRead h e (tr ++ [(s, .run h a)]) :=
      fun e he => (hnext e he).snoc _
    cases a with
    | exec =>
      obtain ⟨⟨cl'', pr'⟩, hx, heq⟩ := Option.map_eq_some_iff.mp ho
      obtain ⟨-, rfl⟩ := Prod.mk.inj heq
      exact ⟨hread', hnext'⟩
    | reply =>
      simp only [Outside.step] at ho
      split at ho
      · obtain ⟨-, rfl⟩ := Prod.mk.inj (Option.some.inj ho)
        exact hnext'
      · cases ho
    | throw =>
      simp only [Outside.step] at ho
      split at ho
      · by_cases ha : att.failures < RETRIES
        · simp only [Attempt.retry, if_pos ha, Option.some.injEq, Prod.mk.injEq] at ho
          obtain ⟨-, rfl⟩ := ho
          exact ⟨hread', hnext'⟩
        · simp only [Attempt.retry, if_neg ha, Option.some.injEq, Prod.mk.injEq] at ho
          obtain ⟨-, rfl⟩ := ho
          obtain ⟨mid, hf⟩ := hread.failed hl (by omega)
          exact ⟨⟨e.2, mid, hf⟩, hnext'⟩
      · cases ho
    | _ => simp [Outside.step] at ho
  | idle =>
    cases a <;> simp only [Outside.step] at ho <;> try contradiction
    rename_i op
    obtain ⟨-, rfl⟩ := Prod.mk.inj (Option.some.inj ho)
    cases op <;> first | trivial | exact fun e he => by cases he
  | addContains id =>
    obtain ⟨-, -, ⟨-, rfl⟩ | ⟨-, ⟨hport, rfl⟩ | ⟨-, message, rfl⟩⟩⟩ := addContains_step ho <;>
      trivial
  | addFindFirst id rpc =>
    obtain ⟨-, rfl | ⟨sender, rfl⟩⟩ := addFindFirst_step ho <;> trivial
  | _ =>
    have hm := Outside.Move.of_step ho
    cases hm with
    | beat hw _ => cases hw
    | _ => trivial

theorem Beat.enter {w : Outside} {i : Inside} (he : w.entry = some i) (hb : Beat h tr (.out w)) :
    Beat h (tr ++ [(s, .enter h)]) (.inn i) := by
  obtain ⟨b, rfl, rfl⟩ := Outside.entry_eq_some he
  refine Beat.snoc ?_ (by simp [MovesOn])
  cases b with
  | withLock w => cases w <;> trivial
  | _ => exact hb

theorem Beat.inside {v v' : View} {i i' : Inside} {a : Act} (h' : Inside.Move h v i a v' (.inl i'))
    (hb : Beat h tr (.inn i)) : Beat h (tr ++ [(s, .run h a)]) (.inn i') := by
  generalize hr : (Sum.inl i' : Inside ⊕ Outside) = r at h'
  cases h' with
  | beatRemove =>
    obtain rfl := Sum.inl.inj hr
    exact fun e he => (hb.2 e he).snoc _
  | @lock w l a v' f _ =>
    obtain rfl := Sum.inl.inj hr
    cases f <;> cases w <;> trivial
  | write _ =>
    rename_i f _
    obtain rfl := Sum.inl.inj hr
    cases f <;> trivial
  | @unlock w l a v' f _ =>
    obtain rfl := Sum.inl.inj hr
    cases f <;> cases w <;> trivial
  | @senderGone id rpc sender n _ =>
    obtain rfl := Sum.inl.inj hr
    rcases Transfer.failed_cases id rpc sender ⟨n, .lookup⟩ with ⟨_, e⟩ | ⟨_, e⟩ <;> rw [e] <;>
      trivial
  | @transferThrow id rpc sender n p _ =>
    obtain rfl := Sum.inl.inj hr
    rcases Transfer.failed_cases id rpc sender ⟨n, .remote p⟩ with ⟨_, e⟩ | ⟨_, e⟩ <;> rw [e] <;>
      trivial
  | leave => cases hr
  | _ =>
    obtain rfl := Sum.inl.inj hr
    trivial

end

theorem Owned.of_empty {s₀ : System} (h₀ : Quiet s₀) (hnone : s₀.shared.servers = ∅) :
    Owned s₀ := by
  refine ⟨fun c e he => ?_, fun id rpc hrpc => ?_⟩
  · rcases h₀.2 c with hc | ⟨o, hc⟩ <;> rw [hc] at he <;> cases he
  · rw [hnone, Finmap.lookup_empty] at hrpc
    cases hrpc

theorem Owned.run {ok : System → Label → Prop} {s₀ s : System} {tr : Trace} (h : Owned s₀)
    (hrun : SystemRun ok s₀ tr s) : Owned s :=
  hrun.invariant (I := fun _ s => Owned s) h
    fun _ _ _ _ _ _ hs hI => hI.step (Monitor.Step.of_step frontend hs)

theorem beat_of_run {ok : System → Label → Prop} {h : CallId} {s₀ s : System} {tr : Trace}
    (h₀ : Quiet s₀) (hrun : SystemRun ok s₀ tr s) : Beat h tr (s.locals h) :=
  Monitor.Run.thread (t := h) (Q := fun tr y _ => Beat h tr y) hrun h₀.exclusive
    (by rcases h₀.2 h with hh | ⟨o, hh⟩ <;> rw [hh] <;> trivial)
    (fun _ hl ho hQ => hQ.outside hl ho)
    (fun _ _ he hQ => hQ.enter he)
    (fun _ _ hi hQ => hQ.inside (Inside.Move.of_step hi))
    (fun _ _ hi hQ => by
      obtain ⟨e, rfl, rfl, rfl, _⟩ := (Inside.Move.of_step hi).leave_inv
      cases e with
      | finish o => trivial
      | resume next => exact fun e he => (hQ e he).snoc _)
    (fun _ _ _ _ hne hQ => hQ.snoc fun hm => hne hm.1)

/-- After the proxy of an entry has been read, another proxy is listed exactly when the last
change to the id was a registration. -/
theorem replaced_iff {ok : System → Label → Prop} {h : CallId} {id : ServerId}
    {rpc : ServerRPC id} {q q' s : System} {mid : Trace} (howned : Owned q)
    (hread : q.shared.servers.lookup id = some rpc)
    (hpick : Monitor.Step frontend q (.run h (.pick id)) q') (hrun : SystemRun ok q' mid s) :
    (∃ rpc', s.shared.servers.lookup id = some rpc' ∧ rpc'.createdBy ≠ rpc.createdBy) ↔
      LastOf (fun e => registered e = some id) (fun e => removed e = some id) mid := by
  have hinv := hrun.invariant
    (I := fun mid s => Owned s ∧ Past (s.locals rpc.createdBy) ∧
      ((∃ rpc', s.shared.servers.lookup id = some rpc' ∧ rpc'.createdBy ≠ rpc.createdBy) ↔
        LastOf (fun e => registered e = some id) (fun e => removed e = some id) mid))
    ⟨howned.step hpick, (howned.listed id rpc hread).step hpick, ?_⟩ ?_
  · exact hinv.2.2
  · refine iff_of_false ?_ not_lastOf_nil
    rintro ⟨rpc', hrpc', hne⟩
    cases Entered.of_step hpick id with
    | registers hreg => cases hreg
    | removes _ hrem => cases hrem
    | keeps _ _ hlookup =>
      obtain rfl : rpc' = rpc := Option.some.inj (hrpc'.symm.trans (hlookup.trans hread))
      exact hne rfl
  · rintro mid t l t' - - ht ⟨hown, hpast, hiff⟩
    have hts := Monitor.Step.of_step frontend ht
    refine ⟨hown.step hts, hpast.step hts, ?_⟩
    rw [lastOf_snoc, ← hiff]
    cases Entered.of_step hts id with
    | @registers c rpc' hreg hrem hproxy hlookup hbefore _ =>
      -- The call that registers has not been past its registration, so it made another proxy.
      refine iff_of_true ⟨rpc', hlookup, fun he => hbefore ?_⟩ (.inl hreg)
      have hc : rpc'.createdBy = c := hown.held c _ hproxy
      rw [← hc, he]
      exact hpast
    | removes hreg hrem hlookup => simp [hreg, hrem, hlookup]
    | keeps hreg hrem hlookup => simp [hreg, hrem, hlookup]

/-- Whenever the heartbeat is about to remove an entry, it has read an entry of that id and
its attempts at `alive()` of it have failed.  The entry that it removes is from the same
call of `addServer` if and only if the last change to the id since the read is not a
registration. -/
theorem beat_removes_checked_iff {h : CallId} {id : ServerId} {next : Option Entry}
    {s₀ s : System} {tr : Trace} (h₀ : Quiet s₀) (hnone : s₀.shared.servers = ∅)
    (hrun : SystemRun (fun _ _ => True) s₀ tr s) (hs : s.locals h = .inn (.beatRemove id next)) :
    ∃ rpc mid, FailedCheck h ⟨id, rpc⟩ tr mid ∧
      ((∀ rpc', s.shared.servers.lookup id = some rpc' → rpc'.createdBy = rpc.createdBy) ↔
        ¬ LastOf (fun e => registered e = some id) (fun e => removed e = some id) mid) := by
  have hbeat := beat_of_run (h := h) h₀ hrun
  rw [hs] at hbeat
  obtain ⟨⟨rpc, mid, hf⟩, -⟩ := hbeat
  refine ⟨rpc, mid, hf, ?_⟩
  obtain ⟨pre, ⟨q, l⟩, rfl, hlab, hread⟩ := hf.read
  obtain ⟨hpre, -, q', hstep, hpost⟩ := hrun.of_split rfl
  obtain rfl : l = .run h (.pick id) := hlab
  rw [← replaced_iff ((Owned.of_empty h₀ hnone).run hpre) hread
    (Monitor.Step.of_step frontend hstep) hpost]
  push Not
  exact Iff.rfl

/-! ## Runs -/

/-- The heartbeat finds server 1 dead. -/
def beatCrashed : List Label :=
  joinFirst 0 1 ++ [.env (.crash 1), .run 9 (.call .heartBeat), .run 9 (.pick 1), .run 9 .step,
    .run 9 .throw, .run 9 .throw, .run 9 .throw, .run 9 .throw, .enter 9]

/-- The server that the heartbeat is about to remove when it has no entry left. -/
def System.removesLast (s : System) (h : CallId) : Option ServerId :=
  match s.locals h with
  | .inn (.beatRemove id none) => some id
  | _ => none

theorem System.removesLast_eq {s : System} {h : CallId} {id : ServerId}
    (he : s.removesLast h = some id) : s.locals h = .inn (.beatRemove id none) := by
  unfold System.removesLast at he
  split at he
  · rename_i hl
    obtain rfl := Option.some.inj he
    exact hl
  · cases he

theorem beat_removes_checked_iff_beatCrashed :
    ∃ tr s, SystemRun (fun _ _ => True) (System.fresh ∅) tr s ∧
      ∃ rpc mid, FailedCheck 9 ⟨1, rpc⟩ tr mid ∧
      ((∀ rpc', s.shared.servers.lookup 1 = some rpc' → rpc'.createdBy = rpc.createdBy) ↔
        ¬ LastOf (fun e => registered e = some 1) (fun e => removed e = some 1) mid) := by
  have hex : ((exec System.step (System.fresh ∅) beatCrashed).map fun s => s.removesLast 9) =
      some (some 1) := by decide +kernel
  obtain ⟨s, hrun, hs⟩ := Run.exists_of_exec (fun _ _ => True) hex (by simp)
  exact ⟨_, s, hrun, beat_removes_checked_iff (System.fresh_quiet _) rfl hrun
    (System.removesLast_eq hs)⟩

/-- Server 1 is briefly unreachable; it is shut down and added again before the heartbeat
takes `serversLock`. -/
def beatStale : List Label :=
  [.run 9 .step, .run 9 .throw, .run 9 .throw, .run 9 .throw]

def beatReplaced : List Label := shutDown 1 1 ++ joinFirst 2 1 ++ [.enter 9]

/-- The check that the heartbeat `h` is about to give up on. -/
def System.lastAttempt (s : System) (h : CallId) : Option (Entry × Option Entry) :=
  match s.locals h with
  | .out (.beatAlive e next ⟨3, _⟩) => some (e, next)
  | _ => none

theorem System.lastAttempt_eq {s : System} {h : CallId} {e : Entry} {next : Option Entry}
    (he : s.lastAttempt h = some (e, next)) :
    ∃ pr, s.locals h = .out (.beatAlive e next ⟨3, pr⟩) := by
  unfold System.lastAttempt at he
  split at he
  · rename_i hl
    obtain ⟨rfl, rfl⟩ := Prod.mk.inj (Option.some.inj he)
    exact ⟨_, hl⟩
  · cases he

/-- The heartbeat removes the registration of call 2 for that of call 0. -/
theorem beatReplaced_removes_other :
    ¬ ∀ (h : CallId) (id : ServerId) (next : Option Entry) (tr : Trace) (s : System),
      SystemRun (fun _ _ => True) (System.fresh ∅) tr s →
      s.locals h = .inn (.beatRemove id next) →
      ∀ rpc mid, FailedCheck h ⟨id, rpc⟩ tr mid →
        ∀ rpc', s.shared.servers.lookup id = some rpc' → rpc'.createdBy = rpc.createdBy := by
  intro hclaim
  have hread : ((exec System.step (System.fresh ∅)
      (joinFirst 0 1 ++ [.run 9 (.call .heartBeat)])).map fun s =>
      s.shared.servers.lookup 1) = some (some ⟨0, by decide⟩) := by decide +kernel
  have hgive : ((exec System.step (System.fresh ∅)
      ((joinFirst 0 1 ++ [.run 9 (.call .heartBeat)]) ++ .run 9 (.pick 1) :: beatStale)).map
      fun s => s.lastAttempt 9) = some (some (⟨1, ⟨0, by decide⟩⟩, none)) := by decide +kernel
  have hend : ((exec System.step (System.fresh ∅)
      ((joinFirst 0 1 ++ [.run 9 (.call .heartBeat)]) ++
        .run 9 (.pick 1) :: (beatStale ++ .run 9 .throw :: beatReplaced))).map fun s =>
      (s.removesLast 9, s.shared.servers.lookup 1)) =
      some (some 1, some ⟨2, by decide⟩) := by decide +kernel
  obtain ⟨t, mid, u, post, s, hrun, ht, hu, hs, hmem⟩ := Run.split_twice_of_exec
    (fun _ _ => True) hread hgive hend (by simp)
  obtain ⟨hlast, hlookup⟩ := Prod.mk.inj hs
  obtain ⟨pr, hatt⟩ := System.lastAttempt_eq hu
  have hquiet : ∀ l ∈ beatReplaced, l.thread = some 9 → l = .enter 9 := by decide
  have heq := hclaim 9 1 none _ s hrun (System.removesLast_eq hlast) ⟨0, by decide⟩
    (mid ++ (u, .run 9 .throw) :: post)
    ⟨⟨_, (t, .run 9 (.pick 1)), rfl, rfl, ht⟩, mid, _, post, rfl,
      ⟨rfl, none, _, hatt, Nat.le_refl 3⟩, fun e he hm => hm.2 (hquiet _ (hmem e he) hm.1)⟩
    _ hlookup
  cases heq

end ReplicatedStore
