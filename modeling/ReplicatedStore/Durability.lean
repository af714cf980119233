/-
What an acknowledged put leaves behind, under crashes and lost answers.

A put of `k` that returns has written every registered server, since the write phase
ends by an exception at the first server it gives up on.  From then on `k` is bound, at
every registered server, to its value or to that of a put that took `serversLock` later:
a put that stops half-way writes only such a value, and a transfer copies the binding of
a registered server.  A server that is removed keeps its binding.
-/
import ReplicatedStore.Loops
import ReplicatedStore.Runs

namespace ReplicatedStore

open Lib

/-! ## Current bindings -/

/-- The map binds `k` to one of the values `G`. -/
def Current (G : Val → Prop) (k : Key) (d : Data) : Prop := ∃ x, d.lookup k = some x ∧ G x

/-- Every registered server does. -/
def View.AllCurrent (G : Val → Prop) (k : Key) (v : View) : Prop :=
  ∀ id ∈ v.servers, Current G k (v.data id)

variable {G G' : Val → Prop} {k : Key}

theorem Current.mono {d : Data} (h : Current G k d) (hG : ∀ x, G x → G' x) : Current G' k d := by
  obtain ⟨x, hx, hg⟩ := h
  exact ⟨x, hx, hG x hg⟩

theorem Current.insert {d : Data} (h : Current G k d) {k' : Key} {x : Val} (hx : k' = k → G x) :
    Current G k (d.insert k' x) := by
  by_cases hk : k' = k
  · subst hk
    exact ⟨x, by simp, hx rfl⟩
  · obtain ⟨y, hy, hg⟩ := h
    exact ⟨y, by simpa [Ne.symm hk] using hy, hg⟩

theorem View.AllCurrent.mono {v : View} (h : v.AllCurrent G k) (hG : ∀ x, G x → G' x) :
    v.AllCurrent G' k :=
  fun id hid => (h id hid).mono hG

theorem View.AllCurrent.of_le {v v' : View} (h : v.AllCurrent G k)
    (hs : ∀ id ∈ v'.servers, id ∈ v.servers)
    (hd : ∀ id, Current G k (v.data id) → Current G k (v'.data id)) : v'.AllCurrent G k :=
  fun id hid => hd id (h id (hs id hid))

/-! ## Other critical sections -/

/-- A critical section that keeps the bindings of `k` current: a put of `k` has a value of
`G`, and the server that joins is being filled by a registered one. -/
def Inside.Keeps (G : Val → Prop) (k : Key) (v : View) : Inside → Prop
  | .lock (.put k' x) _ => v.AllCurrent G k ∧ (k' = k → G x)
  | .write k' x _ => v.AllCurrent G k ∧ (k' = k → G x)
  | .transfer id _ sender a => v.AllCurrent G k ∧
      match a.state with
      | .lookup => True
      | .remote p => sender ∈ v.servers ∧ p.Copied (v.data sender) (v.data id)
  | .unlock (.addServer id _ _) _ => v.AllCurrent G k ∧ Current G k (v.data id)
  | .register id _ => v.AllCurrent G k ∧ Current G k (v.data id)
  | .registerFirst _ _ => False
  | _ => v.AllCurrent G k

theorem Inside.Keeps.all {v : View} {i : Inside} (h : i.Keeps G k v) : v.AllCurrent G k := by
  cases i with
  | lock w l =>
    cases w with
    | put k' x => exact h.1
    | addServer id rpc sender => exact h
  | unlock w l =>
    cases w with
    | put k' x => exact h
    | addServer id rpc sender => exact h.1
  | write k' x l => exact h.1
  | transfer id rpc sender a => exact h.1
  | register id rpc => exact h.1
  | registerFirst id rpc => exact absurd h (fun h => h)
  | _ => exact h

theorem Inside.Keeps.mono {v : View} {i : Inside} (h : i.Keeps G k v) (hG : ∀ x, G x → G' x) :
    i.Keeps G' k v := by
  have hall := h.all.mono hG
  cases i with
  | lock w l =>
    cases w with
    | put k' x => exact ⟨hall, fun e => hG x (h.2 e)⟩
    | addServer id rpc sender => exact hall
  | unlock w l =>
    cases w with
    | put k' x => exact hall
    | addServer id rpc sender => exact ⟨hall, h.2.mono hG⟩
  | write k' x l => exact ⟨hall, fun e => hG x (h.2 e)⟩
  | transfer id rpc sender a => exact ⟨hall, h.2⟩
  | register id rpc => exact ⟨hall, h.2.mono hG⟩
  | registerFirst id rpc => exact h
  | _ => exact hall

/-- What the section keeps does not depend on who has crashed. -/
theorem Inside.Keeps.of_eq {v v' : View} {i : Inside} (h : i.Keeps G k v)
    (hs : v'.servers = v.servers) (hd : v'.data = v.data) : i.Keeps G k v' := by
  unfold Inside.Keeps View.AllCurrent at h ⊢
  rw [hs, hd]
  exact h

/-- A binding stays current. -/
theorem Inside.Move.current {c : CallId} {v v' : View} {i : Inside} {a : Act}
    {r : Inside ⊕ Outside} (h : Inside.Move c v i a v' r) (hi : i.Keeps G k v) {id : ServerId}
    (hid : Current G k (v.data id)) : Current G k (v'.data id) := by
  cases h with
  | lock h => rwa [h.data_eq fun k x => by simp]
  | unlock h => rwa [h.data_eq fun k x => by simp]
  | @write k' x l a v' f h =>
    cases h with
    | @exec todo id' att _ _ =>
      by_cases he : id = id'
      · subst he
        cases att.state with
        | sent =>
          rw [Method.effect_sent_put, View.setData_data_self]
          exact hid.insert hi.2
        | _ => exact hid
      · rwa [Method.effect_data_of_ne _ _ _ he]
    | _ => exact hid
  | @send id' rpc sender n p p' b v' _ h =>
    obtain ⟨hall, hs, hp⟩ := hi
    rcases h.data hp with rfl | ⟨k', x, hx, rfl⟩
    · exact hid
    · by_cases he : id = id'
      · subst he
        rw [View.setData_data_self]
        refine hid.insert fun e => ?_
        subst e
        obtain ⟨y, hy, hg⟩ := hall sender hs
        obtain rfl : y = x := Option.some.inj (hy.symm.trans hx)
        exact hg
      · rwa [View.setData_data_of_ne _ he]
  | _ => exact hid

/-- A step of a critical section that keeps the bindings current. -/
theorem Inside.Move.keeps {c : CallId} {v v' : View} {i : Inside} {a : Act}
    {r : Inside ⊕ Outside} (h : Inside.Move c v i a v' r) (hi : i.Keeps G k v) :
    v'.AllCurrent G k ∧ ∀ i', r = .inl i' → i'.Keeps G k v' := by
  have hall := hi.all
  have hcur : ∀ id, Current G k (v.data id) → Current G k (v'.data id) := fun id => h.current hi
  have hsame : (∀ id ∈ v'.servers, id ∈ v.servers) → v'.AllCurrent G k := fun hs =>
    hall.of_le hs hcur
  cases h with
  | @lock w l a v' f h =>
    have hall' := hsame fun id hid => h.servers ▸ hid
    refine ⟨hall', fun i' e => ?_⟩
    obtain rfl := Sum.inl.inj e
    cases w with
    | put k' x =>
      cases f with
      | again l' => exact ⟨hall', hi.2⟩
      | done => exact ⟨hall', hi.2⟩
      | raised => exact hall'
    | addServer id rpc sender =>
      cases f with
      | again l' => exact hall'
      | done => exact ⟨hall', trivial⟩
      | raised => exact hall'
  | @write k' x l a v' f h =>
    have hall' := hsame fun id hid => h.servers ▸ hid
    refine ⟨hall', fun i' e => ?_⟩
    obtain rfl := Sum.inl.inj e
    cases f with
    | again l' => exact ⟨hall', hi.2⟩
    | done => exact hall'
    | raised => exact hall'
  | @unlock w l a v' f h =>
    have hall' := hsame fun id hid => h.servers ▸ hid
    refine ⟨hall', fun i' e => ?_⟩
    obtain rfl := Sum.inl.inj e
    cases w with
    | put k' x => cases f <;> exact hall'
    | addServer id rpc sender =>
      cases f with
      | again l' => exact ⟨hall', hcur id hi.2⟩
      | done => exact ⟨hall', hcur id hi.2⟩
      | raised => exact hall'
  | senderFound hs =>
    refine ⟨hall, fun i' e => ?_⟩
    obtain rfl := Sum.inl.inj e
    exact ⟨hall, hs, trivial⟩
  | @senderGone id rpc sender n _ =>
    refine ⟨hall, fun i' e => ?_⟩
    obtain rfl := Sum.inl.inj e
    rcases Transfer.failed_cases id rpc sender ⟨n, .lookup⟩ with ⟨_, e⟩ | ⟨_, e⟩ <;> rw [e]
    · exact ⟨hall, trivial⟩
    · exact hall
  | @send id rpc sender n p p' b v' _ h =>
    have hall' := hsame fun id hid => h.servers ▸ hid
    refine ⟨hall', fun i' e => ?_⟩
    obtain rfl := Sum.inl.inj e
    exact ⟨hall', h.servers ▸ hi.2.1, h.copied hi.2.2⟩
  | @sent id rpc sender n =>
    refine ⟨hall, fun i' e => ?_⟩
    obtain rfl := Sum.inl.inj e
    -- the transfer is over: the joining server has the binding of its sender
    obtain ⟨_, hs, hp⟩ := hi
    obtain ⟨x, hx, hg⟩ := hall sender hs
    exact ⟨hall, x, hp k x hx, hg⟩
  | @transferThrow id rpc sender n p _ =>
    refine ⟨hall, fun i' e => ?_⟩
    obtain rfl := Sum.inl.inj e
    rcases Transfer.failed_cases id rpc sender ⟨n, .remote p⟩ with ⟨_, e⟩ | ⟨_, e⟩ <;> rw [e]
    · exact ⟨hall, trivial⟩
    · exact hall
  | registerFirst => exact absurd hi (fun h => h)
  | @register id rpc =>
    have hall' : View.AllCurrent G k { v with servers := v.servers.insert id rpc } := by
      intro id' hid'
      rcases Finmap.mem_insert.mp hid' with rfl | hid'
      · exact hi.2
      · exact hall id' hid'
    refine ⟨hall', fun i' e => ?_⟩
    obtain rfl := Sum.inl.inj e
    exact hall'
  | shutdownRemove =>
    have hall' := hsame fun id hid => (Finmap.mem_erase.mp hid).2
    refine ⟨hall', fun i' e => ?_⟩
    obtain rfl := Sum.inl.inj e
    exact hall'
  | beatRemove =>
    have hall' := hsame fun id hid => (Finmap.mem_erase.mp hid).2
    refine ⟨hall', fun i' e => ?_⟩
    obtain rfl := Sum.inl.inj e
    exact hall'
  | leave => exact ⟨hall, fun i' e => by cases e⟩
  | _ =>
    refine ⟨hall, fun i' e => ?_⟩
    obtain rfl := Sum.inl.inj e
    exact hall

/-! ## The put itself -/

/-- The servers that `put(k, x)` has written hold a current binding. -/
def Inside.Puts (G : Val → Prop) (k : Key) (x : Val) (v : View) : Inside → Prop
  | .lock w _ => w = .put k x
  | .write k' x' l => k' = k ∧ x' = x ∧ l.Within v ∧
      l.Swept (fun id v => Current G k (v.data id)) v
  | .unlock w _ => w = .put k x ∧ v.AllCurrent G k
  | .leave (.finish (.returned _)) => v.AllCurrent G k
  | .leave (.finish (.threw _)) => True
  | _ => False

theorem Inside.Puts.mono {v : View} {x : Val} {i : Inside} (h : i.Puts G k x v)
    (hG : ∀ y, G y → G' y) : i.Puts G' k x v := by
  cases i with
  | lock w l => exact h
  | write k' x' l =>
    obtain ⟨hk, hx, hw, hs⟩ := h
    exact ⟨hk, hx, hw, fun id hid => (hs id hid).mono hG⟩
  | unlock w l => exact ⟨h.1, h.2.mono hG⟩
  | leave e =>
    cases e with
    | finish o =>
      cases o with
      | returned y => exact View.AllCurrent.mono h hG
      | threw e => exact trivial
    | resume next => exact h
  | _ => exact h

theorem Inside.Puts.of_eq {v v' : View} {x : Val} {i : Inside} (h : i.Puts G k x v)
    (hs : v'.servers = v.servers) (hd : v'.data = v.data) : i.Puts G k x v' := by
  have hcur : ∀ id, Current G k (v.data id) → Current G k (v'.data id) := fun id hid => by
    rwa [hd]
  have hall : v.AllCurrent G k → v'.AllCurrent G k := fun h =>
    h.of_le (fun id hid => hs ▸ hid) hcur
  cases i with
  | lock w l => exact h
  | write k' x' l =>
    obtain ⟨hk, hx, hw, hswept⟩ := h
    refine ⟨hk, hx, ?_, fun id hid => ?_⟩
    · unfold Loop.Within at hw ⊢
      rwa [hs]
    · rw [hs] at hid
      exact hcur id (hswept id hid)
  | unlock w l => exact ⟨h.1, hall h.2⟩
  | leave e =>
    cases e with
    | finish o =>
      cases o with
      | returned y => exact hall h
      | threw e => exact trivial
    | resume next => exact h
  | _ => exact h

theorem Inside.Move.puts {c : CallId} {v v' : View} {i i' : Inside} {a : Act} {x : Val}
    (h : Inside.Move c v i a v' (.inl i')) (hx : G x) (hi : i.Puts G k x v) :
    i'.Puts G k x v' := by
  generalize hr : (Sum.inl i' : Inside ⊕ Outside) = r at h
  cases h with
  | @lock w l a v' f h =>
    obtain rfl := Sum.inl.inj hr
    obtain rfl : w = .put k x := hi
    cases f with
    | again l' => exact rfl
    | done => exact ⟨rfl, rfl, Loop.start_within _, Loop.start_swept _ _⟩
    | raised => cases h.raised_inv.1
  | @write k' x' l a v' f h =>
    obtain rfl := Sum.inl.inj hr
    obtain ⟨rfl, rfl, hwithin, hswept⟩ := hi
    have hkeep : ∀ id, Current G k' (v.data id) → Current G k' (v'.data id) := by
      intro id hid
      cases h with
      | @exec todo id' att _ _ =>
        by_cases he : id = id'
        · subst he
          cases att.state with
          | sent =>
            rw [Method.effect_sent_put, View.setData_data_self]
            exact hid.insert fun _ => hx
          | _ => exact hid
        · rwa [Method.effect_data_of_ne _ _ _ he]
      | _ => exact hid
    cases f with
    | again l' =>
      refine ⟨rfl, rfl, h.within hwithin, h.swept hkeep ?_ (by simp) hswept⟩
      rintro todo id att - - - rfl
      exact ⟨x', by simp, hx⟩
    | done =>
      obtain ⟨rfl, rfl⟩ := h.done_inv
      exact ⟨rfl, Loop.swept_done hswept⟩
    | raised => exact trivial
  | @unlock w l a v' f h =>
    obtain rfl := Sum.inl.inj hr
    obtain ⟨rfl, hall⟩ := hi
    have hall' : v'.AllCurrent G k := hall.of_le (fun id hid => h.servers ▸ hid) fun id hid => by
      rwa [h.data_eq fun k x => by simp]
    cases f with
    | again l' => exact ⟨rfl, hall'⟩
    | done => exact hall'
    | raised => exact trivial
  | leave => cases hr
  | _ => exact absurd hi (fun h => h)

/-! ## Steps of the system -/

/-- The value of the put of `k`, or of one that takes `serversLock` in `tr`. -/
def Recent (k : Key) (x : Val) (tr : Trace) (y : Val) : Prop :=
  y = x ∨ ∃ e ∈ tr, ∃ q, e.2 = .enter q ∧ e.1.locals q = .out (Op.put k y).start

theorem Recent.snoc {x y : Val} {tr : Trace} (h : Recent k x tr y) (e : System × Label) :
    Recent k x (tr ++ [e]) y := by
  rcases h with h | ⟨e', he', h⟩
  · exact .inl h
  · exact .inr ⟨e', List.mem_append_left _ he', h⟩

/-- A block that waits for `serversLock`, and that is not the registration of a first
server, keeps the bindings current: a put in it is among the recent ones. -/
theorem Block.keeps {x : Val} {tr : Trace} {s : System} {q : CallId} {b : Block}
    (hl : s.locals q = .out (.synchronized b)) (hfirst : ∀ id rpc, b ≠ .registerFirst id rpc)
    (h : s.shared.view.AllCurrent (Recent k x tr) k) :
    b.start.Keeps (Recent k x (tr ++ [(s, .enter q)])) k s.shared.view := by
  have hall := h.mono fun y hy => hy.snoc (s, .enter q)
  cases b with
  | withLock w =>
    cases w with
    | put k' y =>
      refine ⟨hall, fun e => ?_⟩
      subst e
      exact .inr ⟨_, List.mem_append_right _ (List.mem_singleton_self _), q, rfl, hl⟩
    | addServer id rpc sender => exact hall
  | registerFirst id rpc => exact absurd rfl (hfirst id rpc)
  | _ => exact hall

/-- A crash changes neither the servers map nor the data. -/
theorem NoneLate.env {v v' : View} {e : Event} (h : NoneLate (.env e)) (hm : Event.Move v e v') :
    v'.servers = v.servers ∧ v'.data = v.data := by
  obtain ⟨id, rfl⟩ := h
  cases hm with
  | crash => exact ⟨rfl, rfl⟩

/-- Nothing is executed late, and no `addServer` waits to register a server in a membership
that it found empty. -/
def Durable (s : System) (l : Label) : Prop :=
  NoneLate l ∧ ∀ c id rpc, s.locals c ≠ .out (.synchronized (.registerFirst id rpc))

/-- Once the put has returned, its binding is a resource invariant. -/
theorem current_resource (k : Key) (x : Val) : Monitor.Resource frontend Durable
    (fun tr cl => cl.view.AllCurrent (Recent k x tr) k)
    (fun tr _ i cl => i.Keeps (Recent k x tr) k cl.view) where
  enter := by
    intro tr s t w i hok hl he hall
    obtain ⟨b, rfl, rfl⟩ := Outside.entry_eq_some he
    exact Block.keeps hl (fun id rpc e => hok.2 t id rpc (e ▸ hl)) hall
  inside := by
    intro tr s t a i i' σ' _ _ hs hi
    exact (((Inside.Move.of_step hs).keeps hi).2 i' rfl).mono fun y hy => hy.snoc _
  leave := by
    intro tr s t a i w σ' _ _ hs hi
    exact ((Inside.Move.of_step hs).keeps hi).1.mono fun y hy => hy.snoc _
  outside_free := by
    intro tr s t a w w' σ' _ _ hs hall
    rw [Outside.step_view hs]
    exact hall.mono fun y hy => hy.snoc _
  outside_held := by
    intro tr s t a w w' σ' u i _ _ hs _ hi
    rw [Outside.step_view hs]
    exact hi.mono fun y hy => hy.snoc _
  env_free := by
    intro tr s e σ' hok he _ hall
    obtain ⟨hs, hd⟩ := hok.1.env (Event.Move.of_step he)
    refine (hall.mono fun y hy => hy.snoc _).of_le (fun id hid => hs ▸ hid) fun id hid => ?_
    rwa [hd]
  env_held := by
    intro tr s e σ' u i hok he _ _ hi
    obtain ⟨hs, hd⟩ := hok.1.env (Event.Move.of_step he)
    exact (hi.mono fun y hy => hy.snoc _).of_eq hs hd

/-- While a thread holds `serversLock` the others change neither the servers map nor the
data. -/
theorem view_of_held {s s' : System} {l : Label} {p : CallId} {i : Inside}
    (hx : Monitor.Exclusive s) (hl : s.locals p = .inn i) (hok : NoneLate l)
    (hs : Monitor.Step frontend s l s') (hne : l.thread ≠ some p) :
    s'.shared.view.servers = s.shared.view.servers ∧
      s'.shared.view.data = s.shared.view.data := by
  rcases view_of_others hx hl hs hne with hv | ⟨e, rfl, hm⟩
  · rw [hv]
    exact ⟨rfl, rfl⟩
  · exact hok.env hm

/-- While the put `p` holds `serversLock` it is at one of its points, and once it has
returned the bindings of `k` are current. -/
inductive Kept (p : CallId) (k : Key) (x : Val) (tr : Trace) (s : System) : Prop
  | holds {i : Inside} (hl : s.locals p = .inn i)
      (hi : i.Puts (Recent k x tr) k x s.shared.view)
  | returned {y : Reply} (hl : s.locals p = .out (.finished (.returned y)))
      (h : Monitor.Holds (fun tr cl => cl.view.AllCurrent (Recent k x tr) k)
        (fun tr _ i cl => i.Keeps (Recent k x tr) k cl.view) tr s)
  | threw {e : Exn} (hl : s.locals p = .out (.finished (.threw e)))

theorem Kept.step {p : CallId} {x : Val} {tr : Trace} {s s' : System} {l : Label}
    (h : Kept p k x tr s) (hx : Monitor.Exclusive s) (hok : Durable s l)
    (hs : Monitor.Step frontend s l s') : Kept p k x (tr ++ [(s, l)]) s' := by
  have hG : ∀ y, Recent k x tr y → Recent k x (tr ++ [(s, l)]) y := fun y hy => hy.snoc _
  cases h with
  | @holds i hl hi =>
    rcases hs.of_inn hl with ⟨hne, h'⟩ | ⟨a, i', rfl, hin, h'⟩ | ⟨a, w, rfl, hin, h'⟩
    · obtain ⟨hservers, hdata⟩ := view_of_held hx hl hok.1 hs hne
      exact .holds h' ((hi.mono hG).of_eq hservers hdata)
    · exact .holds h' (((Inside.Move.of_step hin).puts (.inl rfl) hi).mono hG)
    · obtain ⟨e, rfl, rfl, rfl, hv⟩ := (Inside.Move.of_step hin).leave_inv
      cases e with
      | finish o =>
        cases o with
        | returned y =>
          refine .returned h' ⟨fun _ => ?_, fun c j hj => ?_⟩
          · show s'.shared.view.AllCurrent _ k
            rw [hv]
            exact View.AllCurrent.mono hi hG
          · -- nobody else is inside
            have hcp : c ≠ p := by
              rintro rfl
              cases h'.symm.trans hj
            have hne : (Monitor.Label.run p .step : Label).thread ≠ some c := fun e =>
              hcp (Option.some.inj e).symm
            rw [hs.locals_of_ne hne] at hj
            exact absurd (hx.eq_of_inn hj hl) hcp
        | threw e => exact .threw h'
      | resume next => exact absurd hi (fun h => h)
  | returned hl hheld =>
    exact .returned (finished_stays hs hl) ((current_resource k x).step hx hok hs hheld)
  | threw hl => exact .threw (finished_stays hs hl)

/-- What is known of all registered servers when the put has returned. -/
theorem current_of_holds {x : Val} {tr : Trace} {s : System} (hx : Monitor.Exclusive s)
    (h : Monitor.Holds (fun tr cl => cl.view.AllCurrent (Recent k x tr) k)
      (fun tr _ i cl => i.Keeps (Recent k x tr) k cl.view) tr s) :
    s.shared.view.AllCurrent (Recent k x tr) k := by
  cases hlock : s.lock with
  | none => exact h.free hlock
  | some t =>
    obtain ⟨i, hi⟩ := (hx t).mp hlock
    exact (h.held t i hi).all

/-- A binding stays current, also on a server that has been removed. -/
theorem current_of_step {x : Val} {tr : Trace} {s s' : System} {l : Label}
    (h : Monitor.Holds (fun tr cl => cl.view.AllCurrent (Recent k x tr) k)
      (fun tr _ i cl => i.Keeps (Recent k x tr) k cl.view) tr s)
    (hok : NoneLate l) (hs : Monitor.Step frontend s l s') {id : ServerId}
    (hid : Current (Recent k x tr) k (s.shared.view.data id)) :
    Current (Recent k x (tr ++ [(s, l)])) k (s'.shared.view.data id) := by
  refine Current.mono (G := Recent k x tr) ?_ fun y hy => hy.snoc _
  cases hs with
  | outside _ ho => rwa [Outside.step_view ho]
  | inside hl hi => exact (Inside.Move.of_step hi).current (h.held _ _ hl) hid
  | leave hl hi => exact (Inside.Move.of_step hi).current (h.held _ _ hl) hid
  | enter _ _ _ => exact hid
  | env he => rwa [(hok.env (Event.Move.of_step he)).2]

/-! ## Readers -/

/-- A `get` of `k` that was called when the bindings were current. -/
def Reading (G : Val → Prop) (k : Key) (v : View) : Monitor.Local Outside Inside → Prop
  | .out (.getSize k') | .out (.getKeys k' _) | .out (.getCheck k' _)
  | .out (.getLookup k' _) => k' = k
  | .out (.remote q id rd) => q = .get k ∧ Current G k (v.data id) ∧ rd.prints = false ∧
      ∀ y, rd = .answered y → ∃ w, y = .pair k w ∧ G w
  | .out (.finished o) => ∀ y, o = .returned y → y ≠ .errNoExist → ∃ w, y = .pair k w ∧ G w
  | _ => False

theorem Reading.mono {v v' : View} {l : Monitor.Local Outside Inside} (h : Reading G k v l)
    (hG : ∀ y, G y → G' y)
    (hcur : ∀ id, Current G k (v.data id) → Current G' k (v'.data id)) : Reading G' k v' l := by
  have hpair : ∀ {y : Reply}, (∃ w, y = .pair k w ∧ G w) → ∃ w, y = .pair k w ∧ G' w := by
    rintro y ⟨w, hw, hg⟩
    exact ⟨w, hw, hG w hg⟩
  cases l with
  | inn i => exact h
  | out w =>
    cases w with
    | remote q id rd => exact ⟨h.1, hcur id h.2.1, h.2.2.1, fun y hy => hpair (h.2.2.2 y hy)⟩
    | finished o => exact fun y hy hne => hpair (h y hy hne)
    | _ => exact h

/-- A step of the `get` itself. -/
theorem Outside.Move.reading {c : CallId} {v : View} {w w' : Outside} {a : Act}
    (h : Outside.Move c v w a w') (hw : Reading G k v (.out w)) (hall : v.AllCurrent G k) :
    Reading G k v (.out w') := by
  cases h with
  | size => exact hw
  | keys => exact hw
  | check _ => exact hw
  | lookup hid =>
    obtain rfl : _ = k := hw
    exact ⟨rfl, hall _ hid, rfl, nofun⟩
  | @read q id rd rd' b p p' hd _ hr =>
    obtain ⟨rfl, hcur, hrd, _⟩ := hw
    obtain ⟨hrd', _, hans⟩ := ServerRPCImpl.read_get hr hrd
    refine ⟨rfl, hcur, hrd', fun y hy => ?_⟩
    obtain ⟨_, rfl⟩ := hans y hy
    obtain ⟨x, hx, hg⟩ := hcur
    rw [hd, hx]
    exact ⟨x, rfl, hg⟩
  | @reply q id y =>
    intro y' hy' _
    obtain rfl := Outcome.returned.inj hy'
    exact hw.2.2.2 y rfl
  | fails => exact nofun
  | missing =>
    intro y hy hne
    exact absurd (Outcome.returned.inj hy).symm hne
  | @beat w w' a hb _ => cases w <;> cases hb <;> exact absurd hw (fun h => h)
  | _ => exact absurd hw (fun h => h)

/-! ## Runs -/

/-- As long as a server is registered, every call that looks for a first one finds it, and none
registers its server without a transfer. -/
theorem transfers_of_nonempty {ok : System → Label → Prop} {s₀ s : System} {tr : Trace}
    (h₀ : Quiet s₀) (h : SystemRun ok s₀ tr s)
    (hr : ∀ s l, ok s l → s.shared.servers.keys.Nonempty) (c : CallId) (id : ServerId)
    (rpc : ServerRPC id) : s.locals c ≠ .out (.synchronized (.registerFirst id rpc)) := by
  refine h.invariant (I := fun _ s =>
    s.locals c ≠ .out (.synchronized (.registerFirst id rpc))) ?_ ?_
  · rcases h₀.2 c with hidle | ⟨o, hfin⟩
    · simp [hidle]
    · simp [hfin]
  · intro tr s l s' _ hok hs hI
    have hstep := Monitor.Step.of_step frontend hs
    cases hl : s.locals c with
    | inn i =>
      rcases hstep.of_inn hl with ⟨_, h'⟩ | ⟨a, i', _, _, h'⟩ | ⟨a, w, _, hin, h'⟩
      · simp [h']
      · simp [h']
      · obtain ⟨e, _, _, rfl, _⟩ := (Inside.Move.of_step hin).leave_inv
        cases e <;> simp [h', Exit.point]
    | out w =>
      rcases hstep.of_out hl with ⟨_, h'⟩ | ⟨a, w', _, ho, h'⟩ | ⟨i, _, _, _, _, h'⟩
      · rw [h', ← hl]
        exact hI
      · rw [h']
        intro e
        obtain rfl := Monitor.Local.out.inj e
        have hmove := Outside.Move.of_step ho
        generalize hb : Outside.synchronized (.registerFirst id rpc) = w' at hmove
        cases hmove with
        | @call op => cases op <;> cases hb
        | findsNone hnone =>
          exact absurd hnone (hr s l hok).ne_empty
        | @beat w w' a _ hw' =>
          subst hb
          cases hw'
        | _ => cases hb
      · simp [h']

theorem no_registerFirst {ok : System → Label → Prop} {r : ServerId} {s₀ s : System} {tr : Trace}
    (h₀ : Quiet s₀) (h : SystemRun ok s₀ tr s)
    (hr : ∀ s l, ok s l → r ∈ s.shared.servers) (c : CallId) (id : ServerId)
    (rpc : ServerRPC id) : s.locals c ≠ .out (.synchronized (.registerFirst id rpc)) :=
  transfers_of_nonempty h₀ h (fun s l hok => ⟨r, Finmap.mem_keys.mpr (hr s l hok)⟩) c id rpc

/-- The put `p` has returned, and the `get` `g` was called after that. -/
structure Durably (p g : CallId) (k : Key) (x : Val) (tr : Trace) (s : System) : Prop where
  exclusive : Monitor.Exclusive s
  returned : ∃ y, s.locals p = .out (.finished (.returned y))
  held : Monitor.Holds (fun tr cl => cl.view.AllCurrent (Recent k x tr) k)
    (fun tr _ i cl => i.Keeps (Recent k x tr) k cl.view) tr s
  reading : Reading (Recent k x tr) k s.shared.view (s.locals g)

theorem Durably.step {p g : CallId} {x : Val} {tr : Trace} {s s' : System} {l : Label}
    (h : Durably p g k x tr s) (hok : Durable s l) (hs : Monitor.Step frontend s l s') :
    Durably p g k x (tr ++ [(s, l)]) s' := by
  obtain ⟨y, hret⟩ := h.returned
  have hG : ∀ y, Recent k x tr y → Recent k x (tr ++ [(s, l)]) y := fun y hy => hy.snoc _
  have hkeep : ∀ {lo}, Reading (Recent k x tr) k s.shared.view lo →
      Reading (Recent k x (tr ++ [(s, l)])) k s'.shared.view lo := fun hlo =>
    hlo.mono hG fun id hid => current_of_step h.held hok.1 hs hid
  refine ⟨hs.exclusive _ h.exclusive, ⟨y, finished_stays hs hret⟩,
    (current_resource k x).step h.exclusive hok hs h.held, ?_⟩
  have hreading := h.reading
  cases hl : s.locals g with
  | inn i =>
    rw [hl] at hreading
    exact absurd hreading (fun h => h)
  | out w =>
    rw [hl] at hreading
    rcases hs.of_out hl with ⟨_, h'⟩ | ⟨a, w', _, ho, h'⟩ | ⟨i, _, he, _⟩
    · rw [h']
      exact hkeep hreading
    · rw [h']
      exact hkeep ((Outside.Move.of_step ho).reading hreading
        (current_of_holds h.exclusive h.held))
    · obtain ⟨b, rfl, rfl⟩ := Outside.entry_eq_some he
      exact absurd hreading (fun h => h)

/-- When a put has returned, what it has written is kept. -/
theorem current_of_returned {p : CallId} {k : Key} {x : Val} {y : Reply} {s₀ t u : System}
    {pre mid : Trace} (h₀ : Quiet s₀)
    (h : SystemRun Durable s₀ (pre ++ (t, .enter p) :: mid) u)
    (hput : t.locals p = .out (Op.put k x).start)
    (hret : u.locals p = .out (.finished (.returned y))) :
    Monitor.Exclusive u ∧
      Monitor.Holds (fun tr cl => cl.view.AllCurrent (Recent k x tr) k)
        (fun tr _ i cl => i.Keeps (Recent k x tr) k cl.view) mid u := by
  obtain ⟨hpre, hok, t', hstep, hmid⟩ := h.of_split rfl
  have henter := Monitor.Step.of_step frontend hstep
  have hexcl : Monitor.Exclusive t' :=
    henter.exclusive _ (Monitor.Run.exclusive hpre h₀.exclusive)
  have hloc := (put_enters henter hput).2
  have hkept : Monitor.Exclusive u ∧ Kept p k x mid u := by
    refine hmid.invariant (I := fun tr s => Monitor.Exclusive s ∧ Kept p k x tr s)
      ⟨hexcl, .holds hloc rfl⟩ fun tr s l s' _ hok hs hI => ?_
    have hs := Monitor.Step.of_step frontend hs
    exact ⟨hs.exclusive _ hI.1, hI.2.step hI.1 hok hs⟩
  refine ⟨hkept.1, ?_⟩
  cases hkept.2 with
  | holds hl _ => cases hl.symm.trans hret
  | returned _ hheld => exact hheld
  | threw hl => cases hl.symm.trans hret

/-- As long as one server stays registered, and whatever crashes and throws, a `get` of `k`
that is called after `put(k, x)` has returned, and does not return `ERR_NOEXIST` or throw,
returns the value of that put or of one that took `serversLock` after it. -/
theorem put_durable {p g : CallId} {k : Key} {x : Val} {r : ServerId} {y : Reply}
    {s₀ t u s : System} {pre mid post : Trace} (h₀ : Quiet s₀)
    (h : SystemRun (fun s l => NoneLate l ∧ r ∈ s.shared.servers) s₀
      (pre ++ (t, .enter p) :: (mid ++ (u, .run g (.call (.get k))) :: post)) s)
    (hput : t.locals p = .out (Op.put k x).start)
    (hret : u.locals p = .out (.finished (.returned (.success k x))))
    (hget : s.locals g = .out (.finished (.returned y))) (hy : y ≠ .errNoExist) :
    ∃ w, y = .pair k w ∧
      (w = x ∨ ∃ e ∈ mid ++ post, ∃ q, e.2 = .enter q ∧
        e.1.locals q = .out (Op.put k w).start) := by
  have hd : SystemRun Durable s₀ _ s :=
    (h.strengthen (I := fun s => ∀ c id rpc,
      s.locals c ≠ .out (.synchronized (.registerFirst id rpc))) fun tr s hrun c id rpc =>
        no_registerFirst h₀ hrun (fun _ _ hok => hok.2) c id rpc).mono
      fun s l hok => ⟨hok.1.1, hok.2⟩
  -- up to the call of `get`: the put comes to its end
  have hsplit : pre ++ (t, .enter p) :: (mid ++ (u, .run g (.call (.get k))) :: post) =
      (pre ++ (t, .enter p) :: mid) ++ (u, .run g (.call (.get k))) :: post := by simp
  obtain ⟨hmid, hok', u', hstep', hpost⟩ := hd.of_split hsplit
  have hcall := Monitor.Step.of_step frontend hstep'
  obtain ⟨hexcl', hheld⟩ := current_of_returned h₀ hmid hput hret
  -- from there on: the bindings stay current
  have hdur : Durably p g k x ((mid ++ [(u, .run g (.call (.get k)))]) ++ post) s := by
    refine hpost.invariant
      (I := fun tr s => Durably p g k x ((mid ++ [(u, .run g (.call (.get k)))]) ++ tr) s) ?_ ?_
    · rw [List.append_nil]
      refine ⟨hcall.exclusive _ hexcl', ⟨_, finished_stays hcall hret⟩,
        (current_resource k x).step hexcl' hok' hcall hheld, ?_⟩
      rw [(call_start hcall).2.2]
      exact rfl
    · intro tr s l s' _ hok hs hI
      rw [← List.append_assoc]
      exact hI.step hok (Monitor.Step.of_step frontend hs)
  have hreading := hdur.reading
  rw [hget] at hreading
  obtain ⟨w, rfl, hw⟩ := hreading y rfl hy
  refine ⟨w, rfl, ?_⟩
  rcases hw with rfl | ⟨e, he, q, hq, hl⟩
  · exact .inl rfl
  · refine .inr ⟨e, ?_, q, hq, hl⟩
    rcases List.mem_append.mp he with he | he
    · rcases List.mem_append.mp he with he | he
      · exact List.mem_append_left _ he
      · obtain rfl := List.mem_singleton.mp he
        cases hq
    · exact List.mem_append_right _ he

/-- The rest of the put of call 0.  Then server 2 crashes, and the heartbeat removes it. -/
def putThenRemove : List Label :=
  (putOn 0 4 7 [1, 2]).drop 2 ++ [.env (.crash 2), .run 3 (.call .heartBeat), .run 3 (.pick 1),
    .run 3 (.pick 2), .run 3 .exec, .run 3 .reply, .run 3 .step, .run 3 .throw, .run 3 .throw,
    .run 3 .throw, .run 3 .throw, .enter 3, .run 3 .step, .run 3 .step]

/-- The put of call 1 writes server 1 and then throws, between the two steps with which the
`get` of call 2 tests the lock bit and reads. -/
def getDuringPut : List Label :=
  [.run 2 .step, .run 2 .step, .run 2 .step, .run 2 .step, .run 2 (.read .step),
    .run 1 (.call (.put 4 9)), .enter 1] ++ loopOn 1 [.run 1 .exec] [1] ++
    [.run 1 .step, .run 1 (.pick 1), .run 1 .exec, .run 1 .throw, .run 1 .throw, .run 1 .throw,
      .run 1 .throw, .run 1 .step, .run 2 (.read .step), .run 2 .reply]

theorem put_durable_getDuringPut :
    ∃ t mid u post s, SystemRun (fun s l => NoneLate l ∧ 1 ∈ s.shared.servers)
        (System.fresh twoServers)
        ([(System.fresh twoServers, .run 0 (.call (.put 4 7)))] ++
          (t, .enter 0) :: (mid ++ (u, .run 2 (.call (.get 4))) :: post)) s ∧
      s.outcome 1 = some (.threw .runtime) ∧ s.outcome 2 = some (.returned (.pair 4 9)) ∧
      ∃ w, Reply.pair 4 9 = .pair 4 w ∧ (w = 7 ∨ ∃ e ∈ mid ++ post, ∃ q, e.2 = .enter q ∧
        e.1.locals q = .out (Op.put 4 w).start) := by
  have hput : ((exec System.step (System.fresh twoServers) [.run 0 (.call (.put 4 7))]).map
      fun t => t.awaits 0) = some (some (4, 7)) := by decide +kernel
  have hret : ((exec System.step (System.fresh twoServers) ([.run 0 (.call (.put 4 7))] ++
      .enter 0 :: putThenRemove)).map fun u => u.outcome 0) =
      some (some (.returned (.success 4 7))) := by decide +kernel
  have hget : ((exec System.step (System.fresh twoServers) ([.run 0 (.call (.put 4 7))] ++
      .enter 0 :: (putThenRemove ++ .run 2 (.call (.get 4)) :: getDuringPut))).map
      fun s => (s.outcome 1, s.outcome 2)) =
      some (some (.threw .runtime), some (.returned (.pair 4 9))) := by decide +kernel
  obtain ⟨t, mid, u, post, s, hrun, ht, hu, hs, -⟩ := Run.split_twice_of_exec
    (fun s l => NoneLate l ∧ 1 ∈ s.shared.servers) hput hret hget (by decide +kernel)
  obtain ⟨hs1, hs2⟩ := Prod.mk.inj hs
  exact ⟨t, mid, u, post, s, hrun, hs1, hs2, put_durable (System.fresh_quiet _) hrun
    (System.awaits_eq ht) (System.outcome_eq hu) (System.outcome_eq hs2) (by simp)⟩

end ReplicatedStore
