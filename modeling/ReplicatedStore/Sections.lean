/-
Critical sections end.

`Retry.run` makes a bounded number of attempts, and the loops of a section run over the
servers that were registered and the keys that the sender held when their iterators were
made.  So the thread that holds `serversLock` can always take a step, also when servers
have crashed, and it gives the lock back after a number of its own steps that depends on
the number of servers and keys alone.
-/
import ReplicatedStore.Loops
import ReplicatedStore.Runs

namespace ReplicatedStore

open Lib

/-! ## Steps that are left -/

/-- The steps that an attempt has still to make at most. -/
def Progress.left : Progress → Nat
  | .sent => 3
  | .notifying => 2
  | .executed => 1

/-- And with those of the attempts after it. -/
def Attempt.left (a : Attempt Progress) : Nat := (RETRIES - a.failures) * 3 + a.state.left

/-- The steps of a loop over `n` servers. -/
def Loop.full (n : Nat) : Nat := 13 * n + 2

def Loop.left (n : Nat) : Loop → Nat
  | .start => Loop.full n
  | .next todo => 13 * todo.card + 1
  | .body todo _ a => 13 * todo.card + 1 + a.left

/-- The steps of an attempt at the transfer of `k` keys. -/
def Send.full (k : Nat) : Nat := 13 * k + 3

def Send.left (k : Nat) : Send → Nat
  | .sent => Send.full k
  | .next todo => 13 * todo.card + 2
  | .put todo _ _ a => 13 * todo.card + 2 + a.left
  | .returned | .raised => 1

def Transfer.full (k : Nat) : Nat := Send.full k + 1

def Transfer.left (k : Nat) : Transfer → Nat
  | .lookup => Transfer.full k
  | .remote p => p.left k

/-- What follows the unlock phase. -/
def Work.tail : Work → Nat
  | .put _ _ => 1
  | .addServer _ _ _ => 2

/-- What follows the lock phase. -/
def Work.rest (n k : Nat) : Work → Nat
  | .put _ _ => Loop.full n + (Loop.full n + 1)
  | .addServer _ _ _ => (RETRIES + 1) * Transfer.full k + (Loop.full n + 2)

/-- The steps of a section that are left, with `n` servers registered and `k` keys at each
server at most. -/
def Inside.left (n k : Nat) : Inside → Nat
  | .lock w l => l.left n + w.rest n k
  | .write _ _ l => l.left n + (Loop.full n + 1)
  | .transfer _ _ _ a =>
    (RETRIES - a.failures) * Transfer.full k + a.state.left k + (Loop.full n + 2)
  | .unlock w l => l.left n + w.tail
  | .registerFirst _ _ | .register _ _ | .listServer | .shutdownRemove _ | .beatRemove _ _ => 2
  | .shutdownCall _ pr => pr.left + 2
  | .shutdownLookup _ => 6
  | .leave _ => 1

/-- The steps of a whole section. -/
def Block.full (n k : Nat) (b : Block) : Nat := b.start.left n k

/-- `put` in numbers. -/
example (n k : Nat) (key : Key) (x : Val) :
    (Block.withLock (.put key x)).full n k = 39 * n + 7 := by
  simp only [Block.full, Block.start, Inside.left, Loop.left, Work.rest, Loop.full]
  omega

/-- `addServer` in numbers. -/
example (n k : Nat) (id sender : ServerId) (rpc : ServerRPC id) :
    (Block.withLock (.addServer id rpc sender)).full n k = 26 * n + 52 * k + 22 := by
  simp only [Block.full, Block.start, Inside.left, Loop.left, Work.rest, Loop.full, Transfer.full,
    Send.full, RETRIES]
  omega

theorem Progress.left_pos (pr : Progress) : 0 < pr.left := by
  cases pr <;> simp [Progress.left]

/-- The server comes further with a method. -/
theorem Method.following_left (m : Method) {pr : Progress} (h : pr ≠ .executed) :
    (m.following pr).left < pr.left := by
  cases pr with
  | sent => cases m <;> simp [Method.following, Progress.left]
  | notifying => simp [Method.following, Progress.left]
  | executed => exact absurd rfl h

theorem Attempt.left_pos (a : Attempt Progress) : 0 < a.left :=
  Nat.add_pos_right _ a.state.left_pos

theorem Attempt.first_left : (Attempt.first Progress.sent).left = 12 := rfl

/-- A new attempt after one that has thrown. -/
theorem Attempt.retry_left {a : Attempt Progress} (h : a.failures < RETRIES) :
    Attempt.left ⟨a.failures + 1, .sent⟩ < a.left := by
  have hpos := a.state.left_pos
  simp only [Attempt.left, Progress.left] at hpos ⊢
  unfold RETRIES at h ⊢
  omega

variable {n k : Nat} {c : CallId} {v v' : View}

/-! ## One step -/

/-- What a loop goes on with after a step, when `after` follows it. -/
def Flow.left (n after : Nat) : Flow → Nat
  | .again l => l.left n + after
  | .done => after
  | .raised => 1

theorem Loop.failed_left {sw : Bool} {todo : Finset ServerId} {id : ServerId}
    {a : Attempt Progress} {after : Nat} (hafter : 0 < after) :
    (Loop.failed sw todo id a).left n after < (Loop.body todo id a).left n + after := by
  have hpos := a.left_pos
  rcases Loop.failed_cases sw todo id a with ⟨hlt, e⟩ | ⟨-, -, e⟩ | ⟨-, -, e⟩ <;> rw [e]
  · have hretry := Attempt.retry_left hlt
    simp only [Flow.left, Loop.left]
    omega
  · simp only [Flow.left, Loop.left]
    omega
  · simp only [Flow.left, Loop.left]
    omega

theorem Loop.Move.left_lt {m : Method} {sw : Bool} {l : Loop} {a : Act} {f : Flow} {after : Nat}
    (h : Loop.Move m sw c v l a v' f) (hn : v.servers.keys.card ≤ n) (hafter : 0 < after) :
    f.left n after < l.left n + after := by
  cases h with
  | start =>
    simp only [Flow.left, Loop.left, Loop.full]
    omega
  | @pick todo id hid =>
    have hcard := Finset.card_erase_add_one hid
    simp only [Flow.left, Loop.left, Attempt.first_left]
    omega
  | done =>
    simp only [Flow.left, Loop.left]
    omega
  | @exec todo id a _ ha =>
    have hlt := m.following_left ha
    simp only [Flow.left, Loop.left, Attempt.left]
    omega
  | @reply todo id a _ =>
    have hpos := a.left_pos
    simp only [Flow.left, Loop.left]
    omega
  | throw _ => exact Loop.failed_left hafter
  | linger _ => exact Loop.failed_left hafter

theorem Send.Move.left_lt {sender target : ServerId} {p p' : Send} {b : SendAct}
    (h : Send.Move v sender target p b v' p') (hk : (v.data sender).keys.card ≤ k) :
    p'.left k < p.left k := by
  cases h with
  | start _ =>
    simp only [Send.left, Send.full]
    omega
  | badPort _ =>
    simp only [Send.left, Send.full]
    omega
  | @visit todo k x hmem _ =>
    have hcard := Finset.card_erase_add_one hmem
    simp only [Send.left, Attempt.first_left]
    omega
  | done =>
    simp only [Send.left]
    omega
  | @exec todo k x a _ ha =>
    have hlt : Progress.executed.left < a.state.left := by
      cases hs : a.state with
      | executed => exact absurd hs ha
      | _ => simp [Progress.left]
    simp only [Send.left, Attempt.left]
    omega
  | @reply todo k x a _ =>
    have hpos := a.left_pos
    simp only [Send.left]
    omega
  | @retry todo k x a ha =>
    have hretry := Attempt.retry_left ha
    simp only [Send.left]
    omega
  | @giveUp todo k x a _ =>
    have hpos := a.left_pos
    simp only [Send.left]
    omega

theorem Transfer.failed_left {id sender : ServerId} {rpc : ServerRPC id} {a : Attempt Transfer}
    (hpos : 0 < a.state.left k) :
    (Transfer.failed id rpc sender a).left n k < (Inside.transfer id rpc sender a).left n k := by
  rcases Transfer.failed_cases id rpc sender a with ⟨hlt, e⟩ | ⟨-, e⟩ <;> rw [e]
  · obtain ⟨d, hd⟩ : ∃ d, RETRIES - a.failures = d + 1 := ⟨RETRIES - a.failures - 1, by omega⟩
    have hd' : RETRIES - (a.failures + 1) = d := by omega
    have hlookup : Transfer.lookup.left k = Transfer.full k := rfl
    simp only [Inside.left, hlookup, hd, hd', Nat.succ_mul]
    omega
  · simp only [Inside.raise, Inside.left]
    omega

theorem Send.left_pos (p : Send) : 0 < p.left k := by
  cases p with
  | put todo key x a => exact Nat.add_pos_right _ a.left_pos
  | _ => simp [Send.left, Send.full]

theorem Flow.point_left {f : Flow} {at_ : Loop → Inside} {after : Inside} {m : Nat}
    (hat : ∀ l, (at_ l).left n k = l.left n + m) (hafter : after.left n k = m) :
    (f.point at_ after).left n k = f.left n m := by
  cases f with
  | again l => exact hat l
  | done => exact hafter
  | raised => rfl

theorem Work.rest_pos (w : Work) : 0 < w.rest n k := by
  cases w <;> exact Nat.add_pos_right _ (Nat.succ_pos _)

theorem Work.tail_pos (w : Work) : 0 < w.tail := by
  cases w <;> simp [Work.tail]

theorem Work.body_left (w : Work) : w.body.left n k = w.rest n k := by
  cases w with
  | put key x => rfl
  | addServer id rpc sender =>
    simp only [Work.body, Inside.left, Attempt.first, Transfer.left, Work.rest, Nat.succ_mul,
      Nat.sub_zero]

theorem Work.after_left (w : Work) : w.after.left n k = w.tail := by
  cases w <;> rfl

/-- A step of the thread that holds the lock leaves fewer. -/
theorem Inside.Move.left_lt {i i' : Inside} {a : Act} (h : Inside.Move c v i a v' (.inl i'))
    (hcall : ∀ id pr, i ≠ .shutdownCall id pr) (hn : v.servers.keys.card ≤ n)
    (hk : ∀ id, (v.data id).keys.card ≤ k) : i'.left n k < i.left n k := by
  generalize hr : (Sum.inl i' : Inside ⊕ Outside) = r at h
  cases h with
  | @lock w l a v' f h =>
    obtain rfl := Sum.inl.inj hr
    rw [Flow.point_left (m := w.rest n k) (fun _ => rfl) w.body_left]
    exact h.left_lt hn w.rest_pos
  | @write key x l a v' f h =>
    obtain rfl := Sum.inl.inj hr
    rw [Flow.point_left (m := Loop.full n + 1) (fun _ => rfl) rfl]
    exact h.left_lt hn (Nat.succ_pos _)
  | @unlock w l a v' f h =>
    obtain rfl := Sum.inl.inj hr
    rw [Flow.point_left (m := w.tail) (fun _ => rfl) w.after_left]
    exact h.left_lt hn w.tail_pos
  | senderFound _ =>
    obtain rfl := Sum.inl.inj hr
    simp only [Inside.left, Transfer.left, Send.left, Transfer.full]
    omega
  | senderGone _ =>
    obtain rfl := Sum.inl.inj hr
    exact Transfer.failed_left (Nat.succ_pos _)
  | send _ h =>
    obtain rfl := Sum.inl.inj hr
    have hlt := h.left_lt (hk _)
    simp only [Inside.left, Transfer.left]
    omega
  | sent =>
    obtain rfl := Sum.inl.inj hr
    simp only [Inside.left, Loop.left, Work.tail, Transfer.left, Send.left]
    omega
  | @transferThrow id rpc sender m p _ =>
    obtain rfl := Sum.inl.inj hr
    exact Transfer.failed_left p.left_pos
  | leave => cases hr
  | shutdownExec _ => exact absurd rfl (hcall _ _)
  | shutdownReply => exact absurd rfl (hcall _ _)
  | shutdownThrow => exact absurd rfl (hcall _ _)
  | _ =>
    obtain rfl := Sum.inl.inj hr
    simp [Inside.left, Progress.left]

/-- The same for the steps of the model: `shutdownServer` waits for one method. -/
theorem Inside.step_left_lt {cl cl' : Cluster} {i i' : Inside} {a : Act}
    (h : i.step c cl a = some (cl', .inl i')) (hn : cl.servers.keys.card ≤ n)
    (hk : ∀ id, (cl.process id).data.keys.card ≤ k) : i'.left n k < i.left n k := by
  by_cases hcall : ∃ id pr, i = .shutdownCall id pr
  · obtain ⟨id, pr, rfl⟩ := hcall
    cases a with
    | exec =>
      obtain ⟨⟨cl'', pr'⟩, hx, heq⟩ := Option.map_eq_some_iff.mp h
      obtain ⟨-, hi⟩ := Prod.mk.inj heq
      obtain rfl := Sum.inl.inj hi
      obtain ⟨-, hpr, rfl, -⟩ := Cluster.exec_view hx
      have hlt := Method.shutdownServer.following_left hpr
      simp only [Inside.left]
      omega
    | reply =>
      cases pr <;> simp only [Inside.step] at h <;> try contradiction
      obtain ⟨-, hi⟩ := Prod.mk.inj (Option.some.inj h)
      obtain rfl := Sum.inl.inj hi
      simp [Inside.left, Progress.left]
    | throw =>
      simp only [Inside.step] at h
      split at h
      · obtain ⟨-, hi⟩ := Prod.mk.inj (Option.some.inj h)
        obtain rfl := Sum.inl.inj hi
        simp [Inside.left, Inside.raise]
      · cases h
    | _ => cases pr <;> simp [Inside.step] at h
  · exact (Inside.Move.of_step h).left_lt (fun id pr e => hcall ⟨id, pr, e⟩) hn hk

/-! ## Keys stay -/

/-- No server loses a key. -/
def View.KeepsKeys (v v' : View) : Prop := ∀ id, (v.data id).keys ⊆ (v'.data id).keys

theorem View.KeepsKeys.of_eq (h : v'.data = v.data) : v.KeepsKeys v' := fun id => by rw [h]

theorem Method.keeps_keys (m : Method) (pr : Progress) (id : ServerId) (v : View) :
    v.KeepsKeys (m.effect pr id v) := by
  intro id'
  by_cases hid : id' = id
  · subst hid
    cases m with
    | put key x =>
      cases pr with
      | sent =>
        rw [Method.effect_sent_put, View.setData_data_self]
        intro key' hkey
        rw [Finmap.mem_keys] at hkey ⊢
        exact Finmap.mem_insert.mpr (.inr hkey)
      | _ => exact Finset.Subset.refl _
    | _ => cases pr <;> exact Finset.Subset.refl _
  · rw [Method.effect_data_of_ne m pr v hid]

theorem Loop.Move.keys {m : Method} {sw : Bool} {l : Loop} {a : Act} {f : Flow}
    (h : Loop.Move m sw c v l a v' f) : v.KeepsKeys v' := by
  cases h with
  | exec _ _ => exact m.keeps_keys _ _ _
  | _ => exact .of_eq rfl

theorem Send.Move.keys {sender target : ServerId} {p p' : Send} {b : SendAct}
    (h : Send.Move v sender target p b v' p') : v.KeepsKeys v' := by
  cases h with
  | exec _ _ => exact Method.keeps_keys _ _ _ _
  | _ => exact .of_eq rfl

theorem Inside.Move.keys {i : Inside} {a : Act} {r : Inside ⊕ Outside}
    (h : Inside.Move c v i a v' r) : v.KeepsKeys v' := by
  cases h with
  | lock h => exact h.keys
  | write h => exact h.keys
  | unlock h => exact h.keys
  | send _ h => exact h.keys
  | _ => exact .of_eq rfl

theorem Event.Move.keys {e : Event} (h : Event.Move v e v') : v.KeepsKeys v' := by
  cases h with
  | crash => exact .of_eq rfl
  | @deliver n r _ _ _ => exact r.method.keeps_keys r.progress r.serverId v

theorem keys_of_step {s s' : System} {l : Label} (h : Monitor.Step frontend s l s') :
    s.shared.view.KeepsKeys s'.shared.view := by
  cases h with
  | outside _ ho => exact .of_eq (congrArg View.data (Outside.step_view ho))
  | inside _ hi => exact (Inside.Move.of_step hi).keys
  | leave _ hi => exact (Inside.Move.of_step hi).keys
  | enter _ _ _ => exact .of_eq rfl
  | env he => exact (Event.Move.of_step he).keys

/-! ## The next step -/

/-- The keys that the iterator of the sender has still to return are there. -/
def Send.Ready (source : Data) : Send → Prop
  | .next todo | .put todo _ _ _ => todo ⊆ source.keys
  | _ => True

def Inside.Ready (v : View) : Inside → Prop
  | .transfer _ _ sender ⟨_, .remote p⟩ => p.Ready (v.data sender)
  | _ => True

/-- The thread waits for a server that has crashed, or for one whose method has raised. -/
def Inside.Broken (cl : Cluster) : Inside → Prop
  | .lock _ (.body _ id _) | .write _ _ (.body _ id _) | .unlock _ (.body _ id _)
  | .shutdownCall id _ => cl.crashed id = true
  | .transfer id _ sender ⟨_, .remote p⟩ =>
    cl.crashed sender = true ∨ p = .raised ∨
      cl.crashed id = true ∧ ∃ todo key x a, p = .put todo key x a
  | _ => False

theorem Send.Ready.mono {source source' : Data} {p : Send} (h : p.Ready source)
    (hkeys : source.keys ⊆ source'.keys) : p.Ready source' := by
  cases p with
  | next todo => exact h.trans hkeys
  | put todo key x a => exact h.trans hkeys
  | _ => exact trivial

theorem Inside.Ready.mono {i : Inside} (h : i.Ready v) (hkeys : v.KeepsKeys v') : i.Ready v' := by
  cases i with
  | transfer id rpc sender a =>
    obtain ⟨m, t⟩ := a
    cases t with
    | lookup => exact trivial
    | remote p => exact Send.Ready.mono h (hkeys sender)
  | _ => exact trivial

theorem Block.ready (b : Block) (v : View) : b.start.Ready v := by
  cases b <;> exact trivial

theorem Send.Move.ready {sender target : ServerId} {p p' : Send} {b : SendAct}
    (h : Send.Move v sender target p b v' p') (hp : p.Ready (v.data sender)) :
    p'.Ready (v'.data sender) := by
  have hsource : p'.Ready (v.data sender) := by
    cases h with
    | start _ => exact Finset.Subset.refl _
    | visit _ _ => exact (Finset.erase_subset _ _).trans hp
    | exec _ _ => exact hp
    | reply _ => exact hp
    | retry _ => exact hp
    | _ => exact trivial
  exact hsource.mono (h.keys sender)

theorem Transfer.failed_ready (id : ServerId) (rpc : ServerRPC id) (sender : ServerId)
    (a : Attempt Transfer) (v : View) : (Transfer.failed id rpc sender a).Ready v := by
  rcases Transfer.failed_cases id rpc sender a with ⟨-, e⟩ | ⟨-, e⟩ <;> rw [e] <;> exact trivial

theorem Inside.Move.ready {i i' : Inside} {a : Act} (h : Inside.Move c v i a v' (.inl i'))
    (hi : i.Ready v) : i'.Ready v' := by
  generalize hr : (Sum.inl i' : Inside ⊕ Outside) = r at h
  cases h with
  | @lock w l a v' f _ =>
    obtain rfl := Sum.inl.inj hr
    cases f <;> cases w <;> exact trivial
  | @write key x l a v' f _ =>
    obtain rfl := Sum.inl.inj hr
    cases f <;> exact trivial
  | @unlock w l a v' f _ =>
    obtain rfl := Sum.inl.inj hr
    cases f <;> cases w <;> exact trivial
  | senderGone _ =>
    obtain rfl := Sum.inl.inj hr
    exact Transfer.failed_ready ..
  | transferThrow _ =>
    obtain rfl := Sum.inl.inj hr
    exact Transfer.failed_ready ..
  | send _ h =>
    obtain rfl := Sum.inl.inj hr
    exact h.ready hi
  | leave => cases hr
  | _ =>
    obtain rfl := Sum.inl.inj hr
    exact trivial

/-- A server that has not crashed takes the next step of a method. -/
theorem Cluster.exec_isSome {cl : Cluster} {id : ServerId} (m : Method) {pr : Progress}
    (hc : cl.crashed id = false) (hpr : pr ≠ .executed) : ∃ r, cl.exec id m pr = some r := by
  cases pr with
  | sent => cases m <;> simp [Cluster.exec, hc, Method.step]
  | notifying => simp [Cluster.exec, hc, Method.step]
  | executed => exact absurd rfl hpr

/-- A loop can always go on, and fails only at a crashed server. -/
theorem Loop.step_isSome (m : Method) (sw : Bool) (c : CallId) (cl : Cluster) (l : Loop) :
    ∃ a r, Loop.step m sw c cl l a = some r ∧
      (a.faulty = true → ∃ todo id att, l = .body todo id att ∧ cl.crashed id = true) := by
  cases l with
  | start => exact ⟨.step, _, rfl, fun h => by cases h⟩
  | next todo =>
    rcases todo.eq_empty_or_nonempty with rfl | ⟨id, hid⟩
    · exact ⟨.step, (cl, .done), by simp [Loop.step], fun h => by cases h⟩
    · exact ⟨.pick id, _, if_pos hid, fun h => by cases h⟩
  | body todo id att =>
    by_cases hex : att.state = .executed
    · exact ⟨.reply, _, if_pos hex, fun h => by cases h⟩
    · cases hc : cl.crashed id with
      | true =>
        exact ⟨.throw, _, if_pos (by simp [Cluster.mayThrow, hc]),
          fun _ => ⟨todo, id, att, rfl, hc⟩⟩
      | false =>
        obtain ⟨r, hr⟩ := Cluster.exec_isSome m hc hex
        exact ⟨.exec, (r.1, .again (.body todo id { att with state := r.2 })),
          by simp [Loop.step, hr], fun h => by cases h⟩

theorem sendValuesToServer_isSome {cl : Cluster} {sender : ServerId} (target : ServerId)
    (c : CallId) {p : Send} (hready : p.Ready (cl.process sender).data) (hreturned : p ≠ .returned)
    (hraised : p ≠ .raised) :
    ∃ b r, sendValuesToServer cl sender target c p b = some r ∧
      (b = .throw → cl.crashed target = true ∧ ∃ todo key x a, p = .put todo key x a) := by
  cases p with
  | sent =>
    cases hcreate : ServerRPCClient.create target c with
    | ok rpc =>
      exact ⟨.step, (cl, .next (cl.process sender).data.keys),
        by simp [sendValuesToServer, hcreate], fun h => by cases h⟩
    | error message =>
      exact ⟨.step, (cl, .raised), by simp [sendValuesToServer, hcreate], fun h => by cases h⟩
  | next todo =>
    rcases todo.eq_empty_or_nonempty with rfl | ⟨key, hkey⟩
    · exact ⟨.step, (cl, .returned), by simp [sendValuesToServer], fun h => by cases h⟩
    · obtain ⟨x, hx⟩ := Finmap.mem_iff.mp (Finmap.mem_keys.mp (hready hkey))
      exact ⟨.visit key, (cl, .put (todo.erase key) key x (.first .sent)),
        by simp [sendValuesToServer, hkey, hx], fun h => by cases h⟩
  | put todo key x a =>
    by_cases hex : a.state = .executed
    · exact ⟨.reply, _, if_pos hex, fun h => by cases h⟩
    · cases hc : cl.crashed target with
      | true =>
        have hmay : cl.mayThrow target a.state = true := by simp [Cluster.mayThrow, hc]
        cases hretry : a.retry Progress.sent with
        | some a' =>
          exact ⟨.throw, (cl, .put todo key x a'), by simp [sendValuesToServer, hmay, hretry],
            fun _ => ⟨rfl, todo, key, x, a, rfl⟩⟩
        | none =>
          exact ⟨.throw, (cl, .raised), by simp [sendValuesToServer, hmay, hretry],
            fun _ => ⟨rfl, todo, key, x, a, rfl⟩⟩
      | false =>
        obtain ⟨r, hr⟩ := Cluster.exec_isSome (.put key x) hc hex
        exact ⟨.exec, (r.1, .put todo key x { a with state := r.2 }),
          by simp [sendValuesToServer, hr], fun h => by cases h⟩
  | returned => exact absurd rfl hreturned
  | raised => exact absurd rfl hraised

/-- The thread that holds the lock can always go on, and fails only where it must. -/
theorem Inside.step_isSome {cl : Cluster} {i : Inside} (c : CallId) (hi : i.Ready cl.view) :
    ∃ a r, i.step c cl a = some r ∧ (a.faulty = true → i.Broken cl) := by
  have hstep : ∀ {r}, i.step c cl .step = some r →
      ∃ a r, i.step c cl a = some r ∧ (a.faulty = true → i.Broken cl) := fun hr =>
    ⟨.step, _, hr, fun h => by cases h⟩
  cases i with
  | lock w l =>
    obtain ⟨a, r, hr, hf⟩ := Loop.step_isSome .lock true c cl l
    refine ⟨a, (r.1, .inl (r.2.point (.lock w) w.body)), by
      simp [Inside.step, ServerLockUtil.lock, hr], fun h => ?_⟩
    obtain ⟨todo, id, att, rfl, hc⟩ := hf h
    exact hc
  | write key x l =>
    obtain ⟨a, r, hr, hf⟩ := Loop.step_isSome (.put key x) false c cl l
    refine ⟨a, (r.1, .inl (r.2.point (.write key x) (.unlock (.put key x) .start))), by
      simp [Inside.step, ServerLockUtil.apply, hr], fun h => ?_⟩
    obtain ⟨todo, id, att, rfl, hc⟩ := hf h
    exact hc
  | unlock w l =>
    obtain ⟨a, r, hr, hf⟩ := Loop.step_isSome .unlock false c cl l
    refine ⟨a, (r.1, .inl (r.2.point (.unlock w) w.after)), by
      simp [Inside.step, ServerLockUtil.unlock, hr], fun h => ?_⟩
    obtain ⟨todo, id, att, rfl, hc⟩ := hf h
    exact hc
  | transfer id rpc sender att =>
    obtain ⟨m, t⟩ := att
    cases t with
    | lookup =>
      by_cases hs : sender ∈ cl.servers
      · exact hstep (if_pos hs)
      · exact hstep (if_neg hs)
    | remote p =>
      cases hc : cl.crashed sender with
      | true => exact ⟨.throw, _, if_pos (by simp [hc]), fun _ => .inl hc⟩
      | false =>
        by_cases hreturned : p = .returned
        · subst hreturned
          exact ⟨.reply, _, rfl, fun h => by cases h⟩
        · by_cases hraised : p = .raised
          · subst hraised
            exact ⟨.throw, _, if_pos (by simp [Send.mayThrow]), fun _ => .inr (.inl rfl)⟩
          · obtain ⟨b, r, hr, hb⟩ := sendValuesToServer_isSome id c hi hreturned hraised
            refine ⟨.send b, (r.1, .inl (.transfer id rpc sender ⟨m, .remote r.2⟩)), by
              simp [Inside.step, hc, hr], fun h => ?_⟩
            cases b with
            | throw => exact .inr (.inr (hb rfl))
            | _ => cases h
  | shutdownLookup id =>
    by_cases hid : id ∈ cl.servers
    · exact hstep (if_pos hid)
    · exact hstep (if_neg hid)
  | shutdownCall id pr =>
    by_cases hex : pr = .executed
    · subst hex
      exact ⟨.reply, _, rfl, fun h => by cases h⟩
    · cases hc : cl.crashed id with
      | true =>
        exact ⟨.throw, (cl, .inl (.raise .runtime)),
          by simp [Inside.step, Cluster.mayThrow, hc], fun _ => hc⟩
      | false =>
        obtain ⟨r, hr⟩ := Cluster.exec_isSome .shutdownServer hc hex
        exact ⟨.exec, (r.1, .inl (.shutdownCall id r.2)), by simp [Inside.step, hr],
          fun h => by cases h⟩
  | _ => exact hstep rfl

/-! ## Sections -/

theorem System.step_of_inside {s : System} {i : Inside} {a : Act} {r : Cluster × (Inside ⊕ Outside)}
    (hi : s.locals c = .inn i) (h : i.step c s.shared a = some r) :
    ∃ s', System.step s (.run c a) = some s' := by
  refine Option.isSome_iff_exists.mp ?_
  simp [System.step, Monitor.step, hi, frontend, h]

/-- The number of steps that the thread `c` has taken. -/
def ownSteps (c : CallId) (tr : Trace) : Nat := tr.countP fun e => e.2.thread = some c

theorem ownSteps_own {tr : Trace} {s : System} {l : Label} (h : l.thread = some c) :
    ownSteps c (tr ++ [(s, l)]) = ownSteps c tr + 1 := by
  simp [ownSteps, List.countP_append, h]

theorem ownSteps_other {tr : Trace} {s : System} {l : Label} (h : l.thread ≠ some c) :
    ownSteps c (tr ++ [(s, l)]) = ownSteps c tr := by
  simp [ownSteps, List.countP_append, h]

/-- In every run, with every pattern of failures, a call that has taken `serversLock` makes
fewer steps of its own before it gives the lock back than the number of servers and of keys
allows, and as long as it holds the lock it can take the next one: it never waits for
another thread, and it needs a failure to go on only if a server that it waits for has
failed. -/
theorem section_ends {b : Block} {i : Inside} {s₀ s : System} {tr : Trace}
    (hx : Monitor.Exclusive s₀) (h₀ : s₀.locals c = .inn b.start)
    (h : SystemRun (fun s _ => s.shared.servers.keys.card ≤ n ∧
      ∀ id, (s.shared.process id).data.keys.card ≤ k) s₀ tr s)
    (hheld : ∀ e ∈ tr, e.1.lock = some c) (hi : s.locals c = .inn i) :
    ownSteps c tr + i.left n k ≤ b.full n k ∧
      ∃ a s', System.step s (.run c a) = some s' ∧ (a.faulty = true → i.Broken s.shared) := by
  have hsec := Monitor.Run.while_held (t := c)
    (Q := fun tr i cl => ownSteps c tr + i.left n k ≤ b.full n k ∧ i.Ready cl.view) h hx h₀
    ⟨Nat.le_of_eq (Nat.zero_add _), b.ready _⟩ hheld ?_ ?_ ?_ i hi
  · obtain ⟨hle, hready⟩ := hsec
    obtain ⟨a, r, hr, hf⟩ := Inside.step_isSome c hready
    obtain ⟨s', hs'⟩ := System.step_of_inside hi hr
    exact ⟨hle, a, s', hs', hf⟩
  · rintro tr s a i i' σ' ⟨hn, hk⟩ hl hs ⟨hle, hready⟩
    have hlt := Inside.step_left_lt hs hn hk
    refine ⟨?_, (Inside.Move.of_step hs).ready hready⟩
    rw [ownSteps_own rfl]
    omega
  · rintro tr s u a w w' σ' i _ hl hs hi ⟨hle, hready⟩
    have hne : (Monitor.Label.run u a : Label).thread ≠ some c := by
      intro e
      obtain rfl := Option.some.inj e
      cases hl.symm.trans hi
    refine ⟨by rw [ownSteps_other hne]; exact hle, ?_⟩
    rw [Outside.step_view hs]
    exact hready
  · rintro tr s e σ' i _ hs hi ⟨hle, hready⟩
    refine ⟨by rw [ownSteps_other (by simp [Monitor.Label.thread])]; exact hle, ?_⟩
    exact hready.mono (Event.Move.of_step hs).keys

/-- A put over two servers whose first attempt at server 1 has thrown. -/
theorem section_ends_put :
    ∃ tr s, SystemRun (fun s _ => s.shared.servers.keys.card ≤ 2 ∧
        ∀ id, (s.shared.process id).data.keys.card ≤ 0)
        (System.holding twoServers 0 (.put 5 7) (.lock (.put 5 7) .start)) tr s ∧
      s.locals 0 =
        .inn (.lock (.put 5 7) (.body (twoServers.keys.erase 1) 1 ⟨1, .sent⟩)) ∧
      3 + (Inside.lock (.put 5 7) (.body (twoServers.keys.erase 1) 1 ⟨1, .sent⟩)).left 2 0 ≤
        85 ∧
      ∃ a s', System.step s (.run 0 a) = some s' ∧ (a.faulty = true →
        (Inside.lock (.put 5 7) (.body (twoServers.keys.erase 1) 1 ⟨1, .sent⟩)).Broken
          s.shared) := by
  have hbound : twoServers.keys.card ≤ 2 ∧
      ∀ id, ((System.fresh twoServers).shared.process id).data.keys.card ≤ 0 :=
    ⟨by decide, fun _ => Nat.le_refl 0⟩
  have hmem : (1 : ServerId) ∈ twoServers.keys := by decide
  have hstart := System.holding_step twoServers 0 (.put 5 7) (a := .step)
    (i := .lock (.put 5 7) .start) (j := .lock (.put 5 7) (.next twoServers.keys)) rfl
  have hpick := System.holding_step twoServers 0 (.put 5 7) (a := .pick 1)
    (i := .lock (.put 5 7) (.next twoServers.keys))
    (j := .lock (.put 5 7) (.body (twoServers.keys.erase 1) 1 (.first .sent)))
    (by simp [Inside.step, ServerLockUtil.lock, Loop.step, Flow.point, hmem])
  have hthrow := System.holding_step twoServers 0 (.put 5 7) (a := .throw)
    (i := .lock (.put 5 7) (.body (twoServers.keys.erase 1) 1 (.first .sent)))
    (j := .lock (.put 5 7) (.body (twoServers.keys.erase 1) 1 ⟨1, .sent⟩)) rfl
  have hrun : SystemRun (fun s _ => s.shared.servers.keys.card ≤ 2 ∧
      ∀ id, (s.shared.process id).data.keys.card ≤ 0) _ _ _ :=
    .snoc (.snoc (.snoc .nil hbound hstart) hbound hpick) hbound hthrow
  refine ⟨_, _, hrun, System.holding_locals .., ?_⟩
  refine section_ends (b := .withLock (.put 5 7)) (System.holding_exclusive _ _ _ _)
    (System.holding_locals ..) hrun (fun e he => ?_) (System.holding_locals ..)
  simp only [List.nil_append, List.cons_append, List.mem_cons, List.not_mem_nil, or_false] at he
  rcases he with rfl | rfl | rfl <;> rfl

end ReplicatedStore
