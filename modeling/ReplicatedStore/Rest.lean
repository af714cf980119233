/-
The calls of the frontend come to rest.

Every call does a bounded number of steps by itself, but a reader that is woken starts
over.  It is woken by the `notifyAll` of an `unlock`, and there is a bounded number of
these, since each is a step of another call or of a request that was left in the network.
`Object.wait` may also return without a `notifyAll`, and such a wake-up costs the reader
three steps.  So when no more calls are made, the calls in progress and the network do a
bounded number of steps for each number of these wake-ups, whatever fails and however the
heartbeat goes on.  Without failures, heartbeat and such wake-ups the only calls that have
not returned then are readers that sleep in a wait set, and `serversLock` is free.
-/
import Mathlib.Algebra.BigOperators.Group.Finset.Piecewise
import Mathlib.Algebra.Order.BigOperators.Group.Finset
import ReplicatedStore.AddServer
import ReplicatedStore.Answers
import ReplicatedStore.Sections
import ReplicatedStore.Lib.Termination

namespace ReplicatedStore

open Lib

/-! ## The calls in progress -/

/-- No more calls are made, and no reader is woken without a `notifyAll`. -/
def Winding : Label → Prop
  | .run _ (.call _) | .run _ (.read .wakeUp) => False
  | _ => True

/-- A call is made by one of the threads `calls`, for the servers `ids` and the keys `keys`,
and it is not the heartbeat. -/
def Allowed (calls : Finset CallId) (ids : Finset ServerId) (keys : Finset Key) (l : Label) :
    Prop :=
  ∀ c op, l = .run c (.call op) → c ∈ calls ∧ op ≠ .heartBeat ∧
    (∀ id, op = .addServer id → id ∈ ids) ∧ ∀ k x, op = .put k x → k ∈ keys

/-- A call of `Allowed`, or the start of the heartbeat in a thread that is none of `calls`. -/
def Permitted (calls : Finset CallId) (ids : Finset ServerId) (keys : Finset Key) : Label → Prop
  | .run c (.call .heartBeat) => c ∉ calls
  | .run c (.call (.addServer id)) => c ∈ calls ∧ id ∈ ids
  | .run c (.call (.put k _)) => c ∈ calls ∧ k ∈ keys
  | .run c (.call _) => c ∈ calls
  | _ => True

/-- No more calls are made, but the heartbeat may be started. -/
def Closing (calls : Finset CallId) : Label → Prop
  | .run c (.call .heartBeat) => c ∉ calls
  | .run _ (.call _) => False
  | _ => True

instance (calls : Finset CallId) (ids : Finset ServerId) (keys : Finset Key) :
    DecidablePred (Permitted calls ids keys)
  | .run c (.call .heartBeat) => inferInstanceAs (Decidable (c ∉ calls))
  | .run c (.call (.addServer id)) => inferInstanceAs (Decidable (c ∈ calls ∧ id ∈ ids))
  | .run c (.call (.put k _)) => inferInstanceAs (Decidable (c ∈ calls ∧ k ∈ keys))
  | .run c (.call (.get _)) | .run c (.call (.printKVPairs _)) | .run c (.call .listServer)
  | .run c (.call (.shutdownServer _)) => inferInstanceAs (Decidable (c ∈ calls))
  | .run _ .step | .run _ (.pick _) | .run _ .exec | .run _ .reply | .run _ .throw
  | .run _ .linger | .run _ (.send _) | .run _ (.read _) | .enter _ | .env _ => isTrue trivial

instance (calls : Finset CallId) : DecidablePred (Closing calls)
  | .run c (.call .heartBeat) => inferInstanceAs (Decidable (c ∉ calls))
  | .run _ (.call (.addServer _)) | .run _ (.call (.put _ _)) | .run _ (.call (.get _))
  | .run _ (.call (.printKVPairs _)) | .run _ (.call .listServer)
  | .run _ (.call (.shutdownServer _)) => isFalse not_false
  | .run _ .step | .run _ (.pick _) | .run _ .exec | .run _ .reply | .run _ .throw
  | .run _ .linger | .run _ (.send _) | .run _ (.read _) | .enter _ | .env _ => isTrue trivial

/-- The calls in progress are among `calls`, the heartbeat is none of them, and they and the
cluster know only the servers `ids` and the keys `keys`. -/
structure InProgress (calls : Finset CallId) (ids : Finset ServerId) (keys : Finset Key)
    (s : System) : Prop where
  outside : ∀ c ∉ calls, Over (s.locals c) ∨ Op.heartBeat.At (s.locals c)
  ops : ∀ c ∈ calls, Over (s.locals c) ∨
    ∃ op : Op, op.At (s.locals c) ∧ op ≠ .heartBeat ∧ ∀ id, op = .addServer id → id ∈ ids
  beats : ∀ c e next att, s.locals c = .out (.beatAlive e next att) → att.state ≠ .notifying
  servers : s.shared.servers.keys ⊆ ids
  bindings : s.From fun k _ => k ∈ keys

variable {calls : Finset CallId} {ids : Finset ServerId} {keys : Finset Key}

theorem Winding.allowed {l : Label} (h : Winding l) : Allowed calls ids keys l := by
  rintro c op rfl
  exact absurd h id

theorem Permitted.of_call {c : CallId} {op : Op}
    (h : Permitted calls ids keys (.run c (.call op))) : c ∉ calls ∧ op = .heartBeat ∨
      c ∈ calls ∧ op ≠ .heartBeat ∧ (∀ id, op = .addServer id → id ∈ ids) ∧
        ∀ k x, op = .put k x → k ∈ keys := by
  cases op with
  | heartBeat => exact .inl ⟨h, rfl⟩
  | put k x =>
    refine .inr ⟨h.1, nofun, nofun, ?_⟩
    rintro k' x' ⟨⟩
    exact h.2
  | addServer id =>
    refine .inr ⟨h.1, nofun, ?_, nofun⟩
    rintro id' ⟨⟩
    exact h.2
  | _ => exact .inr ⟨h, by simp⟩

theorem Closing.of_call {c : CallId} {op : Op} (h : Closing calls (.run c (.call op))) :
    c ∉ calls := by
  cases op <;> first | exact h | exact h.elim

theorem Closing.permitted {l : Label} (h : Closing calls l) : Permitted calls ids keys l := by
  cases l with
  | run c a =>
    cases a with
    | call op => cases op <;> first | exact h | exact h.elim
    | _ => exact trivial
  | _ => exact trivial

theorem Winding.closing {l : Label} (h : Winding l) : Closing calls l := by
  cases l with
  | run c a => cases a <;> first | exact trivial | exact absurd h id
  | _ => exact trivial

theorem Allowed.permitted {l : Label} (h : Allowed calls ids keys l) :
    Permitted calls ids keys l := by
  cases l with
  | run c a =>
    cases a with
    | call op =>
      obtain ⟨hc, hbeat, hids, hkeys⟩ := h c op rfl
      cases op with
      | heartBeat => exact absurd rfl hbeat
      | put k x => exact ⟨hc, hkeys k x rfl⟩
      | addServer id => exact ⟨hc, hids id rfl⟩
      | _ => exact hc
    | _ => exact trivial
  | _ => exact trivial

theorem not_over_inn {i : Inside} : ¬ Over (.inn i) := by
  simp [Over]

/-- What a step makes of a thread: its call is made, it goes on with its operation, or
nothing happens. -/
theorem point_step {s s' : System} {l : Label} {c : CallId} (hs : Monitor.Step frontend s l s') :
    (∃ op, l = .run c (.call op) ∧ op.At (s'.locals c)) ∨
      (∀ op : Op, op.At (s.locals c) → op.At (s'.locals c)) ∧
        (Over (s.locals c) → Over (s'.locals c)) := by
  cases hl : s.locals c with
  | out w =>
    rcases hs.of_out hl with ⟨-, h'⟩ | ⟨a, w', rfl, ho, h'⟩ | ⟨i, rfl, he, -, -, h'⟩
    · rw [h']
      exact .inr ⟨fun _ h => h, fun h => h⟩
    · by_cases hcall : ∃ op, a = .call op
      · obtain ⟨op, rfl⟩ := hcall
        refine .inl ⟨op, rfl, ?_⟩
        rw [(call_start hs).2.2]
        exact op.start_belongs
      · rw [h']
        refine .inr ⟨fun op hat => Outside.step_belongs ho hat, ?_⟩
        rintro (e | ⟨o, e⟩)
        · obtain rfl := Monitor.Local.out.inj e
          cases a <;> simp [frontend, Outside.step] at ho
          exact absurd ⟨_, rfl⟩ hcall
        · obtain rfl := Monitor.Local.out.inj e
          cases a <;> simp [frontend, Outside.step] at ho
    · rw [h']
      obtain ⟨b, rfl, rfl⟩ := Outside.entry_eq_some he
      exact .inr ⟨fun _ h => h, fun h => absurd h (by simp [Over])⟩
  | inn i =>
    rcases hs.of_inn hl with ⟨-, h'⟩ | ⟨a, i', rfl, hi, h'⟩ | ⟨a, w, rfl, hi, h'⟩ <;> rw [h']
    · exact .inr ⟨fun _ h => h, fun h => h⟩
    · exact .inr ⟨fun _ h => (Inside.step_belongs hi h).1 i' rfl, fun h => absurd h not_over_inn⟩
    · exact .inr ⟨fun _ h => (Inside.step_belongs hi h).2 w rfl, fun h => absurd h not_over_inn⟩

/-- A server is registered by a call of `addServer`. -/
theorem Inside.Move.servers_subset {c : CallId} {v v' : View} {i : Inside} {a : Act}
    {r : Inside ⊕ Outside} {op : Op} (h : Inside.Move c v i a v' r) (hi : i.Belongs op)
    (hids : ∀ id, op = .addServer id → id ∈ ids) (hv : v.servers.keys ⊆ ids) :
    v'.servers.keys ⊆ ids := by
  have hinsert : ∀ {id : ServerId} {rpc : ServerRPC id}, op = .addServer id →
      (v.servers.insert id rpc).keys ⊆ ids := by
    intro id rpc hop id' hid'
    rcases Finmap.mem_insert.mp (Finmap.mem_keys.mp hid') with rfl | hid'
    · exact hids id' hop
    · exact hv (Finmap.mem_keys.mpr hid')
  have herase : ∀ {id : ServerId}, (v.servers.erase id).keys ⊆ ids := by
    intro id id' hid'
    exact hv (Finmap.mem_keys.mpr (Finmap.mem_erase.mp (Finmap.mem_keys.mp hid')).2)
  cases h with
  | lock h => rw [h.servers]; exact hv
  | write h => rw [h.servers]; exact hv
  | unlock h => rw [h.servers]; exact hv
  | send _ h => rw [h.servers]; exact hv
  | registerFirst => exact hinsert hi
  | register => exact hinsert hi
  | shutdownRemove => exact herase
  | beatRemove => exact herase
  | _ => exact hv

/-- `alive` has no second step. -/
theorem Outside.step_beatAlive {c : CallId} {cl cl' : Cluster} {w : Outside} {a : Act} {e : Entry}
    {next : Option Entry} {att : Attempt Progress}
    (h : w.step c cl a = some (cl', .beatAlive e next att)) : att.state ≠ .notifying := by
  cases w with
  | beatNext n =>
    cases n <;> cases a <;> simp only [Outside.step] at h <;> try contradiction
    · obtain ⟨rpc, -, heq⟩ := Option.map_eq_some_iff.mp h
      cases (Prod.mk.inj heq).2
    · obtain ⟨-, he⟩ := Prod.mk.inj (Option.some.inj h)
      obtain ⟨-, -, rfl⟩ := Outside.beatAlive.inj he
      simp [Attempt.first]
    · obtain ⟨rpc, -, heq⟩ := Option.map_eq_some_iff.mp h
      obtain ⟨-, -, rfl⟩ := Outside.beatAlive.inj (Prod.mk.inj heq).2
      simp [Attempt.first]
  | beatAlive e₀ n att₀ =>
    cases a with
    | exec =>
      obtain ⟨⟨cl₁, pr⟩, hx, heq⟩ := Option.map_eq_some_iff.mp h
      obtain ⟨-, -, rfl⟩ := Outside.beatAlive.inj (Prod.mk.inj heq).2
      obtain ⟨-, -, rfl, -⟩ := Cluster.exec_view hx
      cases att₀.state <;> simp [Method.following]
    | throw =>
      simp only [Outside.step] at h
      split at h <;> try contradiction
      split at h
      · rename_i att₁ hretry
        obtain ⟨-, he⟩ := Prod.mk.inj (Option.some.inj h)
        obtain ⟨-, -, rfl⟩ := Outside.beatAlive.inj he
        unfold Attempt.retry at hretry
        split at hretry
        · obtain rfl := Option.some.inj hretry
          simp
        · cases hretry
      · cases (Prod.mk.inj (Option.some.inj h)).2
    | reply =>
      simp only [Outside.step] at h
      split at h
      · cases (Prod.mk.inj (Option.some.inj h)).2
      · cases h
    | _ => simp [Outside.step] at h
  | idle =>
    cases a <;> simp only [Outside.step] at h <;> try contradiction
    rename_i op
    obtain ⟨-, he⟩ := Prod.mk.inj (Option.some.inj h)
    cases op <;> cases he
  | _ =>
    have hm := Outside.Move.of_step h
    generalize hw' : Outside.beatAlive e next att = w' at hm
    cases hm with
    | beat hw _ => cases hw
    | _ => cases hw'

theorem InProgress.op {s : System} {c : CallId} (h : InProgress calls ids keys s)
    (hc : ¬ Over (s.locals c)) :
    ∃ op : Op, op.At (s.locals c) ∧ ∀ id, op = .addServer id → id ∈ ids := by
  by_cases hmem : c ∈ calls
  · obtain ⟨op, hat, -, hids⟩ := (h.ops c hmem).resolve_left hc
    exact ⟨op, hat, hids⟩
  · exact ⟨.heartBeat, (h.outside c hmem).resolve_left hc, nofun⟩

/-- The step lemma. -/
theorem InProgress.step {s s' : System} {l : Label} (h : InProgress calls ids keys s)
    (hs : Monitor.Step frontend s l s') (hl : Permitted calls ids keys l) :
    InProgress calls ids keys s' := by
  refine ⟨fun c hc => ?_, fun c hc => ?_, fun c e next att hc => ?_, ?_, h.bindings.step hs ?_⟩
  · rcases point_step (c := c) hs with ⟨op, rfl, hat⟩ | ⟨hat, hover⟩
    · rcases hl.of_call with ⟨-, rfl⟩ | ⟨hmem, -⟩
      · exact .inr hat
      · exact absurd hmem hc
    · exact (h.outside c hc).imp hover (hat .heartBeat)
  · rcases point_step (c := c) hs with ⟨op, rfl, hat⟩ | ⟨hat, hover⟩
    · rcases hl.of_call with ⟨hno, -⟩ | ⟨-, hbeat, hids, -⟩
      · exact absurd hc hno
      · exact .inr ⟨op, hat, hbeat, hids⟩
    · rcases h.ops c hc with ho | ⟨op, hop, hrest⟩
      · exact .inl (hover ho)
      · exact .inr ⟨op, hat op hop, hrest⟩
  · cases hlc : s.locals c with
    | out w =>
      rcases hs.of_out hlc with ⟨-, h'⟩ | ⟨a, w', -, ho, h'⟩ | ⟨i, -, -, -, -, h'⟩
      · exact h.beats c e next att ((hlc.trans h'.symm).trans hc)
      · obtain rfl := Monitor.Local.out.inj (h'.symm.trans hc)
        exact Outside.step_beatAlive ho
      · cases h'.symm.trans hc
    | inn i =>
      rcases hs.of_inn hlc with ⟨-, h'⟩ | ⟨a, i', -, -, h'⟩ | ⟨a, w, -, hi, h'⟩
      · cases h'.symm.trans hc
      · cases h'.symm.trans hc
      · obtain ⟨ex, -, -, rfl, -⟩ := (Inside.Move.of_step hi).leave_inv
        cases ex <;> cases h'.symm.trans hc
  · have hinside : ∀ {c a i r σ'}, s.locals c = .inn i →
        i.step c s.shared a = some (σ', r) → σ'.servers.keys ⊆ ids := by
      intro c a i r σ' hi hstep
      obtain ⟨op, hat, hids⟩ := h.op (c := c) (by rw [hi]; exact not_over_inn)
      rw [hi] at hat
      exact (Inside.Move.of_step hstep).servers_subset hat hids h.servers
    cases hs with
    | outside _ ho =>
      have hv := congrArg View.servers (Outside.step_view ho)
      exact (congrArg Finmap.keys hv).subset.trans h.servers
    | inside hi hstep => exact hinside hi hstep
    | leave hi hstep => exact hinside hi hstep
    | enter _ _ _ => exact h.servers
    | env he =>
      have hv := (Event.Move.of_step he).servers
      exact (congrArg Finmap.keys hv).subset.trans h.servers
  · rintro c k x rfl
    rcases hl.of_call with ⟨-, hbeat⟩ | ⟨-, -, -, hkeys⟩
    · cases hbeat
    · exact hkeys k x rfl

/-- A call that is over takes no step but to be made. -/
theorem not_over_of_step {s s' : System} {l : Label} {c : CallId}
    (hs : Monitor.Step frontend s l s') (hc : l.thread = some c)
    (hcall : ∀ op, l ≠ .run c (.call op)) : ¬ Over (s.locals c) := by
  rintro (hl | ⟨o, hl⟩)
  · rcases hs.of_out hl with ⟨hne, -⟩ | ⟨a, w', rfl, ho, -⟩ | ⟨i, -, he, -⟩
    · exact hne hc
    · cases a <;> simp [frontend, Outside.step] at ho
      exact hcall _ rfl
    · cases he
  · exact finished_thread hs hl hc

/-! ## What is left to do -/

/-- The steps left to a reader that is not woken again and finds the keys `keys` at most. -/
def Reader.left (keys : Finset Key) (p : ServerRPCImpl) (c : CallId) : Reader → Nat
  | .waiting => if c ∈ p.waitSet then keys.card + 4 else keys.card + 7
  | .test => keys.card + 6
  | .enter => keys.card + 5
  | .passed => keys.card + 3
  | .printing _ out => (keys \ (out.map Prod.fst).toFinset).card + 2
  | .answered _ => 1

/-- The steps left to a call of `get` or `printKVPairs`. -/
def readsLeft (keys : Finset Key) (cl : Cluster) (c : CallId) :
    Monitor.Local Outside Inside → Nat
  | .out (.getSize _) => keys.card + 11
  | .out (.getKeys _ _) => keys.card + 10
  | .out (.getCheck _ _) => keys.card + 9
  | .out (.getLookup _ _) | .out (.printLookup _) => keys.card + 8
  | .out (.remote _ id r) => r.left keys (cl.process id) c
  | _ => 0

/-- The steps left to another call, with `n` servers and `k` keys at most. -/
def worksLeft (n k : Nat) : Monitor.Local Outside Inside → Nat
  | .out (.synchronized b) => b.full n k + 1
  | .out (.addFindFirst _ _) => 26 * n + 52 * k + 24
  | .out (.addContains _) => 26 * n + 52 * k + 25
  | .inn i => i.left n k
  | _ => 0

/-- The steps left to a request in the network. -/
def Request.left (r : Request) : Nat :=
  match r.progress with
  | .sent => 2
  | .notifying => 1
  | .executed => 0

def deliveriesLeft : List Request → Nat
  | [] => 0
  | r :: rest => r.left + deliveriesLeft rest

variable (calls ids keys)

def System.reads (s : System) : Nat := ∑ c ∈ calls, readsLeft keys s.shared c (s.locals c)

def System.works (s : System) : Nat := ∑ c ∈ calls, worksLeft ids.card keys.card (s.locals c)

/-- A bound on the steps that are left.  A step of the second kind may leave a request in
the network, and it may wake every reader. -/
def System.toGo (s : System) : Nat :=
  s.reads calls keys +
    (3 * calls.card + 1) * (deliveriesLeft s.shared.outstanding + 3 * s.works calls ids keys)

variable {calls ids keys}

theorem Reader.left_le (p p' : ServerRPCImpl) (c : CallId) (r : Reader) :
    r.left keys p' c ≤ r.left keys p c + 3 := by
  cases r with
  | waiting =>
    simp only [Reader.left]
    split <;> split <;> omega
  | _ => exact Nat.le_add_right _ 3

/-- Whatever happens at the servers, a reader is woken at most. -/
theorem readsLeft_le (cl cl' : Cluster) (c : CallId) (l : Monitor.Local Outside Inside) :
    readsLeft keys cl' c l ≤ readsLeft keys cl c l + 3 := by
  cases l with
  | inn i => exact Nat.zero_le _
  | out w =>
    cases w with
    | remote q id r => exact r.left_le _ _ c
    | _ => exact Nat.le_add_right _ 3

/-- Nothing happens to a reader that is not woken. -/
theorem readsLeft_mono {cl cl' : Cluster} {c : CallId} (l : Monitor.Local Outside Inside)
    (h : ∀ id, c ∈ (cl.process id).waitSet → c ∈ (cl'.process id).waitSet) :
    readsLeft keys cl' c l ≤ readsLeft keys cl c l := by
  cases l with
  | inn i => exact Nat.le_refl _
  | out w =>
    cases w with
    | remote q id r =>
      cases r with
      | waiting =>
        simp only [readsLeft, Reader.left]
        by_cases hw : c ∈ (cl.process id).waitSet
        · rw [if_pos hw, if_pos (h id hw)]
        · rw [if_neg hw]
          split <;> omega
      | _ => exact Nat.le_refl _
    | _ => exact Nat.le_refl _

/-! ## Steps of readers -/

theorem Inside.Move.not_read {c : CallId} {v v' : View} {i : Inside} {b : ReaderAct}
    {r : Inside ⊕ Outside} (h : Inside.Move c v i (.read b) v' r) : False := by
  cases h with
  | lock h => cases h
  | write h => cases h
  | unlock h => cases h

/-- A reader takes itself alone out of a wait set. -/
theorem ServerRPCImpl.read_others {p p' : ServerRPCImpl} {q : Query} {c d : CallId}
    {r r' : Reader} {a : ReaderAct} (h : p.read q c r a = some (p', r')) (hd : d ≠ c)
    (hw : d ∈ p.waitSet) : d ∈ p'.waitSet := by
  cases r <;> cases a <;> simp only [ServerRPCImpl.read] at h
  all_goals repeat (split at h)
  all_goals first
    | contradiction
    | (simp only [Option.some.injEq, Prod.mk.injEq] at h
       obtain ⟨rfl, -⟩ := h
       first
         | exact hw
         | exact Finset.mem_insert_of_mem hw
         | exact Finset.mem_erase.mpr ⟨hd, hw⟩)

/-- A step of a reader that is not woken without reason leaves fewer. -/
theorem ServerRPCImpl.read_left {p p' : ServerRPCImpl} {q : Query} {c : CallId}
    {r r' : Reader} {a : ReaderAct} (h : p.read q c r a = some (p', r')) (ha : a ≠ .wakeUp)
    (hp : BoundIn (fun k _ => k ∈ keys) p.data) : r'.left keys p' c < r.left keys p c := by
  cases r with
  | test =>
    cases a <;> simp only [ServerRPCImpl.read] at h <;> try contradiction
    obtain ⟨-, rfl⟩ := Prod.mk.inj (Option.some.inj h)
    split <;> simp [Reader.left]
  | enter =>
    cases a <;> simp only [ServerRPCImpl.read] at h <;> try contradiction
    obtain ⟨rfl, rfl⟩ := Prod.mk.inj (Option.some.inj h)
    simp [Reader.left, ServerRPCImpl.wait]
  | waiting =>
    cases a with
    | wakeUp => exact absurd rfl ha
    | visit k => cases h
    | step =>
      simp only [ServerRPCImpl.read] at h
      split at h
      · cases h
      · rename_i hw
        obtain ⟨rfl, rfl⟩ := Prod.mk.inj (Option.some.inj h)
        simp [Reader.left, hw]
  | passed =>
    cases a <;> simp only [ServerRPCImpl.read] at h <;> try contradiction
    cases q with
    | get k =>
      obtain ⟨-, rfl⟩ := Prod.mk.inj (Option.some.inj h)
      simp [Reader.left]
    | printKVPairs =>
      obtain ⟨-, rfl⟩ := Prod.mk.inj (Option.some.inj h)
      simp [Reader.left]
  | printing todo out =>
    cases a <;> simp only [ServerRPCImpl.read] at h <;> try contradiction
    · split at h <;> try contradiction
      obtain ⟨-, rfl⟩ := Prod.mk.inj (Option.some.inj h)
      simp [Reader.left]
    · rename_i k
      split at h <;> try contradiction
      rename_i x hx
      split at h <;> try contradiction
      rename_i hnew
      obtain ⟨-, rfl⟩ := Prod.mk.inj (Option.some.inj h)
      have hk : k ∈ keys \ (out.map Prod.fst).toFinset :=
        Finset.mem_sdiff.mpr ⟨hp k x hx, fun hmem => hnew (List.mem_toFinset.mp hmem)⟩
      have hsub : keys \ ((out ++ [(k, x)]).map Prod.fst).toFinset ⊂
          keys \ (out.map Prod.fst).toFinset := by
        refine Finset.ssubset_iff_subset_ne.mpr ⟨?_, fun e => ?_⟩
        · refine Finset.sdiff_subset_sdiff (Finset.Subset.refl _) fun k' hk' => ?_
          simp only [List.map_append, List.toFinset_append, Finset.mem_union]
          exact .inl hk'
        · rw [← e] at hk
          simp at hk
      have hlt := Finset.card_lt_card hsub
      simp only [Reader.left]
      omega
  | answered y => cases a <;> simp [ServerRPCImpl.read] at h

/-- The points of `get` and `printKVPairs`. -/
def Outside.reading : Outside → Bool
  | .getSize _ | .getKeys _ _ | .getCheck _ _ | .getLookup _ _ | .printLookup _
  | .remote _ _ _ => true
  | _ => false

theorem Outside.step_reads {c : CallId} {cl cl' : Cluster} {w w' : Outside} {a : Act}
    (h : w.step c cl a = some (cl', w')) (hw : w.reading = true) (ha : a ≠ .read .wakeUp)
    (hkeys : ∀ id, BoundIn (fun k _ => k ∈ keys) (cl.process id).data) :
    readsLeft keys cl' c (.out w') < readsLeft keys cl c (.out w) ∧
      (∀ n k, worksLeft n k (.out w') = 0) ∧
      ∀ d ≠ c, ∀ id, d ∈ (cl.process id).waitSet → d ∈ (cl'.process id).waitSet := by
  have hsame : ∀ {w'}, (∀ n k, worksLeft n k (.out w') = 0) →
      readsLeft keys cl c (.out w') < readsLeft keys cl c (.out w) →
      readsLeft keys cl c (.out w') < readsLeft keys cl c (.out w) ∧
        (∀ n k, worksLeft n k (.out w') = 0) ∧
        ∀ d ≠ c, ∀ id, d ∈ (cl.process id).waitSet → d ∈ (cl.process id).waitSet :=
    fun hworks hlt => ⟨hlt, hworks, fun _ _ _ hd => hd⟩
  cases w with
  | remote q id r =>
    cases a with
    | read b =>
      simp only [Outside.step] at h
      split at h
      · cases h
      · obtain ⟨⟨p, r'⟩, hr, heq⟩ := Option.map_eq_some_iff.mp h
        obtain ⟨rfl, rfl⟩ := Prod.mk.inj heq
        have hlt := ServerRPCImpl.read_left hr (fun e => ha (congrArg Act.read e)) (hkeys id)
        refine ⟨by simpa [readsLeft] using hlt, fun _ _ => rfl, fun d hd id' hmem => ?_⟩
        by_cases hid : id' = id
        · subst hid
          rw [Cluster.setProcess_process_self]
          exact ServerRPCImpl.read_others hr hd hmem
        · rw [Cluster.setProcess_process_of_ne cl hid]
          exact hmem
    | reply =>
      cases r <;> simp only [Outside.step] at h <;> try contradiction
      obtain ⟨rfl, rfl⟩ := Prod.mk.inj (Option.some.inj h)
      exact hsame (fun _ _ => rfl) (by simp [readsLeft, Reader.left])
    | throw =>
      obtain ⟨rfl, rfl⟩ := Prod.mk.inj (Option.some.inj h)
      refine hsame (fun _ _ => rfl) ?_
      cases r with
      | waiting =>
        simp only [readsLeft, Reader.left]
        split <;> omega
      | _ => simp [readsLeft, Reader.left]
    | _ => simp [Outside.step] at h
  | getSize k =>
    cases a <;> simp only [Outside.step] at h <;> try contradiction
    split at h
    all_goals
      obtain ⟨rfl, rfl⟩ := Prod.mk.inj (Option.some.inj h)
      exact hsame (fun _ _ => rfl) (by simp [readsLeft])
  | getKeys k i =>
    cases a <;> simp only [Outside.step] at h <;> try contradiction
    split at h
    all_goals
      obtain ⟨rfl, rfl⟩ := Prod.mk.inj (Option.some.inj h)
      exact hsame (fun _ _ => rfl) (by simp [readsLeft])
  | getCheck k id =>
    cases a <;> simp only [Outside.step] at h <;> try contradiction
    split at h
    all_goals
      obtain ⟨rfl, rfl⟩ := Prod.mk.inj (Option.some.inj h)
      exact hsame (fun _ _ => rfl) (by simp [readsLeft])
  | getLookup k id =>
    cases a <;> simp only [Outside.step] at h <;> try contradiction
    split at h
    all_goals
      obtain ⟨rfl, rfl⟩ := Prod.mk.inj (Option.some.inj h)
      exact hsame (fun _ _ => rfl) (by simp [readsLeft, Reader.left])
  | printLookup id =>
    cases a <;> simp only [Outside.step] at h <;> try contradiction
    split at h
    all_goals
      obtain ⟨rfl, rfl⟩ := Prod.mk.inj (Option.some.inj h)
      exact hsame (fun _ _ => rfl) (by simp [readsLeft, Reader.left])
  | _ => cases hw

/-- A reader that is woken without a `notifyAll` tests the lock again. -/
theorem Outside.step_wakeUp {c : CallId} {cl cl' : Cluster} {w w' : Outside}
    (h : w.step c cl (.read .wakeUp) = some (cl', w')) :
    ∃ q id, w = .remote q id .waiting ∧ c ∈ (cl.process id).waitSet ∧
      cl' = cl.setProcess id ((cl.process id).wakeUp c) ∧ w' = .remote q id .test := by
  cases w with
  | remote q id r =>
    simp only [Outside.step] at h
    split at h <;> try contradiction
    obtain ⟨⟨p, r'⟩, hr, heq⟩ := Option.map_eq_some_iff.mp h
    obtain ⟨rfl, rfl⟩ := Prod.mk.inj heq
    cases r <;> simp only [ServerRPCImpl.read] at hr <;> try contradiction
    split at hr <;> try contradiction
    rename_i hw
    obtain ⟨rfl, rfl⟩ := Prod.mk.inj (Option.some.inj hr)
    exact ⟨q, id, rfl, hw, rfl, rfl⟩
  | _ => simp [Outside.step] at h

/-! ## Steps of the other calls -/

theorem Block.full_withLock (n k : Nat) (w : Work) :
    (Block.withLock w).full n k = Loop.full n + w.rest n k := rfl

theorem Outside.step_works (n k : Nat) (keys : Finset Key) {c : CallId} {cl cl' : Cluster}
    {w w' : Outside} {a : Act} {id : ServerId} (h : w.step c cl a = some (cl', w'))
    (hw : w = .addContains id ∨ ∃ rpc : ServerRPC id, w = .addFindFirst id rpc) :
    cl' = cl ∧ worksLeft n k (.out w') < worksLeft n k (.out w) ∧
      readsLeft keys cl c (.out w') = 0 := by
  rcases hw with rfl | ⟨rpc, rfl⟩
  · obtain ⟨-, rfl, ⟨-, rfl⟩ | ⟨-, ⟨hport, rfl⟩ | ⟨-, message, rfl⟩⟩⟩ := addContains_step h
    · exact ⟨rfl, by simp [worksLeft], rfl⟩
    · exact ⟨rfl, by simp [worksLeft], rfl⟩
    · exact ⟨rfl, by simp [worksLeft], rfl⟩
  · obtain ⟨rfl, rfl | ⟨sender, rfl⟩⟩ := addFindFirst_step h
    · refine ⟨rfl, ?_, rfl⟩
      simp only [worksLeft, Block.full, Block.start, Inside.left]
      omega
    · refine ⟨rfl, ?_, rfl⟩
      simp only [worksLeft, Block.full_withLock, Work.rest, Loop.full, Transfer.full, Send.full,
        RETRIES]
      omega

theorem deliveriesLeft_append (rest : List Request) (r : Request) :
    deliveriesLeft (rest ++ [r]) = deliveriesLeft rest + r.left := by
  induction rest with
  | nil => simp [deliveriesLeft]
  | cons r₀ rest ih =>
    show r₀.left + deliveriesLeft (rest ++ [r]) = r₀.left + deliveriesLeft rest + r.left
    omega

theorem deliveriesLeft_set {rest : List Request} {r : Request} (q : Request) : ∀ {n : Nat},
    rest[n]? = some r →
      deliveriesLeft (rest.set n q) + r.left = deliveriesLeft rest + q.left := by
  induction rest with
  | nil => intro n h; simp at h
  | cons r₀ rest ih =>
    intro n h
    cases n with
    | zero =>
      obtain rfl : r₀ = r := by simpa using h
      simp only [deliveriesLeft, List.set_cons_zero]
      omega
    | succ n =>
      have hrest := ih (n := n) (by simpa using h)
      simp only [deliveriesLeft, List.set_cons_succ] at hrest ⊢
      omega

theorem deliveriesLeft_eraseIdx {rest : List Request} {r : Request} : ∀ {n : Nat},
    rest[n]? = some r → deliveriesLeft (rest.eraseIdx n) + r.left = deliveriesLeft rest := by
  induction rest with
  | nil => intro n h; simp at h
  | cons r₀ rest ih =>
    intro n h
    cases n with
    | zero =>
      obtain rfl : r₀ = r := by simpa using h
      simp only [deliveriesLeft, List.eraseIdx_zero, List.tail_cons]
      omega
    | succ n =>
      have hrest := ih (n := n) (by simpa using h)
      simp only [deliveriesLeft, List.eraseIdx_cons_succ] at hrest ⊢
      omega

/-- A step of a request in the network leaves fewer. -/
theorem deliveriesLeft_delivered {rest : List Request} {n : Nat} {r : Request}
    (hr : rest[n]? = some r) (hp : r.progress ≠ .executed) :
    deliveriesLeft (delivered rest n r (r.method.following r.progress)) <
      deliveriesLeft rest := by
  obtain ⟨id, m, pr, c⟩ := r
  have hpos : 0 < Request.left ⟨id, m, pr, c⟩ := by
    cases pr with
    | executed => exact absurd rfl hp
    | _ => simp [Request.left]
  unfold delivered
  split
  · have herase := deliveriesLeft_eraseIdx hr
    omega
  · rename_i hnot
    have hset := deliveriesLeft_set ⟨id, m, m.following pr, c⟩ hr
    have hlt : Request.left ⟨id, m, m.following pr, c⟩ < Request.left ⟨id, m, pr, c⟩ := by
      cases pr with
      | sent =>
        by_cases hm : m = .unlock
        · simp [Request.left, Method.following, hm]
        · exact absurd (by simp [Method.following, hm]) hnot
      | notifying => exact absurd rfl hnot
      | executed => exact absurd rfl hp
    show deliveriesLeft (rest.set n ⟨id, m, m.following pr, c⟩) < _
    omega

theorem Loop.Move.deliveries {m : Method} {sw : Bool} {c : CallId} {v v' : View} {l : Loop}
    {a : Act} {f : Flow} (h : Loop.Move m sw c v l a v' f) :
    deliveriesLeft v'.outstanding ≤ deliveriesLeft v.outstanding + 2 := by
  cases h with
  | exec _ _ =>
    rw [Method.effect_outstanding]
    omega
  | linger _ => exact Nat.le_of_eq (deliveriesLeft_append _ _)
  | _ => exact Nat.le_add_right _ 2

theorem Inside.Move.deliveries {c : CallId} {v v' : View} {i : Inside} {a : Act}
    {r : Inside ⊕ Outside} (h : Inside.Move c v i a v' r) :
    deliveriesLeft v'.outstanding ≤ deliveriesLeft v.outstanding + 2 := by
  cases h with
  | lock h => exact h.deliveries
  | write h => exact h.deliveries
  | unlock h => exact h.deliveries
  | send _ h =>
    cases h with
    | exec _ _ =>
      rw [Method.effect_outstanding]
      omega
    | _ => exact Nat.le_add_right _ 2
  | _ => exact Nat.le_add_right _ 2

/-! ## Steps of the system -/

/-- A reader is woken without a `notifyAll`. -/
def WakesUp : Label → Bool
  | .run _ (.read .wakeUp) => true
  | _ => false

theorem wakesUp_eq {l : Label} (h : WakesUp l = true) : ∃ c, l = .run c (.read .wakeUp) := by
  cases l with
  | run c a =>
    cases a with
    | read b =>
      cases b with
      | wakeUp => exact ⟨c, rfl⟩
      | _ => cases h
    | _ => cases h
  | _ => cases h

/-- A step of one of the calls, or of a request in the network. -/
def Works (calls : Finset CallId) : Label → Bool
  | .run c _ | .enter c => c ∈ calls
  | .env (.deliver _) => true
  | .env (.crash _) => false

theorem works_lt {n k : Nat} {c : CallId} {x : Monitor.Local Outside Inside}
    {locals : CallId → Monitor.Local Outside Inside} (hc : c ∈ calls)
    (h : worksLeft n k x < worksLeft n k (locals c)) :
    ∑ d ∈ calls, worksLeft n k (Function.update locals c x d) <
      ∑ d ∈ calls, worksLeft n k (locals d) := by
  refine Finset.sum_lt_sum (fun d _ => ?_) ⟨c, hc, by rwa [Function.update_self]⟩
  by_cases hd : d = c
  · subst hd
    rw [Function.update_self]
    exact Nat.le_of_lt h
  · rw [Function.update_of_ne hd]

theorem reads_lt {c : CallId} {x : Monitor.Local Outside Inside} {cl cl' : Cluster}
    {locals : CallId → Monitor.Local Outside Inside} (hc : c ∈ calls)
    (h : readsLeft keys cl' c x < readsLeft keys cl c (locals c))
    (hothers : ∀ d ≠ c, ∀ id, d ∈ (cl.process id).waitSet → d ∈ (cl'.process id).waitSet) :
    ∑ d ∈ calls, readsLeft keys cl' d (Function.update locals c x d) <
      ∑ d ∈ calls, readsLeft keys cl d (locals d) := by
  refine Finset.sum_lt_sum (fun d _ => ?_) ⟨c, hc, by rwa [Function.update_self]⟩
  by_cases hd : d = c
  · subst hd
    rw [Function.update_self]
    exact Nat.le_of_lt h
  · rw [Function.update_of_ne hd]
    exact readsLeft_mono _ (hothers d hd)

/-- A step of one reader that leaves it more. -/
theorem reads_le_add {k : Nat} {c : CallId} {x : Monitor.Local Outside Inside} {cl cl' : Cluster}
    {locals : CallId → Monitor.Local Outside Inside}
    (h : readsLeft keys cl' c x ≤ readsLeft keys cl c (locals c) + k)
    (hothers : ∀ d ≠ c, ∀ id, d ∈ (cl.process id).waitSet → d ∈ (cl'.process id).waitSet) :
    ∑ d ∈ calls, readsLeft keys cl' d (Function.update locals c x d) ≤
      ∑ d ∈ calls, readsLeft keys cl d (locals d) + k := by
  have hsum : ∑ d ∈ calls, readsLeft keys cl' d (Function.update locals c x d) ≤
      ∑ d ∈ calls, (readsLeft keys cl d (locals d) + if d = c then k else 0) := by
    refine Finset.sum_le_sum fun d _ => ?_
    by_cases hd : d = c
    · subst hd
      rwa [Function.update_self, if_pos rfl]
    · rw [Function.update_of_ne hd, if_neg hd]
      exact readsLeft_mono _ (hothers d hd)
  rw [Finset.sum_add_distrib, Finset.sum_ite_eq'] at hsum
  split at hsum <;> omega

theorem reads_le {cl cl' : Cluster} {locals locals' : CallId → Monitor.Local Outside Inside}
    (h : ∀ d, locals' d = locals d ∨ readsLeft keys cl' d (locals' d) = 0) :
    ∑ d ∈ calls, readsLeft keys cl' d (locals' d) ≤
      ∑ d ∈ calls, readsLeft keys cl d (locals d) + 3 * calls.card := by
  have hsum : ∑ d ∈ calls, readsLeft keys cl' d (locals' d) ≤
      ∑ d ∈ calls, (readsLeft keys cl d (locals d) + 3) := by
    refine Finset.sum_le_sum fun d _ => ?_
    rcases h d with he | he
    · rw [he]
      exact readsLeft_le cl cl' d (locals d)
    · rw [he]
      exact Nat.zero_le _
  rw [Finset.sum_add_distrib, Finset.sum_const_nat (m := 3) fun _ _ => rfl] at hsum
  omega

/-- A call that is no reader may wake all readers. -/
theorem reads_update_le {cl cl' : Cluster} {locals : CallId → Monitor.Local Outside Inside}
    {c : CallId} {x : Monitor.Local Outside Inside} (hx : readsLeft keys cl' c x = 0) :
    ∑ d ∈ calls, readsLeft keys cl' d (Function.update locals c x d) ≤
      ∑ d ∈ calls, readsLeft keys cl d (locals d) + 3 * calls.card := by
  refine reads_le fun d => ?_
  by_cases hd : d = c
  · subst hd
    rw [Function.update_self]
    exact .inr hx
  · rw [Function.update_of_ne hd]
    exact .inl rfl

/-- A step of a call that is no reader outweighs the readers it may wake. -/
theorem toGo_lt_of_works {r r' m p p' w w' : Nat} (hr : r' ≤ r + m) (hw : w' < w)
    (hp : p' ≤ p + 2) : r' + (m + 1) * (p' + 3 * w') < r + (m + 1) * (p + 3 * w) := by
  have hle : p' + 3 * w' + 1 ≤ p + 3 * w := by omega
  have hmul := Nat.mul_le_mul_left (m + 1) hle
  rw [Nat.mul_succ] at hmul
  omega

theorem toGo_lt_of_deliveries {r r' m p p' w : Nat} (hr : r' ≤ r + m) (hp : p' < p) :
    r' + (m + 1) * (p' + 3 * w) < r + (m + 1) * (p + 3 * w) := by
  have hle : p' + 3 * w + 1 ≤ p + 3 * w := by omega
  have hmul := Nat.mul_le_mul_left (m + 1) hle
  rw [Nat.mul_succ] at hmul
  omega

theorem InProgress.keys_bound {s : System} (h : InProgress calls ids keys s) (id : ServerId) :
    (s.shared.process id).data.keys.card ≤ keys.card := by
  refine Finset.card_le_card fun k hk => ?_
  obtain ⟨x, hx⟩ := Finmap.mem_iff.mp (Finmap.mem_keys.mp hk)
  exact h.bindings.view.data id k x hx

/-- A step outside the lock. -/
theorem InProgress.outside_lt {s : System} {c : CallId} {a : Act} {w w' : Outside}
    {cl : Cluster} (h : InProgress calls ids keys s) (hc : c ∈ calls) (hl : s.locals c = .out w)
    (ho : w.step c s.shared a = some (cl, w')) (hover : ¬ Over (s.locals c))
    (ha : a ≠ .read .wakeUp) :
    System.toGo calls ids keys
        { s with shared := cl, locals := Function.update s.locals c (.out w') } <
      System.toGo calls ids keys s := by
  obtain ⟨op, hat, hbeat, -⟩ := (h.ops c hc).resolve_left hover
  rw [hl] at hat
  have hout : cl.outstanding = s.shared.outstanding :=
    congrArg View.outstanding (Outside.step_view ho)
  by_cases hread : w.reading = true
  · obtain ⟨hlt, hzero, hothers⟩ := Outside.step_reads ho hread ha h.bindings.view.data
    rw [← hl] at hlt
    have hreads := reads_lt hc hlt hothers
    have hworks : ∑ d ∈ calls, worksLeft ids.card keys.card
        (Function.update s.locals c (.out w') d) ≤
        ∑ d ∈ calls, worksLeft ids.card keys.card (s.locals d) := by
      refine Finset.sum_le_sum fun d _ => ?_
      by_cases hd : d = c
      · subst hd
        rw [Function.update_self, hzero]
        exact Nat.zero_le _
      · rw [Function.update_of_ne hd]
    have hmul := Nat.mul_le_mul_left (3 * calls.card + 1)
      (Nat.add_le_add_left (Nat.mul_le_mul_left 3 hworks) (deliveriesLeft s.shared.outstanding))
    simp only [System.toGo, System.reads, System.works, hout]
    omega
  · have hjoin : ∃ id, w = .addContains id ∨ ∃ rpc : ServerRPC id, w = .addFindFirst id rpc := by
      cases w with
      | addContains id => exact ⟨id, .inl rfl⟩
      | addFindFirst id rpc => exact ⟨id, .inr ⟨rpc, rfl⟩⟩
      | synchronized b => exact absurd rfl (Outside.not_synchronized ho b)
      | idle => exact absurd (.inl hl) hover
      | finished o => exact absurd (.inr ⟨o, hl⟩) hover
      | beatNext next => exact absurd hat hbeat
      | beatAlive e next att => exact absurd hat hbeat
      | _ => exact absurd rfl hread
    obtain ⟨id, hw⟩ := hjoin
    obtain ⟨rfl, hlt, hzero⟩ := Outside.step_works ids.card keys.card keys ho hw
    rw [← hl] at hlt
    exact toGo_lt_of_works (reads_update_le hzero) (works_lt hc hlt) (Nat.le_add_right _ 2)

/-- A step inside it. -/
theorem InProgress.inside_lt {s : System} {c : CallId} {a : Act} {i : Inside} {cl : Cluster}
    {x : Monitor.Local Outside Inside} (h : InProgress calls ids keys s) (hc : c ∈ calls)
    (hl : s.locals c = .inn i) {r : Inside ⊕ Outside}
    (hi : i.step c s.shared a = some (cl, r)) (hx : r.elim (.inn ·) (.out ·) = x) :
    System.toGo calls ids keys
        { s with shared := cl, locals := Function.update s.locals c x } <
      System.toGo calls ids keys s := by
  have hdel := (Inside.Move.of_step hi).deliveries
  have hwork : worksLeft ids.card keys.card x < worksLeft ids.card keys.card (s.locals c) ∧
      readsLeft keys cl c x = 0 := by
    rw [hl]
    cases r with
    | inl i' =>
      subst hx
      exact ⟨Inside.step_left_lt hi (Finset.card_le_card h.servers) h.keys_bound, rfl⟩
    | inr w =>
      subst hx
      obtain ⟨e, rfl, -, rfl, -⟩ := (Inside.Move.of_step hi).leave_inv
      cases e <;> exact ⟨Nat.one_pos, rfl⟩
  exact toGo_lt_of_works (reads_update_le hwork.2) (works_lt hc hwork.1) hdel

/-- The step of a call, or of a request in the network. -/
theorem InProgress.toGo_lt {s s' : System} {l : Label} (h : InProgress calls ids keys s)
    (hs : Monitor.Step frontend s l s') (hl : Closing calls l) (hwork : Works calls l = true)
    (hwake : WakesUp l = false) : s'.toGo calls ids keys < s.toGo calls ids keys := by
  have hstep := hs
  cases hs with
  | @outside t a w w' σ' hout ho =>
    have ht : t ∈ calls := by simpa [Works] using hwork
    have hcall : ∀ op, (.run t a : Label) ≠ .run t (.call op) := by
      intro op e
      rw [e] at hl
      exact hl.of_call ht
    refine h.outside_lt ht hout ho (not_over_of_step hstep rfl hcall) ?_
    rintro rfl
    cases hwake
  | @inside t a i i' σ' hinn hi =>
    exact h.inside_lt (x := .inn i') (by simpa [Works] using hwork) hinn hi rfl
  | @leave t a i w σ' hinn hi =>
    exact h.inside_lt (x := .out w) (by simpa [Works] using hwork) hinn hi rfl
  | @enter t w i hout he hlock =>
    obtain ⟨b, rfl, rfl⟩ := Outside.entry_eq_some he
    have hlt : worksLeft ids.card keys.card (.inn b.start) <
        worksLeft ids.card keys.card (s.locals t) := by
      rw [hout]
      exact Nat.lt_succ_self _
    have ht : t ∈ calls := by simpa [Works] using hwork
    exact toGo_lt_of_works (reads_update_le rfl) (works_lt ht hlt) (Nat.le_add_right _ 2)
  | @env e σ' he =>
    cases e with
    | crash id => cases hwork
    | deliver n =>
      have hlt : deliveriesLeft σ'.outstanding < deliveriesLeft s.shared.outstanding := by
        have hm : Event.Move s.shared.view (.deliver n) σ'.view := Event.Move.of_step he
        generalize hv : σ'.view = v' at hm
        have hout : σ'.outstanding = v'.outstanding := congrArg View.outstanding hv
        rw [hout]
        cases hm with
        | deliver hr _ hp => exact deliveriesLeft_delivered hr hp
      exact toGo_lt_of_deliveries (reads_le fun _ => .inl rfl) hlt

/-- A step that is none of the calls' and wakes nobody. -/
theorem toGo_le_of_frame {s s' : System} (hlocals : ∀ d ∈ calls, s'.locals d = s.locals d)
    (hwait : ∀ id, (s'.shared.process id).waitSet = (s.shared.process id).waitSet)
    (hout : s'.shared.outstanding = s.shared.outstanding) :
    s'.toGo calls ids keys ≤ s.toGo calls ids keys := by
  have hreads : s'.reads calls keys ≤ s.reads calls keys := by
    refine Finset.sum_le_sum fun d hd => ?_
    rw [hlocals d hd]
    exact readsLeft_mono _ fun id hid => (hwait id).symm ▸ hid
  have hworks : s'.works calls ids keys = s.works calls ids keys :=
    Finset.sum_congr rfl fun d hd => by rw [hlocals d hd]
  unfold System.toGo
  rw [hworks, hout]
  exact Nat.add_le_add_right hreads _

/-- The heartbeat wakes nobody. -/
theorem Outside.step_waitSet_of_beats {c : CallId} {cl cl' : Cluster} {w w' : Outside} {a : Act}
    (h : w.step c cl a = some (cl', w')) (hw : w.beats = true)
    (halive : ∀ e next att, w = .beatAlive e next att → att.state ≠ .notifying) (id : ServerId) :
    (cl'.process id).waitSet = (cl.process id).waitSet := by
  cases w with
  | beatNext next =>
    cases next <;> cases a <;> simp only [Outside.step] at h <;> try contradiction
    all_goals first
      | (obtain ⟨rpc, -, heq⟩ := Option.map_eq_some_iff.mp h
         obtain ⟨rfl, -⟩ := Prod.mk.inj heq
         rfl)
      | (obtain ⟨rfl, -⟩ := Prod.mk.inj (Option.some.inj h)
         rfl)
  | beatAlive e next att =>
    have hstate := halive e next att rfl
    obtain ⟨failures, pr⟩ := att
    cases a with
    | exec =>
      obtain ⟨⟨cl₁, pr₁⟩, hx, heq⟩ := Option.map_eq_some_iff.mp h
      obtain ⟨rfl, -⟩ := Prod.mk.inj heq
      unfold Cluster.exec at hx
      split at hx <;> try contradiction
      obtain ⟨⟨p, pr₂⟩, hm, heq⟩ := Option.map_eq_some_iff.mp hx
      obtain ⟨rfl, -⟩ := Prod.mk.inj heq
      have hp : p = cl.process e.1 := by
        cases pr with
        | sent => exact (Prod.mk.inj (Option.some.inj hm)).1.symm
        | notifying => exact absurd rfl hstate
        | executed => cases hm
      subst hp
      by_cases hid : id = e.1
      · rw [hid, Cluster.setProcess_process_self]
      · rw [Cluster.setProcess_process_of_ne cl hid]
    | throw =>
      simp only [Outside.step] at h
      split at h <;> try contradiction
      split at h <;> obtain ⟨rfl, -⟩ := Prod.mk.inj (Option.some.inj h) <;> rfl
    | reply =>
      simp only [Outside.step] at h
      split at h <;> try contradiction
      obtain ⟨rfl, -⟩ := Prod.mk.inj (Option.some.inj h)
      rfl
    | _ => simp [Outside.step] at h
  | _ => cases hw

/-- A step of the heartbeat. -/
theorem InProgress.beat_le {s s' : System} {l : Label} {c : CallId}
    (h : InProgress calls ids keys s) (hs : Monitor.Step frontend s l s')
    (hc : l.thread = some c) (hnot : c ∉ calls) :
    s'.toGo calls ids keys ≤ s.toGo calls ids keys := by
  have hlocals : ∀ d ∈ calls, s'.locals d = s.locals d := by
    intro d hd
    refine hs.locals_of_ne ?_
    rw [hc]
    intro e
    exact hnot (Option.some.inj e ▸ hd)
  by_cases hcall : ∃ op, l = .run c (.call op)
  · obtain ⟨op, rfl⟩ := hcall
    have hshared := (call_start hs).2.1
    exact toGo_le_of_frame hlocals (fun id => by rw [hshared]) (by rw [hshared])
  · have hover := not_over_of_step hs hc fun op e => hcall ⟨op, e⟩
    have hat := (h.outside c hnot).resolve_left hover
    cases hs with
    | @outside t a w w' σ' hout ho =>
      obtain rfl : t = c := Option.some.inj hc
      rw [hout] at hat hover
      have hbeats : w.beats = true := by
        cases w with
        | beatNext next => rfl
        | beatAlive e next att => rfl
        | synchronized b => cases a <;> cases ho
        | remote q id r => cases q <;> cases hat.1
        | _ => cases hat
      refine toGo_le_of_frame hlocals (Outside.step_waitSet_of_beats ho hbeats ?_) ?_
      · rintro e next att rfl
        exact h.beats t e next att hout
      · exact congrArg View.outstanding (Outside.step_view ho)
    | @inside t a i i' σ' hinn hi =>
      obtain rfl : t = c := Option.some.inj hc
      rw [hinn] at hat
      cases i with
      | beatRemove id next =>
        cases a <;> simp only [frontend, Inside.step] at hi <;> try contradiction
        obtain ⟨rfl, -⟩ := Prod.mk.inj (Option.some.inj hi)
        exact toGo_le_of_frame hlocals (fun _ => rfl) rfl
      | leave e => exact absurd rfl ((Inside.Move.of_step hi).not_leave e)
      | lock w l => cases w <;> cases hat
      | unlock w l => cases w <;> cases hat
      | _ => cases hat
    | @leave t a i w σ' hinn hi =>
      obtain rfl : t = c := Option.some.inj hc
      obtain ⟨e, rfl, -⟩ := (Inside.Move.of_step hi).leave_inv
      cases a <;> simp only [frontend, Inside.step] at hi <;> try contradiction
      obtain ⟨rfl, -⟩ := Prod.mk.inj (Option.some.inj hi)
      exact toGo_le_of_frame hlocals (fun _ => rfl) rfl
    | enter _ _ _ => exact toGo_le_of_frame hlocals (fun _ => rfl) rfl
    | env _ => cases hc

/-- A wake-up without a `notifyAll` costs the reader its test and its way back. -/
theorem toGo_wakeUp_le {s s' : System} {c : CallId}
    (hs : Monitor.Step frontend s (.run c (.read .wakeUp)) s') :
    s'.toGo calls ids keys ≤ s.toGo calls ids keys + 2 := by
  cases hs with
  | inside _ hi => exact (Inside.Move.of_step hi).not_read.elim
  | leave _ hi => exact (Inside.Move.of_step hi).not_read.elim
  | outside hl ho =>
    obtain ⟨q, id, rfl, hmem, rfl, rfl⟩ := Outside.step_wakeUp ho
    have hown : readsLeft keys (s.shared.setProcess id ((s.shared.process id).wakeUp c)) c
        (.out (.remote q id .test)) ≤ readsLeft keys s.shared c (s.locals c) + 2 := by
      rw [hl]
      simp [readsLeft, Reader.left, hmem]
    have hothers : ∀ d ≠ c, ∀ id', d ∈ (s.shared.process id').waitSet →
        d ∈ ((s.shared.setProcess id ((s.shared.process id).wakeUp c)).process id').waitSet := by
      intro d hd id' hd'
      by_cases hid : id' = id
      · subst hid
        rw [Cluster.setProcess_process_self]
        exact Finset.mem_erase.mpr ⟨hd, hd'⟩
      · rwa [Cluster.setProcess_process_of_ne _ hid]
    have hreads : ∑ d ∈ calls, readsLeft keys
        (s.shared.setProcess id ((s.shared.process id).wakeUp c)) d
        (Function.update s.locals c (.out (.remote q id .test)) d) ≤
        ∑ d ∈ calls, readsLeft keys s.shared d (s.locals d) + 2 := reads_le_add hown hothers
    have hworks : ∑ d ∈ calls, worksLeft ids.card keys.card
        (Function.update s.locals c (.out (.remote q id .test)) d) =
        ∑ d ∈ calls, worksLeft ids.card keys.card (s.locals d) := by
      refine Finset.sum_congr rfl fun d _ => ?_
      by_cases hd : d = c
      · subst hd
        rw [Function.update_self, hl]
        rfl
      · rw [Function.update_of_ne hd]
    simp only [System.toGo, System.reads, System.works, Cluster.setProcess_outstanding, hworks]
    omega

/-- A crash changes nothing that is left to do. -/
theorem toGo_of_crash {s s' : System} {id : ServerId}
    (hs : Monitor.Step frontend s (.env (.crash id)) s') :
    s'.toGo calls ids keys = s.toGo calls ids keys := by
  cases hs with
  | env he =>
    obtain rfl := Option.some.inj he
    rfl

/-! ## Bounds -/

/-- No call is in progress, and the system knows only the servers `ids` and the keys
`keys`. -/
structure Knows (ids : Finset ServerId) (keys : Finset Key) (s : System) : Prop where
  quiet : Quiet s
  servers : s.shared.servers.keys ⊆ ids
  bindings : s.From fun k _ => k ∈ keys

theorem Knows.inProgress {s₀ s : System} {tr : Trace} (h₀ : Knows ids keys s₀)
    (h : SystemRun (fun _ l => Permitted calls ids keys l) s₀ tr s) :
    InProgress calls ids keys s := by
  refine h.invariant (I := fun _ s => InProgress calls ids keys s) ?_
    fun _ _ _ _ _ hl hs ih => ih.step (Monitor.Step.of_step frontend hs) hl
  refine ⟨fun c _ => .inl (h₀.quiet.2 c), fun c _ => .inl (h₀.quiet.2 c), fun c e next att hc => ?_,
    h₀.servers, h₀.bindings⟩
  rcases h₀.quiet.2 c with hidle | ⟨o, hfin⟩
  · cases hidle.symm.trans hc
  · cases hfin.symm.trans hc

/-- In a run of calls of `Allowed` no other thread does anything. -/
theorem Knows.over {s₀ s : System} {tr : Trace} (h₀ : Knows ids keys s₀)
    (h : SystemRun (fun _ l => Allowed calls ids keys l) s₀ tr s) (c : CallId) (hc : c ∉ calls) :
    Over (s.locals c) := by
  refine h.invariant (I := fun _ s => Over (s.locals c)) (h₀.quiet.2 c) ?_
  intro tr s l s' _ hl hs hover
  rcases point_step (c := c) (Monitor.Step.of_step frontend hs) with ⟨op, rfl, -⟩ | ⟨-, hstay⟩
  · exact absurd (hl c op rfl).1 hc
  · exact hstay hover

/-- Once no more calls are made, the calls in progress and the requests in the network do a
bounded number of steps, and three more for each wake-up without a `notifyAll`: in every
order, however the heartbeat goes on, and whatever fails.  Attempts may throw before or after
their methods have run, requests may be executed late, and servers may crash. -/
theorem steps_bounded {s₀ s₁ s : System} {tr₁ tr : Trace} (h₀ : Knows ids keys s₀)
    (h₁ : SystemRun (fun _ l => Permitted calls ids keys l) s₀ tr₁ s₁)
    (h : SystemRun (fun _ l => Closing calls l) s₁ tr s) :
    (tr.countP fun e => Works calls e.2) + s.toGo calls ids keys ≤
      s₁.toGo calls ids keys + 3 * tr.countP fun e => WakesUp e.2 := by
  refine h.countP_add_le (m := System.toGo calls ids keys) ?_
  intro tr s l s' hr hl hs
  have hstep := Monitor.Step.of_step frontend hs
  have hI := h₀.inProgress (h₁.append (hr.mono fun _ _ hl => hl.permitted))
  cases hwake : WakesUp l with
  | true =>
    obtain ⟨c, rfl⟩ := wakesUp_eq hwake
    have hle : s'.toGo calls ids keys ≤ s.toGo calls ids keys + 2 := toGo_wakeUp_le hstep
    rw [if_pos rfl]
    split <;> omega
  | false =>
    cases hwork : Works calls l with
    | true =>
      have hlt := hI.toGo_lt hstep hl hwork hwake
      simp
      omega
    | false =>
      suffices hle : s'.toGo calls ids keys ≤ s.toGo calls ids keys by simpa using hle
      cases l with
      | run c a => exact hI.beat_le hstep rfl (by simpa [Works] using hwork)
      | enter c => exact hI.beat_le hstep rfl (by simpa [Works] using hwork)
      | env e =>
        cases e with
        | crash id => exact Nat.le_of_eq (toGo_of_crash hstep)
        | deliver n => cases hwork

theorem fresh_knows {servers : Finmap ServerRPC} (h : servers.keys ⊆ ids) :
    Knows ids keys (System.fresh servers) where
  quiet := System.fresh_quiet servers
  servers := h
  bindings := by
    refine ⟨⟨fun _ k x hx => ?_, nofun⟩, fun _ => trivial⟩
    cases (Finmap.lookup_empty k).symm.trans hx

/-- A get goes to sleep at the server that a put has locked, and the heartbeat is started. -/
def getAsleep : List Label :=
  [.run 0 (.call (.put 4 7)), .enter 0] ++ loopOn 0 [.run 0 .exec] [1] ++
    [.run 1 (.call (.get 4)), .run 1 .step, .run 1 .step, .run 1 .step, .run 1 .step,
      .run 1 (.read .step), .run 1 (.read .step), .run 9 (.call .heartBeat)]

/-- The get is woken without a `notifyAll` and goes back to sleep, while the heartbeat goes on
and calls a server that has crashed. -/
def wokenOnce : List Label :=
  [.run 1 (.read .wakeUp), .run 9 (.pick 1), .run 1 (.read .step), .run 9 .step,
    .run 1 (.read .step), .env (.crash 1), .run 9 .throw]

theorem steps_bounded_wokenOnce :
    ∃ tr₁ s₁ tr s, SystemRun (fun _ l => Permitted {0, 1} {1} {4} l) (System.fresh oneServer)
        tr₁ s₁ ∧ SystemRun (fun _ l => Closing {0, 1} l) s₁ tr s ∧
      1 ∈ (s.shared.process 1).waitSet ∧ (tr.countP fun e => WakesUp e.2) = 1 ∧
      3 + s.toGo {0, 1} {1} {4} ≤ s₁.toGo {0, 1} {1} {4} + 3 * 1 := by
  have hex : ((exec System.step (System.fresh oneServer) getAsleep).map fun s₁ =>
      (exec System.step s₁ wokenOnce).map fun s => decide (1 ∈ (s.shared.process 1).waitSet)) =
      some (some true) := by decide +kernel
  obtain ⟨s₁, h₁, hs₁⟩ := Run.exists_of_exec (fun _ l => Permitted {0, 1} {1} {4} l) hex
    (by decide +kernel)
  obtain ⟨s, hs, hw⟩ := Option.map_eq_some_iff.mp hs₁
  have hclosing : ∀ l ∈ wokenOnce, Closing {0, 1} l := by decide
  have hrun : SystemRun (fun _ l => Closing {0, 1} l) s₁ (traceOf System.step s₁ wokenOnce) s :=
    Run.of_exec hs fun e he => hclosing e.2 (mem_traceOf he)
  have hcount : ∀ p : Label → Bool, ((traceOf System.step s₁ wokenOnce).countP fun e => p e.2) =
      wokenOnce.countP p := countP_traceOf hs
  have hbound := steps_bounded (fresh_knows (by decide)) h₁ hrun
  rw [hcount, hcount] at hbound
  exact ⟨_, s₁, _, s, h₁, hrun, of_decide_eq_true hw, (hcount _).trans rfl, hbound⟩

/-! ## Runs without failures -/

/-- The keys that an iterator has still to return are there, and it has not returned
them. -/
def Reader.Ready (d : Data) : Reader → Prop
  | .printing todo out => ∀ k ∈ todo, k ∈ d ∧ k ∉ out.map Prod.fst
  | _ => True

def Inside.Raised : Inside → Prop
  | .transfer _ _ _ ⟨_, .remote .raised⟩ => True
  | _ => False

/-- Among live servers only a sender that has raised makes a failure necessary. -/
theorem Inside.Broken.raised {cl : Cluster} {i : Inside} (h : i.Broken cl)
    (halive : ∀ id, cl.crashed id = false) : i.Raised := by
  have hno : ∀ {id}, cl.crashed id = true → i.Raised := by
    intro id hid
    rw [halive id] at hid
    cases hid
  cases i with
  | lock w l => cases l <;> first | exact hno h | cases h
  | write k x l => cases l <;> first | exact hno h | cases h
  | unlock w l => cases l <;> first | exact hno h | cases h
  | shutdownCall id pr => exact hno h
  | transfer id rpc sender a =>
    obtain ⟨n, t⟩ := a
    cases t with
    | lookup => cases h
    | remote p =>
      rcases h with hc | rfl | ⟨hc, -⟩
      · exact hno hc
      · exact trivial
      · exact hno hc
  | _ => cases h

/-- The next step of a thread is not a failure. -/
def PointReady (v : View) : Monitor.Local Outside Inside → Prop
  | .inn i => i.Ready v ∧ ¬ i.Raised
  | .out (.remote _ id r) => r.Ready (v.data id)
  | .out _ => True

structure Healthy (s : System) : Prop where
  alive : ∀ id, s.shared.crashed id = false
  points : ∀ c, PointReady s.shared.view (s.locals c)

theorem Reader.Ready.mono {d d' : Data} {r : Reader} (h : r.Ready d) (hkeys : d.keys ⊆ d'.keys) :
    r.Ready d' := by
  cases r with
  | printing todo out =>
    intro k hk
    obtain ⟨hmem, hout⟩ := h k hk
    exact ⟨Finmap.mem_keys.mp (hkeys (Finmap.mem_keys.mpr hmem)), hout⟩
  | _ => exact trivial

theorem PointReady.mono {v v' : View} {l : Monitor.Local Outside Inside} (h : PointReady v l)
    (hkeys : v.KeepsKeys v') : PointReady v' l := by
  cases l with
  | inn i => exact ⟨h.1.mono hkeys, h.2⟩
  | out w =>
    cases w with
    | remote q id r => exact Reader.Ready.mono h (hkeys id)
    | _ => exact trivial

theorem ServerRPCImpl.read_ready {p p' : ServerRPCImpl} {q : Query} {c : CallId}
    {r r' : Reader} {a : ReaderAct} (h : p.read q c r a = some (p', r')) (hr : r.Ready p.data) :
    r'.Ready p.data := by
  cases r with
  | passed =>
    cases a <;> simp only [ServerRPCImpl.read] at h <;> try contradiction
    cases q with
    | get k =>
      obtain ⟨-, rfl⟩ := Prod.mk.inj (Option.some.inj h)
      exact trivial
    | printKVPairs =>
      obtain ⟨-, rfl⟩ := Prod.mk.inj (Option.some.inj h)
      exact fun k hk => ⟨Finmap.mem_keys.mp hk, List.not_mem_nil⟩
  | printing todo out =>
    cases a <;> simp only [ServerRPCImpl.read] at h <;> try contradiction
    · split at h <;> try contradiction
      obtain ⟨-, rfl⟩ := Prod.mk.inj (Option.some.inj h)
      exact trivial
    · split at h <;> try contradiction
      split at h <;> try contradiction
      obtain ⟨-, rfl⟩ := Prod.mk.inj (Option.some.inj h)
      intro k hk
      obtain ⟨hne, hk⟩ := Finset.mem_erase.mp hk
      obtain ⟨hmem, hout⟩ := hr k hk
      refine ⟨hmem, ?_⟩
      rw [List.map_append, List.mem_append]
      rintro (hin | hin)
      · exact hout hin
      · exact hne (by simpa using hin)
  | _ =>
    cases a <;> simp only [ServerRPCImpl.read] at h <;> try contradiction
    all_goals repeat (split at h)
    all_goals first
      | contradiction
      | (obtain ⟨-, rfl⟩ := Prod.mk.inj (Option.some.inj h)
         exact trivial)

theorem Outside.Move.ready {c : CallId} {v : View} {w w' : Outside} {a : Act}
    (h : Outside.Move c v w a w') (hw : PointReady v (.out w)) : PointReady v (.out w') := by
  cases h with
  | @call op => cases op <;> exact trivial
  | @read q id r r' b p p' hd _ h =>
    have hr : r.Ready p.data := hd ▸ hw
    have hr' := ServerRPCImpl.read_ready h hr
    rw [hd] at hr'
    exact hr'
  | @beat w w' a _ hw' => cases w' <;> first | exact trivial | cases hw'
  | _ => exact trivial

theorem Inside.Move.not_raised {c : CallId} {v v' : View} {i i' : Inside} {a : Act}
    (h : Inside.Move c v i a v' (.inl i')) (ha : a.faulty = false) : ¬ i'.Raised := by
  generalize hr : (Sum.inl i' : Inside ⊕ Outside) = r at h
  cases h with
  | @lock w l a v' f _ =>
    obtain rfl := Sum.inl.inj hr
    cases f <;> cases w <;> exact id
  | @write key x l a v' f _ =>
    obtain rfl := Sum.inl.inj hr
    cases f <;> exact id
  | @unlock w l a v' f _ =>
    obtain rfl := Sum.inl.inj hr
    cases f <;> cases w <;> exact id
  | @senderGone id rpc sender n _ =>
    obtain rfl := Sum.inl.inj hr
    rcases Transfer.failed_cases id rpc sender ⟨n, .lookup⟩ with ⟨-, e⟩ | ⟨-, e⟩ <;> rw [e] <;>
      exact not_false
  | transferThrow _ => cases ha
  | @send id rpc sender n p p' b v' _ h =>
    obtain rfl := Sum.inl.inj hr
    cases h with
    | badPort hport => exact absurd rpc.port_ok hport
    | giveUp _ => cases ha
    | _ => exact not_false
  | leave => cases hr
  | _ =>
    obtain rfl := Sum.inl.inj hr
    exact not_false

theorem Healthy.step {s s' : System} {l : Label} (h : Healthy s)
    (hs : Monitor.Step frontend s l s') (hl : Faultless l) : Healthy s' := by
  have hkeys := keys_of_step hs
  have hupdate : ∀ {t x v'}, s.shared.view.KeepsKeys v' → PointReady v' x →
      ∀ c, PointReady v' (Function.update s.locals t x c) := fun hk hx =>
    (Function.forall_update_iff s.locals fun _ l => PointReady _ l).mpr
      ⟨hx, fun c _ => (h.points c).mono hk⟩
  cases hs with
  | @outside t a w w' σ' hw ho =>
    have hview := Outside.step_view ho
    refine ⟨fun id => ?_, hupdate hkeys ?_⟩
    · exact (congrFun (congrArg View.crashed hview) id).trans (h.alive id)
    · have hp := h.points t
      rw [hw] at hp
      show PointReady σ'.view _
      rw [hview]
      exact (Outside.Move.of_step ho).ready hp
  | @inside t a i i' σ' hinn hi =>
    have hm := Inside.Move.of_step hi
    have hp := h.points t
    rw [hinn] at hp
    refine ⟨fun id => ?_, hupdate hkeys ⟨hm.ready hp.1, hm.not_raised hl⟩⟩
    exact (congrFun hm.crashed id).trans (h.alive id)
  | @leave t a i w σ' hinn hi =>
    obtain ⟨e, rfl, -, rfl, hview⟩ := (Inside.Move.of_step hi).leave_inv
    refine ⟨fun id => ?_, hupdate hkeys ?_⟩
    · exact (congrFun (congrArg View.crashed hview) id).trans (h.alive id)
    · cases e <;> exact trivial
  | @enter t w i _ he _ =>
    obtain ⟨b, rfl, rfl⟩ := Outside.entry_eq_some he
    refine ⟨h.alive, hupdate hkeys ⟨b.ready _, ?_⟩⟩
    cases b <;> exact not_false
  | env _ => exact absurd hl id

theorem Winding.not_wakesUp {l : Label} (h : Winding l) : WakesUp l = false := by
  cases hwake : WakesUp l with
  | false => rfl
  | true =>
    obtain ⟨c, rfl⟩ := wakesUp_eq hwake
    exact absurd h id

/-- A step that is neither a call nor a failure is one of a call in progress. -/
theorem Winding.works {s s' : System} {l : Label} (h : Winding l) (hl : Faultless l)
    (hs : Monitor.Step frontend s l s') (hover : ∀ c ∉ calls, Over (s.locals c)) :
    Works calls l = true := by
  have hmem : ∀ {c}, l.thread = some c → c ∈ calls := by
    intro c hc
    by_contra hno
    refine not_over_of_step hs hc ?_ (hover c hno)
    rintro op rfl
    exact h
  cases l with
  | run c a => simpa [Works] using hmem rfl
  | enter c => simpa [Works] using hmem rfl
  | env e => exact absurd hl id

/-! ## Where the calls stop -/

/-- The reader has entered the monitor and waits for a `notifyAll`. -/
def Sleeps (s : System) (c : CallId) : Prop :=
  ∃ q id, s.locals c = .out (.remote q id .waiting) ∧ c ∈ (s.shared.process id).waitSet

/-- `serversLock` is free, and every call is over or sleeps. -/
structure Resting (s : System) : Prop where
  free : s.lock = none
  calls : ∀ c, Over (s.locals c) ∨ Sleeps s c

theorem System.step_of_outside {s : System} {c : CallId} {w : Outside} {a : Act}
    {r : Cluster × Outside} (hw : s.locals c = .out w) (h : w.step c s.shared a = some r) :
    ∃ s', System.step s (.run c a) = some s' := by
  refine Option.isSome_iff_exists.mp ?_
  simp [System.step, Monitor.step, hw, frontend, h]

/-- A reader at a live server can go on, or it sleeps. -/
theorem ServerRPCImpl.read_isSome {p : ServerRPCImpl} {r : Reader} (q : Query) (c : CallId)
    (hr : r.Ready p.data) (hans : ∀ y, r ≠ .answered y) :
    (∃ a x, p.read q c r a = some x ∧ a ≠ .wakeUp) ∨ r = .waiting ∧ c ∈ p.waitSet := by
  have hstep : ∀ {x}, p.read q c r .step = some x →
      (∃ a x, p.read q c r a = some x ∧ a ≠ .wakeUp) ∨ r = .waiting ∧ c ∈ p.waitSet :=
    fun hx => .inl ⟨.step, _, hx, fun e => by cases e⟩
  cases r with
  | waiting =>
    by_cases hw : c ∈ p.waitSet
    · exact .inr ⟨rfl, hw⟩
    · exact hstep (if_neg hw)
  | passed => cases q <;> exact hstep rfl
  | printing todo out =>
    rcases todo.eq_empty_or_nonempty with rfl | ⟨k, hk⟩
    · exact hstep (x := (p, .answered (.pairs out))) (by simp [ServerRPCImpl.read])
    · obtain ⟨hmem, hnew⟩ := hr k hk
      obtain ⟨x, hx⟩ := Finmap.mem_iff.mp hmem
      refine .inl ⟨.visit k, (p, .printing (todo.erase k) (out ++ [(k, x)])), ?_, fun e => by
        cases e⟩
      simp only [ServerRPCImpl.read, hx]
      exact if_neg hnew
  | answered y => exact absurd rfl (hans y)
  | _ => exact hstep rfl

/-- A call outside the lock can go on without a failure, or it sleeps. -/
theorem Outside.step_isSome {c : CallId} {cl : Cluster} {w : Outside}
    (halive : ∀ id, cl.crashed id = false) (hready : PointReady cl.view (.out w))
    (hover : ¬ Over (.out w)) (hsync : ∀ b, w ≠ .synchronized b) (hbeats : w.beats = false) :
    (∃ a r, w.step c cl a = some r ∧ a.faulty = false ∧ Winding (.run c a)) ∨
      ∃ q id, w = .remote q id .waiting ∧ c ∈ (cl.process id).waitSet := by
  have hstep : ∀ {r}, w.step c cl .step = some r →
      (∃ a r, w.step c cl a = some r ∧ a.faulty = false ∧ Winding (.run c a)) ∨
        ∃ q id, w = .remote q id .waiting ∧ c ∈ (cl.process id).waitSet :=
    fun hr => .inl ⟨.step, _, hr, rfl, trivial⟩
  cases w with
  | idle => exact absurd (.inl rfl) hover
  | finished o => exact absurd (.inr ⟨o, rfl⟩) hover
  | synchronized b => exact absurd rfl (hsync b)
  | beatNext next => cases hbeats
  | beatAlive e next a => cases hbeats
  | getSize k =>
    cases h : ServerSelector.index k (mapSize cl.servers) with
    | ok i => exact hstep (r := (cl, .getKeys k i)) (by simp [Outside.step, h])
    | error e => exact hstep (r := (cl, .finished (.threw e))) (by simp [Outside.step, h])
  | getKeys k i =>
    cases h : ServerSelector.get cl.servers i with
    | ok id => exact hstep (r := (cl, .getCheck k id)) (by simp [Outside.step, h])
    | error e => exact hstep (r := (cl, .finished (.threw e))) (by simp [Outside.step, h])
  | getCheck k id =>
    by_cases hid : id ∈ cl.servers
    · exact hstep (if_pos hid)
    · exact hstep (if_neg hid)
  | getLookup k id =>
    by_cases hid : id ∈ cl.servers
    · exact hstep (if_pos hid)
    · exact hstep (if_neg hid)
  | printLookup id =>
    by_cases hid : id ∈ cl.servers
    · exact hstep (if_pos hid)
    · exact hstep (if_neg hid)
  | addContains id =>
    by_cases hid : id ∈ cl.servers
    · exact hstep (if_pos hid)
    · cases hcreate : ServerRPCClient.create id c with
      | ok rpc =>
        exact hstep (r := (cl, .addFindFirst id rpc)) (by simp [Outside.step, hid, hcreate])
      | error message =>
        exact hstep (r := (cl, .finished (.returned (.notAccepting id message))))
          (by simp [Outside.step, hid, hcreate])
  | addFindFirst id rpc =>
    rcases cl.servers.keys.eq_empty_or_nonempty with hnone | ⟨sender, hsender⟩
    · exact hstep (if_pos hnone)
    · exact .inl ⟨.pick sender, _, if_pos (Finmap.mem_keys.mp hsender), rfl, trivial⟩
  | remote q id r =>
    by_cases hans : ∃ y, r = .answered y
    · obtain ⟨y, rfl⟩ := hans
      exact .inl ⟨.reply, _, rfl, rfl, trivial⟩
    · rcases ServerRPCImpl.read_isSome q c hready fun y e => hans ⟨y, e⟩ with
        ⟨b, x, hx, hb⟩ | ⟨rfl, hw⟩
      · refine .inl ⟨.read b, (cl.setProcess id x.1, .remote q id x.2), ?_, rfl, ?_⟩
        · simp [Outside.step, halive id, hx]
        · cases b <;> first | exact trivial | exact absurd rfl hb
      · exact .inr ⟨q, id, rfl, hw⟩

/-- In a system without failures, the calls stop where they rest. -/
theorem InProgress.resting {s : System} (h : InProgress calls ids keys s)
    (hcalls : ∀ c ∉ calls, Over (s.locals c)) (hh : Healthy s) (hx : Monitor.Exclusive s)
    (hstuck : Stuck System.step (fun _ l => Faultless l ∧ Winding l) s) : Resting s := by
  have hfree : s.lock = none := by
    by_contra hne
    obtain ⟨c, hc⟩ := Option.ne_none_iff_exists'.mp hne
    obtain ⟨i, hi⟩ := (hx c).mp hc
    have hp := hh.points c
    rw [hi] at hp
    obtain ⟨a, r, hr, hfaulty⟩ := Inside.step_isSome c hp.1
    have hm := Inside.Move.of_step (r := r.2) hr
    obtain ⟨s', hs'⟩ := System.step_of_inside hi hr
    have hfault : a.faulty = false := by
      by_contra hfault
      have hbroken := hfaulty (by simpa using hfault)
      exact hp.2 (hbroken.raised hh.alive)
    have hwind : Winding (.run c a) := by
      cases a with
      | call op => exact absurd rfl (hm.not_call op)
      | read b => exact hm.not_read.elim
      | _ => exact trivial
    have hnone := hstuck (.run c a) ⟨hfault, hwind⟩
    rw [hs'] at hnone
    cases hnone
  refine ⟨hfree, fun c => ?_⟩
  by_cases hover : Over (s.locals c)
  · exact .inl hover
  · right
    have hmem : c ∈ calls := by
      by_contra hno
      exact hover (hcalls c hno)
    obtain ⟨op, hat, hbeat, -⟩ := (h.ops c hmem).resolve_left hover
    cases hl : s.locals c with
    | inn i => exact absurd hl (hx.not_inn hfree)
    | out w =>
      rw [hl] at hat hover
      have hp := hh.points c
      rw [hl] at hp
      have hsync : ∀ b, w ≠ .synchronized b := by
        rintro b rfl
        have hnone := hstuck (.enter c) ⟨trivial, trivial⟩
        simp [System.step, Monitor.step, hl, hfree, frontend, Outside.entry] at hnone
      have hbeats : w.beats = false := by
        cases w with
        | beatNext next => exact absurd hat hbeat
        | beatAlive e next a => exact absurd hat hbeat
        | _ => rfl
      rcases Outside.step_isSome (c := c) hh.alive hp hover hsync hbeats with
        ⟨a, r, hr, hfault, hwind⟩ | ⟨q, id, rfl, hw⟩
      · obtain ⟨s', hs'⟩ := System.step_of_outside hl hr
        have hnone := hstuck (.run c a) ⟨hfault, hwind⟩
        rw [hs'] at hnone
        cases hnone
      · exact ⟨q, id, hl, hw⟩

theorem Healthy.of_quiet {s : System} (h : Quiet s) (halive : ∀ id, s.shared.crashed id = false) :
    Healthy s := by
  refine ⟨halive, fun c => ?_⟩
  rcases h.2 c with hc | ⟨o, hc⟩ <;> rw [hc] <;> exact trivial

/-- Without failures the calls of finitely many clients and administrators come to rest in
a bounded number of steps, in whatever order they run: when no step is left, `serversLock`
is free, and every call has returned, except for readers that sleep in a wait set. -/
theorem calls_come_to_rest {s₀ s₁ : System} {tr₁ : Trace} (h₀ : Knows ids keys s₀)
    (halive : ∀ id, s₀.shared.crashed id = false)
    (h₁ : SystemRun (fun _ l => Faultless l ∧ Allowed calls ids keys l) s₀ tr₁ s₁) :
    Terminates System.step (fun _ l => Faultless l ∧ Winding l) s₁ fun _ s => Resting s := by
  have hwhole : ∀ tr s, SystemRun (fun _ l => Faultless l ∧ Winding l) s₁ tr s →
      SystemRun (fun _ l => Faultless l ∧ Allowed calls ids keys l) s₀ (tr₁ ++ tr) s :=
    fun tr s h => h₁.append (h.mono fun _ _ hl => ⟨hl.1, hl.2.allowed⟩)
  have hin : ∀ {tr s}, SystemRun (fun _ l => Faultless l ∧ Allowed calls ids keys l) s₀ tr s →
      InProgress calls ids keys s := fun h => h₀.inProgress (h.mono fun _ _ hl => hl.2.permitted)
  have hover : ∀ {tr s}, SystemRun (fun _ l => Faultless l ∧ Allowed calls ids keys l) s₀ tr s →
      ∀ c ∉ calls, Over (s.locals c) := fun h => h₀.over (h.mono fun _ _ hl => hl.2)
  refine ⟨⟨s₁.toGo calls ids keys, fun tr s h => ?_⟩, fun tr s h hstuck => ?_⟩
  · have hbound := h.length_add_le (m := System.toGo calls ids keys) fun tr s l s' hr hl hs => by
      have hstep := Monitor.Step.of_step frontend hs
      have hrun := hwhole tr s hr
      exact (hin hrun).toGo_lt hstep hl.2.closing (hl.2.works hl.1 hstep (hover hrun))
        hl.2.not_wakesUp
    omega
  · have hrun := hwhole tr s h
    have hhealthy : Healthy s := hrun.invariant (I := fun _ s => Healthy s)
      (.of_quiet h₀.quiet halive) fun _ _ _ _ _ hl hs ih =>
        ih.step (Monitor.Step.of_step frontend hs) hl.1
    exact (hin hrun).resting (hover hrun) hhealthy (Monitor.Run.exclusive hrun h₀.quiet.exclusive)
      hstuck

theorem Allowed.of_call {c : CallId} {op : Op} (hc : c ∈ calls) (hbeat : op ≠ .heartBeat)
    (hids : ∀ id, op = .addServer id → id ∈ ids) (hkeys : ∀ k x, op = .put k x → k ∈ keys) :
    Allowed calls ids keys (.run c (.call op)) := by
  intro c' op' e
  obtain ⟨rfl, hop⟩ := Monitor.Label.run.inj e
  obtain rfl := Act.call.inj hop
  exact ⟨hc, hbeat, hids, hkeys⟩

/-- A put and a get have been called, and nothing else. -/
def putAndGet : List Label := [.run 0 (.call (.put 4 7)), .run 1 (.call (.get 4))]

theorem putAndGet_run :
    ∃ tr s, SystemRun (fun _ l => Faultless l ∧ Allowed {0, 1} {1} {4} l)
        (System.fresh oneServer) tr s ∧ s.locals 1 = .out (.getSize 4) := by
  have hex : ∃ s, exec System.step (System.fresh oneServer) putAndGet = some s ∧
      s.locals 1 = .out (.getSize 4) := ⟨_, rfl, rfl⟩
  obtain ⟨s, hs, hl⟩ := hex
  refine ⟨_, s, Run.of_exec hs fun e he => ?_, hl⟩
  have hmem := mem_traceOf he
  simp only [putAndGet, List.mem_cons, List.not_mem_nil, or_false] at hmem
  rcases hmem with h | h <;> rw [h]
  · exact ⟨rfl, .of_call (by simp) (by simp) (by simp) (by simp)⟩
  · exact ⟨rfl, .of_call (by simp) (by simp) (by simp) (by simp)⟩

theorem calls_come_to_rest_putAndGet :
    ∃ tr₁ s₁, SystemRun (fun _ l => Faultless l ∧ Allowed {0, 1} {1} {4} l)
        (System.fresh oneServer) tr₁ s₁ ∧ s₁.locals 1 = .out (.getSize 4) ∧
      Terminates System.step (fun _ l => Faultless l ∧ Winding l) s₁ fun _ s => Resting s := by
  obtain ⟨tr₁, s₁, h₁, hl⟩ := putAndGet_run
  exact ⟨tr₁, s₁, h₁, hl, calls_come_to_rest (fresh_knows (by decide)) (fun _ => rfl) h₁⟩

end ReplicatedStore
