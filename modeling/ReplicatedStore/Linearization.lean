/-
The store is linearizable in runs without failures.

A put takes effect when its lock phase ends: at that moment every registered server is
locked, and a reader that goes on to read has tested the lock bit before.  What such a
reader finds is the value of its key at some moment since it was called, also at a server
that has been removed or is being filled again.  A server that is not registered keeps
what it held when it was removed, or what a transfer has put in since, and at an open
server that is registered the reader finds the map of that moment; a write it still sees
has taken effect.
-/
import ReplicatedStore.Agreement
import ReplicatedStore.Barrier
import ReplicatedStore.Lib.Linearizability

namespace ReplicatedStore

open Lib
open Lib.Linearizability (Linearization Linearizable Pending Cut Grows Responded replay)

/-! ## The replicas -/

/-- The servers that the section has locked so far. -/
def Inside.Shut (v : View) : Inside → Prop
  | .lock _ l => l.Swept (fun id v => v.isLocked id = true) v
  | .write _ _ _ => ∀ id ∈ v.servers, v.isLocked id = true
  | _ => True

/-- What holds of the replicas while `serversLock` is free.  No server, registered or not,
has a key that the map lacks. -/
structure View.Serves (m : Data) (v : View) : Prop where
  store : v.Store m
  covered : ∀ id, Covered (v.data id) m

/-- And inside. -/
structure Inside.Serves (m : Data) (v : View) (i : Inside) : Prop where
  replicates : i.Replicates m v
  covered : ∀ id, Covered (v.data id) m
  shut : i.Shut v
  transfers : ∀ id rpc, i ≠ .registerFirst id rpc

variable {m : Data} {c : CallId} {v v' : View}

theorem Inside.Replicates.store {i : Inside} (h : i.Replicates m v)
    (hi : ∀ k x l, i ≠ .write k x l) : v.Store m := by
  cases i with
  | write k x l => exact absurd rfl (hi k x l)
  | transfer id rpc sender a => exact h.1
  | unlock w l =>
    cases w with
    | put k x => exact h
    | addServer id rpc sender => exact h.1
  | register id rpc => exact h.1
  | _ => exact h

/-- A registered server that is open holds the map. -/
theorem Inside.Serves.data_eq {i : Inside} (h : i.Serves m v) {id : ServerId}
    (hid : id ∈ v.servers) (hopen : v.isLocked id = false) : v.data id = m := by
  by_cases hi : ∃ k x l, i = .write k x l
  · obtain ⟨k, x, l, rfl⟩ := hi
    have hlocked := h.shut id hid
    rw [hopen] at hlocked
    cases hlocked
  · exact h.replicates.store (fun k x l e => hi ⟨k, x, l, e⟩) id hid

theorem Block.serves {b : Block} (h : v.Serves m) (hb : ∀ id rpc, b ≠ .registerFirst id rpc) :
    b.start.Serves m v := by
  refine ⟨b.replicates h.store, h.covered, ?_, fun id rpc e => ?_⟩
  · cases b with
    | withLock w => exact Loop.start_swept (fun id v => v.isLocked id = true) v
    | _ => exact trivial
  · cases b with
    | registerFirst id rpc => exact hb id rpc rfl
    | _ => cases e

/-- A server changes only by taking over a binding of the map. -/
theorem Inside.Move.lookup {i : Inside} {a : Act} {r : Inside ⊕ Outside}
    (h : Inside.Move c v i a v' r) (hi : i.Replicates m v) (id : ServerId) (k : Key) :
    (v'.data id).lookup k = (v.data id).lookup k ∨
      (v'.data id).lookup k = (i.commit m a).lookup k := by
  have hput : ∀ {id' : ServerId} {d : Data} {k' : Key} {x : Val}, m.lookup k' = some x →
      ((v.setData id' ((v.data id').insert k' x)).data id).lookup k = (v.data id).lookup k ∨
        ((v.setData id' ((v.data id').insert k' x)).data id).lookup k = m.lookup k := by
    intro id' d k' x hx
    by_cases he : id = id'
    · subst he
      by_cases hk : k = k'
      · subst hk
        exact .inr (by simp [hx])
      · exact .inl (by simp [hk])
    · exact .inl (by rw [View.setData_data_of_ne _ he])
  cases h with
  | lock h => exact .inl (by rw [h.data_eq fun k x => by simp])
  | unlock h => exact .inl (by rw [h.data_eq fun k x => by simp])
  | @write k' x l a v' f h =>
    cases h with
    | @exec todo id' att _ _ =>
      obtain ⟨hwithin, hd, _⟩ := hi
      cases att.state with
      | sent =>
        rw [Method.effect_sent_put]
        refine hput (d := m) ?_
        rw [← hd id' hwithin.mem_servers]
        simp
      | notifying => exact .inl rfl
      | executed => exact .inl rfl
    | _ => exact .inl rfl
  | @send id' rpc sender n p p' b v' _ h =>
    obtain ⟨hst, hs, _, hp⟩ := hi
    have hm : v.data sender = m := hst sender hs
    rcases h.data (by rw [hm]; exact hp) with rfl | ⟨k', x, hx, rfl⟩
    · exact .inl rfl
    · exact hput (d := m) (hm ▸ hx)
  | _ => exact .inl rfl

/-- A server that is removed holds the map. -/
theorem Inside.Move.removed {i : Inside} {a : Act} {r : Inside ⊕ Outside}
    (h : Inside.Move c v i a v' r) (hi : i.Replicates m v) {id : ServerId}
    (hid : id ∈ v.servers) (hn : id ∉ v'.servers) : v'.data id = i.commit m a := by
  obtain ⟨rfl, rfl | ⟨next, rfl⟩⟩ := h.removes hid hn
  · cases h
    exact hi id hid
  · cases h
    exact hi id hid

theorem Covered.commit {d : Data} (h : Covered d m) (i : Inside) (a : Act) :
    Covered d (i.commit m a) := by
  unfold Inside.commit
  split
  · exact h.mono_insert _ _
  · exact h

theorem Inside.Move.shut {i i' : Inside} {a : Act} (h : Inside.Move c v i a v' (.inl i'))
    (hi : i.Shut v) (ha : a.faulty = false) : i'.Shut v' := by
  generalize hr : (Sum.inl i' : Inside ⊕ Outside) = r at h
  cases h with
  | @lock w l a v' f h =>
    obtain rfl := Sum.inl.inj hr
    have hswept : l.Swept (fun id v => v.isLocked id = true) v := hi
    cases f with
    | again l' =>
      show l'.Swept (fun id v => v.isLocked id = true) v'
      refine h.swept (fun id hid => h.lock_keeps hid) ?_ ?_ hswept
      · rintro todo id att - - - rfl
        exact View.setLocked_isLocked_self ..
      · rintro _ todo id att - (rfl | rfl) _ <;> cases ha
    | done =>
      obtain ⟨rfl, rfl⟩ := h.done_inv
      cases w with
      | put k x => exact Loop.swept_done hswept
      | addServer id rpc sender => exact trivial
    | raised => exact trivial
  | @write k x l a v' f h =>
    obtain rfl := Sum.inl.inj hr
    cases f with
    | again l' =>
      obtain ⟨hs, hl⟩ := (Inside.Move.write h).isLocked_of_writing rfl
      intro id hid
      rw [hl]
      exact hi id (hs ▸ hid)
    | done => exact trivial
    | raised => exact trivial
  | @unlock w l a v' f h =>
    obtain rfl := Sum.inl.inj hr
    cases w <;> cases f <;> exact trivial
  | @senderGone id rpc sender n _ =>
    obtain rfl := Sum.inl.inj hr
    rcases Transfer.failed_cases id rpc sender ⟨n, .lookup⟩ with ⟨_, e⟩ | ⟨_, e⟩ <;> rw [e] <;>
      exact trivial
  | @transferThrow id rpc sender n p _ =>
    obtain rfl := Sum.inl.inj hr
    rcases Transfer.failed_cases id rpc sender ⟨n, .remote p⟩ with ⟨_, e⟩ | ⟨_, e⟩ <;> rw [e] <;>
      exact trivial
  | leave => cases hr
  | _ =>
    obtain rfl := Sum.inl.inj hr
    exact trivial

/-- A step of a section without failures. -/
theorem Inside.Move.serves {i : Inside} {a : Act} {r : Inside ⊕ Outside}
    (h : Inside.Move c v i a v' r) (hi : i.Serves m v) (ha : a.faulty = false) :
    (∀ i', r = .inl i' → i'.Serves (i.commit m a) v') ∧ (∀ w, r = .inr w → v'.Serves m) := by
  have hcov : ∀ id, Covered (v'.data id) (i.commit m a) := by
    intro id k hk
    rcases h.lookup hi.replicates id k with he | he
    · rw [he]
      exact (hi.covered id).commit i a k hk
    · rw [he]
      exact hk
  have hrep := h.replicates hi.replicates ha (fun id rpc e => absurd e (hi.transfers id rpc))
    fun id rpc _ => hi.covered id
  constructor
  · rintro i' rfl
    exact ⟨hrep.1 i' rfl, hcov, h.shut hi.shut ha, h.not_registerFirst⟩
  · rintro w rfl
    obtain ⟨e, rfl, rfl, rfl, rfl⟩ := h.leave_inv
    exact ⟨hrep.2 _ rfl, hi.covered⟩

/-! ## Histories -/

/-- The operations of the clients. -/
inductive StoreOp
  | put (key : Key) (value : Val)
  | get (key : Key)

def StoreOp.toOp : StoreOp → Op
  | .put k x => .put k x
  | .get k => .get k

/-- One map that answers them. -/
def StoreOp.apply (m : Data) : StoreOp → Data × Reply
  | .put k x => (m.insert k x, .success k x)
  | .get k => (m, readKey k (m.lookup k))

abbrev StoreHistory := Linearizability.History CallId StoreOp Reply

abbrev StoreEntry := Linearizability.Entry CallId StoreOp Reply

/-- What a step adds to the history: the call of a `put` or a `get`, or the end of one
that returns `Success k=v`, `k:v` or `ERR_KEY`. -/
def System.event (s : System) : Label → Option (Linearizability.Event CallId StoreOp Reply)
  | .run c (.call (.put k x)) => some (.inv c (.put k x))
  | .run c (.call (.get k)) => some (.inv c (.get k))
  | .run c a =>
    match (System.step s (.run c a)).bind fun s' => s'.outcome c with
    | some (.returned y) => if y.ofStore then some (.res c y) else none
    | _ => none
  | _ => none

def history (tr : Trace) : StoreHistory := tr.filterMap fun e => e.1.event e.2

theorem history_snoc (tr : Trace) (s : System) (l : Label) :
    history (tr ++ [(s, l)]) = history tr ++ (s.event l).toList := by
  unfold history
  rw [List.filterMap_append]
  cases h : s.event l <;> simp [h]

theorem System.event_eq_none {s s' : System} {a : Act} (hs : System.step s (.run c a) = some s')
    (hput : ∀ k x, a ≠ .call (.put k x)) (hget : ∀ k, a ≠ .call (.get k))
    (hy : ∀ y, s'.locals c = .out (.finished (.returned y)) → y.ofStore = false) :
    s.event (.run c a) = none := by
  have hnone : (match s'.outcome c with
      | some (.returned y) => if y.ofStore then some (Linearizability.Event.res c y) else none
      | _ => (none : Option (Linearizability.Event CallId StoreOp Reply))) = none := by
    cases ho : s'.outcome c with
    | none => rfl
    | some o =>
      cases o with
      | returned y => simp [hy y (System.outcome_eq ho)]
      | threw e => rfl
  cases a with
  | call op =>
    cases op with
    | put k x => exact absurd rfl (hput k x)
    | get k => exact absurd rfl (hget k)
    | _ => simpa [System.event, hs] using hnone
  | _ => simpa [System.event, hs] using hnone

theorem System.event_eq_res {s s' : System} {a : Act} {y : Reply}
    (hs : System.step s (.run c a) = some s') (ha : ∀ op, a ≠ .call op)
    (hy : s'.locals c = .out (.finished (.returned y))) (hstore : y.ofStore = true) :
    s.event (.run c a) = some (.res c y) := by
  have ho : s'.outcome c = some (.returned y) := by rw [System.outcome, hy]
  cases a with
  | call op => exact absurd rfl (ha op)
  | _ => simp [System.event, hs, ho, hstore]

/-! ## Calls in progress -/

variable {h h' : StoreHistory} {l l' : List StoreEntry}

/-- The call `c`, a `get(k)`, may return what it finds under `k`. -/
def Readable (m : Data) (h : StoreHistory) (l : List StoreEntry) (c : CallId) (k : Key)
    (x : Option Val) : Prop :=
  Cut StoreOp.apply m h l c fun m => m.lookup k = x

/-- What is known of a call at its program point. -/
def Tracked (m : Data) (h : StoreHistory) (l : List StoreEntry) (v : View) (c : CallId) :
    Monitor.Local Outside Inside → Prop
  | .out .idle => (∀ o, Linearizability.Event.inv c o ∉ h) ∧ ¬ Responded h c
  | .out (.synchronized (.withLock (.put k x))) => Pending h l c (.put k x)
  | .out (.synchronized (.registerFirst _ _)) => False
  | .out (.getSize k) | .out (.getKeys k _) | .out (.getCheck k _) | .out (.getLookup k _) =>
      Pending h l c (.get k)
  | .out (.remote (.get k) id r) => Pending h l c (.get k) ∧ r.prints = false ∧
      (r = .passed ∨ id ∉ v.servers → Readable m h l c k ((v.data id).lookup k)) ∧
      ∀ y, r = .answered y → ∃ x, y = readKey k x ∧ Readable m h l c k x
  | .out (.remote .printKVPairs _ r) => ∀ y, r = .answered y → y.ofStore = false
  | .inn (.lock (.put k x) _) => Pending h l c (.put k x)
  | .inn (.write k x _) | .inn (.unlock (.put k x) _) => ⟨c, .put k x, .success k x⟩ ∈ l
  | .inn (.leave (.finish (.returned y))) => y.ofStore = true → ∃ o, ⟨c, o, y⟩ ∈ l
  | _ => True

/-- What steps of others do to a call in progress, when the servers take over bindings
of the map, and are removed only when they hold it. -/
theorem Tracked.grow {lo : Monitor.Local Outside Inside} (ht : Tracked m h l v c lo)
    (hg : Grows StoreOp.apply m h l h' l' c)
    (hlookup : ∀ id k, (v'.data id).lookup k = (v.data id).lookup k ∨
      (v'.data id).lookup k = (replay StoreOp.apply m l').lookup k)
    (hremoved : ∀ id, id ∈ v.servers → id ∉ v'.servers →
      v'.data id = replay StoreOp.apply m l') : Tracked m h' l' v' c lo := by
  have hread : ∀ {id k}, Readable m h l c k ((v.data id).lookup k) →
      Readable m h' l' c k ((v'.data id).lookup k) := by
    intro id k hr
    rcases hlookup id k with he | he
    · rw [he]
      exact hg.cut _ hr
    · exact .now he.symm
  cases lo with
  | inn i =>
    cases i with
    | lock w l =>
      cases w with
      | put k x => exact Pending.grow ht hg
      | addServer id rpc sender => exact trivial
    | unlock w l =>
      cases w with
      | put k x => exact hg.mem _ ht
      | addServer id rpc sender => exact trivial
    | write k x l => exact hg.mem _ ht
    | leave e =>
      cases e with
      | finish o =>
        cases o with
        | returned y =>
          intro hy
          obtain ⟨o, ho⟩ := ht hy
          exact ⟨o, hg.mem _ ho⟩
        | threw e => exact trivial
      | resume next => exact trivial
    | _ => exact trivial
  | out w =>
    cases w with
    | idle => exact ⟨fun o ho => ht.1 o ((hg.invoked o).mp ho), fun hr => ht.2 (hg.active hr)⟩
    | synchronized b =>
      cases b with
      | withLock w =>
        cases w with
        | put k x => exact Pending.grow ht hg
        | addServer id rpc sender => exact trivial
      | registerFirst id rpc => exact ht
      | _ => exact trivial
    | getSize k => exact Pending.grow ht hg
    | getKeys k i => exact Pending.grow ht hg
    | getCheck k id => exact Pending.grow ht hg
    | getLookup k id => exact Pending.grow ht hg
    | remote q id r =>
      cases q with
      | get k =>
        obtain ⟨hp, hr, hcut, hans⟩ := ht
        refine ⟨hp.grow hg, hr, fun hor => ?_, fun y hy => ?_⟩
        · by_cases hid : r = .passed ∨ id ∉ v.servers
          · exact hread (hcut hid)
          · obtain ⟨hr', hid⟩ := not_or.mp hid
            have hgone : id ∉ v'.servers := hor.resolve_left hr'
            exact .now (by rw [hremoved id (not_not.mp hid) hgone])
        · obtain ⟨x, hx, hc⟩ := hans y hy
          exact ⟨x, hx, hg.cut _ hc⟩
      | printKVPairs => exact ht
    | _ => exact trivial

/-- A step of a call outside `serversLock`, if it is not the call of a `put` or a `get`. -/
theorem Outside.Move.tracked {w w' : Outside} {a : Act} (hm : Outside.Move c v w a w')
    (ht : Tracked m h l v c (.out w)) (hput : ∀ k x, a ≠ .call (.put k x))
    (hget : ∀ k, a ≠ .call (.get k)) (hne : v.servers.keys.Nonempty)
    (hopen : ∀ id ∈ v.servers, v.isLocked id = false →
      v.data id = replay StoreOp.apply m l) : Tracked m h l v c (.out w') := by
  cases hm with
  | @call op =>
    cases op with
    | put k x => exact absurd rfl (hput k x)
    | get k => exact absurd rfl (hget k)
    | _ => exact trivial
  | size => exact ht
  | keys => exact ht
  | check _ => exact ht
  | lookup hid => exact ⟨ht, rfl, fun hor => absurd hid (hor.resolve_left nofun), nofun⟩
  | print _ => exact nofun
  | @read q id r r' b p p' hd hl hr =>
    cases q with
    | get k =>
      obtain ⟨hp, hprints, hcut, _⟩ := ht
      obtain ⟨hprints', hpassed, hanswered⟩ := ServerRPCImpl.read_get hr hprints
      refine ⟨hp, hprints', fun hor => ?_, fun y hy => ?_⟩
      · by_cases hid : id ∈ v.servers
        · -- the reader has passed an open server
          have hunlocked := hpassed (hor.resolve_right (not_not.mpr hid))
          exact .now (by rw [hopen id hid (hl ▸ hunlocked)])
        · exact hcut (.inr hid)
      · obtain ⟨hr', rfl⟩ := hanswered y hy
        exact ⟨_, by rw [hd], hcut (.inl hr')⟩
    | printKVPairs => exact ServerRPCImpl.read_print hr
  | findsNone hnone =>
    rw [hnone] at hne
    exact absurd hne Finset.not_nonempty_empty
  | @beat w w' a _ hw' => cases w' <;> first | exact trivial | cases hw'
  | _ => exact trivial

/-- A call that returns what a server has answered is a `get`, and the answer is what it
may return. -/
theorem Outside.Move.answers {w : Outside} {a : Act} {y : Reply}
    (hm : Outside.Move c v w a (.finished (.returned y))) (ht : Tracked m h l v c (.out w))
    (hy : y.ofStore = true) :
    ∃ k, Pending h l c (.get k) ∧
      Cut StoreOp.apply m h l c fun m => StoreOp.apply m (.get k) = (m, y) := by
  generalize hw' : Outside.finished (.returned y) = w' at hm
  cases hm with
  | @call op => cases op <;> cases hw'
  | @reply q id y' =>
    obtain rfl := Outcome.returned.inj (Outside.finished.inj hw')
    cases q with
    | get k =>
      obtain ⟨hp, _, _, hans⟩ := ht
      obtain ⟨x, rfl, hc⟩ := hans y rfl
      exact ⟨k, hp, Cut.mono hc fun m hx => by rw [StoreOp.apply, hx]⟩
    | printKVPairs =>
      have hno : y.ofStore = false := ht y rfl
      rw [hno] at hy
      cases hy
  | missing =>
    obtain rfl := Outcome.returned.inj (Outside.finished.inj hw')
    cases hy
  | refuses hor =>
    obtain rfl := Outcome.returned.inj (Outside.finished.inj hw')
    rcases hor with rfl | ⟨message, rfl⟩ <;> cases hy
  | @beat w w' a _ hb =>
    subst hw'
    cases hb
  | _ => cases hw'

/-- A step of a section.  When the lock phase of a put ends, the put takes effect. -/
theorem Inside.Move.tracked {i i' : Inside} {a : Act} (hm : Inside.Move c v i a v' (.inl i'))
    (hl : Linearization StoreOp.apply m h l) (ht : Tracked m h l v c (.inn i)) :
    ∃ l', Linearization StoreOp.apply m h l' ∧
      replay StoreOp.apply m l' = i.commit (replay StoreOp.apply m l) a ∧
      (∀ d, d ≠ c → Grows StoreOp.apply m h l h l' d) ∧ Tracked m h l' v' c (.inn i') := by
  have hsame : i.commit (replay StoreOp.apply m l) a = replay StoreOp.apply m l →
      Tracked m h l v' c (.inn i') → ∃ l', Linearization StoreOp.apply m h l' ∧
        replay StoreOp.apply m l' = i.commit (replay StoreOp.apply m l) a ∧
        (∀ d, d ≠ c → Grows StoreOp.apply m h l h l' d) ∧ Tracked m h l' v' c (.inn i') :=
    fun hc ht' => ⟨l, hl, hc.symm, fun d _ => .refl, ht'⟩
  generalize hr : (Sum.inl i' : Inside ⊕ Outside) = r at hm
  cases hm with
  | @lock w lo a v' f hlo =>
    obtain rfl := Sum.inl.inj hr
    cases w with
    | put k x =>
      cases f with
      | again lo' => exact hsame hlo.commit_again ht
      | done =>
        obtain ⟨rfl, rfl⟩ := hlo.done_inv
        cases hlo
        have hp : Pending h l c (.put k x) := ht
        obtain ⟨hl', hext⟩ := hl.append hp rfl
        refine ⟨_, hl', ?_, fun d hd => .extend hext hd, ?_⟩
        · rw [Linearizability.replay_append]
          rfl
        · exact (hext.mem _).mpr (.inl rfl)
      | raised => cases hlo.raised_inv.1
    | addServer id rpc sender => exact hsame rfl (by cases f <;> exact trivial)
  | @write k x lo a v' f _ =>
    obtain rfl := Sum.inl.inj hr
    refine hsame rfl ?_
    cases f with
    | raised => exact trivial
    | _ => exact ht
  | @unlock w lo a v' f _ =>
    obtain rfl := Sum.inl.inj hr
    refine hsame rfl ?_
    cases w with
    | put k x =>
      cases f with
      | again lo' => exact ht
      | done => exact fun _ => ⟨_, ht⟩
      | raised => exact trivial
    | addServer id rpc sender => cases f <;> exact trivial
  | @senderGone id rpc sender n _ =>
    obtain rfl := Sum.inl.inj hr
    refine hsame rfl ?_
    rcases Transfer.failed_cases id rpc sender ⟨n, .lookup⟩ with ⟨_, e⟩ | ⟨_, e⟩ <;> rw [e] <;>
      exact trivial
  | @transferThrow id rpc sender n p _ =>
    obtain rfl := Sum.inl.inj hr
    refine hsame rfl ?_
    rcases Transfer.failed_cases id rpc sender ⟨n, .remote p⟩ with ⟨_, e⟩ | ⟨_, e⟩ <;> rw [e] <;>
      exact trivial
  | listServer y hy =>
    obtain rfl := Sum.inl.inj hr
    refine hsame rfl fun hstore => ?_
    rw [hy] at hstore
    cases hstore
  | leave => cases hr
  | _ =>
    obtain rfl := Sum.inl.inj hr
    first
      | exact hsame rfl trivial
      | exact hsame rfl nofun

/-! ## Steps of the system -/

/-- The list `l` linearizes the history so far, the replicas hold the map it leads to, and
the calls in progress can be put into it. -/
structure Linearized (m : Data) (tr : Trace) (l : List StoreEntry) (s : System) : Prop where
  linear : Linearization StoreOp.apply m (history tr) l
  free : s.lock = none → s.shared.view.Serves (replay StoreOp.apply m l)
  held : ∀ c i, s.locals c = .inn i → i.Serves (replay StoreOp.apply m l) s.shared.view
  calls : ∀ c, Tracked m (history tr) l s.shared.view c (s.locals c)

/-- A registered server that is open holds the map. -/
theorem Linearized.data_eq {tr : Trace} {s : System} (hs : Linearized m tr l s)
    (hx : Monitor.Exclusive s) {id : ServerId} (hid : id ∈ s.shared.view.servers)
    (hopen : s.shared.view.isLocked id = false) :
    s.shared.view.data id = replay StoreOp.apply m l := by
  cases hlock : s.lock with
  | none => exact (hs.free hlock).store id hid
  | some t =>
    obtain ⟨i, hi⟩ := (hx t).mp hlock
    exact (hs.held t i hi).data_eq hid hopen

/-- A step of `c` outside the lock, which may be recorded and may put `c` into the list. -/
theorem Linearized.outside {tr : Trace} {s : System} {a : Act} {w w' : Outside} {cl : Cluster}
    (hs : Linearized m tr l s) (hl : s.locals c = .out w) (hview : cl.view = s.shared.view)
    (hlinear : Linearization StoreOp.apply m (history (tr ++ [(s, .run c a)])) l')
    (hreplay : replay StoreOp.apply m l' = replay StoreOp.apply m l)
    (hgrow : ∀ d, d ≠ c →
      Grows StoreOp.apply m (history tr) l (history (tr ++ [(s, .run c a)])) l' d)
    (hself : Tracked m (history (tr ++ [(s, .run c a)])) l' s.shared.view c (.out w')) :
    Linearized m (tr ++ [(s, .run c a)]) l'
      { s with shared := cl, locals := Function.update s.locals c (.out w') } := by
  refine ⟨hlinear, fun hlock => ?_, fun d i hd => ?_, ?_⟩
  · show cl.view.Serves _
    rw [hview, hreplay]
    exact hs.free hlock
  · by_cases hdc : d = c
    · subst hdc
      simp [Function.update_self] at hd
    · show i.Serves _ cl.view
      rw [hview, hreplay]
      exact hs.held d i (by simpa [Function.update_of_ne hdc] using hd)
  · refine (Function.forall_update_iff s.locals fun d lo => Tracked m _ l' cl.view d lo).mpr ?_
    rw [hview]
    refine ⟨hself, fun d hdc => ?_⟩
    exact (hs.calls d).grow (hgrow d hdc) (fun _ _ => .inl rfl) fun _ h h' => absurd h h'

/-- The call of a `put` or a `get`. -/
theorem Linearized.call {tr : Trace} {s : System} {o : StoreOp} (hs : Linearized m tr l s)
    (hl : s.locals c = .out .idle) :
    Linearization StoreOp.apply m (history tr ++ [.inv c o]) l ∧
      Pending (history tr ++ [.inv c o]) l c o := by
  have hidle := hs.calls c
  rw [hl] at hidle
  obtain ⟨hfresh, hactive⟩ := hidle
  refine ⟨hs.linear.invoke hfresh, List.mem_append_right _ (List.mem_singleton_self _), ?_, ?_⟩
  · rintro ⟨r, hr⟩
    rcases List.mem_append.mp hr with hr | hr
    · exact hactive ⟨r, hr⟩
    · cases List.mem_singleton.mp hr
  · rintro e he rfl
    exact hfresh e.op (hs.linear.invoked e he)

/-- The answer of a `get`, which is put in where it finds what it has read. -/
theorem Linearized.answer {tr : Trace} {s : System} {k : Key} {y : Reply}
    (hs : Linearized m tr l s) (hp : Pending (history tr) l c (.get k))
    (hcut : Cut StoreOp.apply m (history tr) l c fun m => StoreOp.apply m (.get k) = (m, y)) :
    ∃ l', Linearization StoreOp.apply m (history tr ++ [.res c y]) l' ∧
      replay StoreOp.apply m l' = replay StoreOp.apply m l ∧
      ∀ d, d ≠ c → Grows StoreOp.apply m (history tr) l (history tr ++ [.res c y]) l' d := by
  obtain ⟨l', hl', hreplay, hext⟩ := hs.linear.place hp hcut
  refine ⟨l', hl'.respond ((hext.mem _).mpr (.inl rfl)), hreplay, fun d hd => ?_⟩
  exact (Grows.extend hext hd).trans (.respond hd)

theorem Linearized.outside_step {tr : Trace} {s : System} {a : Act} {w w' : Outside}
    {cl : Cluster} (hs : Linearized m tr l s) (hx : Monitor.Exclusive s)
    (hne : s.shared.servers.keys.Nonempty) (hl : s.locals c = .out w)
    (ho : w.step c s.shared a = some (cl, w'))
    (hstep : System.step s (.run c a) =
      some { s with shared := cl, locals := Function.update s.locals c (.out w') }) :
    ∃ l', Linearized m (tr ++ [(s, .run c a)]) l'
      { s with shared := cl, locals := Function.update s.locals c (.out w') } := by
  have hview := Outside.step_view ho
  have hmove := Outside.Move.of_step ho
  have hself := hs.calls c
  rw [hl] at hself
  have hlast : (Function.update s.locals c (.out w')) c = Monitor.Local.out w' :=
    Function.update_self ..
  by_cases hcall : ∃ o : StoreOp, a = .call o.toOp
  · -- the call is recorded
    obtain ⟨o, rfl⟩ := hcall
    obtain ⟨hidle, _, hstart⟩ := call_start (Monitor.Step.of_step frontend hstep)
    obtain rfl := Monitor.Local.out.inj (hlast.symm.trans hstart)
    obtain ⟨hlinear, hp⟩ := hs.call (o := o) hidle
    have hh : history (tr ++ [(s, .run c (.call o.toOp))]) = history tr ++ [.inv c o] := by
      rw [history_snoc]
      cases o <;> rfl
    refine ⟨l, hs.outside hl hview (by rwa [hh]) rfl (fun d hd => ?_) ?_⟩
    · rw [hh]
      exact .invoke hd
    · rw [hh]
      cases o <;> exact hp
  · have hput : ∀ k x, a ≠ .call (.put k x) := fun k x e => hcall ⟨.put k x, e⟩
    have hget : ∀ k, a ≠ .call (.get k) := fun k e => hcall ⟨.get k, e⟩
    by_cases hans : ∃ y, w' = .finished (.returned y) ∧ y.ofStore = true
    · -- an answer is recorded, and the `get` is put into the list
      obtain ⟨y, rfl, hy⟩ := hans
      obtain ⟨k, hp, hcut⟩ := hmove.answers hself hy
      obtain ⟨l', hlinear, hreplay, hgrow⟩ := hs.answer hp hcut
      have hnot : ∀ op, a ≠ .call op := by
        rintro op rfl
        have hstart := (call_start (Monitor.Step.of_step frontend hstep)).2.2
        have := Monitor.Local.out.inj (hlast.symm.trans hstart)
        cases op <;> cases this
      have hh : history (tr ++ [(s, .run c a)]) = history tr ++ [.res c y] := by
        rw [history_snoc, System.event_eq_res hstep hnot hlast hy]
        rfl
      exact ⟨l', hs.outside hl hview (by rwa [hh]) hreplay (by rwa [hh]) trivial⟩
    · have hh : history (tr ++ [(s, .run c a)]) = history tr := by
        rw [history_snoc, System.event_eq_none hstep hput hget fun y hy => ?_]
        · exact List.append_nil _
        · have := Monitor.Local.out.inj (hlast.symm.trans hy)
          by_contra hstore
          exact hans ⟨y, this, by simpa using hstore⟩
      refine ⟨l, hs.outside hl hview (by rw [hh]; exact hs.linear) rfl (fun d _ => ?_) ?_⟩
      · rw [hh]
        exact .refl
      · rw [hh]
        exact hmove.tracked hself hput hget hne fun id hid hopen => hs.data_eq hx hid hopen

theorem Linearized.inside_step {tr : Trace} {s : System} {a : Act} {i i' : Inside}
    {cl : Cluster} (hs : Linearized m tr l s) (hx : Monitor.Exclusive s) (hf : a.faulty = false)
    (hl : s.locals c = .inn i) (hi : i.step c s.shared a = some (cl, .inl i'))
    (hstep : System.step s (.run c a) =
      some { s with shared := cl, locals := Function.update s.locals c (.inn i') }) :
    ∃ l', Linearized m (tr ++ [(s, .run c a)]) l'
      { s with shared := cl, locals := Function.update s.locals c (.inn i') } := by
  have hx' := (Monitor.Step.of_step frontend hstep).exclusive _ hx
  have hmove := Inside.Move.of_step hi
  have hself := hs.calls c
  rw [hl] at hself
  have hlast : (Function.update s.locals c (.inn i')) c = Monitor.Local.inn i' :=
    Function.update_self ..
  have hh : history (tr ++ [(s, .run c a)]) = history tr := by
    rw [history_snoc, System.event_eq_none hstep (fun k x => hmove.not_call _)
      (fun k => hmove.not_call _) fun y hy => ?_]
    · exact List.append_nil _
    · cases hlast.symm.trans hy
  obtain ⟨l', hlinear, hreplay, hgrow, hself'⟩ := hmove.tracked hs.linear hself
  have hserves := hs.held c i hl
  have hserves' := (hmove.serves hserves hf).1 i' rfl
  rw [← hreplay] at hserves'
  refine ⟨l', by rw [hh]; exact hlinear, fun hlock => ?_, fun d j hj => ?_, ?_⟩
  · have hheld : s.lock = some c := (hx c).mpr ⟨i, hl⟩
    rw [hheld] at hlock
    cases hlock
  · obtain rfl : d = c := hx'.eq_of_inn hj hlast
    obtain rfl := Monitor.Local.inn.inj (hlast.symm.trans hj)
    exact hserves'
  · rw [hh]
    refine (Function.forall_update_iff s.locals fun d lo => Tracked m _ l' cl.view d lo).mpr
      ⟨hself', fun d hdc => ?_⟩
    refine (hs.calls d).grow (hgrow d hdc) (fun id k => ?_) fun id hid hn => ?_
    · rw [hreplay]
      exact hmove.lookup hserves.replicates id k
    · rw [hreplay]
      exact hmove.removed hserves.replicates hid hn

/-- A call that leaves its section with an answer has been put into the list before. -/
theorem Linearized.leave {tr : Trace} {s : System} {e : Exit} {s' : System}
    (hs : Linearized m tr l s) (hl : s.locals c = .inn (.leave e))
    (hstep : System.step s (.run c .step) = some s') (hl' : s'.locals c = .out e.point) :
    Linearization StoreOp.apply m (history (tr ++ [(s, .run c .step)])) l ∧
      ∀ d, d ≠ c → Grows StoreOp.apply m (history tr) l
        (history (tr ++ [(s, .run c .step)])) l d := by
  have hself := hs.calls c
  rw [hl] at hself
  by_cases hans : ∃ y, e.point = .finished (.returned y) ∧ y.ofStore = true
  · obtain ⟨y, he, hy⟩ := hans
    obtain rfl : e = .finish (.returned y) := by
      cases e with
      | finish o => exact congrArg _ (Outside.finished.inj he)
      | resume next => cases he
    obtain ⟨o, ho⟩ := hself hy
    have hh : history (tr ++ [(s, .run c .step)]) = history tr ++ [.res c y] := by
      rw [history_snoc, System.event_eq_res hstep nofun hl' hy]
      rfl
    rw [hh]
    exact ⟨hs.linear.respond ho, fun d hd => .respond hd⟩
  · have hh : history (tr ++ [(s, .run c .step)]) = history tr := by
      rw [history_snoc, System.event_eq_none hstep nofun nofun fun y hy => ?_]
      · exact List.append_nil _
      · have := Monitor.Local.out.inj (hl'.symm.trans hy)
        by_contra hstore
        exact hans ⟨y, this, by simpa using hstore⟩
    rw [hh]
    exact ⟨hs.linear, fun d _ => .refl⟩

theorem Linearized.leave_step {tr : Trace} {s : System} {a : Act} {i : Inside} {w : Outside}
    {cl : Cluster} (hs : Linearized m tr l s) (hx : Monitor.Exclusive s) (hf : a.faulty = false)
    (hl : s.locals c = .inn i) (hi : i.step c s.shared a = some (cl, .inr w))
    (hstep : System.step s (.run c a) =
      some ⟨none, cl, Function.update s.locals c (.out w)⟩) :
    Linearized m (tr ++ [(s, .run c a)]) l ⟨none, cl, Function.update s.locals c (.out w)⟩ := by
  have hx' := (Monitor.Step.of_step frontend hstep).exclusive _ hx
  have hmove := Inside.Move.of_step hi
  have hserves' := (hmove.serves (hs.held c i hl) hf).2 w rfl
  obtain ⟨e, rfl, rfl, rfl, hview⟩ := hmove.leave_inv
  obtain ⟨hlinear, hgrow⟩ := hs.leave hl hstep (Function.update_self ..)
  refine ⟨hlinear, fun _ => hserves', fun d j hj => absurd hj (hx'.not_inn rfl), ?_⟩
  refine (Function.forall_update_iff s.locals fun d lo => Tracked m _ l cl.view d lo).mpr
    ⟨?_, fun d hdc => ?_⟩
  · cases e <;> exact trivial
  · rw [hview]
    exact (hs.calls d).grow (hgrow d hdc) (fun _ _ => .inl rfl) fun _ h h' => absurd h h'

theorem Linearized.enter_step {tr : Trace} {s : System} {b : Block} (hs : Linearized m tr l s)
    (hx : Monitor.Exclusive s) (hl : s.locals c = .out (.synchronized b)) (hlock : s.lock = none)
    (hstep : System.step s (.enter c) =
      some { s with lock := some c, locals := Function.update s.locals c (.inn b.start) }) :
    Linearized m (tr ++ [(s, .enter c)]) l
      { s with lock := some c, locals := Function.update s.locals c (.inn b.start) } := by
  have hx' := (Monitor.Step.of_step frontend hstep).exclusive _ hx
  have hself := hs.calls c
  rw [hl] at hself
  have hlast : (Function.update s.locals c (.inn b.start)) c = Monitor.Local.inn b.start :=
    Function.update_self ..
  have hh : history (tr ++ [(s, .enter c)]) = history tr := by
    rw [history_snoc]
    exact List.append_nil _
  have hfirst : ∀ id rpc, b ≠ .registerFirst id rpc := by
    rintro id rpc rfl
    exact hself
  refine ⟨by rw [hh]; exact hs.linear, nofun, fun d j hj => ?_, ?_⟩
  · obtain rfl : d = c := hx'.eq_of_inn hj hlast
    obtain rfl := Monitor.Local.inn.inj (hlast.symm.trans hj)
    exact Block.serves (hs.free hlock) hfirst
  · rw [hh]
    refine (Function.forall_update_iff s.locals fun d lo => Tracked m _ l s.shared.view d lo).mpr
      ⟨?_, fun d _ => hs.calls d⟩
    cases b with
    | withLock w =>
      cases w with
      | put k x => exact hself
      | addServer id rpc sender => exact trivial
    | _ => exact trivial

theorem Linearized.step {tr : Trace} {s s' : System} {lab : Label} (hs : Linearized m tr l s)
    (hx : Monitor.Exclusive s) (hf : Faultless lab) (hne : s.shared.servers.keys.Nonempty)
    (hstep : System.step s lab = some s') : ∃ l', Linearized m (tr ++ [(s, lab)]) l' s' := by
  have hkind := Monitor.Step.of_step frontend hstep
  cases hkind with
  | outside hl ho => exact hs.outside_step hx hne hl ho hstep
  | inside hl hi => exact hs.inside_step hx hf hl hi hstep
  | leave hl hi => exact ⟨l, hs.leave_step hx hf hl hi hstep⟩
  | enter hl he hlock =>
    obtain ⟨b, rfl, rfl⟩ := Outside.entry_eq_some he
    exact ⟨l, hs.enter_step hx hl hlock hstep⟩
  | env _ => exact absurd hf (fun h => h)

/-! ## Runs -/

/-- Every answer that a client gets from the store is in the history. -/
theorem answer_recorded {ok : System → Label → Prop} {s₀ s : System} {tr : Trace} {y : Reply}
    (h₀ : s₀.locals c = .out .idle) (h : SystemRun ok s₀ tr s)
    (hy : s.locals c = .out (.finished (.returned y))) (hstore : y.ofStore = true) :
    .res c y ∈ history tr := by
  refine h.invariant (I := fun tr s => s.locals c = .out (.finished (.returned y)) →
    .res c y ∈ history tr) (fun hfin => ?_) ?_ hy
  · cases h₀.symm.trans hfin
  · intro tr s lab s' _ _ hs ih hfin
    have hstep := Monitor.Step.of_step frontend hs
    have hold : s.locals c = .out (.finished (.returned y)) →
        .res c y ∈ history (tr ++ [(s, lab)]) := fun hl => by
      rw [history_snoc]
      exact List.mem_append_left _ (ih hl)
    by_cases hthread : lab.thread = some c
    · cases lab with
      | run d a =>
        obtain rfl : d = c := Option.some.inj hthread
        have hnot : ∀ op, a ≠ .call op := by
          rintro op rfl
          have := Monitor.Local.out.inj ((call_start hstep).2.2.symm.trans hfin)
          cases op <;> cases this
        rw [history_snoc, System.event_eq_res hs hnot hfin hstore]
        exact List.mem_append_right _ (List.mem_singleton_self _)
      | enter d =>
        obtain rfl : d = c := Option.some.inj hthread
        cases hl : s.locals d with
        | out w =>
          rcases hstep.of_out hl with ⟨hne, _⟩ | ⟨a, w', hlab, _⟩ | ⟨i, _, _, _, _, h'⟩
          · exact absurd hthread hne
          · cases hlab
          · cases h'.symm.trans hfin
        | inn i =>
          rcases hstep.of_inn hl with ⟨hne, _⟩ | ⟨a, i', hlab, _⟩ | ⟨a, w, hlab, _⟩
          · exact absurd hthread hne
          · cases hlab
          · cases hlab
      | env e => cases hthread
    · exact hold ((hstep.locals_of_ne hthread).symm.trans hfin)

/-- No call is in progress, the registered servers hold the same map, and the others are
empty. -/
structure Ready (m : Data) (s : System) : Prop where
  quiet : Quiet s
  store : ∀ id ∈ s.shared.servers, (s.shared.process id).data = m
  empty : ∀ id, id ∉ s.shared.servers → (s.shared.process id).data = ∅

/-- In a run without failures in which the membership never becomes empty, the history of
the puts and of the gets that return a value or `ERR_KEY` is linearizable: it can be ordered
as a sequence of operations on one map.  Any number of clients and administrators may take
part. -/
theorem store_linearizable {s₀ s : System} {tr : Trace} (h₀ : Ready m s₀)
    (h : SystemRun (fun s l => Faultless l ∧ s.shared.servers.keys.Nonempty) s₀ tr s) :
    Linearizable StoreOp.apply m (history tr) := by
  have hinv : Monitor.Exclusive s ∧ ∃ l, Linearized m tr l s := by
    refine h.invariant (I := fun tr s => Monitor.Exclusive s ∧ ∃ l, Linearized m tr l s)
      ⟨h₀.quiet.exclusive, [], Linearizability.linearization_nil, fun _ => ⟨h₀.store, ?_⟩,
        fun c i hi => absurd hi h₀.quiet.not_inn, fun c => ?_⟩ ?_
    · intro id k hk
      by_cases hid : id ∈ s₀.shared.servers
      · rw [Cluster.view_data, h₀.store id hid]
        exact hk
      · rw [Cluster.view_data, h₀.empty id hid]
        exact Finmap.lookup_empty k
    · rcases h₀.quiet.2 c with hidle | ⟨o, hfin⟩
      · rw [hidle]
        exact ⟨nofun, nofun⟩
      · rw [hfin]
        exact trivial
    · rintro tr s lab s' _ hok hs ⟨hx, l, hI⟩
      exact ⟨(Monitor.Step.of_step frontend hs).exclusive _ hx, hI.step hx hok.1 hok.2 hs⟩
  obtain ⟨_, l, hl⟩ := hinv
  exact ⟨l, hl.linear⟩

/-- Call 0 tests the lock bit of server 1.  Then server 2 joins, and call 0 reads what the
put of call 2 has written to server 1, before server 2 is written.  Server 1 leaves, and
call 4 is served by server 2. -/
def getsAroundPut : List Label :=
  [.run 0 (.call (.get 4)), .run 0 .step, .run 0 .step, .run 0 .step, .run 0 .step,
    .run 0 (.read .step)] ++ joinFrom 1 2 1 [] [1] ++
    [.run 2 (.call (.put 4 7)), .enter 2] ++ loopOn 2 [.run 2 .exec] [1, 2] ++
    [.run 2 .step, .run 2 (.pick 1), .run 2 .exec, .run 0 (.read .step), .run 0 .reply,
      .run 2 .reply, .run 2 (.pick 2), .run 2 .exec, .run 2 .reply, .run 2 .step] ++
    loopOn 2 [.run 2 .exec, .run 2 .exec] [1, 2] ++ [.run 2 .step] ++ shutDown 3 1 ++
    [.run 4 (.call (.get 4)), .run 4 .step, .run 4 .step, .run 4 .step, .run 4 .step,
      .run 4 (.read .step), .run 4 (.read .step), .run 4 .reply]

theorem store_linearizable_getsAroundPut :
    ∃ tr s, SystemRun (fun s l => Faultless l ∧ s.shared.servers.keys.Nonempty)
        (System.fresh oneServer) tr s ∧ s.outcome 0 = some (.returned (.pair 4 7)) ∧
      s.outcome 2 = some (.returned (.success 4 7)) ∧
      s.outcome 4 = some (.returned (.pair 4 7)) ∧
      Linearizable StoreOp.apply ∅ (history tr) := by
  have hex : ((exec System.step (System.fresh oneServer) getsAroundPut).map fun s =>
      (s.outcome 0, s.outcome 2, s.outcome 4)) = some (some (.returned (.pair 4 7)),
        some (.returned (.success 4 7)), some (.returned (.pair 4 7))) := by decide +kernel
  obtain ⟨s, hrun, hs⟩ := Run.exists_of_exec
    (fun s l => Faultless l ∧ s.shared.servers.keys.Nonempty) hex (by decide +kernel)
  simp only [Prod.mk.injEq] at hs
  have hready : Ready ∅ (System.fresh oneServer) :=
    ⟨System.fresh_quiet _, fun _ _ => rfl, fun _ _ => rfl⟩
  exact ⟨_, s, hrun, hs.1, hs.2.1, hs.2.2, store_linearizable hready hrun⟩

end ReplicatedStore
