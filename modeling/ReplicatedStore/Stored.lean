/-
What the answer `Success` of a put means.

The answer is given when the three loops have ended, whatever they ran over: a put that
finds no server registered gives it too.  Otherwise the call has written and then
unlocked every registered server, and each still holds the value and is open unless an
attempt that an earlier retry gave up was executed there after the one that succeeded.
-/
import ReplicatedStore.LateWrites

namespace ReplicatedStore

open Lib

/-! ## Executed switches of the lock bit -/

/-- The lock bit that is set in a step, and the server it is set at. -/
def switched (e : System × Label) : Option (ServerId × Bool) :=
  match e.2 with
  | .run c .exec =>
    match e.1.locals c with
    | .inn (.lock _ (.body _ id ⟨_, .sent⟩)) => some (id, true)
    | .inn (.unlock _ (.body _ id ⟨_, .sent⟩)) => some (id, false)
    | _ => none
  | .env (.deliver n) =>
    match e.1.shared.outstanding[n]? with
    | some ⟨id, .lock, .sent, _⟩ => some (id, true)
    | some ⟨id, .unlock, .sent, _⟩ => some (id, false)
    | _ => none
  | _ => none

/-- The lock bits after a step in which `o` was set, if any. -/
def switchAll (o : Option (ServerId × Bool)) (f : ServerId → Bool) : ServerId → Bool :=
  o.elim f fun x => Function.update f x.1 x.2

theorem switched_eq_none {s : System} {c : CallId} (a : Act)
    (hlock : ∀ w l, s.locals c ≠ .inn (.lock w l))
    (hunlock : ∀ w l, s.locals c ≠ .inn (.unlock w l)) : switched (s, .run c a) = none := by
  cases a with
  | exec =>
    simp only [switched]
    split
    · rename_i hl
      exact absurd hl (hlock _ _)
    · rename_i hl
      exact absurd hl (hunlock _ _)
    · rfl
  | _ => rfl

/-- A write leaves the lock bits alone. -/
theorem Method.effect_put_isLocked (k : Key) (x : Val) (pr : Progress) (id : ServerId)
    (v : View) : ((Method.put k x).effect pr id v).isLocked = v.isLocked := by
  cases pr <;> rfl

theorem Inside.Move.switches {s : System} {c : CallId} {v' : View} {i : Inside} {a : Act}
    {r : Inside ⊕ Outside} (h : Inside.Move c s.shared.view i a v' r)
    (hl : s.locals c = .inn i) :
    v'.isLocked = switchAll (switched (s, .run c a)) s.shared.view.isLocked := by
  cases h with
  | @lock w l a v' f h =>
    cases h with
    | @exec todo id att hc hne =>
      obtain ⟨n, pr⟩ := att
      cases pr with
      | sent => simp [switched, hl, switchAll, View.setLocked]
      | notifying => simp [switched, hl, switchAll]
      | executed => exact absurd rfl hne
    | _ => simp [switched, switchAll]
  | @unlock w l a v' f h =>
    cases h with
    | @exec todo id att hc hne =>
      obtain ⟨n, pr⟩ := att
      cases pr with
      | sent => simp [switched, hl, switchAll, View.setLocked]
      | notifying => simp [switched, hl, switchAll]
      | executed => exact absurd rfl hne
    | _ => simp [switched, switchAll]
  | @write k x l a v' f h =>
    rw [switched_eq_none a (by simp [hl]) (by simp [hl])]
    cases h with
    | exec _ _ => exact Method.effect_put_isLocked _ _ _ _ _
    | _ => rfl
  | @send id rpc sender n p p' b v' hc h =>
    rw [switched_eq_none _ (by simp [hl]) (by simp [hl])]
    exact h.isLocked
  | _ =>
    rw [switched_eq_none _ (by simp [hl]) (by simp [hl])]
    rfl

theorem Event.Move.switches {s : System} {v' : View} {e : Event}
    (h : Event.Move s.shared.view e v') :
    v'.isLocked = switchAll (switched (s, .env e)) s.shared.view.isLocked := by
  cases h with
  | crash => rfl
  | @deliver n q hq hc hne =>
    rw [Cluster.view_outstanding] at hq
    obtain ⟨id, me, pr, c⟩ := q
    cases pr with
    | sent =>
      cases me <;> simp [switched, hq, switchAll, View.setLocked]
    | notifying => cases me <;> simp [switched, hq, switchAll]
    | executed => exact absurd rfl hne

/-- The lock bit of a server after a step. -/
theorem switchAll_apply {o : Option (ServerId × Bool)} {f f' : ServerId → Bool}
    (hf : f' = switchAll o f) (id : ServerId) :
    (∃ b, o = some (id, b) ∧ f' id = b) ∨ ((∀ b, o ≠ some (id, b)) ∧ f' id = f id) := by
  subst hf
  cases o with
  | none => exact .inr ⟨nofun, rfl⟩
  | some x =>
    obtain ⟨id', b⟩ := x
    by_cases hid : id = id'
    · subst hid
      exact .inl ⟨b, rfl, by simp [switchAll]⟩
    · refine .inr ⟨fun b' hb => hid ?_, by simp [switchAll, hid]⟩
      exact (Prod.mk.inj (Option.some.inj hb)).1.symm

/-! ## What the server was last told -/

/-- A write of `k` at `id` is executed, and it writes `x`. -/
def Writes (id : ServerId) (k : Key) (x : Val) (e : System × Label) : Prop :=
  ∃ w, executed e = some w ∧ (w.server = id ∧ w.key = k) ∧ w.value = x

/-- A write of `k` at `id` is executed, and it writes something else. -/
def Overwrites (id : ServerId) (k : Key) (x : Val) (e : System × Label) : Prop :=
  ∃ w, executed e = some w ∧ (w.server = id ∧ w.key = k) ∧ w.value ≠ x

def Opens (id : ServerId) (e : System × Label) : Prop := switched e = some (id, false)

def Locks (id : ServerId) (e : System × Label) : Prop := switched e = some (id, true)

instance (id : ServerId) (k : Key) (x : Val) : DecidablePred (Writes id k x) := fun e =>
  decidable_of_iff (∃ w ∈ executed e, (w.server = id ∧ w.key = k) ∧ w.value = x) Iff.rfl

instance (id : ServerId) (k : Key) (x : Val) : DecidablePred (Overwrites id k x) := fun e =>
  decidable_of_iff (∃ w ∈ executed e, (w.server = id ∧ w.key = k) ∧ w.value ≠ x) Iff.rfl

instance (id : ServerId) : DecidablePred (Opens id) := fun e =>
  inferInstanceAs (Decidable (switched e = _))

instance (id : ServerId) : DecidablePred (Locks id) := fun e =>
  inferInstanceAs (Decidable (switched e = _))

/-- What is known of one server from the writes and switches of the trace. -/
structure Told (id : ServerId) (k : Key) (x : Val) (tr : Trace) (v : View) : Prop where
  value : Latched (Overwrites id k x) (Writes id k x) tr ((v.data id).lookup k = some x)
  isOpen : Latched (Locks id) (Opens id) tr (v.isLocked id = false)

section
variable {id : ServerId} {k : Key} {x : Val} {tr : Trace}

theorem Told.nil {v : View} : Told id k x [] v := ⟨latched_nil, latched_nil⟩

theorem Told.snoc {v v' : View} {e : System × Label} (h : Told id k x tr v)
    (hd : v'.data = writeAll (executed e) v.data)
    (hl : v'.isLocked = switchAll (switched e) v.isLocked) : Told id k x (tr ++ [e]) v' := by
  constructor
  · rcases writeAll_lookup hd id k with ⟨w, hw, hat, hx⟩ | ⟨hno, hx⟩
    · refine h.value.snoc ?_ ?_ fun hS hR => ?_
      · rintro ⟨w', hw', _, rfl⟩
        obtain rfl := Option.some.inj (hw.symm.trans hw')
        refine ⟨hx, ?_⟩
        rintro ⟨w', hw', _, hne⟩
        obtain rfl := Option.some.inj (hw.symm.trans hw')
        exact hne rfl
      · rintro ⟨w', hw', _, hne⟩
        obtain rfl := Option.some.inj (hw.symm.trans hw')
        rw [hx]
        exact fun e => hne (Option.some.inj e)
      · by_cases hwx : w.value = x
        · exact absurd ⟨w, hw, hat, hwx⟩ hS
        · exact absurd ⟨w, hw, hat, hwx⟩ hR
    · refine h.value.snoc ?_ ?_ fun _ _ => by rw [hx]
      · rintro ⟨w, hw, hat, _⟩
        exact absurd hat (hno w hw)
      · rintro ⟨w, hw, hat, _⟩
        exact absurd hat (hno w hw)
  · rcases switchAll_apply hl id with ⟨b, hb, hv⟩ | ⟨hno, hv⟩
    · cases b with
      | false =>
        exact h.isOpen.snoc (fun _ => ⟨hv, by simp [Locks, hb]⟩) (by simp [Locks, hb])
          fun hS _ => absurd hb hS
      | true =>
        exact h.isOpen.snoc (by simp [Opens, hb]) (fun _ => by simp [hv])
          fun _ hR => absurd hb hR
    · exact h.isOpen.snoc (fun hS => absurd hS (hno false)) (fun hR => absurd hR (hno true))
        fun _ _ => by rw [hv]

end

/-! ## The call -/

/-- How far a put has come: each server it has swept has run its write, and then its
`unlock`. -/
def Inside.Storing (k : Key) (x : Val) (servers : Finmap ServerRPC) (tr : Trace) (v : View) :
    Inside → Prop
  | .lock w _ => w = .put k x ∧ v.servers = servers
  | .write k' x' l => (k' = k ∧ x' = x) ∧ v.servers = servers ∧
      l.Swept (fun id _ => ∃ e ∈ tr, Writes id k x e) v
  | .unlock w l => w = .put k x ∧ v.servers = servers ∧
      (∀ id ∈ servers, ∃ e ∈ tr, Writes id k x e) ∧
      l.Swept (fun id _ => ∃ e ∈ tr, Opens id e) v
  | .leave (.finish (.returned _)) => v.servers = servers ∧
      (∀ id ∈ servers, ∃ e ∈ tr, Writes id k x e) ∧ ∀ id ∈ servers, ∃ e ∈ tr, Opens id e
  | .leave (.finish (.threw _)) => True
  | _ => False

section
variable {k : Key} {x : Val} {servers : Finmap ServerRPC} {tr : Trace} {v v' : View}

theorem Inside.Storing.point {i : Inside} (h : i.Storing k x servers tr v) :
    PutPoint (.inn i) := by
  cases i with
  | lock w l =>
    obtain ⟨rfl, _⟩ := h
    exact .inl rfl
  | write k' x' l => exact .inl rfl
  | unlock w l =>
    obtain ⟨rfl, _⟩ := h
    exact .inl rfl
  | leave e =>
    cases e with
    | finish o => exact .inr (.inr ⟨o, rfl⟩)
    | resume next => exact h.elim
  | _ => exact h.elim

theorem mem_snoc_of_mem {P : System × Label → Prop} (e : System × Label)
    (h : ∃ e ∈ tr, P e) : ∃ e' ∈ tr ++ [e], P e' := by
  obtain ⟨e', he', hP⟩ := h
  exact ⟨e', List.mem_append_left _ he', hP⟩

/-- A step of another thread, or of the environment. -/
theorem Inside.Storing.mono {i : Inside} (h : i.Storing k x servers tr v)
    (hs : v'.servers = v.servers) (e : System × Label) :
    i.Storing k x servers (tr ++ [e]) v' := by
  cases i with
  | lock w l => exact ⟨h.1, hs.trans h.2⟩
  | write k' x' l =>
    obtain ⟨hkx, hv, hsw⟩ := h
    exact ⟨hkx, hs.trans hv, fun id hid => mem_snoc_of_mem e (hsw id (hs ▸ hid))⟩
  | unlock w l =>
    obtain ⟨hw, hv, hwr, hsw⟩ := h
    exact ⟨hw, hs.trans hv, fun id hid => mem_snoc_of_mem e (hwr id hid),
      fun id hid => mem_snoc_of_mem e (hsw id (hs ▸ hid))⟩
  | leave ex =>
    cases ex with
    | resume next => exact h.elim
    | finish o =>
      cases o with
      | threw e => trivial
      | returned y =>
        obtain ⟨hv, hwr, hop⟩ := h
        exact ⟨hs.trans hv, fun id hid => mem_snoc_of_mem e (hwr id hid),
          fun id hid => mem_snoc_of_mem e (hop id hid)⟩
  | _ => exact h.elim

theorem Inside.Move.storing {s : System} {c : CallId} {i i' : Inside} {a : Act}
    (h : Inside.Move c s.shared.view i a v' (.inl i')) (hl : s.locals c = .inn i)
    (hi : i.Storing k x servers tr s.shared.view) :
    i'.Storing k x servers (tr ++ [(s, .run c a)]) v' := by
  generalize hr : (Sum.inl i' : Inside ⊕ Outside) = r at h
  cases h with
  | @lock w l a v' f h =>
    obtain rfl := Sum.inl.inj hr
    obtain ⟨rfl, hs⟩ := hi
    cases f with
    | again l' => exact ⟨rfl, h.servers.trans hs⟩
    | done => exact ⟨⟨rfl, rfl⟩, h.servers.trans hs, Loop.start_swept _ _⟩
    | raised => cases h.raised_inv.1
  | @write k' x' l a v' f h =>
    obtain rfl := Sum.inl.inj hr
    obtain ⟨⟨rfl, rfl⟩, hs, hsw⟩ := hi
    cases f with
    | again l' =>
      refine ⟨⟨rfl, rfl⟩, h.servers.trans hs, h.swept (fun id => mem_snoc_of_mem _) ?_ nofun hsw⟩
      rintro todo id ⟨n, pr⟩ rfl hsent rfl -
      obtain rfl : pr = .sent := hsent
      have hnow : executed (s, .run c .exec) = some ⟨id, k', x', c⟩ := by simp [executed, hl]
      exact ⟨_, List.mem_append_right _ (List.mem_singleton_self _), _, hnow, ⟨rfl, rfl⟩, rfl⟩
    | done =>
      obtain ⟨rfl, rfl⟩ := h.done_inv
      refine ⟨rfl, hs, fun id hid => mem_snoc_of_mem _ ?_, Loop.start_swept _ _⟩
      exact Loop.swept_done hsw id (hs ▸ hid)
    | raised => trivial
  | @unlock w l a v' f h =>
    obtain rfl := Sum.inl.inj hr
    obtain ⟨rfl, hs, hwr, hsw⟩ := hi
    have hwr' : ∀ id ∈ servers, ∃ e ∈ tr ++ [(s, .run c a)], Writes id k x e :=
      fun id hid => mem_snoc_of_mem _ (hwr id hid)
    cases f with
    | again l' =>
      refine ⟨rfl, h.servers.trans hs, hwr', h.swept (fun id => mem_snoc_of_mem _) ?_ nofun hsw⟩
      rintro todo id ⟨n, pr⟩ rfl hsent rfl -
      obtain rfl : pr = .sent := hsent
      have hnow : switched (s, .run c .exec) = some (id, false) := by simp [switched, hl]
      exact ⟨_, List.mem_append_right _ (List.mem_singleton_self _), hnow⟩
    | done =>
      obtain ⟨rfl, rfl⟩ := h.done_inv
      exact ⟨hs, hwr', fun id hid => mem_snoc_of_mem _ (Loop.swept_done hsw id (hs ▸ hid))⟩
    | raised => trivial
  | leave => cases hr
  | _ => exact hi.elim

end

/-- A server is registered, and every registered server that has not crashed holds the
pair and is open. -/
def View.Stored (k : Key) (x : Val) (v : View) : Prop :=
  v.servers ≠ ∅ ∧ ∀ id ∈ v.servers, v.crashed id = false →
    (v.data id).lookup k = some x ∧ v.isLocked id = false

/-- A put that answers `Success` has stored the pair, when it is about to release
`serversLock`, if and only if a server was registered when the call took it and no server
executed a left-over write of the key, or a left-over `lock`, as the last of its kind. -/
theorem success_stored_iff {c : CallId} {k : Key} {x : Val} {t s : System} {post : Trace}
    (hx : Monitor.Exclusive t) (hp : t.locals c = .out (Op.put k x).start)
    (h : SystemRun (fun _ _ => True) t ((t, .enter c) :: post) s)
    (hheld : ∀ e ∈ post, e.1.lock = some c)
    (hret : s.locals c = .inn (.leave (.finish (.returned (.success k x))))) :
    s.shared.view.Stored k x ↔ t.shared.servers ≠ ∅ ∧
      ∀ id ∈ t.shared.servers, s.shared.crashed id = false →
        ¬ LastOf (Overwrites id k x) (Writes id k x) post ∧
          ¬ LastOf (Locks id) (Opens id) post := by
  obtain ⟨-, -, t', hstep, hpost⟩ := h.of_split (List.nil_append _).symm
  have henter := Monitor.Step.of_step frontend hstep
  obtain ⟨hshared, hloc⟩ := put_enters henter hp
  have hcall := Monitor.Run.while_held
    (Q := fun tr i cl => i.Storing k x t.shared.servers tr cl.view ∧
      ∀ id, Told id k x tr cl.view)
    hpost (henter.exclusive _ hx) hloc
    ⟨⟨rfl, by rw [hshared]; rfl⟩, fun _ => .nil⟩ hheld
    (fun _ hl hi hQ => by
      have hm := Inside.Move.of_step hi
      exact ⟨hm.storing hl hQ.1, fun id => (hQ.2 id).snoc (hm.writes hl hQ.1.point)
        (hm.switches hl)⟩)
    (fun _ hl ho _ hQ => by
      have hv := Outside.step_view ho
      refine ⟨hQ.1.mono (by rw [hv]) _, fun id => (hQ.2 id).snoc ?_ ?_⟩
      · rw [executed_eq_none _ (by simp [hl]), hv]
        rfl
      · rw [switched_eq_none _ (by simp [hl]) (by simp [hl]), hv]
        rfl)
    (fun _ he _ hQ => by
      have hm := Event.Move.of_step he
      exact ⟨hQ.1.mono hm.servers _, fun id => (hQ.2 id).snoc hm.writes hm.switches⟩)
  obtain ⟨⟨hs, hwrites, hopens⟩, htold⟩ := hcall _ hret
  unfold View.Stored
  rw [hs]
  refine and_congr_right fun _ => forall₂_congr fun id hid => imp_congr_right fun _ => ?_
  exact and_congr ((htold id).value (hwrites id hid)) ((htold id).isOpen (hopens id hid))

/-- A put that repeats the `lock` at server 1; the attempt that threw is executed before
the server is unlocked. -/
def putLockedTwice : List Label :=
  loopOn 0 [.run 0 .linger, .run 0 .exec] [1] ++ loopOn 0 [.run 0 .exec] [1] ++
    .env (.deliver 0) :: loopOn 0 [.run 0 .exec, .run 0 .exec] [1]

theorem success_stored_iff_putLockedTwice :
    ∃ tr s, SystemRun (fun _ _ => True) (System.calling oneServer 0 (.put 5 7)) tr s ∧
      s.shared.view.Stored 5 7 := by
  have hex : ((exec System.step (System.calling oneServer 0 (.put 5 7))
      (.enter 0 :: putLockedTwice)).map fun s => s.answers 0) = some (some (.success 5 7)) := by
    decide +kernel
  obtain ⟨s, hrun, hs⟩ := Run.exists_of_exec (fun _ _ => True) hex (by simp)
  refine ⟨_, s, hrun, (success_stored_iff (System.calling_exclusive _ _ _) rfl hrun
    (by decide +kernel) (System.answers_eq hs)).mpr ⟨?_, ?_⟩⟩
  · intro hnone
    have h1 : (1 : ServerId) ∈ oneServer := by decide
    have hmem : (1 : ServerId) ∈ (∅ : Finmap ServerRPC) := hnone ▸ h1
    exact Finmap.notMem_empty hmem
  · intro id hid _
    obtain rfl : id = 1 := (Finmap.mem_singleton ..).mp hid
    decide +kernel

/-- The put that finds no server registered answers `Success` and stores nothing. -/
theorem put_unregistered_not_stored :
    ¬ ∀ (c : CallId) (k : Key) (x : Val) (tr : Trace) (s : System),
      SystemRun (fun _ _ => True) (System.fresh ∅) tr s →
      s.locals c = .inn (.leave (.finish (.returned (.success k x)))) →
      s.shared.view.Stored k x := by
  intro hclaim
  have hex : ((exec System.step (System.fresh ∅) ([.run 0 (.call (.put 5 7)), .enter 0] ++
      loopOn 0 [] [] ++ loopOn 0 [] [] ++ loopOn 0 [] [])).map fun s =>
      (s.answers 0, decide (s.shared.servers.keys = ∅))) =
      some (some (.success 5 7), true) := by decide +kernel
  obtain ⟨s, hrun, hs⟩ := Run.exists_of_exec (fun _ _ => True) hex (by simp)
  obtain ⟨hret, hnone⟩ := Prod.mk.inj hs
  have hstored := hclaim 0 5 7 _ s hrun (System.answers_eq hret)
  exact hstored.1 (eq_empty_of_keys (of_decide_eq_true hnone))

end ReplicatedStore
