/-
Writes that are executed late.

`Retry.run` repeats a write whose attempt has thrown, and a put carries nothing that
tells its write from an older one.  An attempt that was left in the network may
therefore be executed after a newer put of the same key has returned, and puts the old
value back.  At every server at which that does not happen, the value of a key is that
of the put of the key that held `serversLock` last.
-/
import ReplicatedStore.Loops
import ReplicatedStore.Runs

namespace ReplicatedStore

open Lib

/-! ## Executed writes -/

/-- A write that a server has executed, and the put it was made for. -/
structure Write where
  server : ServerId
  key : Key
  value : Val
  caller : CallId
  deriving DecidableEq

/-- The write that is executed in a step, by an attempt the put is waiting for or by
one that was left in the network. -/
def executed (e : System × Label) : Option Write :=
  match e.2 with
  | .run c .exec =>
    match e.1.locals c with
    | .inn (.write k x (.body _ id ⟨_, .sent⟩)) => some ⟨id, k, x, c⟩
    | _ => none
  | .env (.deliver n) =>
    match e.1.shared.outstanding[n]? with
    | some ⟨id, .put k x, .sent, c⟩ => some ⟨id, k, x, c⟩
    | _ => none
  | _ => none

/-- The thread `c` was started with `put(k, x)`. -/
def Called (c : CallId) (k : Key) (x : Val) (tr : Trace) : Prop :=
  ∃ e ∈ tr, e.2 = .run c (.call (.put k x))

/-- No calls but puts are made. -/
def OnlyPuts : Label → Prop
  | .run _ (.call (.put _ _)) => True
  | .run _ (.call _) => False
  | _ => True

instance : DecidablePred OnlyPuts := fun l => by
  unfold OnlyPuts
  split <;> infer_instance

/-- No server crashes. -/
def NoCrash : Label → Prop
  | .env (.crash _) => False
  | _ => True

instance : DecidablePred NoCrash
  | .env (.crash _) => isFalse not_false
  | .env (.deliver _) => isTrue trivial
  | .run _ _ => isTrue trivial
  | .enter _ => isTrue trivial

/-! ## Points of a put -/

/-- The put a thread is waiting or working for. -/
def putOf : Monitor.Local Outside Inside → Option (Key × Val)
  | .out (.synchronized (.withLock (.put k x))) => some (k, x)
  | .inn (.lock (.put k x) _) => some (k, x)
  | .inn (.write k x _) => some (k, x)
  | .inn (.unlock (.put k x) _) => some (k, x)
  | _ => none

/-- The point of a thread that was started with a put, or not yet. -/
def PutPoint (l : Monitor.Local Outside Inside) : Prop :=
  (putOf l).isSome ∨ Over l ∨ ∃ o, l = .inn (.leave (.finish o))

/-- What a step of a put does besides writing. -/
theorem Inside.Move.put_point {c : CallId} {v v' : View} {i : Inside} {a : Act}
    {r : Inside ⊕ Outside} (h : Inside.Move c v i a v' r) (hp : PutPoint (.inn i)) :
    v'.servers = v.servers ∧
      (∀ i', r = .inl i' → PutPoint (.inn i') ∧
        ∀ kx, putOf (.inn i') = some kx → putOf (.inn i) = some kx) ∧
      (∀ w, r = .inr w → ∃ o, w = .finished o) ∧
      ∀ q ∈ v'.outstanding, q ∈ v.outstanding ∨
        q.caller = c ∧ ∀ k x, q.method = .put k x → putOf (.inn i) = some (k, x) := by
  have hloop : ∀ {m : Method} {sw : Bool} {l : Loop} {f : Flow},
      Loop.Move m sw c v l a v' f → (∀ k x, m = .put k x → putOf (.inn i) = some (k, x)) →
      ∀ q ∈ v'.outstanding, q ∈ v.outstanding ∨
        q.caller = c ∧ ∀ k x, q.method = .put k x → putOf (.inn i) = some (k, x) := by
    intro m sw l f h hm q hq
    cases h with
    | linger _ =>
      rcases List.mem_append.mp hq with hq | hq
      · exact .inl hq
      · obtain rfl := List.mem_singleton.mp hq
        exact .inr ⟨rfl, hm⟩
    | exec _ _ => exact .inl (by simpa using hq)
    | _ => exact .inl hq
  cases h with
  | @lock w l a v' f h =>
    cases w with
    | put k x =>
      refine ⟨h.servers, fun i' e => ?_, by simp, hloop h (by simp)⟩
      obtain rfl := Sum.inl.inj e
      cases f with
      | again l' => exact ⟨.inl rfl, fun _ e => e⟩
      | done => exact ⟨.inl rfl, fun _ e => e⟩
      | raised => cases h.raised_inv.1
    | addServer id rpc sender =>
      rcases hp with hp | (hp | ⟨o, hp⟩) | ⟨o, hp⟩ <;> cases hp
  | @write k x l a v' f h =>
    refine ⟨h.servers, fun i' e => ?_, by simp, hloop h fun k' x' e => ?_⟩
    · obtain rfl := Sum.inl.inj e
      cases f with
      | again l' => exact ⟨.inl rfl, fun _ e => e⟩
      | done => exact ⟨.inl rfl, fun _ e => e⟩
      | raised => exact ⟨.inr (.inr ⟨_, rfl⟩), fun _ e => by cases e⟩
    · obtain ⟨rfl, rfl⟩ := Method.put.inj e
      rfl
  | @unlock w l a v' f h =>
    cases w with
    | put k x =>
      refine ⟨h.servers, fun i' e => ?_, by simp, hloop h (by simp)⟩
      obtain rfl := Sum.inl.inj e
      cases f with
      | again l' => exact ⟨.inl rfl, fun _ e => e⟩
      | done => exact ⟨.inr (.inr ⟨_, rfl⟩), fun _ e => by cases e⟩
      | raised => exact ⟨.inr (.inr ⟨_, rfl⟩), fun _ e => by cases e⟩
    | addServer id rpc sender =>
      rcases hp with hp | (hp | ⟨o, hp⟩) | ⟨o, hp⟩ <;> cases hp
  | @leave e =>
    refine ⟨rfl, by simp, fun w e' => ?_, fun q hq => .inl hq⟩
    obtain rfl := Sum.inr.inj e'
    rcases hp with hp | (hp | ⟨o, hp⟩) | ⟨o, hp⟩
    · cases hp
    · cases hp
    · cases hp
    · obtain rfl := Inside.leave.inj (Monitor.Local.inn.inj hp)
      exact ⟨o, rfl⟩
  | _ => rcases hp with hp | (hp | ⟨o, hp⟩) | ⟨o, hp⟩ <;> cases hp

/-- The write on the data of the servers. -/
def Write.apply (w : Write) (d : ServerId → Data) : ServerId → Data :=
  Function.update d w.server ((d w.server).insert w.key w.value)

/-- A method on the data of the servers: it has an effect only as a write. -/
theorem Method.effect_put (k : Key) (x : Val) (pr : Progress) (id : ServerId) (c : CallId)
    (v : View) : ((Method.put k x).effect pr id v).data =
      if pr = .sent then (Write.mk id k x c).apply v.data else v.data := by
  cases pr <;> rfl

/-- Only the write phase of a put writes. -/
theorem executed_eq_none {s : System} {c : CallId} (a : Act)
    (h : ∀ k x l, s.locals c ≠ .inn (.write k x l)) : executed (s, .run c a) = none := by
  cases a with
  | exec =>
    simp only [executed]
    split
    · rename_i hl
      exact absurd hl (h _ _ _)
    · rfl
  | _ => rfl

/-- The data of the servers after a step in which `w` was executed, if any. -/
def writeAll (o : Option Write) (d : ServerId → Data) : ServerId → Data :=
  o.elim d fun w => w.apply d

theorem Inside.Move.writes {s : System} {c : CallId} {v' : View} {i : Inside} {a : Act}
    {r : Inside ⊕ Outside} (h : Inside.Move c s.shared.view i a v' r) (hl : s.locals c = .inn i)
    (hp : PutPoint (.inn i)) :
    v'.data = writeAll (executed (s, .run c a)) s.shared.view.data := by
  cases h with
  | @lock w l a v' f h =>
    rw [executed_eq_none a (by simp [hl])]
    exact h.data_eq (by simp)
  | @unlock w l a v' f h =>
    rw [executed_eq_none a (by simp [hl])]
    exact h.data_eq (by simp)
  | @write k x l a v' f h =>
    cases h with
    | @exec todo id att hc hne =>
      rw [Method.effect_put k x att.state id c]
      obtain ⟨n, pr⟩ := att
      cases pr with
      | sent => simp [executed, hl, writeAll]
      | notifying => simp [executed, hl, writeAll]
      | executed => exact absurd rfl hne
    | _ => simp [executed, writeAll]
  | leave =>
    rw [executed_eq_none _ (by simp [hl])]
    rfl
  | _ => rcases hp with hp | (hp | ⟨o, hp⟩) | ⟨o, hp⟩ <;> cases hp

theorem Event.Move.writes {s : System} {v' : View} {e : Event}
    (h : Event.Move s.shared.view e v') :
    v'.data = writeAll (executed (s, .env e)) s.shared.view.data := by
  cases h with
  | crash => rfl
  | @deliver n q hq hc hne =>
    rw [Cluster.view_outstanding] at hq
    obtain ⟨id, me, pr, c⟩ := q
    cases me with
    | put k x =>
      show ((Method.put k x).effect pr id s.shared.view).data = _
      rw [Method.effect_put k x pr id c]
      cases pr with
      | sent => simp [executed, hq, writeAll]
      | notifying => simp [executed, hq, writeAll]
      | executed => exact absurd rfl hne
    | _ =>
      have hn : executed (s, .env (.deliver n)) = none := by simp [executed, hq]
      rw [hn]
      cases pr <;> rfl

/-- The data of the servers changes by the executed write and by nothing else. -/
theorem executed_data {s s' : System} {l : Label} (hp : ∀ c, PutPoint (s.locals c))
    (hs : Monitor.Step frontend s l s') :
    s'.shared.view.data = writeAll (executed (s, l)) s.shared.view.data := by
  cases hs with
  | @outside c a w w' σ' hl ho =>
    rw [executed_eq_none a (by simp [hl])]
    show σ'.view.data = s.shared.view.data
    rw [Outside.step_view ho]
  | @inside c a i i' σ' hl hi => exact (Inside.Move.of_step hi).writes hl (hl ▸ hp c)
  | @leave c a i w σ' hl hi => exact (Inside.Move.of_step hi).writes hl (hl ▸ hp c)
  | @enter c w i hl he hlock => rfl
  | @env e σ' he => exact (Event.Move.of_step he).writes

/-- The value of a key at a server after a write, if any. -/
theorem writeAll_lookup {o : Option Write} {d d' : ServerId → Data} (hd : d' = writeAll o d)
    (id : ServerId) (k : Key) :
    (∃ w, o = some w ∧ (w.server = id ∧ w.key = k) ∧ (d' id).lookup k = some w.value) ∨
      ((∀ w, o = some w → ¬ (w.server = id ∧ w.key = k)) ∧
        (d' id).lookup k = (d id).lookup k) := by
  subst hd
  cases o with
  | none => exact .inr ⟨nofun, rfl⟩
  | some w =>
    by_cases hw : w.server = id ∧ w.key = k
    · obtain ⟨rfl, rfl⟩ := hw
      exact .inl ⟨w, rfl, ⟨rfl, rfl⟩, by simp [writeAll, Write.apply]⟩
    · refine .inr ⟨fun w' hw' => ?_, ?_⟩
      · obtain rfl := Option.some.inj hw'
        exact hw
      · by_cases hid : id = w.server
        · subst hid
          have hk : k ≠ w.key := fun e => hw ⟨rfl, e.symm⟩
          simp [writeAll, Write.apply, hk]
        · simp [writeAll, Write.apply, hid]

/-! ## Which put a write belongs to -/

theorem called_snoc {c : CallId} {k : Key} {x : Val} {tr : Trace} {s : System} {l : Label} :
    Called c k x (tr ++ [(s, l)]) ↔ Called c k x tr ∨ l = .run c (.call (.put k x)) := by
  simp only [Called, List.mem_append, List.mem_singleton, or_and_right, exists_or, exists_eq_left]

/-- What is known of the calls in a run of puts. -/
structure PutRun (tr : Trace) (s : System) : Prop where
  point : ∀ c, PutPoint (s.locals c)
  called : ∀ c k x, putOf (s.locals c) = some (k, x) → Called c k x tr
  requested : ∀ r ∈ s.shared.outstanding, ∀ k x, r.method = .put k x → Called r.caller k x tr
  idle : ∀ c k x, s.locals c = .out .idle → ¬ Called c k x tr
  once : ∀ c k x k' x', Called c k x tr → Called c k' x' tr → k = k' ∧ x = x'

/-- A thread of a run of puts takes a step outside the lock only when it is called. -/
theorem PutPoint.outside {c : CallId} {cl cl' : Cluster} {w w' : Outside} {a : Act}
    (hp : PutPoint (.out w)) (hs : w.step c cl a = some (cl', w')) :
    ∃ op, w = .idle ∧ a = .call op ∧ cl' = cl ∧ w' = op.start := by
  cases w with
  | idle =>
    cases a <;> simp only [Outside.step] at hs <;> try contradiction
    obtain ⟨rfl, rfl⟩ := Prod.mk.inj (Option.some.inj hs)
    exact ⟨_, rfl, rfl, rfl, rfl⟩
  | synchronized b => cases a <;> simp [Outside.step] at hs
  | finished o => cases a <;> simp [Outside.step] at hs
  | _ => rcases hp with hp | (hp | ⟨o, hp⟩) | ⟨o, hp⟩ <;> cases hp

/-- A step that makes no call. -/
theorem PutRun.of_same_calls {tr : Trace} {s s' : System} {l : Label} (h : PutRun tr s)
    (hl : ∀ c op, l ≠ .run c (.call op)) (hpoint : ∀ c, PutPoint (s'.locals c))
    (hput : ∀ c kx, putOf (s'.locals c) = some kx → putOf (s.locals c) = some kx)
    (hidle : ∀ c, s'.locals c = .out .idle → s.locals c = .out .idle)
    (hreq : ∀ r ∈ s'.shared.outstanding, ∀ k x, r.method = .put k x →
      (∃ r' ∈ s.shared.outstanding, r'.method = .put k x ∧ r'.caller = r.caller) ∨
        putOf (s.locals r.caller) = some (k, x)) : PutRun (tr ++ [(s, l)]) s' := by
  have hiff : ∀ c k x, Called c k x (tr ++ [(s, l)]) ↔ Called c k x tr := fun c k x => by
    rw [called_snoc]
    exact or_iff_left (hl c _)
  refine ⟨hpoint, fun c k x hc => ?_, fun r hr k x hm => ?_, fun c k x hc => ?_,
    fun c k x k' x' => ?_⟩
  · rw [hiff]
    exact h.called c k x (hput c _ hc)
  · rw [hiff]
    rcases hreq r hr k x hm with ⟨r', hr', hm', hc⟩ | hc
    · rw [← hc]
      exact h.requested r' hr' k x hm'
    · exact h.called _ k x hc
  · rw [hiff]
    exact h.idle c k x (hidle c hc)
  · rw [hiff, hiff]
    exact h.once c k x k' x'

/-- A thread that makes its call has made none before. -/
theorem PutRun.call {tr : Trace} {s : System} {c : CallId} {k : Key} {x : Val}
    (h : PutRun tr s) (hl : s.locals c = .out .idle) :
    PutRun (tr ++ [(s, .run c (.call (.put k x)))])
      { s with locals := Function.update s.locals c (.out (Op.put k x).start) } := by
  have hnot : ∀ k x, ¬ Called c k x tr := fun k x => h.idle c k x hl
  refine ⟨?_, ?_, fun r hr k' x' hm => ?_, ?_, fun d k₁ x₁ k₂ x₂ h₁ h₂ => ?_⟩
  · exact (Function.forall_update_iff s.locals fun _ lo => PutPoint lo).mpr
      ⟨.inl rfl, fun d _ => h.point d⟩
  · refine (Function.forall_update_iff s.locals fun d lo => ∀ k' x', putOf lo = some (k', x') →
      Called d k' x' (tr ++ [(s, .run c (.call (.put k x)))])).mpr
      ⟨fun k' x' hd => ?_, fun d _ k' x' hd => called_snoc.mpr (.inl (h.called d k' x' hd))⟩
    obtain ⟨rfl, rfl⟩ := Prod.mk.inj (Option.some.inj hd)
    exact called_snoc.mpr (.inr rfl)
  · exact called_snoc.mpr (.inl (h.requested r hr k' x' hm))
  · intro d k' x' hd
    have hdc : d ≠ c := by
      rintro rfl
      simp [Op.start] at hd
    simp only [Function.update_of_ne hdc] at hd
    rw [called_snoc]
    rintro (hold | hnew)
    · exact h.idle d k' x' hd hold
    · exact hdc (Monitor.Label.run.inj hnew).1.symm
  · rw [called_snoc] at h₁ h₂
    rcases h₁ with h₁ | h₁ <;> rcases h₂ with h₂ | h₂
    · exact h.once d k₁ x₁ k₂ x₂ h₁ h₂
    · obtain rfl := (Monitor.Label.run.inj h₂).1
      exact absurd h₁ (hnot k₁ x₁)
    · obtain rfl := (Monitor.Label.run.inj h₁).1
      exact absurd h₂ (hnot k₂ x₂)
    · have := h₁.symm.trans h₂
      simpa using this

theorem PutRun.step {tr : Trace} {s s' : System} {l : Label} (h : PutRun tr s)
    (hok : OnlyPuts l) (hs : Monitor.Step frontend s l s') : PutRun (tr ++ [(s, l)]) s' := by
  -- A step of `c` moves the thread `c` only.
  have hpoints : ∀ {c : CallId} {y : Monitor.Local Outside Inside}, PutPoint y →
      ∀ d, PutPoint (Function.update s.locals c y d) := fun {c y} hy =>
    (Function.forall_update_iff s.locals fun _ lo => PutPoint lo).mpr
      ⟨hy, fun d _ => h.point d⟩
  have hputs : ∀ {c : CallId} {y : Monitor.Local Outside Inside},
      (∀ kx, putOf y = some kx → putOf (s.locals c) = some kx) →
      ∀ d kx, putOf (Function.update s.locals c y d) = some kx →
        putOf (s.locals d) = some kx := fun {c y} hy =>
    (Function.forall_update_iff s.locals fun d lo =>
      ∀ kx, putOf lo = some kx → putOf (s.locals d) = some kx).mpr ⟨hy, fun _ _ _ e => e⟩
  have hidles : ∀ {c : CallId} {y : Monitor.Local Outside Inside}, y ≠ .out .idle →
      ∀ d, Function.update s.locals c y d = .out .idle → s.locals d = .out .idle :=
    fun {c y} hy =>
      (Function.forall_update_iff s.locals fun d lo =>
        lo = .out .idle → s.locals d = .out .idle).mpr ⟨fun e => absurd e hy, fun _ _ e => e⟩
  cases hs with
  | @outside c a w w' σ' hl ho =>
    obtain ⟨op, rfl, rfl, rfl, rfl⟩ := PutPoint.outside (hl ▸ h.point c) ho
    cases op with
    | put k x => exact h.call hl
    | _ => exact absurd hok (fun h => h)
  | @inside c a i i' σ' hl hi =>
    have hmove := Inside.Move.of_step hi
    obtain ⟨_, hin, _, hout⟩ := hmove.put_point (hl ▸ h.point c)
    obtain ⟨hp', hput⟩ := hin i' rfl
    refine h.of_same_calls (fun d op e => ?_) (hpoints hp') (hputs fun kx e => ?_)
      (hidles (by simp)) fun r hr k x hm => ?_
    · obtain ⟨rfl, rfl⟩ : c = d ∧ a = .call op := by simpa using e
      exact hmove.not_call op rfl
    · rw [hl]
      exact hput kx e
    · rcases hout r hr with hold | ⟨hc, hk⟩
      · exact .inl ⟨r, hold, hm, rfl⟩
      · rw [hc, hl]
        exact .inr (hk k x hm)
  | @leave c a i w σ' hl hi =>
    have hmove := Inside.Move.of_step hi
    obtain ⟨_, _, hfin, hout⟩ := hmove.put_point (hl ▸ h.point c)
    obtain ⟨o, rfl⟩ := hfin w rfl
    refine h.of_same_calls (fun d op e => ?_) (hpoints (.inr (.inl (.inr ⟨o, rfl⟩))))
      (hputs fun kx e => by cases e) (hidles (by simp)) fun r hr k x hm => ?_
    · obtain ⟨rfl, rfl⟩ : c = d ∧ a = .call op := by simpa using e
      exact hmove.not_call op rfl
    · rcases hout r hr with hold | ⟨hc, hk⟩
      · exact .inl ⟨r, hold, hm, rfl⟩
      · rw [hc, hl]
        exact .inr (hk k x hm)
  | @enter c w i hl he hlock =>
    obtain ⟨b, rfl, rfl⟩ := Outside.entry_eq_some he
    have hpc : PutPoint (.out (.synchronized b)) := hl ▸ h.point c
    have hstart : ∃ k x, b = .withLock (.put k x) := by
      cases b with
      | withLock w =>
        cases w with
        | put k x => exact ⟨k, x, rfl⟩
        | addServer _ _ _ => rcases hpc with hpc | (hpc | ⟨o, hpc⟩) | ⟨o, hpc⟩ <;> cases hpc
      | _ => rcases hpc with hpc | (hpc | ⟨o, hpc⟩) | ⟨o, hpc⟩ <;> cases hpc
    obtain ⟨k, x, rfl⟩ := hstart
    refine h.of_same_calls (by simp) (hpoints (.inl rfl)) (hputs fun kx e => ?_)
      (hidles (by simp)) fun r hr k x hm => .inl ⟨r, hr, hm, rfl⟩
    rw [hl]
    exact e
  | @env e σ' he =>
    refine h.of_same_calls (by simp) h.point (fun _ _ e => e) (fun _ e => e) fun r hr k x hm => ?_
    have hmove := Event.Move.of_step he
    have hr' : r ∈ σ'.view.outstanding := hr
    generalize σ'.view = v' at hmove hr'
    cases hmove with
    | crash => exact .inl ⟨r, hr', hm, rfl⟩
    | @deliver n q hq _ _ =>
      obtain ⟨r'', hr'', _, hm'', hc''⟩ := mem_delivered hq hr'
      exact .inl ⟨r'', hr'', hm''.trans hm, hc''⟩

/-- The put a write belongs to. -/
theorem PutRun.executed_called {tr : Trace} {s : System} {l : Label} (h : PutRun tr s)
    {w : Write} (hw : executed (s, l) = some w) : Called w.caller w.key w.value tr := by
  unfold executed at hw
  split at hw
  · rename_i c _
    split at hw
    · rename_i k x todo id n hl
      obtain rfl := Option.some.inj hw
      have hput : putOf (s.locals c) = some (k, x) := by
        have hl' : s.locals c = _ := hl
        rw [hl']
        rfl
      exact h.called c k x hput
    · cases hw
  · split at hw
    · rename_i n _ id k x c hq
      obtain rfl := Option.some.inj hw
      exact h.requested _ (List.mem_of_getElem? hq) k x rfl
    · cases hw
  · cases hw

/-! ## The put that held the lock last -/

/-- The last write of `k` that the server `id` has executed is one that was left in the
network by another put than `p`, and it came after a write of `p`. -/
def Undone (p : CallId) (k : Key) (x : Val) (id : ServerId) (tr : Trace) (y : Option Val) :
    Prop :=
  ∃ pre e post n w, tr = pre ++ e :: post ∧ e.2 = .env (.deliver n) ∧ executed e = some w ∧
    (w.server = id ∧ w.key = k) ∧ w.caller ≠ p ∧
    (∃ e' ∈ pre, executed e' = some ⟨id, k, x, p⟩) ∧
    (∀ e' ∈ post, ∀ w', executed e' = some w' → ¬ (w'.server = id ∧ w'.key = k)) ∧
    y = some w.value

/-- The put `p` of `x` has written `id`, and `y` is what has become of it. -/
structure Settled (p : CallId) (k : Key) (x : Val) (id : ServerId) (tr : Trace)
    (y : Option Val) : Prop where
  written : ∃ e ∈ tr, executed e = some ⟨id, k, x, p⟩
  value : y = some x ∨ Undone p k x id tr y

/-- A step that writes `id` for `p`, or executes an old write there, or does not write
there. -/
theorem Settled.snoc {p : CallId} {k : Key} {x : Val} {id : ServerId} {tr : Trace}
    {y y' : Option Val} {e : System × Label} (h : Settled p k x id tr y)
    (hstep : (∃ w, executed e = some w ∧ (w.server = id ∧ w.key = k) ∧ y' = some w.value ∧
        (w.value = x ∨ w.caller ≠ p ∧ ∃ n, e.2 = .env (.deliver n))) ∨
      ((∀ w, executed e = some w → ¬ (w.server = id ∧ w.key = k)) ∧ y' = y)) :
    Settled p k x id (tr ++ [e]) y' := by
  obtain ⟨e₀, he₀, hw₀⟩ := h.written
  refine ⟨⟨e₀, List.mem_append_left _ he₀, hw₀⟩, ?_⟩
  rcases hstep with ⟨w, hw, hon, rfl, rfl | ⟨hp, n, hn⟩⟩ | ⟨hno, rfl⟩
  · exact .inl rfl
  · exact .inr ⟨tr, e, [], n, w, rfl, hn, hw, hon, hp, ⟨e₀, he₀, hw₀⟩, by simp, rfl⟩
  · rcases h.value with hy | ⟨pre, e', post, n, w, rfl, hn, hw, hon, hp, hbefore, hafter, hy⟩
    · exact .inl hy
    · refine .inr ⟨pre, e', post ++ [e], n, w, by simp, hn, hw, hon, hp, hbefore, ?_, hy⟩
      intro e'' he''
      rcases List.mem_append.mp he'' with he'' | he''
      · exact hafter e'' he''
      · obtain rfl := List.mem_singleton.mp he''
        exact hno

/-- What is known of the servers at each point of the put `p`. -/
def Settling (p : CallId) (k : Key) (x : Val) (tr : Trace) (v : View) :
    Monitor.Local Outside Inside → Prop
  | .inn (.lock w _) => w = .put k x
  | .inn (.write k' x' l) => k' = k ∧ x' = x ∧ l.Within v ∧
      l.Swept (fun id v => Settled p k x id tr ((v.data id).lookup k)) v
  | .inn (.unlock w _) => w = .put k x ∧
      ∀ id ∈ v.servers, Settled p k x id tr ((v.data id).lookup k)
  | .inn (.leave (.finish (.returned _))) | .out (.finished (.returned _)) =>
      ∀ id ∈ v.servers, Settled p k x id tr ((v.data id).lookup k)
  | .inn (.leave (.finish (.threw _))) | .out (.finished (.threw _)) => True
  | _ => False

/-- The invariant after `p` took `serversLock`, as long as no other put of `k` does. -/
structure LastPut (p : CallId) (k : Key) (x : Val) (tr : Trace) (s : System) : Prop where
  puts : PutRun tr s
  called : Called p k x tr
  others : ∀ q, q ≠ p → ∀ i x, s.locals q = .inn i → putOf (.inn i) ≠ some (k, x)
  self : Settling p k x tr s.shared.view (s.locals p)

theorem executed_source {s : System} {l : Label} {w : Write} (h : executed (s, l) = some w) :
    (∃ todo n, l = .run w.caller .exec ∧
      s.locals w.caller = .inn (.write w.key w.value (.body todo w.server ⟨n, .sent⟩))) ∨
    ∃ n, l = .env (.deliver n) := by
  unfold executed at h
  split at h
  · rename_i c hl
    split at h
    · rename_i k x todo id n hloc
      obtain rfl := Option.some.inj h
      exact .inl ⟨todo, n, hl, hloc⟩
    · cases h
  · rename_i n hl
    exact .inr ⟨n, hl⟩
  · cases h

/-- A server that `p` has written stays settled. -/
theorem LastPut.keeps {p : CallId} {k : Key} {x : Val} {tr : Trace} {s s' : System} {l : Label}
    (h : LastPut p k x tr s) (hs : Monitor.Step frontend s l s') {id : ServerId}
    (hid : Settled p k x id tr ((s.shared.view.data id).lookup k)) :
    Settled p k x id (tr ++ [(s, l)]) ((s'.shared.view.data id).lookup k) := by
  refine hid.snoc ?_
  rcases writeAll_lookup (executed_data h.puts.point hs) id k with
    ⟨w, hw, ⟨hserver, hkey⟩, hy⟩ | hno
  · refine .inl ⟨w, hw, ⟨hserver, hkey⟩, hy, ?_⟩
    by_cases hp : w.caller = p
    · have hcalled : Called p k w.value tr := by
        rw [← hp, ← hkey]
        exact h.puts.executed_called hw
      exact .inl (h.puts.once p k w.value k x hcalled h.called).2
    · rcases executed_source hw with ⟨todo, n, _, hl⟩ | hn
      · refine absurd ?_ (h.others _ hp _ w.value hl)
        rw [hkey]
        rfl
      · exact .inr ⟨hp, hn⟩
  · exact .inr hno

/-- Points and membership are as before, so only the trace has to be extended. -/
theorem Settling.mono {p : CallId} {k : Key} {x : Val} {tr tr' : Trace} {v v' : View}
    {y : Monitor.Local Outside Inside} (h : Settling p k x tr v y) (hs : v'.servers = v.servers)
    (hkeep : ∀ id, Settled p k x id tr ((v.data id).lookup k) →
      Settled p k x id tr' ((v'.data id).lookup k)) : Settling p k x tr' v' y := by
  unfold Settling at h ⊢
  split at h
  · exact h
  · obtain ⟨hk, hx, hwithin, hswept⟩ := h
    refine ⟨hk, hx, by simpa [Loop.Within, hs] using hwithin, fun id hid => hkeep id (hswept id ?_)⟩
    rwa [hs] at hid
  · exact ⟨h.1, fun id hid => hkeep id (h.2 id (hs ▸ hid))⟩
  · exact fun id hid => hkeep id (h id (hs ▸ hid))
  · exact fun id hid => hkeep id (h id (hs ▸ hid))
  · trivial
  · trivial
  · exact h

/-- A step of `p` itself. -/
theorem Settling.step {p : CallId} {k : Key} {x : Val} {tr : Trace} {s : System} {v' : View}
    {i : Inside} {a : Act} {r : Inside ⊕ Outside} (hl : s.locals p = .inn i)
    (h : Inside.Move p s.shared.view i a v' r)
    (hi : Settling p k x tr s.shared.view (.inn i))
    (hkeep : ∀ id, Settled p k x id tr ((s.shared.view.data id).lookup k) →
      Settled p k x id (tr ++ [(s, .run p a)]) ((v'.data id).lookup k)) :
    (∀ i', r = .inl i' → Settling p k x (tr ++ [(s, .run p a)]) v' (.inn i')) ∧
      (∀ w, r = .inr w → Settling p k x (tr ++ [(s, .run p a)]) v' (.out w)) := by
  cases h with
  | @lock w l a v' f h =>
    refine ⟨fun i' e => ?_, by simp⟩
    obtain rfl := Sum.inl.inj e
    obtain rfl : w = .put k x := hi
    cases f with
    | again l' => exact rfl
    | done => exact ⟨rfl, rfl, Loop.start_within _, Loop.start_swept _ _⟩
    | raised => cases h.raised_inv.1
  | @write k' x' l a v' f h =>
    refine ⟨fun i' e => ?_, by simp⟩
    obtain rfl := Sum.inl.inj e
    obtain ⟨rfl, rfl, hwithin, hswept⟩ := hi
    cases f with
    | again l' =>
      refine ⟨rfl, rfl, h.within hwithin, h.swept hkeep ?_ (by simp) hswept⟩
      rintro todo id ⟨n, pr⟩ rfl hsent rfl rfl
      obtain rfl : pr = .sent := hsent
      have hnow : executed (s, .run p .exec) = some ⟨id, k', x', p⟩ := by simp [executed, hl]
      refine ⟨⟨_, List.mem_append_right _ (List.mem_singleton_self _), hnow⟩, .inl ?_⟩
      simp
    | done =>
      obtain ⟨rfl, rfl⟩ := h.done_inv
      exact ⟨rfl, fun id hid => hkeep id (Loop.swept_done hswept id hid)⟩
    | raised => exact trivial
  | @unlock w l a v' f h =>
    refine ⟨fun i' e => ?_, by simp⟩
    obtain rfl := Sum.inl.inj e
    obtain ⟨rfl, hall⟩ := hi
    have hall' : ∀ id ∈ v'.servers,
        Settled p k x id (tr ++ [(s, .run p a)]) ((v'.data id).lookup k) :=
      fun id hid => hkeep id (hall id (h.servers ▸ hid))
    cases f with
    | again l' => exact ⟨rfl, hall'⟩
    | done => exact hall'
    | raised => exact trivial
  | @leave e =>
    refine ⟨by simp, fun w e' => ?_⟩
    obtain rfl := Sum.inr.inj e'
    cases e with
    | finish o =>
      cases o with
      | returned r => exact fun id hid => hkeep id (hi id hid)
      | threw e => exact trivial
    | resume next => exact hi
  | _ => exact absurd hi (fun h => h)

theorem LastPut.step {p : CallId} {k : Key} {x : Val} {tr : Trace} {s s' : System} {l : Label}
    (h : LastPut p k x tr s) (hok : OnlyPuts l) (hs : Monitor.Step frontend s l s')
    (hlast : ∀ q x, l = .enter q → s.locals q ≠ .out (Op.put k x).start) :
    LastPut p k x (tr ++ [(s, l)]) s' := by
  have hputs := h.puts.step hok hs
  have hcalled : Called p k x (tr ++ [(s, l)]) := called_snoc.mpr (.inl h.called)
  have hkeep : ∀ id, Settled p k x id tr ((s.shared.view.data id).lookup k) →
      Settled p k x id (tr ++ [(s, l)]) ((s'.shared.view.data id).lookup k) :=
    fun id hid => h.keeps hs hid
  refine ⟨hputs, hcalled, fun q hq i x hi => ?_, ?_⟩
  · cases hl : s.locals q with
    | out w =>
      rcases hs.of_out hl with ⟨_, h'⟩ | ⟨a, w', _, _, h'⟩ | ⟨j, rfl, he, _, _, h'⟩
      · rw [h'] at hi
        cases hi
      · rw [h'] at hi
        cases hi
      · obtain rfl := Monitor.Local.inn.inj (h'.symm.trans hi)
        obtain ⟨b, rfl, rfl⟩ := Outside.entry_eq_some he
        intro hput
        cases b with
        | withLock w =>
          cases w with
          | put k' x' =>
            obtain ⟨rfl, rfl⟩ := Prod.mk.inj (Option.some.inj hput)
            exact hlast q _ rfl hl
          | addServer _ _ _ => cases hput
        | _ => cases hput
    | inn j =>
      rcases hs.of_inn hl with ⟨_, h'⟩ | ⟨a, j', rfl, hin, h'⟩ | ⟨a, w, _, _, h'⟩
      · obtain rfl := Monitor.Local.inn.inj (h'.symm.trans hi)
        exact h.others q hq _ x hl
      · obtain rfl := Monitor.Local.inn.inj (h'.symm.trans hi)
        have hmove := (Inside.Move.of_step hin).put_point (hl ▸ h.puts.point q)
        exact fun hput => h.others q hq j x hl ((hmove.2.1 _ rfl).2 _ hput)
      · rw [h'] at hi
        cases hi
  · have hself := h.self
    have hservers : s'.shared.view.servers = s.shared.view.servers := by
      cases hs with
      | outside _ ho => exact congrArg View.servers (Outside.step_view ho)
      | inside hl hi => exact ((Inside.Move.of_step hi).put_point (hl ▸ h.puts.point _)).1
      | leave hl hi => exact ((Inside.Move.of_step hi).put_point (hl ▸ h.puts.point _)).1
      | enter _ _ _ => rfl
      | env he => exact (Event.Move.of_step he).servers
    cases hl : s.locals p with
    | out w =>
      rw [hl] at hself
      rcases hs.of_out hl with ⟨_, h'⟩ | ⟨a, w', rfl, ho, h'⟩ | ⟨j, rfl, he, _⟩
      · rw [h']
        exact hself.mono hservers hkeep
      · obtain ⟨op, rfl, _⟩ := PutPoint.outside (hl ▸ h.puts.point p) ho
        exact absurd hself (fun h => h)
      · obtain ⟨b, rfl, rfl⟩ := Outside.entry_eq_some he
        exact absurd hself (fun h => h)
    | inn i =>
      rw [hl] at hself
      rcases hs.of_inn hl with ⟨_, h'⟩ | ⟨a, i', rfl, hi, h'⟩ | ⟨a, w, rfl, hi, h'⟩
      · rw [h']
        exact hself.mono hservers hkeep
      · rw [h']
        exact (Settling.step hl (Inside.Move.of_step hi) hself hkeep).1 _ rfl
      · rw [h']
        exact (Settling.step hl (Inside.Move.of_step hi) hself hkeep).2 _ rfl

/-! ## Runs -/

/-- When the put `p` of `k` has returned and no other put of `k` has taken `serversLock`
since `p` did, every registered server holds its value, except where an old write was
executed after it. -/
theorem last_put_settles {p : CallId} {k : Key} {x : Val} {s₀ s t : System} {pre post : Trace}
    (h₀ : Quiet s₀) (hnone : s₀.shared.outstanding = [])
    (h : SystemRun (fun _ l => OnlyPuts l) s₀ (pre ++ (t, .enter p) :: post) s)
    (hp : t.locals p = .out (Op.put k x).start)
    (hlast : ∀ e ∈ post, ∀ q y, e.2 = .enter q → e.1.locals q ≠ .out (Op.put k y).start)
    (hfin : s.locals p = .out (.finished (.returned (.success k x)))) :
    ∀ id ∈ s.shared.servers, (s.shared.process id).data.lookup k = some x ∨
      Undone p k x id (pre ++ (t, .enter p) :: post)
        ((s.shared.process id).data.lookup k) := by
  obtain ⟨hpre, hok, t', hstep, hpost⟩ := h.of_split rfl
  have hputs : PutRun pre t := by
    refine hpre.invariant ⟨fun c => .inr (.inl (h₀.2 c)), fun c k x hc => ?_, by simp [hnone],
      fun c k x _ => by simp [Called], fun c k x k' x' h => by simp [Called] at h⟩
      fun tr s l s' _ hok hs hI => hI.step hok (Monitor.Step.of_step frontend hs)
    rcases h₀.2 c with hidle | ⟨o, hfin⟩
    · rw [hidle] at hc
      cases hc
    · rw [hfin] at hc
      cases hc
  have henter := Monitor.Step.of_step frontend hstep
  have hexcl : Monitor.Exclusive t' :=
    henter.exclusive _ (Monitor.Run.exclusive hpre h₀.exclusive)
  have hcalled : Called p k x pre := hputs.called p k x (by rw [hp]; rfl)
  have hloc := (put_enters henter hp).2
  have hinv : LastPut p k x ((pre ++ [(t, .enter p)]) ++ post) s := by
    refine hpost.invariant (I := fun tr s =>
      (∀ e ∈ tr, ∀ q y, e.2 = .enter q → e.1.locals q ≠ .out (Op.put k y).start) →
        LastPut p k x ((pre ++ [(t, .enter p)]) ++ tr) s) ?_ ?_ hlast
    · intro _
      rw [List.append_nil]
      refine ⟨hputs.step hok henter, called_snoc.mpr (.inl hcalled), fun q hq i x hi => ?_, ?_⟩
      · exact absurd (hexcl.eq_of_inn hi hloc) hq
      · rw [hloc]
        exact rfl
    · intro tr u l u' _ hok hs ih hno
      rw [← List.append_assoc]
      refine (ih fun e he => hno e (List.mem_append_left _ he)).step hok
        (Monitor.Step.of_step frontend hs) fun q y hl => ?_
      exact hno (u, l) (List.mem_append_right _ (List.mem_singleton_self _)) q y hl
  rw [List.append_assoc, List.singleton_append] at hinv
  have hself := hinv.self
  rw [hfin] at hself
  exact fun id hid => (hself id hid).value

/-- A put whose first attempt to write server 1 is left in the network, and which writes
it with the second. -/
def putLeft (c : CallId) (k : Key) (x : Val) : List Label :=
  [.run c (.call (.put k x)), .enter c] ++ loopOn c [.run c .exec] [1] ++
    loopOn c [.run c .linger, .run c .exec] [1] ++ loopOn c [.run c .exec, .run c .exec] [1] ++
    [.run c .step]

/-- The attempt that `putLeft` leaves is executed before another put takes the lock. -/
theorem last_put_settles_before :
    ∃ tr s, SystemRun (fun _ l => OnlyPuts l) (System.fresh oneServer) tr s ∧
      (s.shared.process 1).data.lookup 5 = some 2 ∧
      ((s.shared.process 1).data.lookup 5 = some 2 ∨
        Undone 1 5 2 1 tr ((s.shared.process 1).data.lookup 5)) := by
  have hpre : ((exec System.step (System.fresh oneServer)
      (putLeft 0 5 1 ++ [.env (.deliver 0), .run 1 (.call (.put 5 2))])).map fun t =>
      t.awaits 1) = some (some (5, 2)) := by decide +kernel
  have hall : ((exec System.step (System.fresh oneServer)
      ((putLeft 0 5 1 ++ [.env (.deliver 0), .run 1 (.call (.put 5 2))]) ++
        (putOn 1 5 2 [1]).tail)).map fun s => (s.outcome 1, decide (1 ∈ s.shared.servers ∧
        (s.shared.process 1).data.lookup 5 = some 2))) =
      some (some (.returned (.success 5 2)), true) := by decide +kernel
  obtain ⟨t, post, s, hrun, ht, hs, hmem⟩ := Run.split_of_exec (fun _ l => OnlyPuts l) hpre hall
    (by decide +kernel)
  obtain ⟨hfin, hrest⟩ := Prod.mk.inj hs
  obtain ⟨h1, hx⟩ := of_decide_eq_true hrest
  refine ⟨_, s, hrun, hx, last_put_settles (System.fresh_quiet _) rfl hrun (System.awaits_eq ht)
    ?_ (System.outcome_eq hfin) 1 h1⟩
  intro e he q y hq
  have hlabel := hmem e he
  rw [hq] at hlabel
  simp [loopOn] at hlabel

/-- The attempt that `putLeft` leaves is executed after another put has returned. -/
theorem putLeft_undoes :
    ¬ ∀ (p : CallId) (k : Key) (x : Val) (s₀ s t : System) (pre post : Trace), Quiet s₀ →
      s₀.shared.outstanding = [] → (∀ id, s₀.shared.crashed id = false) →
      SystemRun (fun _ l => OnlyPuts l ∧ NoCrash l) s₀ (pre ++ (t, .enter p) :: post) s →
      t.locals p = .out (Op.put k x).start →
      (∀ e ∈ post, ∀ q y, e.2 = .enter q → e.1.locals q ≠ .out (Op.put k y).start) →
      (∀ c k' x', Called c k' x' (pre ++ (t, .enter p) :: post) →
        s.locals c = .out (.finished (.returned (.success k' x')))) →
      Quiet s → s.shared.outstanding = [] →
      ∀ id ∈ s.shared.servers, (s.shared.process id).data.lookup k = some x := by
  intro hclaim
  have hpre : ((exec System.step (System.fresh oneServer)
      (putLeft 0 5 1 ++ [.run 1 (.call (.put 5 2))])).map fun t => t.awaits 1) =
      some (some (5, 2)) := by decide +kernel
  have hall : ((exec System.step (System.fresh oneServer)
      ((putLeft 0 5 1 ++ [.run 1 (.call (.put 5 2))]) ++
        .enter 1 :: ((putOn 1 5 2 [1]).drop 2 ++ [.env (.deliver 0)]))).map fun s =>
      (s.outcome 0, s.outcome 1, decide (QuietBelow 2 s ∧ s.shared.outstanding.length = 0 ∧
        1 ∈ s.shared.servers ∧ (s.shared.process 1).data.lookup 5 = some 1))) =
      some (some (.returned (.success 5 1)), some (.returned (.success 5 2)), true) := by
    decide +kernel
  obtain ⟨t, post, s, hrun, ht, hs, hmem⟩ := Run.split_of_exec
    (fun _ l => (OnlyPuts l ∧ NoCrash l) ∧ ∀ c ∈ l.thread, c < 2) hpre hall (by decide +kernel)
  simp only [Prod.mk.injEq, decide_eq_true_eq] at hs
  obtain ⟨hfin₀, hfin₁, hbelow, hnone, h1, hx⟩ := hs
  have hidle := SystemRun.idle_above (n := 2) hrun (fun s l hok c hc => hok.2 c hc) fun _ _ => rfl
  have hy := hclaim 1 5 2 _ s t _ post (System.fresh_quiet _) rfl (fun _ => rfl)
    (hrun.mono fun _ _ h => h.1) (System.awaits_eq ht) ?_ ?_ (hbelow.quiet hidle)
    (List.eq_nil_of_length_eq_zero hnone) 1 h1
  · rw [hx] at hy
    cases hy
  · intro e he q y hq
    have hlabel := hmem e he
    rw [hq] at hlabel
    simp [putOn, loopOn] at hlabel
  · rintro c k x ⟨e, he, hcall⟩
    have hlabel : e.2 ∈ putLeft 0 5 1 ++ [.run 1 (.call (.put 5 2))] ++
        .enter 1 :: ((putOn 1 5 2 [1]).drop 2 ++ [.env (.deliver 0)]) := by
      rcases List.mem_append.mp he with he | he
      · exact List.mem_append_left _ (mem_traceOf he)
      · rcases List.mem_cons.mp he with rfl | he
        · simp
        · exact List.mem_append_right _ (List.mem_cons_of_mem _ (hmem e he))
    rw [hcall] at hlabel
    simp only [putLeft, putOn, loopOn] at hlabel
    simp at hlabel
    rcases hlabel with ⟨rfl, rfl, rfl⟩ | ⟨rfl, rfl, rfl⟩
    · exact System.outcome_eq hfin₀
    · exact System.outcome_eq hfin₁

end ReplicatedStore
