/-
The transfer to a joining server, under failures.

Two retry loops surround the loop over the sender's entries, and either may start it
over after any prefix.  Writing an entry of the sender again changes nothing, so what
the joining server holds stays between its own data and the sender's data laid over it,
and an attempt that returns has reached the second.
-/
import ReplicatedStore.Loops
import ReplicatedStore.LateWrites

namespace ReplicatedStore

open Lib

/-! ## Partly overlaid data -/

/-- `d` is `prior` with some entries of `source` written over it. -/
def Between (prior source d : Data) : Prop :=
  ∀ k, d.lookup k = prior.lookup k ∨ ∃ x, source.lookup k = some x ∧ d.lookup k = some x

theorem Between.refl (prior source : Data) : Between prior source prior := fun _ => .inl rfl

theorem Between.insert {prior source d : Data} (h : Between prior source d) {k : Key} {x : Val}
    (hk : source.lookup k = some x) : Between prior source (d.insert k x) := by
  intro k'
  by_cases hkk : k' = k
  · subst hkk
    exact .inr ⟨x, hk, by simp⟩
  · rw [Finmap.lookup_insert_of_ne d hkk]
    exact h k'

/-- Once every entry of `source` has been written, nothing is left open. -/
theorem Between.eq_union {prior source d : Data} (h : Between prior source d)
    (hc : ∀ k x, source.lookup k = some x → d.lookup k = some x) : d = source ∪ prior := by
  refine Finmap.ext_lookup fun k => ?_
  cases hk : source.lookup k with
  | some x =>
    rw [Finmap.lookup_union_left (Finmap.mem_of_lookup_eq_some hk), hk]
    exact hc k x hk
  | none =>
    rw [Finmap.lookup_union_right (Finmap.lookup_eq_none.mp hk)]
    rcases h k with h | ⟨x, hx, _⟩
    · exact h
    · rw [hk] at hx
      cases hx

theorem between_union (prior source : Data) : Between prior source (source ∪ prior) := by
  intro k
  by_cases hk : k ∈ source
  · obtain ⟨x, hx⟩ := Finmap.mem_iff.mp hk
    exact .inr ⟨x, hx, by rw [Finmap.lookup_union_left hk, hx]⟩
  · exact .inl (Finmap.lookup_union_right hk)

/-! ## Points of the call -/

/-- What is known of the servers while `addServer` transfers, and after. -/
def Inside.Overlays (id sender : ServerId) (servers : Finmap ServerRPC) (prior source : Data)
    (v : View) : Inside → Prop
  | .transfer id' _ sender' a => id' = id ∧ sender' = sender ∧ v.servers = servers ∧
      v.data sender = source ∧ Between prior source (v.data id) ∧
      ∀ p, a.state = .remote p → p.Copied (v.data sender) (v.data id)
  | .unlock (.addServer id' _ _) _ => id' = id ∧ v.servers = servers ∧ v.data sender = source ∧
      v.data id = source ∪ prior
  | .leave (.finish (.threw _)) => v.servers = servers ∧ Between prior source (v.data id)
  | .register _ _ | .leave (.finish (.returned _)) => True
  | _ => False

section
variable {c : CallId} {id sender : ServerId} {servers : Finmap ServerRPC} {prior source : Data}
  {v v' : View}

/-- A step that keeps the membership and the data. -/
theorem Inside.Overlays.of_eq {i : Inside} (h : i.Overlays id sender servers prior source v)
    (hs : v'.servers = v.servers) (hd : v'.data = v.data) :
    i.Overlays id sender servers prior source v' := by
  unfold Inside.Overlays at h ⊢
  rw [hs, hd]
  exact h

/-- A failed attempt keeps what it has written. -/
theorem Inside.Overlays.failed {rpc : ServerRPC id} (a : Attempt Transfer)
    (hs : v.servers = servers) (hsource : v.data sender = source)
    (hb : Between prior source (v.data id)) :
    (Transfer.failed id rpc sender a).Overlays id sender servers prior source v := by
  rcases Transfer.failed_cases id rpc sender a with ⟨_, e⟩ | ⟨_, e⟩ <;> rw [e]
  · exact ⟨rfl, rfl, hs, hsource, hb, nofun⟩
  · exact ⟨hs, hb⟩

/-- What a step of `sendValuesToServer` writes is an entry of the sender. -/
theorem Send.Move.between {p p' : Send} {b : SendAct} (h : Send.Move v sender id p b v' p')
    (hp : p.Copied (v.data sender) (v.data id)) (hb : Between prior (v.data sender) (v.data id)) :
    Between prior (v.data sender) (v'.data id) := by
  rcases h.data hp with rfl | ⟨k, x, hk, rfl⟩
  · exact hb
  · rw [View.setData_data_self]
    exact hb.insert hk

theorem Inside.Move.overlays {i i' : Inside} {a : Act} (h : Inside.Move c v i a v' (.inl i'))
    (hi : i.Overlays id sender servers prior source v) :
    i'.Overlays id sender servers prior source v' := by
  generalize hr : (Sum.inl i' : Inside ⊕ Outside) = r at h
  cases h with
  | @senderFound id' rpc sender' n hmem =>
    obtain rfl := Sum.inl.inj hr
    obtain ⟨rfl, rfl, hs, hsource, hb, -⟩ := hi
    refine ⟨rfl, rfl, hs, hsource, hb, ?_⟩
    rintro p ⟨⟩
    trivial
  | @senderGone id' rpc sender' n hmem =>
    obtain rfl := Sum.inl.inj hr
    obtain ⟨rfl, rfl, hs, hsource, hb, -⟩ := hi
    exact .failed _ hs hsource hb
  | @send id' rpc sender' n p p' b v' hc h =>
    obtain rfl := Sum.inl.inj hr
    obtain ⟨rfl, rfl, hs, rfl, hb, hp⟩ := hi
    have hcopied := hp p rfl
    refine ⟨rfl, rfl, h.servers.trans hs, h.source hcopied, h.between hcopied hb, ?_⟩
    rintro q ⟨⟩
    exact h.copied hcopied
  | @sent id' rpc sender' n =>
    obtain rfl := Sum.inl.inj hr
    obtain ⟨rfl, rfl, hs, rfl, hb, hp⟩ := hi
    exact ⟨rfl, hs, rfl, hb.eq_union (hp .returned rfl)⟩
  | @transferThrow id' rpc sender' n p hmay =>
    obtain rfl := Sum.inl.inj hr
    obtain ⟨rfl, rfl, hs, hsource, hb, -⟩ := hi
    exact .failed _ hs hsource hb
  | @unlock w l a v' f h =>
    obtain rfl := Sum.inl.inj hr
    cases w with
    | put k x => exact hi.elim
    | addServer id' rpc sender' =>
      obtain ⟨rfl, hs, hsource, hd⟩ := hi
      have hdata := h.data_eq (by simp)
      cases f with
      | again l' => exact ⟨rfl, h.servers.trans hs, by rw [hdata, hsource], by rw [hdata, hd]⟩
      | done => trivial
      | raised => exact ⟨h.servers.trans hs, by rw [hdata, hd]; exact between_union prior source⟩
  | register =>
    obtain rfl := Sum.inl.inj hr
    trivial
  | leave => cases hr
  | _ => exact hi.elim

end

/-! ## The call -/

/-- When the transfer of `addServer` returns, the joining server holds the sender's data
laid over its own; when it throws, each key of the joining server has its own value or
the sender's, and the membership is as before. -/
theorem transfer_overlays {c : CallId} {id sender : ServerId} {rpc : ServerRPC id}
    {s₀ s : System} {tr : Trace} (hx : Monitor.Exclusive s₀)
    (hl : s₀.locals c = .inn (.transfer id rpc sender (.first .lookup)))
    (h : SystemRun (fun s l => executed (s, l) = none) s₀ tr s)
    (hheld : ∀ e ∈ tr, e.1.lock = some c) :
    (s.locals c = .inn (.unlock (.addServer id rpc sender) .start) →
      (s.shared.process id).data =
        (s₀.shared.process sender).data ∪ (s₀.shared.process id).data ∧
      (s.shared.process sender).data = (s₀.shared.process sender).data) ∧
    ∀ e, s.locals c = .inn (.leave (.finish (.threw e))) →
      (∀ k, (s.shared.process id).data.lookup k = (s₀.shared.process id).data.lookup k ∨
        ∃ x, (s₀.shared.process sender).data.lookup k = some x ∧
          (s.shared.process id).data.lookup k = some x) ∧
      s.shared.servers = s₀.shared.servers := by
  have hover := Monitor.Run.while_held
    (Q := fun _ i cl => i.Overlays id sender s₀.shared.servers (s₀.shared.process id).data
      (s₀.shared.process sender).data cl.view)
    h hx hl ⟨rfl, rfl, rfl, rfl, .refl _ _, nofun⟩ hheld
    (fun _ _ hi hQ => (Inside.Move.of_step hi).overlays hQ)
    (fun _ _ ho _ hQ => by rwa [Outside.step_view ho])
    (fun hok he _ hQ => hQ.of_eq (Event.Move.of_step he).servers
      (by rw [(Event.Move.of_step he).writes, hok]; rfl))
  refine ⟨fun hret => ?_, fun e hthrew => ?_⟩
  · obtain ⟨-, -, hsource, hd⟩ := hover _ hret
    exact ⟨hd, hsource⟩
  · obtain ⟨hs, hb⟩ := hover _ hthrew
    exact ⟨hb, hs⟩

theorem serverPort_two : -1 ≤ serverPort 2 := by decide

/-- Server 1 holds two keys and server 2 two others, one of them the same; the call 0 is
about to send the data of the first to the second. -/
def sending : System :=
  let s := System.holding oneServer 0 (.addServer 2)
    (.transfer 2 ⟨0, serverPort_two⟩ 1 (.first .lookup))
  let sender : ServerRPCImpl := (ServerRPCImpl.init.put 5 1).put 6 2
  let joining : ServerRPCImpl := (ServerRPCImpl.init.put 6 9).put 7 3
  { s with shared := (s.shared.setProcess 1 sender).setProcess 2 joining }

/-- The first attempt writes the key 5 and then fails to write it again; the second
writes all keys. -/
def sendAgain : List Label :=
  [.run 0 .step, .run 0 (.send .step), .run 0 (.send (.visit 5)), .run 0 (.send .exec),
    .run 0 (.send .throw), .run 0 (.send .throw), .run 0 (.send .throw), .run 0 (.send .throw),
    .run 0 .throw, .run 0 .step, .run 0 (.send .step), .run 0 (.send (.visit 6)),
    .run 0 (.send .exec), .run 0 (.send .reply), .run 0 (.send (.visit 5)), .run 0 (.send .exec),
    .run 0 (.send .reply), .run 0 (.send .step), .run 0 .reply]

/-- The transfer that the thread `c` has just made. -/
def System.sentTo (s : System) (c : CallId) : Option (ServerId × ServerId) :=
  match s.locals c with
  | .inn (.unlock (.addServer id ⟨0, _⟩ sender) .start) => some (id, sender)
  | _ => none

theorem System.sentTo_eq {s : System} {c : CallId} {id sender : ServerId}
    (h : s.sentTo c = some (id, sender)) :
    ∃ hport, s.locals c = .inn (.unlock (.addServer id ⟨0, hport⟩ sender) .start) := by
  unfold System.sentTo at h
  split at h
  · rename_i hl
    obtain ⟨rfl, rfl⟩ := Prod.mk.inj (Option.some.inj h)
    exact ⟨_, hl⟩
  · cases h

theorem sending_exclusive : Monitor.Exclusive sending := by
  intro c
  by_cases hc : c = 0
  · subst hc
    exact ⟨fun _ => ⟨_, rfl⟩, fun _ => rfl⟩
  · have hidle : sending.locals c = .out .idle := by
      simp [sending, System.holding, System.calling, hc]
    rw [hidle]
    simp [sending, System.holding, Ne.symm hc]

theorem transfer_overlays_sendAgain :
    ∃ tr s, SystemRun (fun s l => executed (s, l) = none) sending tr s ∧
      (s.shared.process 2).data =
        (sending.shared.process 1).data ∪ (sending.shared.process 2).data ∧
      (s.shared.process 2).data.lookup 6 = some 2 := by
  have hex : ((exec System.step sending sendAgain).map fun s =>
      (s.sentTo 0, (s.shared.process 2).data.lookup 6)) = some (some (2, 1), some 2) := by
    decide +kernel
  obtain ⟨s, hrun, hs⟩ := Run.exists_of_exec (fun s l => executed (s, l) = none) hex
    (by decide +kernel)
  obtain ⟨hsent, h6⟩ := Prod.mk.inj hs
  obtain ⟨_, hl⟩ := System.sentTo_eq hsent
  exact ⟨_, s, hrun,
    ((transfer_overlays sending_exclusive rfl hrun (by decide +kernel)).1 hl).1, h6⟩

end ReplicatedStore
