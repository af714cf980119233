/-
The list of servers, from `listServer` to `testKVS`.

The frontend separates the ids by blanks and has a word of its own for an empty
membership.  The driver splits the text at commas.  There is no comma in either text, so
the driver takes every membership for one of a single server.
-/
import ReplicatedStore.Runs
import ReplicatedStore.Steps
import ReplicatedStore.RunCluster

namespace ReplicatedStore

open Lib RunCluster

variable {servers : Finmap ServerRPC} {y : Reply}

/-! ## The text -/

/-- The servers in increasing order, each once. -/
structure Enumerates (ids : Finset ServerId) (l : List ServerId) : Prop where
  increasing : l.Pairwise (· < ·)
  mem_iff : ∀ id, id ∈ l ↔ id ∈ ids

theorem enumerates_sort (ids : Finset ServerId) : Enumerates ids (ids.sort (· ≤ ·)) :=
  ⟨(Finset.sortedLT_sort ids).pairwise, fun _ => Finset.mem_sort _⟩

theorem Enumerates.length {ids : Finset ServerId} {l : List ServerId} (h : Enumerates ids l) :
    l.length = ids.card := by
  have hnodup : l.Nodup := h.increasing.imp ne_of_lt
  have hset : l.toFinset = ids := Finset.ext fun id => List.mem_toFinset.trans (h.mem_iff id)
  rw [← hset, List.toFinset_card_of_nodup hnodup]

/-- What `listServer` answers for a membership. -/
def ListReply (servers : Finmap ServerRPC) : Reply → Prop
  | .errNoServers => servers.keys = ∅
  | .serverList ids => servers.keys ≠ ∅ ∧ Enumerates servers.keys ids
  | _ => False

theorem serverList_toList (ids : List ServerId) :
    (Reply.serverList ids).text.toList = Decimal.joined ' ' (ids.map Int32.toInt) := by
  have hjoin : (Reply.serverList ids).text = " ".intercalate (ids.map toString) := rfl
  have hsep : " ".toList = [' '] := by decide
  have hid : String.toList ∘ (toString : ServerId → String) = Decimal.text ∘ Int32.toInt := rfl
  rw [hjoin, String.toList_intercalate, hsep, List.map_map, hid, Decimal.joined, List.map_map]

theorem ListReply.split_comma (h : ListReply servers y) : split y.text ',' = [y.text.toList] := by
  cases y with
  | errNoServers => decide
  | serverList ids =>
    rw [split, serverList_toList]
    exact Decimal.splitOn_joined_of_ne (by decide) (by decide) _
  | _ => exact h.elim

/-- At blanks the text splits into the ids. -/
theorem ListReply.split_blank (h : ListReply servers y) (hne : servers.keys ≠ ∅) :
    ∃ ids, Enumerates servers.keys ids ∧
      split y.text ' ' = ids.map fun id => Decimal.text id.toInt := by
  cases y with
  | errNoServers => exact absurd h hne
  | serverList ids =>
    have hids : ids.map Int32.toInt ≠ [] := by
      intro hnil
      have hlen := h.2.length
      rw [List.map_eq_nil_iff.mp hnil] at hlen
      exact hne (Finset.card_eq_zero.mp hlen.symm)
    refine ⟨ids, h.2, ?_⟩
    rw [split, serverList_toList, Decimal.splitOn_joined (by decide) hids, List.map_map]
    rfl
  | _ => exact h.elim

/-! ## The driver -/

/-- The driver decodes the text as these servers: what it splits the text into are the ids,
each once and in increasing order, and it complains exactly if there are none. -/
structure Decodes (text : String) (ids : Finset ServerId) : Prop where
  list : ∃ l, Enumerates ids l ∧ split text ',' = l.map fun id => Decimal.text id.toInt
  length : (split text ',').length = ids.card
  guard : ∀ args, (Driver.init.step args (.reply text)).map Driver.main =
    some (.ended (.printed "[Error] Servers do not exist")) ↔ ids = ∅

theorem ListReply.goes_on (h : ListReply servers y) (args : Args) :
    (Driver.init.step args (.reply y.text)).map Driver.main = some .addClients := by
  simp [Driver.step, Driver.init, h.split_comma]

/-- A text without a comma stands for one server. -/
theorem ListReply.decodes_iff (h : ListReply servers y) :
    Decodes y.text servers.keys ↔ servers.keys.card = 1 := by
  constructor
  · intro hd
    rw [← hd.length, h.split_comma, List.length_singleton]
  · intro hcard
    have hne : servers.keys ≠ ∅ := by
      intro hnone
      rw [hnone, Finset.card_empty] at hcard
      cases hcard
    obtain ⟨id, hid, htext⟩ : ∃ id, Enumerates servers.keys [id] ∧
        y.text.toList = Decimal.text id.toInt := by
      cases y with
      | errNoServers => exact absurd h hne
      | serverList ids =>
        obtain ⟨id, rfl⟩ := List.length_eq_one_iff.mp (h.2.length.trans hcard)
        refine ⟨id, h.2, ?_⟩
        rw [serverList_toList, Decimal.joined]
        exact List.intercalate_singleton
      | _ => exact h.elim
    refine ⟨⟨[id], hid, ?_⟩, ?_, fun args => ?_⟩
    · rw [h.split_comma, htext]
      rfl
    · rw [h.split_comma, hcard, List.length_singleton]
    · rw [h.goes_on]
      simp [hne]

/-! ## The call -/

theorem listServer_listReply (servers : Finmap ServerRPC) :
    ListReply servers (listServer servers.keys) := by
  unfold listServer
  split
  · assumption
  · exact ⟨‹_›, enumerates_sort _⟩

theorem listServer_step {c : CallId} {cl cl' : Cluster} {a : Act} {r : Inside ⊕ Outside}
    (h : Inside.listServer.step c cl a = some (cl', r)) :
    a = .step ∧ ∃ y, r = .inl (.leave (.finish (.returned y))) ∧ ListReply cl.servers y := by
  cases a <;> simp only [Inside.step] at h <;> try contradiction
  obtain ⟨-, rfl⟩ := Prod.mk.inj (Option.some.inj h)
  exact ⟨rfl, _, rfl, listServer_listReply _⟩

/-- The call `c` reads the membership. -/
def ReadsList (c : CallId) (e : System × Label) : Prop :=
  e.2 = .run c .step ∧ e.1.locals c = .inn .listServer

section
variable {ok : System → Label → Prop} {s₀ t s s' : System} {l : Label} {c : CallId}
  {pre mid : Trace}

/-- How far a call of `listServer` has come. -/
inductive Listing (c : CallId) (mid : Trace) (s : System) : Prop
  | waiting (h : s.locals c = .out (.synchronized .listServer))
  | reading (h : s.locals c = .inn .listServer)
  | read (h : ∃ e ∈ mid, ReadsList c e)

theorem Listing.step (h : Listing c mid s) (hs : System.step s l = some s') :
    Listing c (mid ++ [(s, l)]) s' := by
  have hstep := Monitor.Step.of_step frontend hs
  cases h with
  | waiting hl =>
    rcases hstep.of_out hl with ⟨-, h'⟩ | ⟨a, w', -, ho, -⟩ | ⟨i, -, hi, -, -, h'⟩
    · exact .waiting h'
    · cases a <;> simp [frontend, Outside.step] at ho
    · obtain rfl := Option.some.inj hi
      exact .reading h'
  | reading hl =>
    rcases hstep.of_inn hl with ⟨-, h'⟩ | ⟨a, i', rfl, hi, -⟩ | ⟨a, w, rfl, hi, -⟩
    · exact .reading h'
    · obtain ⟨rfl, -⟩ := listServer_step hi
      exact .read ⟨_, List.mem_append_right _ (List.mem_singleton_self _), rfl, hl⟩
    · obtain ⟨-, y, hr, -⟩ := listServer_step hi
      cases hr
  | read h =>
    obtain ⟨e, he, hreads⟩ := h
    exact .read ⟨e, List.mem_append_left _ he, hreads⟩

/-- A call of `listServer` that is over has read the membership. -/
theorem exists_readsList (h : SystemRun ok s₀ (pre ++ (t, .run c (.call .listServer)) :: mid) s)
    {o : Outcome} (ho : s.outcome c = some o) : ∃ e ∈ mid, ReadsList c e := by
  obtain ⟨-, -, t', ht, hrun⟩ := h.of_split rfl
  have hstart := (call_start (Monitor.Step.of_step frontend ht)).2.2
  have hlist : Listing c mid s := hrun.invariant (I := fun mid s => Listing c mid s)
    (.waiting hstart) fun _ _ _ _ _ _ hs ih => ih.step hs
  have hend := System.outcome_eq ho
  cases hlist with
  | waiting hl => cases hl.symm.trans hend
  | reading hl => cases hl.symm.trans hend
  | read he => exact he

/-- What the call returns is what it has read. -/
theorem listReply_of_readsList {e : System × Label} {post : Trace}
    (h : SystemRun ok s₀ (pre ++ e :: post) s) (he : ReadsList c e)
    (hy : s.outcome c = some (.returned y)) : ListReply e.1.shared.servers y := by
  obtain ⟨u, l⟩ := e
  obtain ⟨rfl, hu⟩ := he
  obtain ⟨-, -, u', hs, hrun⟩ := h.of_split rfl
  rcases (Monitor.Step.of_step frontend hs).of_inn hu with
    ⟨hne, -⟩ | ⟨a, i', -, hi, h'⟩ | ⟨a, w, -, hi, -⟩
  · exact absurd rfl hne
  · obtain ⟨-, y', hr, hreply⟩ := listServer_step hi
    obtain rfl := Sum.inl.inj hr
    have hend := hrun.invariant (I := fun _ s =>
      s.locals c = .inn (.leave (.finish (.returned y'))) ∨
        s.locals c = .out (.finished (.returned y')))
      (.inl h') fun _ _ _ _ _ _ hs ih => decided_stays (Monitor.Step.of_step frontend hs) ih
    rw [System.outcome_eq hy] at hend
    rcases hend with hend | hend
    · cases hend
    · cases hend
      exact hreply
  · obtain ⟨-, y', hr, -⟩ := listServer_step hi
    cases hr

/-- The driver decodes the list that a call returns if and only if there was exactly one
server when the call read the membership. -/
theorem serverList_decoded_iff
    (h : SystemRun ok s₀ (pre ++ (t, .run c (.call .listServer)) :: mid) s)
    (hy : s.outcome c = some (.returned y)) :
    (∃ e ∈ mid, ReadsList c e) ∧ ∀ e ∈ mid, ReadsList c e →
      (Decodes y.text e.1.shared.servers.keys ↔ e.1.shared.servers.keys.card = 1) := by
  refine ⟨exists_readsList h hy, fun e he hreads => ?_⟩
  obtain ⟨before, after, rfl⟩ := List.append_of_mem he
  rw [← List.cons_append, ← List.append_assoc] at h
  exact (listReply_of_readsList h hreads hy).decodes_iff

end

/-! ## The call on its own -/

/-- The steps of a call of `listServer`. -/
def listOf (c : CallId) : List Label :=
  [.run c (.call .listServer), .enter c, .run c .step, .run c .step]

/-- From any membership a call that nobody interrupts runs to its end. -/
theorem listServer_runs (servers : Finmap ServerRPC) : ∃ t mid s y,
    SystemRun (fun _ _ => True) (System.fresh servers)
      ([] ++ (t, .run 0 (.call .listServer)) :: mid) s ∧
      s.outcome 0 = some (.returned y) ∧ ListReply servers y ∧
      ∀ e ∈ mid, e.1.shared.servers = servers := by
  obtain ⟨s, y, hs, hy⟩ : ∃ s y, exec System.step (System.fresh servers) (listOf 0) = some s ∧
      s.outcome 0 = some (.returned y) := ⟨_, _, rfl, rfl⟩
  obtain ⟨mid, hmid⟩ : ∃ mid, traceOf System.step (System.fresh servers) (listOf 0) =
      [] ++ (System.fresh servers, .run 0 (.call .listServer)) :: mid := ⟨_, rfl⟩
  have hsame : ∀ e ∈ traceOf System.step (System.fresh servers) (listOf 0),
      e.1.shared.servers = servers :=
    List.forall_mem_cons.mpr ⟨rfl, List.forall_mem_cons.mpr ⟨rfl, List.forall_mem_cons.mpr
      ⟨rfl, List.forall_mem_cons.mpr ⟨rfl, List.forall_mem_nil _⟩⟩⟩⟩
  have hrun : SystemRun (fun _ _ => True) (System.fresh servers)
      (traceOf System.step (System.fresh servers) (listOf 0)) s :=
    Run.of_exec hs fun _ _ => trivial
  rw [hmid] at hrun hsame
  obtain ⟨e, he, hreads⟩ := exists_readsList hrun hy
  have hservers := hsame e (List.mem_cons_of_mem _ he)
  obtain ⟨before, after, rfl⟩ := List.append_of_mem he
  have hread : SystemRun (fun _ _ => True) (System.fresh servers)
      (((System.fresh servers, .run 0 (.call .listServer)) :: before) ++ e :: after) s := hrun
  have hreply := listReply_of_readsList hread hreads hy
  exact ⟨_, _, s, y, hrun, hy, hservers ▸ hreply, fun e he => hsame e (List.mem_cons_of_mem _ he)⟩

/-- With one server the driver sees what is registered. -/
theorem serverList_decoded_oneServer : ∃ t mid s y,
    SystemRun (fun _ _ => True) (System.fresh oneServer)
      ([] ++ (t, .run 0 (.call .listServer)) :: mid) s ∧
      s.outcome 0 = some (.returned y) ∧ Decodes y.text oneServer.keys := by
  obtain ⟨t, mid, s, y, hrun, hy, -, hsame⟩ := listServer_runs oneServer
  obtain ⟨⟨e, he, hreads⟩, hall⟩ := serverList_decoded_iff hrun hy
  have hkeys : e.1.shared.servers = oneServer := hsame e he
  have hdecodes := (hall e he hreads).mpr (by rw [hkeys]; decide)
  exact ⟨t, mid, s, y, hrun, hy, hkeys ▸ hdecodes⟩

/-- Without a server the driver goes on, and two servers are one to it. -/
theorem serverList_not_decoded :
    (∃ t mid s, SystemRun (fun _ _ => True) (System.fresh ∅)
      ([] ++ (t, .run 0 (.call .listServer)) :: mid) s ∧
      s.outcome 0 = some (.returned .errNoServers) ∧
      split Reply.errNoServers.text ',' = ["ERR_NOSERVERS".toList] ∧
      ¬ Decodes Reply.errNoServers.text ∅) ∧
    ∃ t mid s y, SystemRun (fun _ _ => True) (System.fresh twoServers)
      ([] ++ (t, .run 0 (.call .listServer)) :: mid) s ∧
      s.outcome 0 = some (.returned y) ∧ (split y.text ',').length = 1 ∧
      twoServers.keys.card = 2 ∧ ¬ Decodes y.text twoServers.keys := by
  constructor
  · obtain ⟨t, mid, s, y, hrun, hy, hreply, -⟩ := listServer_runs ∅
    have herror : y = .errNoServers := by
      cases y with
      | errNoServers => rfl
      | serverList ids => exact absurd rfl hreply.1
      | _ => exact hreply.elim
    subst herror
    refine ⟨t, mid, s, hrun, hy, hreply.split_comma, fun hd => ?_⟩
    exact absurd (hreply.decodes_iff.mp hd) (by decide)
  · obtain ⟨t, mid, s, y, hrun, hy, hreply, -⟩ := listServer_runs twoServers
    have hcard : twoServers.keys.card = 2 := by decide
    refine ⟨t, mid, s, y, hrun, hy, ?_, hcard, fun hd => ?_⟩
    · rw [hreply.split_comma, List.length_singleton]
    · exact absurd (hcard.symm.trans (hreply.decodes_iff.mp hd)) (by decide)

end ReplicatedStore
