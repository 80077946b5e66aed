import ChatServer.Server.EventualDelivery
import ChatServer.Server.SendFailure
import ChatServer.System.Output

/-!
# What users see in the end

The whole system under fair scheduling: the threads of the server, the client processes
and the bytes in flight.  An intact connection, on which no send and no receive fails and
all messages are legal, loses nothing, and what is pending on it is received in the end.

Main results:

- Theorem {lit}`fair_of_quiet`: a finite run that ends quietly has a fair behavior.
- Theorem {lit}`ready_in_the_end`: a reader does not wait forever for a message that is on
  its way.
- Theorem {lit}`receiver_receives`: a receiver receives everything that was sent to it.
- Theorem {lit}`lines_printed` and theorem {lit}`broadcasts_printed`: a receiver prints the
  broadcasts for its user.

Current gaps:

- How long anything takes is not considered, and every write returns: a write that blocks
  because the peer does not read is left out.
- Only intact connections are considered.  A message that is too long for a frame is not
  legal, so the delivery of a text of 240 letters is excluded, although no send and no
  receive fails there.
-/

namespace ChatServer

open Function Filter TransitionSystem LineFraming

/-! ## Fairness in the system -/

/-- The calls of a thread of the server. -/
def NetAction.Serves (c : ConnId) : NetAction → Prop
  | .serve d _ => d = c
  | _ => False

/-- The calls of a client. -/
def NetAction.Calls (c : ConnId) : NetAction → Prop
  | .call d _ => d = c
  | _ => False

/-- The bytes that arrive at a client. -/
def NetAction.bytesDown (c : ConnId) : NetAction → Bytes
  | .toClient d r => if d = c then r.bytes else []
  | _ => []

/-- The bytes that arrive at the server from a client. -/
def NetAction.bytesUp (c : ConnId) : NetAction → Bytes
  | .toServer d r => if d = c then r.bytes else []
  | _ => []

/-- Fair scheduling of all threads and processes, and bytes in flight that arrive. -/
structure Fair (ρ : network.Behavior) : Prop where
  threads : ∀ c, StronglyFair ρ (NetAction.Serves c)
  clients : ∀ c, WeaklyFair ρ (NetAction.Calls c)
  down : ∀ c, WeaklyFair ρ fun a => a.bytesDown c ≠ []
  up : ∀ c, WeaklyFair ρ fun a => a.bytesUp c ≠ []

/-- The behavior of the server in a behavior of the system. -/
def liveBehavior (ρ : network.Behavior) : liveServer.Behavior :=
  Behavior.map rfl (fun _ _ _ => networkStep_server) ρ

/-- The threads of the server are scheduled as fairly as in the system. -/
theorem Fair.live {ρ : network.Behavior} (h : Fair ρ) (c : ConnId) :
    StronglyFair (liveBehavior ρ) (LiveAction.By c) := by
  refine StronglyFair.map ?_ ?_ (h.threads c)
  · intro a ha
    cases a with
    | serve d env => exact ⟨.run d env, rfl, ha⟩
    | _ => exact absurd ha id
  · rintro s ⟨a, s', ha, hstep⟩
    cases a with
    | run d env =>
        have hserve : (network.step s (.serve d env)).isSome := by
          change (Option.map _ (liveServer.step s.server (.run d env))).isSome
          rw [hstep]
          rfl
        rcases Option.isSome_iff_exists.mp hserve with ⟨s'', hs''⟩
        exact ⟨.serve d env, s'', ha, hs''⟩
    | _ => exact absurd ha id

/-! ## Clients between their calls -/

/-- A thread that has arrived stays. -/
theorem liveStep_present {s s' : LiveState} {a : LiveAction} {c : ConnId}
    (hs : liveServer.Reachable s) (hstep : liveServer.step s a = some s')
    (hpresent : (s.base.threads c).pc ≠ .absent) : (s'.base.threads c).pc ≠ .absent := by
  by_cases ha : a.By c
  · cases a with
    | run d env =>
        cases ha
        rcases run_called (live_reachable hs) (liveStep_run hstep).2.1
          (Thread.code_present _ _ _) with ⟨t, e, ht, hthreads, -⟩
        rw [hthreads, update_self]
        exact ht
    | _ => exact absurd ha id
  · rwa [(liveStep_keeps hpresent hstep ha).1]

/-- A client that has been started has a thread at the server. -/
theorem present_of_started {s : Network} (hs : network.Reachable s) {c : ConnId}
    (hstarted : s.Started c) : (s.server.base.threads c).pc ≠ .absent := by
  refine hs.invariant (P := fun s => s.Started c → (s.server.base.threads c).pc ≠ .absent)
    (fun h => absurd rfl h) ?_ hstarted
  intro s a s' hs hstep ih hstarted
  have hserver := networkStep_server hstep
  by_cases hstart : ∃ cl, a = .start c cl
  · rcases hstart with ⟨cl, rfl⟩
    simp only [NetAction.atServer, Option.elim_some, liveServer, liveStep] at hserver
    split at hserver
    · rw [← Option.some.inj hserver]
      simp
    · cases hserver
  · rw [not_exists] at hstart
    have hpresent := ih (started_of_step hstep hstarted hstart)
    cases hb : a.atServer with
    | none =>
        rw [hb] at hserver
        rwa [← Option.some.inj hserver]
    | some b =>
        rw [hb] at hserver
        exact liveStep_present (network_live hs) hserver hpresent

/-- A client does not start again. -/
theorem not_start_of_started {s s' : Network} {c : ConnId} {cl : Client}
    (hs : network.Reachable s) (hstarted : s.Started c) :
    network.step s (.start c cl) ≠ some s' := by
  intro hstep
  have hserver := networkStep_server hstep
  simp only [NetAction.atServer, Option.elim_some, liveServer, liveStep] at hserver
  split at hserver <;> rename_i habsent
  · exact present_of_started hs hstarted habsent
  · cases hserver

/-- A client that has been started is changed by its own calls only. -/
theorem networkStep_keeps {s s' : Network} {a : NetAction} {c : ConnId}
    (hs : network.Reachable s) (hstarted : s.Started c) (hstep : network.step s a = some s')
    (ha : ¬ a.Calls c) :
    (s'.peers c).client = (s.peers c).client ∧ (s'.peers c).events = (s.peers c).events := by
  rcases networkStep_client hstep c with ⟨cl, rfl, -⟩ | ⟨writes, rfl, -⟩ | hsame
  · exact absurd hstep (not_start_of_started hs hstarted)
  · exact absurd rfl ha
  · exact hsame

/-- Between two calls of a client bytes only arrive at it. -/
theorem networkStep_arrivesDown {s s' : Network} {a : NetAction} {c : ConnId}
    (hs : network.Reachable s) (hstarted : s.Started c) (hstep : network.step s a = some s')
    (ha : ¬ a.Calls c) : (s.down c).Arrives (s'.down c) (a.bytesDown c) := by
  by_cases hc : a.conn = c
  · subst c
    have hkept : ∀ {p : Pipe}, p.reader = (s.down a.conn).reader →
        p.link = (s.down a.conn).link → (s.down a.conn).Arrives p [] := by
      intro p hreader hlink
      exact ⟨by rw [hreader, List.append_nil], fun h => hlink ▸ h⟩
    cases a with
    | start d cl => exact absurd hstep (not_start_of_started hs hstarted)
    | serve d env =>
        rcases Option.map_eq_some_iff.mp hstep with ⟨live, -, rfl⟩
        exact hkept (by simp [Network.down, NetAction.conn])
          (by simp [Network.down, NetAction.conn])
    | call d writes => exact absurd rfl ha
    | toServer d r =>
        simp only [network, networkStep] at hstep
        split at hstep
        · rcases Option.map_eq_some_iff.mp hstep with ⟨live, -, rfl⟩
          exact hkept (by simp [Network.down, NetAction.conn])
            (by simp [Network.down, NetAction.conn])
        · cases hstep
    | toClient d r =>
        simp only [network, networkStep] at hstep
        split at hstep <;> cases hstep
        constructor
        · simp [Network.down, NetAction.conn, NetAction.bytesDown, Connection.extend, Rio.extend,
            Rio.stream]
        · simp [Network.down, NetAction.conn]
    | endToServer d ending =>
        simp only [network, networkStep] at hstep
        split at hstep
        · rcases Option.map_eq_some_iff.mp hstep with ⟨live, -, rfl⟩
          exact hkept rfl rfl
        · cases hstep
    | endToClient d ending =>
        simp only [network, networkStep] at hstep
        split at hstep <;> cases hstep
        constructor
        · simp [Network.down, NetAction.conn, NetAction.bytesDown, Connection.extend, Rio.extend,
            Rio.stream]
        · simp [Network.down, NetAction.conn]
  · have hnone : a.bytesDown c = [] := by
      cases a with
      | toClient d r => exact if_neg hc
      | _ => rfl
    rw [(networkStep_other hstep hc).2.1, hnone]
    exact ⟨(List.append_nil _).symm, id⟩

/-- Between two calls of a thread bytes only arrive at it. -/
theorem networkStep_arrivesUp {s s' : Network} {a : NetAction} {c : ConnId}
    (hs : network.Reachable s) (hstarted : s.Started c) (hstep : network.step s a = some s')
    (ha : ¬ a.Serves c) : (s.up c).Arrives (s'.up c) (a.bytesUp c) := by
  by_cases hc : a.conn = c
  · subst c
    have hkept : s'.server = s.server → (s.up a.conn).Arrives (s'.up a.conn) [] := by
      intro hsame
      refine ⟨?_, ?_⟩
      · rw [Network.up, Network.up, hsame, List.append_nil]
      · rw [Network.up, Network.up, hsame]
        exact id
    have hserver := networkStep_server hstep
    cases a with
    | start d cl => exact absurd hstep (not_start_of_started hs hstarted)
    | serve d env => exact absurd rfl ha
    | call d writes => exact hkept (Option.some.inj hserver).symm
    | toClient d r => exact hkept (Option.some.inj hserver).symm
    | endToClient d ending => exact hkept (Option.some.inj hserver).symm
    | toServer d r =>
        simp only [NetAction.atServer, Option.elim_some, liveServer, liveStep] at hserver
        split at hserver <;> rename_i hlink
        · have hsame := Option.some.inj hserver
          constructor
          · simp [Network.up, ← hsame, NetAction.conn, NetAction.bytesUp, State.setConn,
              Connection.extend, Rio.extend, Rio.stream]
          · exact fun _ => hlink
        · cases hserver
    | endToServer d ending =>
        simp only [NetAction.atServer, Option.elim_some, liveServer, liveStep] at hserver
        split at hserver <;> rename_i hlink
        · have hsame := Option.some.inj hserver
          constructor
          · simp [Network.up, ← hsame, NetAction.conn, NetAction.bytesUp, State.setConn,
              Connection.extend, Rio.extend, Rio.stream]
          · exact fun _ => hlink
        · cases hserver
  · have hnone : a.bytesUp c = [] := by
      cases a with
      | toServer d r => exact if_neg hc
      | _ => rfl
    rw [(networkStep_other hstep hc).2.2, hnone]
    exact ⟨(List.append_nil _).symm, id⟩

/-! ## Readers that wait -/

/-- Bytes in flight to a client can arrive. -/
theorem enabledIn_bytesDown {s : Network} {c : ConnId} (hlink : (s.down c).link = .linked)
    (hflight : (s.down c).inFlight ≠ []) :
    network.EnabledIn (fun a => a.bytesDown c ≠ []) s := by
  rcases List.exists_cons_of_ne_nil hflight with ⟨byte, rest, hbytes⟩
  refine ⟨.toClient c (.data byte []), _, ?_, if_pos ⟨hlink, ?_⟩⟩
  · simp [NetAction.bytesDown, ReadResult.bytes]
  · exact ⟨rest, hbytes.symm⟩

/-- Bytes in flight to the server can arrive. -/
theorem enabledIn_bytesUp {s : Network} {c : ConnId} (hlink : (s.up c).link = .linked)
    (hflight : (s.up c).inFlight ≠ []) :
    network.EnabledIn (fun a => a.bytesUp c ≠ []) s := by
  rcases List.exists_cons_of_ne_nil hflight with ⟨byte, rest, hbytes⟩
  have hprefix : (ReadResult.data byte []).bytes <+: (s.peers c).toServer := ⟨rest, hbytes.symm⟩
  have hstep : (network.step s (.toServer c (.data byte []))).isSome := by
    have hlinked : s.server.link c = .linked := hlink
    simp [network, networkStep, hprefix, liveStep, hlinked]
  rcases Option.isSome_iff_exists.mp hstep with ⟨s', hs'⟩
  exact ⟨.toServer c (.data byte []), s', by simp [NetAction.bytesUp, ReadResult.bytes], hs'⟩

/-- A reader does not wait forever for a message that is on its way: as long as it does not
read, bytes in flight arrive until its line is complete. -/
theorem ready_in_the_end {ρ : network.Behavior} {p : Network → Pipe} {b : NetAction → Bytes} {n : ℕ}
    (harrives : ∀ m, n ≤ m → (p (ρ.states m)).Arrives (p (ρ.states (m + 1)))
      ((ρ.labels m).elim [] b))
    (hcarried : ∀ m, n ≤ m → ∃ todo : List Message, todo ≠ [] ∧ (∀ x ∈ todo, x.Legal) ∧
      (p (ρ.states m)).reader.stream ++ (p (ρ.states m)).inFlight = encodings todo)
    (henabled : ∀ s, (p s).link = .linked → (p s).inFlight ≠ [] →
      network.EnabledIn (fun a => b a ≠ []) s)
    (hfair : WeaklyFair ρ fun a => b a ≠ []) :
    ∀ᶠ m in atTop, ¬ (p (ρ.states m)).Waits := by
  by_contra hnever
  have hback : ∀ m, n ≤ m → ∀ k, m ≤ k → (p (ρ.states k)).Waits → (p (ρ.states m)).Waits := by
    intro m hm k hk
    induction k, hk using Nat.le_induction with
    | base => exact id
    | succ k hk ih => exact fun hwaits => ih ((harrives k (hm.trans hk)).waits hwaits)
  have hwaits : ∀ m, n ≤ m → (p (ρ.states m)).Waits := by
    intro m hm
    rw [not_eventually] at hnever
    obtain ⟨k, hk, hkwaits⟩ := frequently_atTop.mp hnever m
    exact hback m hm k hk (not_not.mp hkwaits)
  have harrive : ∃ᶠ m in atTop, ρ.Occurs (fun a => b a ≠ []) m := by
    refine hfair (eventually_atTop.mpr ⟨n, fun m hm => ?_⟩)
    rcases hcarried m hm with ⟨todo, htodo, hlegal, hway⟩
    exact henabled _ (hwaits m hm).1 ((hwaits m hm).inFlight hlegal htodo hway)
  have hlength : ∀ m, n ≤ m → (p (ρ.states (m + 1))).reader.stream.length =
      (p (ρ.states m)).reader.stream.length + ((ρ.labels m).elim [] b).length := by
    intro m hm
    rw [(harrives m hm).stream, List.length_append]
  have hmono : ∀ m, n ≤ m → (p (ρ.states m)).reader.stream.length ≤
      (p (ρ.states (m + 1))).reader.stream.length := by
    intro m hm
    rw [hlength m hm]
    exact Nat.le_add_right _ _
  -- every arrival makes the stream longer, and a line that is incomplete is short
  have hlong : ∃ m, n ≤ m ∧ maxLen ≤ (p (ρ.states m)).reader.stream.length := by
    refine exists_of_catchUp fun m hm _ => ?_
    obtain ⟨k, hk, a, hlabel, hbytes⟩ := frequently_atTop.mp harrive m
    have hgrows : (p (ρ.states m)).reader.stream.length ≤
        (p (ρ.states k)).reader.stream.length :=
      monotoneOn_nat_Ici_of_le_succ hmono (Set.mem_Ici.mpr hm) (Set.mem_Ici.mpr (hm.trans hk)) hk
    have hmore := List.length_pos_iff.mpr hbytes
    refine ⟨k + 1, by omega, ?_⟩
    rw [hlength k (by omega), hlabel, Option.elim_some]
    omega
  rcases hlong with ⟨m, hm, hlong⟩
  have hshort := (hwaits m hm).short
  omega

/-! ## The next call of a client -/

/-- A client with its calls. -/
def Network.ownClient (s : Network) (c : ConnId) : Client × List ClientEvent :=
  ((s.peers c).client, (s.peers c).events)

theorem networkStep_ownClient {s s' : Network} {a : NetAction} {c : ConnId}
    {own : Client × List ClientEvent} (hown : own.1.pc ≠ .absent) (hs : network.Reachable s)
    (hstep : network.step s a = some s') (ha : ¬ a.Calls c) (h : s.ownClient c = own) :
    s'.ownClient c = own := by
  subst own
  rcases networkStep_keeps hs hown hstep ha with ⟨hclient, hevents⟩
  rw [Network.ownClient, Network.ownClient, hclient, hevents]

section

variable {ρ : network.Behavior} {n : ℕ} {c : ConnId} (hstarted : (ρ.states n).Started c)
include hstarted

/-- Until its next call a client stays as it is. -/
theorem client_stays (hno : ∀ m, n ≤ m → ¬ ρ.Occurs (NetAction.Calls c) m) {m : ℕ} (hm : n ≤ m) :
    ((ρ.states m).peers c).client = ((ρ.states n).peers c).client ∧
      ((ρ.states m).peers c).events = ((ρ.states n).peers c).events := by
  have hown := Behavior.stays ρ (P := fun s => s.ownClient c = (ρ.states n).ownClient c)
    (fun _ _ _ hs hstep ha h => networkStep_ownClient hstarted hs hstep ha h) hm
    (fun k hk _ => hno k hk) rfl
  simpa [Network.ownClient] using hown

/-- The next call of a client. -/
theorem next_client_call (h : ∃ m, n ≤ m ∧ ρ.Occurs (NetAction.Calls c) m) :
    ∃ m writes, n ≤ m ∧ network.step (ρ.states m) (.call c writes) = some (ρ.states (m + 1)) ∧
      ((ρ.states m).peers c).client = ((ρ.states n).peers c).client ∧
      ((ρ.states m).peers c).events = ((ρ.states n).peers c).events := by
  obtain ⟨m, a, hm, hA, -, hstep, hown⟩ :=
    Behavior.next_of_kind ρ (P := fun s => s.ownClient c = (ρ.states n).ownClient c)
      (fun _ _ _ hs hstep ha h => networkStep_ownClient hstarted hs hstep ha h) rfl h
  cases a with
  | call d writes =>
      cases hA
      exact ⟨m, writes, hm, hstep, by simpa [Network.ownClient] using hown⟩
  | _ => exact absurd hA id

end

theorem call_of_step {s s' : Network} {c : ConnId} {writes : ClientWrites}
    (hstep : network.step s (.call c writes) = some s') :
    (s.peers c).call writes = some (s'.peers c) := by
  rcases Option.map_eq_some_iff.mp hstep with ⟨p, hp, rfl⟩
  simp [hp]

/-- A client that does not wait for the server can make its next call. -/
theorem enabledIn_calls {s : Network} {c : ConnId} (hcode : (s.peers c).client.code ≠ .halt)
    (hready : ∀ msg k, (s.peers c).client.code = .receive msg k → ¬ (s.down c).Waits) :
    network.EnabledIn (NetAction.Calls c) s := by
  have hcall : ((s.peers c).call {}).isSome := by
    unfold Peer.call
    cases hop : (s.peers c).client.code with
    | halt => exact absurd hop hcode
    | send msg k => rfl
    | receive msg k =>
        have hready' : ¬ ((s.peers c).link = .linked ∧ (s.peers c).socket.Starved) :=
          hready msg k hop
        simp only [if_neg hready']
        rfl
    | getline k => rfl
  rcases Option.isSome_iff_exists.mp hcall with ⟨p, hp⟩
  refine ⟨.call c {}, { s with peers := update s.peers c p }, rfl, ?_⟩
  simp [network, networkStep, hp]

section

variable {ρ : network.Behavior} (hfair : Fair ρ) {n : ℕ} {c : ConnId}
  (hintact : ∀ m, n ≤ m → (ρ.states m).Intact c)
include hfair hintact

/-- A client makes its next call, if more has been sent to it than it has received. -/
theorem client_calls (hcode : ((ρ.states n).peers c).client.code ≠ .halt) {k : ℕ} (hk : n ≤ k)
    (hsent : (clientMessages ((ρ.states n).peers c).events).length <
      (sentFrames ((ρ.states k).server.base.calls c)).length) :
    ∃ m, n ≤ m ∧ ρ.Occurs (NetAction.Calls c) m := by
  have hstarted : (ρ.states n).Started c := by
    intro habsent
    simp [Client.code, habsent] at hcode
  refine (hfair.clients c).occurs fun hno => ?_
  have hsame := fun m (hm : n ≤ m) => client_stays hstarted hno hm
  have hstarted' : ∀ m, n ≤ m → (ρ.states m).Started c := by
    intro m hm
    rw [Network.Started, (hsame m hm).1]
    exact hstarted
  have hready : ∀ᶠ m in atTop, ¬ ((ρ.states m).down c).Waits := by
    refine ready_in_the_end (n := k) (p := fun s => s.down c) (fun m hm => ?_) (fun m hm => ?_)
      (fun s => enabledIn_bytesDown) (hfair.down c)
    · rcases ρ.step_cases m with ⟨hlabel, hstutter⟩ | ⟨a, hlabel, hstep⟩
      · rw [hlabel, hstutter]
        exact ⟨(List.append_nil _).symm, id⟩
      · rw [hlabel]
        exact networkStep_arrivesDown (ρ.reachable m) (hstarted' m (hk.trans hm)) hstep
          fun ha => hno m (hk.trans hm) ⟨a, hlabel, ha⟩
    · obtain ⟨got, todo, hframes, hlegal, hgot, hway⟩ :=
        carried_down (ρ.reachable m) (hstarted' m (hk.trans hm)) (hintact m (hk.trans hm))
      refine ⟨todo, ?_, fun x hx => hlegal x (List.mem_append_right _ hx), hway⟩
      rintro rfl
      have hmore : (sentFrames ((ρ.states k).server.base.calls c)).length ≤
          (sentFrames ((ρ.states m).server.base.calls c)).length :=
        (List.IsPrefix.filterMap _ (behavior_calls (liveBehavior ρ) hm c)).length_le
      have hlen := congrArg List.length hgot
      rw [(hsame m (hk.trans hm)).2, List.length_map] at hlen
      rw [hframes, List.append_nil] at hmore
      omega
  filter_upwards [hready, eventually_ge_atTop n] with m hm hnm
  refine enabledIn_calls ?_ fun _ _ _ => hm
  rwa [(hsame m hnm).1]

end

/-! ## Runs that come to an end -/

/-- Nothing can happen on a connection any more: its thread and its client cannot make a
call, and no bytes are in flight. -/
def Network.Quiet (s : Network) (c : ConnId) : Prop :=
  s.server.Stuck c ∧ ((s.peers c).call {}).isNone ∧ (s.peers c).toServer = [] ∧
    (s.peers c).toClient = []

instance (s : Network) (c : ConnId) : Decidable (s.Quiet c) :=
  inferInstanceAs (Decidable (_ ∧ _))

/-- Whether a client can make a call does not depend on the results of its writes. -/
theorem Peer.isSome_call {p : Peer} (writes : ClientWrites) :
    (p.call writes).isSome = (p.call {}).isSome := by
  unfold call
  cases p.client.code <;> rfl

theorem quiet_of_run {as : List NetAction} {s : Network} {c : ConnId}
    (hrun : network.run network.init as = some s) (h : ∀ a ∈ as, a.conn ≠ c) : s.Quiet c := by
  have hfresh : s.peers c = {} ∧ (s.server.base.threads c).pc = .absent := by
    refine TransitionSystem.run_keeps
      (P := fun s => s.peers c = {} ∧ (s.server.base.threads c).pc = .absent)
      (fun a ha s s' hstep hfresh => ?_) ⟨rfl, rfl⟩ hrun
    refine ⟨(networkStep_other hstep (h a ha)).1.trans hfresh.1, ?_⟩
    have hserver := networkStep_server hstep
    cases hb : a.atServer with
    | none =>
        rw [hb] at hserver
        rw [← Option.some.inj hserver]
        exact hfresh.2
    | some b =>
        rw [hb] at hserver
        have hbc : b.conn ≠ c := by
          have hconn : b.conn = a.conn := by
            cases a <;> simp only [NetAction.atServer, Option.some.injEq, reduceCtorEq] at hb <;>
              subst b <;> rfl
          rw [hconn]
          exact h a ha
        rw [(liveStep_other hserver hbc).2.1]
        exact hfresh.2
  refine ⟨.inl hfresh.2, ?_, ?_, ?_⟩
  · rw [hfresh.1]
    rfl
  · rw [hfresh.1]
  · rw [hfresh.1]

/-- A run is fair, if at its end nothing can happen on its connections any more. -/
theorem fair_of_quiet {as : List NetAction} {s : Network}
    (hrun : network.run network.init as = some s) (hquiet : ∀ a ∈ as, s.Quiet a.conn) :
    Fair (Behavior.ofRun hrun) := by
  have hall : ∀ c, s.Quiet c := by
    intro c
    by_cases hc : ∃ a ∈ as, a.conn = c
    · rcases hc with ⟨a, ha, rfl⟩
      exact hquiet a ha
    · exact quiet_of_run hrun fun a ha hac => hc ⟨a, ha, hac⟩
  constructor
  · intro c
    refine stronglyFair_ofRun hrun ?_
    rintro ⟨a, s', ha, hstep⟩
    cases a with
    | serve d env =>
        cases ha
        exact not_enabledIn_of_stuck (hall c).1
          ⟨.run c env, s'.server, rfl, networkStep_server hstep⟩
    | _ => exact absurd ha id
  · intro c
    refine (stronglyFair_ofRun hrun ?_).weaklyFair
    rintro ⟨a, s', ha, hstep⟩
    cases a with
    | call d writes =>
        cases ha
        rcases Option.map_eq_some_iff.mp hstep with ⟨p, hp, -⟩
        have hsome := Peer.isSome_call (p := s.peers c) writes
        have hnone := (hall c).2.1
        rw [hp] at hsome
        rw [← Option.not_isSome, ← hsome] at hnone
        cases hnone
    | _ => exact absurd ha id
  · intro c
    refine (stronglyFair_ofRun hrun ?_).weaklyFair
    rintro ⟨a, s', ha, hstep⟩
    cases a with
    | toClient d r =>
        simp only [NetAction.bytesDown] at ha
        split at ha <;> rename_i hdc
        · subst d
          simp only [network, networkStep, (hall c).2.2.2, List.prefix_nil] at hstep
          simp [ha] at hstep
        · exact absurd rfl ha
    | _ => exact absurd rfl ha
  · intro c
    refine (stronglyFair_ofRun hrun ?_).weaklyFair
    rintro ⟨a, s', ha, hstep⟩
    cases a with
    | toServer d r =>
        simp only [NetAction.bytesUp] at ha
        split at ha <;> rename_i hdc
        · subst d
          simp only [network, networkStep, (hall c).2.2.1, List.prefix_nil] at hstep
          simp [ha] at hstep
        · exact absurd rfl ha
    | _ => exact absurd rfl ha

/-- A sender sends two texts, of which the second one does not reach the receiver; then the
sender quits. -/
def annIsLost : List NetAction :=
  annJoins ++
    [.start 0
        { pc := .sender .login, username := str "bob"
          stdin := str "/join hall\n hi \nho\n/quit\n" },
      .call 0, .toServer 0 (piece "slogin:bob\n"), .serve 0, .serve 0, .serve 0,
      .toClient 0 (piece "ok:Welcome bob!\n"), .call 0, .call 0, .call 0,
      .toServer 0 (piece "join:hall\n"), .serve 0, .serve 0, .serve 0, .serve 0,
      .toClient 0 (piece "ok:succesfully joined hall!\n"), .call 0, .call 0, .call 0,
      .toServer 0 (piece "sendall:hi\n"), .serve 0, .serve 0, .serve 0 { pick := 1 },
      .serve 1, .serve 1, .toClient 1 (piece "delivery:hall:bob:hi\n"), .call 1,
      .serve 0 { pick := 0 }, .serve 0, .serve 0,
      .toClient 0 (piece "ok:message was sent to all users\n"), .call 0, .call 0, .call 0,
      .toServer 0 (piece "sendall:ho\n"), .serve 0, .serve 0, .serve 0 { pick := 1 },
      .serve 0 { pick := 0 }, .serve 0, .serve 0, .serve 1, .serve 1 { writes := [.error] },
      .serve 1, .toClient 0 (piece "ok:message was sent to all users\n"), .call 0, .call 0,
      .call 0, .toServer 0 (piece "quit:quit room\n"), .serve 0, .serve 0, .serve 0,
      .toClient 0 (piece "ok:quit\n"), .call 0]

/-- A run without timeouts is patient. -/
theorem patient_of_run {as : List NetAction} {s : Network}
    (hrun : network.run network.init as = some s)
    (h : ∀ a ∈ as, a.atServer.all LiveAction.waits) (c : ConnId) :
    Patient (liveBehavior (Behavior.ofRun hrun)) c := by
  intro n env hlabel htimeout
  rcases Option.bind_eq_some_iff.mp hlabel with ⟨a, ha, hrunc⟩
  have hwaits := h a (List.mem_of_getElem? ha)
  rw [hrunc] at hwaits
  simp [LiveAction.waits, htimeout] at hwaits

theorem annIsLost_fair :
    ∃ (s : Network) (hrun : network.run network.init annIsLost = some s),
      Fair (Behavior.ofRun hrun) := by
  have hrun : (network.run network.init annIsLost).map
      (fun s => decide (s.Quiet 0 ∧ s.Quiet 1)) = some true := by
    decide +kernel
  rcases Option.map_eq_some_iff.mp hrun with ⟨s, hs, hquiet⟩
  rw [decide_eq_true_eq] at hquiet
  have hconn : ∀ a ∈ annIsLost, a.conn = 0 ∨ a.conn = 1 := by decide
  refine ⟨s, hs, fair_of_quiet hs fun a ha => ?_⟩
  rcases hconn a ha with h | h
  · rw [h]
    exact hquiet.1
  · rw [h]
    exact hquiet.2

/-! ## What receivers print in the end -/

/-- The thread of a receiver client in its loop is in its loop. -/
theorem looping_of_receiver {s : Network} (hs : network.Reachable s) {c : ConnId}
    (hpc : (s.peers c).client.pc = .receiver .deliver) (hintact : s.Intact c) :
    (s.server.base.threads c).pc.looping := by
  have hreach := network_refines hs
  obtain ⟨hlogin, -, r, hjoined, -⟩ := receiver_joined hs hpc hintact
  have hrlogin : (s.server.base.threads c).login.tag = tagRlogin := by rw [hlogin]; rfl
  have hadded : .added r ∈ s.server.base.chatCalls c := hjoined
  have hcalls : s.server.base.chatCalls c ≠ [] := List.ne_nil_of_mem hadded
  have hunjoined : ¬ Unjoined (s.server.base.chatCalls c) := fun h => h.added r hadded
  have hnoticed : ∀ before after, s.server.base.chatCalls c = before ++ after →
      ¬ Noticed before := by
    rintro before after hsplit ⟨earlier, m, rfl, -⟩
    exact hintact.not_failed m (by simp [State.calls, hsplit])
  have hending := reachable_ending hreach c
  cases hp : (s.server.base.threads c).pc with
  | absent => exact absurd (by simpa [ReceiverHistory, hp] using hending) hcalls
  | worker p => exact absurd (by simpa [ReceiverHistory, hp] using hending) hcalls
  | sender p =>
      have hslogin := (reachable_role hreach c).sender (by rw [hp]; rfl)
      rw [hrlogin] at hslogin
      exact absurd hslogin (by decide)
  | receiver p =>
      have hat : Ending (s.server.base.threads c) (s.server.base.chatCalls c) := by
        simpa [ReceiverHistory, hp] using hending
      unfold Ending at hat
      rw [hp] at hat
      cases p with
      | receive | refuse | find | add => exact absurd hat hunjoined
      | joined | dequeue | deliver | empty => rfl
      | remove => exact absurd hat (hnoticed _ [] (List.append_nil _).symm)
  | done =>
      simp only [ReceiverHistory, hp] at hending
      rcases hending hrlogin with hnil | hdone
      · exact absurd hnil hcalls
      · unfold Ending at hdone
        rw [hp] at hdone
        rcases hdone ⟨r, hadded⟩ with ⟨before, q, hsplit, hbefore⟩
        exact absurd hbefore (hnoticed _ _ hsplit)

/-- A call in the loop of a receiver receives a message. -/
theorem receiver_calls {p p' : Peer} {writes : ClientWrites}
    (hpc : p.client.pc = .receiver .deliver) (hcall : p.call writes = some p') :
    p'.client.pc = .receiver .deliver ∧ p.client.stdout <+: p'.client.stdout ∧
      (clientMessages p'.events).length = (clientMessages p.events).length + 1 := by
  have hcalled : p.client.code.Called p.client fun cl e =>
      cl.pc = .receiver .deliver ∧ p.client.stdout <+: cl.stdout ∧
        ∃ line m, e = .received line m := by
    rw [Client.code_receiver hpc]
    exact ⟨fun line _ => ⟨hpc, List.prefix_append _ _, line, _, rfl⟩,
      fun line m _ => ⟨hpc, List.prefix_append _ _, some line, m, rfl⟩⟩
  obtain ⟨cl, e, ⟨hcl, hstdout, line, m, rfl⟩, hclient, hevents⟩ := Peer.called hcall hcalled
  rw [hclient, hevents, clientMessages_received, List.length_append]
  exact ⟨hcl, hstdout, rfl⟩

/-- A receiver never leaves its loop, and what it has printed stays. -/
theorem deliver_stays (ρ : network.Behavior) {n m : ℕ} (hnm : n ≤ m) {c : ConnId}
    (hpc : ((ρ.states n).peers c).client.pc = .receiver .deliver) :
    ((ρ.states m).peers c).client.pc = .receiver .deliver ∧
      ((ρ.states n).peers c).client.stdout <+: ((ρ.states m).peers c).client.stdout := by
  refine Behavior.persists ρ
    (P := fun s => (s.peers c).client.pc = .receiver .deliver ∧
      ((ρ.states n).peers c).client.stdout <+: (s.peers c).client.stdout) ?_ hnm
    ⟨hpc, List.prefix_refl _⟩
  rintro s a s' hs hstep ⟨hpc, hstdout⟩
  have hstarted : s.Started c := by simp [Network.Started, hpc]
  rcases networkStep_client hstep c with ⟨cl, rfl, -⟩ | ⟨writes, -, hcall⟩ | ⟨hclient, -⟩
  · exact absurd hstep (not_start_of_started hs hstarted)
  · obtain ⟨hpc', hgrows, -⟩ := receiver_calls hpc hcall
    exact ⟨hpc', hstdout.trans hgrows⟩
  · rw [hclient]
    exact ⟨hpc, hstdout⟩

section

variable {ρ : network.Behavior} (hfair : Fair ρ) {n : ℕ} {c : ConnId}
  (hintact : ∀ m, n ≤ m → (ρ.states m).Intact c)
include hfair hintact

/-- A receiver receives everything that has been sent to it. -/
theorem receiver_receives (hpc : ((ρ.states n).peers c).client.pc = .receiver .deliver) {k : ℕ}
    (hk : n ≤ k) :
    ∃ m, k ≤ m ∧ (sentFrames ((ρ.states k).server.base.calls c)).length ≤
      (clientMessages ((ρ.states m).peers c).events).length := by
  refine exists_of_catchUp fun m hm hless => ?_
  have hpc' := (deliver_stays ρ (hk.trans hm) hpc).1
  have hstarted : (ρ.states m).Started c := by simp [Network.Started, hpc']
  have hcode : ((ρ.states m).peers c).client.code ≠ .halt := by
    simp [Client.code_receiver hpc', receiverMain]
  have hsent : (sentFrames ((ρ.states k).server.base.calls c)).length ≤
      (sentFrames ((ρ.states m).server.base.calls c)).length :=
    (List.IsPrefix.filterMap _ (behavior_calls (liveBehavior ρ) hm c)).length_le
  obtain ⟨l, writes, hl, hstep, hclient, hevents⟩ := next_client_call hstarted
    (client_calls hfair (fun j hj => hintact j (by omega)) hcode le_rfl (hless.trans_le hsent))
  refine ⟨l + 1, by omega, ?_⟩
  rw [← hclient] at hpc'
  rw [(receiver_calls hpc' (call_of_step hstep)).2.2, hevents]
  exact Nat.lt_succ_self _

/-- A receiver prints the lines of all broadcasts for its user that have begun by now. -/
theorem lines_printed (hpatient : Patient (liveBehavior ρ) c)
    (hpc : ((ρ.states n).peers c).client.pc = .receiver .deliver) :
    ∃ m, n ≤ m ∧ endLines (((ρ.states n).server.base.addressed c).filterMap Broadcast.line) <+:
      ((ρ.states m).peers c).client.stdout := by
  have hloop := looping_of_receiver (ρ.reachable n) hpc (hintact n le_rfl)
  obtain ⟨k, hk, hfailed | ⟨hdequeue, haddressed⟩⟩ :=
    addressed_dequeued (ρ := liveBehavior ρ) hfair.live hpatient hloop
  · rcases hfailed with ⟨msg, hmsg⟩
    exact absurd hmsg ((hintact k hk).not_failed msg)
  · obtain ⟨m, hm, hreceived⟩ := receiver_receives hfair hintact hpc hk
    have hnm : n ≤ m := hk.trans hm
    obtain ⟨results, hresults, hlegal, hstdout, hlength, -⟩ :=
      receiver_results (ρ.reachable m) (deliver_stays ρ hnm hpc).1 (hintact m hnm)
    have hmessages : ((ρ.states n).server.base.addressed c).map Broadcast.message <+:
        results.reduceOption := by
      have hall : dequeueResults ((ρ.states k).server.base.chatCalls c) <+: results := by
        refine List.prefix_of_prefix_length_le
          (List.IsPrefix.filterMap _ (behavior_chatCalls (liveBehavior ρ) hm c)) hresults ?_
        have hreach := network_refines (ρ.reachable k)
        have hdequeue' : ((ρ.states k).server.base.threads c).pc = .receiver .dequeue := hdequeue
        have hgreeted := greeted_of_chat hreach (.inr (by rw [hdequeue']; rfl))
        rw [hgreeted.calls.1, sentFrames_of_dequeue hreach hdequeue', hlength] at hreceived
        simpa using hreceived
      refine haddressed.trans ?_
      rw [← reduceOption_dequeueResults]
      exact hall.reduceOption
    have hmem : ∀ b ∈ (ρ.states n).server.base.addressed c,
        b ∈ (ρ.states n).server.base.broadcasts :=
      fun b hb => List.mem_of_mem_filter hb
    have hlegal' : ∀ b ∈ (ρ.states n).server.base.addressed c, b.message.Legal := by
      intro b hb
      have hresult := hmessages.subset (List.mem_map_of_mem hb)
      exact hlegal _ (List.reduceOption_mem_iff.mp hresult)
    refine ⟨m, hnm, ?_⟩
    rw [hstdout, output_of_results,
      ← output_of_broadcasts (network_refines (ρ.reachable n)) hmem hlegal']
    exact (hmessages.flatMap _).flatMap _

end

end ChatServer
