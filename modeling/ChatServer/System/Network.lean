import ChatServer.ClientPrograms
import ChatServer.Server.SessionSpec
import ChatServer.System.Pipe

/-!
# The server and its clients

The whole system: the live server, any number of client processes that run the two
programs, and the bytes in flight between them.  Every process, every piece of a stream
and every end of a connection has steps of its own, which interleave in any order.

Main results:

- Theorem {lit}`network_refines`: the server does in this system what the server of
  {lit}`Server.Step` can do, so that all its invariants hold here.
- Theorem {lit}`reachable_faithful`: both directions of every connection are faithful.
- Theorem {lit}`network_carries`: while nothing fails and all messages are legal, no frame is
  lost, repeated or reordered.

Current gaps:

- Every connection attempt succeeds, and every client runs one of the two programs.
- A client does not start before its connection has been accepted.
- Every write returns: a write that blocks because the peer does not read is left out.
-/

namespace ChatServer

open Function

/-! ## Clients and connections -/

/-- One call of a client: a line that it has read from its user, a message that it has
sent with the result, or a line that it has received and its message variable. -/
inductive ClientEvent where
  | typed (line : Bytes)
  | sent (msg : Message) (ok : Bool)
  | received (line : Option Bytes) (msg : Message)
deriving DecidableEq

/-- A client, its end of the connection, the bytes in flight in both directions, and the
calls of the client. -/
structure Peer where
  client : Client := {}
  socket : Connection := {}
  link : Link := .idle
  toServer : Bytes := []
  toClient : Bytes := []
  events : List ClientEvent := []
deriving DecidableEq

/-- The server, and for every connection what is outside of the server. -/
structure Network where
  server : LiveState := {}
  peers : ConnId → Peer := fun _ => {}

/-- The clients at the start of their programs. -/
def Client.AtStart (cl : Client) : Prop :=
  cl = { pc := .sender .login, username := cl.username, stdin := cl.stdin } ∨
    cl = { pc := .receiver .login, username := cl.username, roomName := cl.roomName }

instance (cl : Client) : Decidable cl.AtStart :=
  inferInstanceAs (Decidable (_ ∨ _))

/-- The next call of a client; a receive waits while its line is incomplete. -/
def Peer.call (p : Peer) (writes : ClientWrites) : Option Peer :=
  match p.client.code with
  | .halt => none
  | .send msg k =>
      let r := p.socket.send msg writes.results
      some
        { p with
          client := p.client.afterSend r.1 writes k
          socket := r.2.2
          toServer := p.toServer ++ r.2.1
          events := p.events ++ [.sent msg r.1] }
  | .receive msg k =>
      if p.link = .linked ∧ p.socket.Starved then none
      else
        let r := p.socket.receive msg
        some
          { p with
            client := k r.2.1
            socket := r.2.2
            events := p.events ++ [.received p.socket.nextLine r.2.1] }
  | .getline k =>
      let r := getline p.client.stdin
      some { p with client := k r.1 r.2, events := p.events ++ [.typed r.1] }

/-- The bytes that the next call of a thread writes. -/
def written (s : State) (c : ConnId) (env : Env) : Bytes :=
  match code s c with
  | .send msg _ => ((s.conns c).send msg env.writes).2.1
  | _ => []

/-! ## The system as a transition system -/

/-- A client starts; a thread of the server or a client makes its next call; a piece of a
stream arrives; an end of a connection meets the end of its stream. -/
inductive NetAction where
  | start (c : ConnId) (cl : Client)
  | serve (c : ConnId) (env : Env := {})
  | call (c : ConnId) (writes : ClientWrites := {})
  | toServer (c : ConnId) (r : ReadResult)
  | toClient (c : ConnId) (r : ReadResult)
  | endToServer (c : ConnId) (ending : StreamEnd)
  | endToClient (c : ConnId) (ending : StreamEnd)

/-- One step of the system.  An orderly end of a stream follows the end of the process
that wrote it, behind its last byte; a read error can come at any time. -/
def networkStep (s : Network) : NetAction → Option Network
  | .start c cl =>
      if cl.AtStart then
        (liveStep s.server (.accept c)).map fun server =>
          { server := server, peers := update s.peers c { client := cl, link := .linked } }
      else none
  | .serve c env =>
      let p := s.peers c
      (liveStep s.server (.run c env)).map fun server =>
        { server := server
          peers := update s.peers c
            { p with toClient := p.toClient ++ written s.server.base c env } }
  | .call c writes =>
      ((s.peers c).call writes).map fun p => { s with peers := update s.peers c p }
  | .toServer c r =>
      let p := s.peers c
      if r.bytes <+: p.toServer then
        (liveStep s.server (.arrive c r)).map fun server =>
          { server := server
            peers := update s.peers c
              { p with toServer := p.toServer.drop r.bytes.length } }
      else none
  | .toClient c r =>
      let p := s.peers c
      if p.link = .linked ∧ r.bytes <+: p.toClient then
        some
          { s with
            peers := update s.peers c
              { p with
                socket := p.socket.extend [r] .eof
                toClient := p.toClient.drop r.bytes.length } }
      else none
  | .endToServer c ending =>
      let p := s.peers c
      if ending = .eof → p.client.pc.ended = true ∧ p.toServer = [] then
        (liveStep s.server (.hangUp c ending)).map fun server => { s with server := server }
      else none
  | .endToClient c ending =>
      let p := s.peers c
      if p.link = .linked ∧
          (ending = .eof → (s.server.base.threads c).pc = .done ∧ p.toClient = []) then
        some
          { s with
            peers := update s.peers c
              { p with socket := p.socket.extend [] ending, link := .closed } }
      else none

/-- The chat system. -/
def network : TransitionSystem Network NetAction where
  init := {}
  step := networkStep

/-! ## Refinement -/

/-- What a step of the system is for the server. -/
def NetAction.atServer : NetAction → Option LiveAction
  | .start c _ => some (.accept c)
  | .serve c env => some (.run c env)
  | .toServer c r => some (.arrive c r)
  | .endToServer c ending => some (.hangUp c ending)
  | .call _ _ | .toClient _ _ | .endToClient _ _ => none

/-- A step of the system is a step of the live server, or the server stays as it is. -/
theorem networkStep_server {s s' : Network} {a : NetAction}
    (hstep : network.step s a = some s') :
    a.atServer.elim (some s.server) (liveServer.step s.server) = some s'.server := by
  simp only [network] at hstep
  cases a with
  | start c cl =>
      simp only [networkStep] at hstep
      split at hstep
      · rcases Option.map_eq_some_iff.mp hstep with ⟨server, hserver, rfl⟩
        exact hserver
      · cases hstep
  | serve c env =>
      rcases Option.map_eq_some_iff.mp hstep with ⟨server, hserver, rfl⟩
      exact hserver
  | call c writes =>
      rcases Option.map_eq_some_iff.mp hstep with ⟨p, -, rfl⟩
      rfl
  | toServer c r =>
      simp only [networkStep] at hstep
      split at hstep
      · rcases Option.map_eq_some_iff.mp hstep with ⟨server, hserver, rfl⟩
        exact hserver
      · cases hstep
  | toClient c r =>
      simp only [networkStep] at hstep
      split at hstep <;> cases hstep
      rfl
  | endToServer c ending =>
      simp only [networkStep] at hstep
      split at hstep
      · rcases Option.map_eq_some_iff.mp hstep with ⟨server, hserver, rfl⟩
        exact hserver
      · cases hstep
  | endToClient c ending =>
      simp only [networkStep] at hstep
      split at hstep <;> cases hstep
      rfl

/-- The server in the system is a live server. -/
theorem network_live {s : Network} (hs : network.Reachable s) :
    liveServer.Reachable s.server := by
  refine hs.refines (f := Network.server) rfl fun s a s' _ hstep => ?_
  have hserver := networkStep_server hstep
  cases hb : a.atServer with
  | none =>
      rw [hb] at hserver
      exact .inl (Option.some.inj hserver).symm
  | some b =>
      rw [hb] at hserver
      exact .inr ⟨b, hserver⟩

/-- The data of the server are reachable in the server of {lit}`Server.Step`. -/
theorem network_refines {s : Network} (hs : network.Reachable s) :
    server.Reachable s.server.base :=
  live_reachable (network_live hs)

/-! ## Both directions of a connection -/

/-- The sends of a thread with their results. -/
def sendResults (calls : List Event) : List (Message × Bool) :=
  calls.filterMap fun e =>
    match e with
    | .sent m ok => some (m, ok)
    | _ => none

/-- The sends of a client with their results. -/
def clientSends (events : List ClientEvent) : List (Message × Bool) :=
  events.filterMap fun e =>
    match e with
    | .sent m ok => some (m, ok)
    | _ => none

/-- The lines that a client has received. -/
def clientLines (events : List ClientEvent) : List (Option Bytes) :=
  events.filterMap fun e =>
    match e with
    | .received line _ => some line
    | _ => none

/-- The direction from the server to a client. -/
def Network.down (s : Network) (c : ConnId) : Pipe where
  reader := (s.peers c).socket.fdbuf
  link := (s.peers c).link
  inFlight := (s.peers c).toClient
  sent := sendResults (s.server.base.calls c)
  received := clientLines (s.peers c).events
  ended := decide ((s.server.base.threads c).pc = .done)

/-- The direction from a client to the server. -/
def Network.up (s : Network) (c : ConnId) : Pipe where
  reader := (s.server.base.conns c).fdbuf
  link := s.server.link c
  inFlight := (s.peers c).toServer
  sent := clientSends (s.peers c).events
  received := receivedLines (s.server.base.calls c)
  ended := (s.peers c).client.pc.ended

/-- The client of the connection has been started. -/
def Network.Started (s : Network) (c : ConnId) : Prop :=
  (s.peers c).client.pc ≠ .absent

/-- Both directions of every connection are faithful. -/
def Network.Faithful (s : Network) : Prop :=
  ∀ c, s.Started c → (s.down c).Faithful ∧ (s.up c).Faithful

/-- What the next call of a thread does to its connection and its calls. -/
def CallEffect (s s' : State) (c : ConnId) (env : Env) : Op → Prop
  | .receive msg _ =>
      s'.conns c = ((s.conns c).receive msg).2.2 ∧
        s'.calls c = s.calls c ++ [.received (s.conns c).nextLine]
  | .send msg _ =>
      s'.conns c = ((s.conns c).send msg env.writes).2.2 ∧
        s'.calls c = s.calls c ++ [.sent msg ((s.conns c).send msg env.writes).1]
  | _ =>
      s'.conns c = s.conns c ∧
        ∃ e : Event, e.isExchange = false ∧ s'.calls c = s.calls c ++ [e]

/-- Only receives and sends are exchanges. -/
theorem Op.Matches.isExchange {op : Op} {e : Event} (h : op.Matches e)
    (hreceive : ∀ msg k, op ≠ .receive msg k) (hsend : ∀ msg k, op ≠ .send msg k) :
    e.isExchange = false := by
  cases e with
  | received line =>
      rcases h with ⟨msg, k, rfl⟩
      exact absurd rfl (hreceive msg k)
  | sent msg ok =>
      rcases h with ⟨k, rfl⟩
      exact absurd rfl (hsend msg k)
  | _ => rfl

/-- The connections stay in calls that are no exchanges. -/
theorem Performed.conns_eq {s s' : State} {c : ConnId} {op : Op} (h : Performed s c op s')
    (hreceive : ∀ msg k, op ≠ .receive msg k) (hsend : ∀ msg k, op ≠ .send msg k) :
    s'.conns = s.conns := by
  cases h with
  | receive msg k => exact absurd rfl (hreceive msg k)
  | send msg k writes => exact absurd rfl (hsend msg k)
  | _ => rfl

/-- Every call has its effect on the connection. -/
theorem step_callEffect {s s' : State} {c : ConnId} {env : Env} (hs : server.Reachable s)
    (hstep : server.step s (.run c env) = some s') : CallEffect s s' c env (code s c) := by
  have hcalls : ∀ {s₁ : State} (t : Thread) (e : Event), s₁.threads = s.threads →
      s₁.loginCalls = s.loginCalls → s₁.chatCalls = s.chatCalls →
      (s₁.resume c t e).calls c = s.calls c ++ [e] := by
    intro s₁ t e hthreads hlogin hchat
    rw [State.calls_resume, update_self, State.calls, State.calls, hlogin, hchat]
    intro p hpc
    rw [hthreads] at hpc
    rw [hchat]
    exact chatCalls_of_worker hs hpc
  have hother : ∀ {op : Op}, code s c = op → (∀ msg k, op ≠ .receive msg k) →
      (∀ msg k, op ≠ .send msg k) → s'.conns c = s.conns c ∧
        ∃ e : Event, e.isExchange = false ∧ s'.calls c = s.calls c ++ [e] := by
    intro op hcode hreceive hsend
    have hperf := performed_of_perform hstep
    rw [hcode] at hperf
    have hconns := hperf.conns_eq hreceive hsend
    rcases hperf.called op.called_matches with
      ⟨s₁, t, e, rfl, hmatch, hthreads, hlogin, hchat, -⟩
    exact ⟨congrFun hconns c, e, hmatch.isExchange hreceive hsend,
      hcalls t e hthreads hlogin hchat⟩
  cases hcode : code s c with
  | receive msg k =>
      have hreceive : perform s c env (code s c) = some s' := hstep
      rw [hcode] at hreceive
      cases hreceive
      exact ⟨update_self _ _ _, hcalls _ _ rfl rfl rfl⟩
  | send msg k =>
      have hsend : perform s c env (code s c) = some s' := hstep
      rw [hcode] at hsend
      cases hsend
      exact ⟨update_self _ _ _, hcalls _ _ rfl rfl rfl⟩
  | _ => exact hother hcode (fun msg k h => by cases h) fun msg k h => by cases h

/-- A thread that is absent has not called anything. -/
theorem calls_of_absent {s : State} (hs : server.Reachable s) {c : ConnId}
    (habsent : (s.threads c).pc = .absent) : s.calls c = [] := by
  refine TransitionSystem.Reachable.invariant
    (P := fun s => (s.threads c).pc = .absent → s.calls c = []) (fun _ => rfl) ?_ hs habsent
  intro s a s' hs hstep ih habsent'
  by_cases hc : a.conn = c
  · cases a with
    | accept d reads ending =>
        rcases accept_step hstep with ⟨-, rfl⟩
        rw [State.accept_threads, ← hc, Action.conn, update_self] at habsent'
        cases habsent'
    | run d env =>
        rcases run_called hs hstep (Thread.code_present _ _ _) with ⟨t, e, ht, hthreads, -⟩
        rw [hthreads, ← hc, Action.conn, update_self] at habsent'
        exact absurd habsent' ht
  · rw [(step_other hstep hc).1] at habsent'
    rw [(step_other hstep hc).2]
    exact ih habsent'

/-- The connection whose step it is. -/
def NetAction.conn : NetAction → ConnId
  | .start c _ | .serve c _ | .call c _ | .toServer c _ | .toClient c _ | .endToServer c _
  | .endToClient c _ => c

/-- The steps of others leave both directions of a connection alone. -/
theorem networkStep_other {s s' : Network} {a : NetAction} (hstep : network.step s a = some s')
    {c : ConnId} (hc : a.conn ≠ c) :
    s'.peers c = s.peers c ∧ s'.down c = s.down c ∧ s'.up c = s.up c := by
  have hpeers : ∀ {d : ConnId} (p : Peer), d ≠ c → update s.peers d p c = s.peers c :=
    fun p hd => update_of_ne (Ne.symm hd) _ _
  have hlive : ∀ {b : LiveAction} {live : LiveState} {peers : ConnId → Peer},
      liveStep s.server b = some live → b.conn ≠ c → peers c = s.peers c →
      peers c = s.peers c ∧ Network.down { server := live, peers := peers } c = s.down c ∧
        Network.up { server := live, peers := peers } c = s.up c := by
    intro b live peers hb hbc hp
    obtain ⟨hconns, hthreads, hcalls, hlink⟩ := liveStep_other hb hbc
    refine ⟨hp, ?_, ?_⟩
    · simp only [Network.down, hp, hcalls, hthreads]
    · simp only [Network.up, hp, hcalls, hconns, hlink]
  have hsame : ∀ {peers : ConnId → Peer}, peers c = s.peers c →
      peers c = s.peers c ∧ Network.down { s with peers := peers } c = s.down c ∧
        Network.up { s with peers := peers } c = s.up c := by
    intro peers hp
    refine ⟨hp, ?_, ?_⟩
    · simp only [Network.down, hp]
    · simp only [Network.up, hp]
  simp only [network] at hstep
  cases a with
  | start d cl =>
      simp only [networkStep] at hstep
      split at hstep
      · rcases Option.map_eq_some_iff.mp hstep with ⟨live, hb, rfl⟩
        exact hlive hb hc (hpeers _ hc)
      · cases hstep
  | serve d env =>
      rcases Option.map_eq_some_iff.mp hstep with ⟨live, hb, rfl⟩
      exact hlive hb hc (hpeers _ hc)
  | call d writes =>
      rcases Option.map_eq_some_iff.mp hstep with ⟨p, -, rfl⟩
      exact hsame (hpeers _ hc)
  | toServer d r =>
      simp only [networkStep] at hstep
      split at hstep
      · rcases Option.map_eq_some_iff.mp hstep with ⟨live, hb, rfl⟩
        exact hlive hb hc (hpeers _ hc)
      · cases hstep
  | toClient d r =>
      simp only [networkStep] at hstep
      split at hstep <;> cases hstep
      exact hsame (hpeers _ hc)
  | endToServer d ending =>
      simp only [networkStep] at hstep
      split at hstep
      · rcases Option.map_eq_some_iff.mp hstep with ⟨live, hb, rfl⟩
        exact hlive hb hc rfl
      · cases hstep
  | endToClient d ending =>
      simp only [networkStep] at hstep
      split at hstep <;> cases hstep
      exact hsame (hpeers _ hc)

/-! ## Faithful directions -/

/-- A client that can make a call has not returned. -/
theorem not_ended_of_call {p p' : Peer} {writes : ClientWrites}
    (hcall : p.call writes = some p') : p.client.pc.ended = false := by
  by_contra hended
  have hcode : p.client.code = .halt := by
    cases hpc : p.client.pc <;> simp_all [ClientPc.ended, Client.code]
  simp [Peer.call, hcode] at hcall

/-- A client that has just been started has fresh pipes. -/
theorem networkStep_start {s s' : Network} {c : ConnId} {cl : Client}
    (hs : network.Reachable s) (hstep : network.step s (.start c cl) = some s') :
    (s'.down c).Fresh ∧ (s'.up c).Fresh := by
  simp only [network, networkStep] at hstep
  split at hstep
  · rcases Option.map_eq_some_iff.mp hstep with ⟨live, hlive, rfl⟩
    simp only [liveStep] at hlive
    split at hlive <;> rename_i habsent <;> cases hlive
    have hcalls : (s.server.base.accept c {}).calls c = [] :=
      calls_of_absent (network_refines hs) habsent
    have hconns : (s.server.base.accept c {}).conns c = {} := update_self _ _ _
    refine ⟨⟨?_, ?_, ?_, ?_, ?_⟩, ⟨?_, ?_, ?_, ?_, ?_⟩⟩ <;>
      simp [Network.down, Network.up, hcalls, hconns, sendResults, clientLines, clientSends,
        receivedLines]
  · cases hstep

/-- A call of a thread keeps both directions of its connection faithful. -/
theorem networkStep_serve {s s' : Network} {c : ConnId} {env : Env} (hs : network.Reachable s)
    (hstep : network.step s (.serve c env) = some s') (hdown : (s.down c).Faithful)
    (hup : (s.up c).Faithful) : (s'.down c).Faithful ∧ (s'.up c).Faithful := by
  rcases Option.map_eq_some_iff.mp hstep with ⟨live, hlive, rfl⟩
  simp only [liveStep] at hlive
  split at hlive <;> rename_i hblocked
  · cases hlive
  rcases Option.map_eq_some_iff.mp hlive with ⟨base, hbase, rfl⟩
  have heffect := step_callEffect (network_refines hs) hbase
  have hended : (s.down c).ended = false := decide_eq_false (not_done_of_run hbase)
  have hfinish : (s.down c).ended = true → decide ((base.threads c).pc = .done) = true := by
    simp [hended]
  cases hcode : code s.server.base c with
  | receive msg k =>
      rw [hcode] at heffect
      rcases heffect with ⟨hconns, hcalls⟩
      have hready : (s.up c).link = .linked → ¬ (s.server.base.conns c).Starved := by
        intro hlink hstarved
        exact hblocked ⟨by rw [hcode]; rfl, hlink, hstarved⟩
      have hdown' := hdown.finish hfinish
      have hup' := hup.receive rfl hready msg
      simpa [Network.down, Network.up, written, hcode, hcalls, hconns, sendResults,
        receivedLines] using And.intro hdown' hup'
  | send msg k =>
      rw [hcode] at heffect
      rcases heffect with ⟨hconns, hcalls⟩
      have hdown' :=
        (hdown.send hended (s.server.base.conns c) msg env.writes).finish hfinish
      simpa [Network.down, Network.up, written, hcode, hcalls, hconns, sendResults,
        receivedLines, Connection.fdbuf_send] using And.intro hdown' hup
  | _ =>
      rw [hcode] at heffect
      rcases heffect with ⟨hconns, e, he, hcalls⟩
      have hsent : sendResults [e] = [] := by cases e <;> simp_all [sendResults, Event.isExchange]
      have hreceived : receivedLines [e] = [] := by
        cases e <;> simp_all [receivedLines, Event.isExchange]
      have hdown' := hdown.finish hfinish
      simp only [sendResults] at hsent
      simp only [receivedLines] at hreceived
      simpa [Network.down, Network.up, written, hcode, hcalls, hconns, sendResults,
        receivedLines, hsent, hreceived] using And.intro hdown' hup

/-- A call of a client keeps both directions of its connection faithful. -/
theorem networkStep_call {s s' : Network} {c : ConnId} {writes : ClientWrites}
    (hstep : network.step s (.call c writes) = some s') (hdown : (s.down c).Faithful)
    (hup : (s.up c).Faithful) : (s'.down c).Faithful ∧ (s'.up c).Faithful := by
  rcases Option.map_eq_some_iff.mp hstep with ⟨p, hp, rfl⟩
  have hended : (s.up c).ended = false := not_ended_of_call hp
  have hfinish : (s.up c).ended = true → p.client.pc.ended = true := by simp [hended]
  unfold Peer.call at hp
  cases hcode : (s.peers c).client.code with
  | halt => simp [hcode] at hp
  | send msg k =>
      simp only [hcode, Option.some.injEq] at hp
      subst p
      have hup' := (hup.send hended (s.peers c).socket msg writes.results).finish hfinish
      simpa [Network.down, Network.up, clientSends, clientLines, Connection.fdbuf_send] using
        And.intro hdown hup'
  | receive msg k =>
      simp only [hcode] at hp
      split at hp <;> rename_i hwait
      · cases hp
      simp only [Option.some.injEq] at hp
      subst p
      have hready : (s.down c).link = .linked → ¬ (s.peers c).socket.Starved :=
        fun hlink hstarved => hwait ⟨hlink, hstarved⟩
      have hdown' := hdown.receive rfl hready msg
      have hup' := hup.finish hfinish
      simpa [Network.down, Network.up, clientSends, clientLines] using And.intro hdown' hup'
  | getline k =>
      simp only [hcode, Option.some.injEq] at hp
      subst p
      have hup' := hup.finish hfinish
      simpa [Network.down, Network.up, clientSends, clientLines] using And.intro hdown hup'

/-- A list is its prefix and the rest. -/
theorem eq_append_drop {xs ys : Bytes} (h : xs <+: ys) : ys = xs ++ ys.drop xs.length := by
  rcases h with ⟨zs, rfl⟩
  simp

/-- The arrival of a piece, seen from the server. -/
theorem networkStep_toServer {s s' : Network} {c : ConnId} {r : ReadResult}
    (hstep : network.step s (.toServer c r) = some s') (hup : (s.up c).Faithful) :
    s'.down c = s.down c ∧ (s'.up c).Faithful := by
  simp only [network, networkStep] at hstep
  split at hstep <;> rename_i hr
  · rcases Option.map_eq_some_iff.mp hstep with ⟨live, hlive, rfl⟩
    simp only [liveStep] at hlive
    split at hlive <;> rename_i hlink <;> cases hlive
    refine ⟨by simp only [Network.down, update_self]; rfl, ?_⟩
    have hup' := hup.arrive hlink (eq_append_drop hr)
    simpa [Network.up, State.setConn, State.calls, Connection.extend] using hup'
  · cases hstep

/-- Bytes on their way to a client keep its pipe faithful. -/
theorem networkStep_toClient {s s' : Network} {c : ConnId} {r : ReadResult}
    (hstep : network.step s (.toClient c r) = some s') (hdown : (s.down c).Faithful) :
    (s'.down c).Faithful ∧ s'.up c = s.up c := by
  simp only [network, networkStep] at hstep
  split at hstep <;> rename_i hr
  · cases hstep
    refine ⟨?_, by simp [Network.up]⟩
    have hdown' := hdown.arrive hr.1 (eq_append_drop hr.2)
    simpa [Network.down, Connection.extend] using hdown'
  · cases hstep

/-- The end of the stream to the server keeps the pipe faithful. -/
theorem networkStep_endToServer {s s' : Network} {c : ConnId} {ending : StreamEnd}
    (hstep : network.step s (.endToServer c ending) = some s') (hup : (s.up c).Faithful) :
    s'.down c = s.down c ∧ (s'.up c).Faithful := by
  simp only [network, networkStep] at hstep
  split at hstep <;> rename_i horderly
  · rcases Option.map_eq_some_iff.mp hstep with ⟨live, hlive, rfl⟩
    simp only [liveStep] at hlive
    split at hlive <;> cases hlive
    refine ⟨rfl, ?_⟩
    have hup' := hup.hangUp ending horderly
    simpa [Network.up, State.setConn, State.calls, Connection.extend] using hup'
  · cases hstep

/-- The end of the stream to a client keeps the pipe faithful. -/
theorem networkStep_endToClient {s s' : Network} {c : ConnId} {ending : StreamEnd}
    (hstep : network.step s (.endToClient c ending) = some s') (hdown : (s.down c).Faithful) :
    (s'.down c).Faithful ∧ s'.up c = s.up c := by
  simp only [network, networkStep] at hstep
  split at hstep <;> rename_i hend
  · cases hstep
    refine ⟨?_, by simp [Network.up]⟩
    have hdown' := hdown.hangUp ending fun heof => by
      simpa [Network.down] using hend.2 heof
    simpa [Network.down, Connection.extend] using hdown'
  · cases hstep

/-- A client that can make a call has been started. -/
theorem present_of_call {p p' : Peer} {writes : ClientWrites}
    (hcall : p.call writes = some p') : p.client.pc ≠ .absent := by
  intro habsent
  have hcode : p.client.code = .halt := by simp [Client.code, habsent]
  simp [Peer.call, hcode] at hcall

/-- What a step does to a client: it starts, it makes a call, or it stays as it is. -/
theorem networkStep_client {s s' : Network} {a : NetAction}
    (hstep : network.step s a = some s') (c : ConnId) :
    (∃ cl, a = .start c cl ∧ cl.AtStart ∧ (s'.peers c).client = cl ∧ (s'.peers c).events = []) ∨
      (∃ writes, a = .call c writes ∧ (s.peers c).call writes = some (s'.peers c)) ∨
      (s'.peers c).client = (s.peers c).client ∧ (s'.peers c).events = (s.peers c).events := by
  by_cases hc : a.conn = c
  · simp only [network] at hstep
    cases a with
    | start d cl =>
        cases hc
        simp only [networkStep] at hstep
        split at hstep <;> rename_i hstart
        · rcases Option.map_eq_some_iff.mp hstep with ⟨live, -, rfl⟩
          exact .inl ⟨cl, rfl, hstart, by simp [NetAction.conn], by simp [NetAction.conn]⟩
        · cases hstep
    | call d writes =>
        cases hc
        rcases Option.map_eq_some_iff.mp hstep with ⟨p, hp, rfl⟩
        exact .inr (.inl ⟨writes, rfl, by simpa [NetAction.conn] using hp⟩)
    | serve d env =>
        cases hc
        rcases Option.map_eq_some_iff.mp hstep with ⟨live, -, rfl⟩
        exact .inr (.inr ⟨by simp [NetAction.conn], by simp [NetAction.conn]⟩)
    | toServer d r =>
        cases hc
        simp only [networkStep] at hstep
        split at hstep
        · rcases Option.map_eq_some_iff.mp hstep with ⟨live, -, rfl⟩
          exact .inr (.inr ⟨by simp [NetAction.conn], by simp [NetAction.conn]⟩)
        · cases hstep
    | toClient d r =>
        cases hc
        simp only [networkStep] at hstep
        split at hstep <;> cases hstep
        exact .inr (.inr ⟨by simp [NetAction.conn], by simp [NetAction.conn]⟩)
    | endToServer d ending =>
        simp only [networkStep] at hstep
        split at hstep
        · rcases Option.map_eq_some_iff.mp hstep with ⟨live, -, rfl⟩
          exact .inr (.inr ⟨rfl, rfl⟩)
        · cases hstep
    | endToClient d ending =>
        cases hc
        simp only [networkStep] at hstep
        split at hstep <;> cases hstep
        exact .inr (.inr ⟨by simp [NetAction.conn], by simp [NetAction.conn]⟩)
  · rw [(networkStep_other hstep hc).1]
    exact .inr (.inr ⟨rfl, rfl⟩)

/-- Only a start makes a client present. -/
theorem started_of_step {s s' : Network} {a : NetAction} {c : ConnId}
    (hstep : network.step s a = some s') (hstarted : s'.Started c)
    (hstart : ∀ cl, a ≠ .start c cl) : s.Started c := by
  rcases networkStep_client hstep c with ⟨cl, ha, -⟩ | ⟨writes, -, hcall⟩ | ⟨hclient, -⟩
  · exact absurd ha (hstart cl)
  · exact present_of_call hcall
  · rwa [Network.Started, hclient] at hstarted

/-- Every step keeps both directions of every connection faithful. -/
theorem networkStep_faithful {s s' : Network} {a : NetAction} (hs : network.Reachable s)
    (hstep : network.step s a = some s') (h : s.Faithful) : s'.Faithful := by
  intro c hstarted
  by_cases hc : a.conn = c
  · by_cases hstart : ∃ cl, a = .start c cl
    · rcases hstart with ⟨cl, rfl⟩
      rcases networkStep_start hs hstep with ⟨hdown, hup⟩
      exact ⟨hdown.faithful, hup.faithful⟩
    · rw [not_exists] at hstart
      rcases h c (started_of_step hstep hstarted hstart) with ⟨hdown, hup⟩
      cases a with
      | start d cl => exact absurd (by rw [← hc]; rfl) (hstart cl)
      | serve d env =>
          cases hc
          exact networkStep_serve hs hstep hdown hup
      | call d writes =>
          cases hc
          exact networkStep_call hstep hdown hup
      | toServer d r =>
          cases hc
          rcases networkStep_toServer hstep hup with ⟨hsame, hup'⟩
          exact ⟨hsame ▸ hdown, hup'⟩
      | toClient d r =>
          cases hc
          rcases networkStep_toClient hstep hdown with ⟨hdown', hsame⟩
          exact ⟨hdown', hsame ▸ hup⟩
      | endToServer d ending =>
          cases hc
          rcases networkStep_endToServer hstep hup with ⟨hsame, hup'⟩
          exact ⟨hsame ▸ hdown, hup'⟩
      | endToClient d ending =>
          cases hc
          rcases networkStep_endToClient hstep hdown with ⟨hdown', hsame⟩
          exact ⟨hdown', hsame ▸ hup⟩
  · obtain ⟨hpeer, hdown, hup⟩ := networkStep_other hstep hc
    rw [hdown, hup]
    rw [Network.Started, hpeer] at hstarted
    exact h c hstarted

/-- In every reachable state both directions of every connection are faithful: the lines
that were received are the first frames that were sent, and the others are on their way. -/
theorem reachable_faithful {s : Network} (hs : network.Reachable s) : s.Faithful := by
  refine hs.invariant (fun c hstarted => ?_) fun s a s' hs hstep h =>
    networkStep_faithful hs hstep h
  exact absurd rfl hstarted

/-- Only no frames have no bytes. -/
theorem encodings_eq_nil {ms : List Message} (h : encodings ms = []) : ms = [] := by
  cases ms with
  | nil => rfl
  | cons m ms => simp [encodings, Message.encoding] at h

/-- The connections carry messages. In both directions, as long as no send and no receive fails
and all messages are legal, the lines that were received are the first frames that were sent,
in their order; the bytes of the others are on their way; and when the end of the stream has
been met and its buffer has been read, no frame is missing. -/
theorem network_carries {s : Network} (hs : network.Reachable s) {c : ConnId}
    (hstarted : s.Started c) {p : Pipe} (hp : p = s.down c ∨ p = s.up c) (hsound : p.Sound)
    (hreceived : none ∉ p.received) :
    ∃ got todo : List Message,
      p.sent.map Prod.fst = got ++ todo ∧
        p.received = got.map (fun m => some m.encoding) ∧
        p.reader.stream ++ p.inFlight = encodings todo ∧
        (p.link ≠ .linked → p.reader.ending = .eof → p.reader.stream = [] → todo = []) := by
  have hfaithful : p.Faithful := by
    rcases hp with rfl | rfl
    · exact (reachable_faithful hs c hstarted).1
    · exact (reachable_faithful hs c hstarted).2
  rcases hfaithful.carries hsound hreceived with ⟨got, todo, hsent, hgot, hway⟩
  refine ⟨got, todo, hsent, hgot, hway, fun hlink hending hstream => ?_⟩
  rw [hstream, (hfaithful.orderly hlink hending).2] at hway
  exact encodings_eq_nil hway.symm

/-- A piece of a stream. -/
def piece (text : String) : ReadResult :=
  match str text with
  | [] => .eintr
  | first :: rest => .data first rest

/-- A login of which the server has received nothing, and half of which is in flight. -/
theorem network_carries_half :
    ∃ s, network.run network.init
        [.start 0 { pc := .sender .login, username := str "bob" }, .call 0,
          .toServer 0 (piece "slogin")] = some s ∧
      (∃ got todo : List Message,
        (s.up 0).sent.map Prod.fst = got ++ todo ∧
          (s.up 0).received = got.map (fun m => some m.encoding) ∧
          (s.up 0).reader.stream ++ (s.up 0).inFlight = encodings todo) ∧
      (s.up 0).received = [] ∧ (s.up 0).inFlight = str ":bob\n" := by
  have hrun : (network.run network.init
      [.start 0 { pc := .sender .login, username := str "bob" }, .call 0,
        .toServer 0 (piece "slogin")]).map
      (fun s => (decide (s.up 0).Sound, (s.up 0).received, (s.up 0).inFlight,
        (s.peers 0).client.pc)) =
      some (true, [], str ":bob\n", .sender .loginReply) := by
    decide +kernel
  rcases TransitionSystem.exists_reachable_of_run hrun with ⟨s, hs, hobs, hreach⟩
  simp only [Prod.mk.injEq, decide_eq_true_eq] at hobs
  obtain ⟨hsound, hreceived, hinFlight, hpc⟩ := hobs
  have hstarted : s.Started 0 := by simp [Network.Started, hpc]
  rcases network_carries hreach hstarted (.inr rfl) hsound (by simp [hreceived]) with
    ⟨got, todo, hsent, hgot, hway, -⟩
  exact ⟨s, hs, ⟨got, todo, hsent, hgot, hway⟩, hreceived, hinFlight⟩

end ChatServer
