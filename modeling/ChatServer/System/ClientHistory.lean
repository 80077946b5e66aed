import ChatServer.System.Network

/-!
# What clients have done

The calls of the client programs at each control point, whatever the server answers.

Main results:

- Theorem {lit}`client_history`: the invariance rule for a client and its calls.
- Theorem {lit}`reachable_talk`: a sender sends its login and then the requests that its
  user has typed, and waits for a reply after each of them; a receiver sends its login and
  its join and then prints what it receives.

Current gaps:

- None for the calls of the two programs.
-/

namespace ChatServer

open Function

/-! ## The invariance rule -/

/-- Every client that a call of {lit}`cl` can leave behind satisfies {lit}`P` with the
event of the call. -/
def ClientOp.Called (cl : Client) (P : Client → ClientEvent → Prop) : ClientOp → Prop
  | .halt => True
  | .send msg k => P (cl.goto .killed) (.sent msg false) ∧ ∀ ok, P (k ok) (.sent msg ok)
  | .receive msg k =>
      (∀ line, (∀ l, line = some l → decode l = none) →
        P (k { msg with tag := tagErr }) (.received line { msg with tag := tagErr })) ∧
        ∀ line m, decode line = some m → P (k m) (.received (some line) m)
  | .getline k => ∀ line stdin, P (k line stdin) (.typed line)

/-- What holds of every client that a call can leave behind holds after the call. -/
theorem Peer.called {p p' : Peer} {writes : ClientWrites} (h : p.call writes = some p')
    {P : Client → ClientEvent → Prop} (hop : p.client.code.Called p.client P) :
    ∃ cl e, P cl e ∧ p'.client = cl ∧ p'.events = p.events ++ [e] := by
  unfold call at h
  cases hcode : p.client.code with
  | halt => simp [hcode] at h
  | send msg k =>
      simp only [hcode, Option.some.injEq] at h
      subst p'
      rw [hcode] at hop
      refine ⟨_, _, ?_, rfl, rfl⟩
      unfold Client.afterSend
      split_ifs with hkilled
      · rw [Bool.and_eq_true, Bool.not_eq_true'] at hkilled
        rw [hkilled.1]
        exact hop.1
      · exact hop.2 _
  | receive msg k =>
      simp only [hcode] at h
      split at h
      · cases h
      simp only [Option.some.injEq] at h
      subst p'
      rw [hcode] at hop
      refine ⟨_, _, ?_, rfl, rfl⟩
      rw [Connection.receive_eq]
      cases hline : p.socket.nextLine with
      | none => exact hop.1 none fun l hl => by cases hl
      | some line =>
          cases hdec : decode line with
          | none =>
              simp only [hdec]
              refine hop.1 (some line) fun l hl => ?_
              cases hl
              exact hdec
          | some m =>
              simp only [hdec]
              exact hop.2 line m hdec
  | getline k =>
      simp only [hcode, Option.some.injEq] at h
      subst p'
      rw [hcode] at hop
      exact ⟨_, _, hop _ _, rfl, rfl⟩

/-- A property of a client and its calls that holds at the start and that the programs
preserve holds of every client that has been started. -/
theorem client_history {I : Client → List ClientEvent → Prop}
    (hstart : ∀ cl : Client, cl.AtStart → I cl [])
    (hcode : ∀ cl events, I cl events → cl.code.Called cl fun cl' e => I cl' (events ++ [e]))
    {s : Network} (hs : network.Reachable s) {c : ConnId} (hstarted : s.Started c) :
    I (s.peers c).client (s.peers c).events := by
  refine hs.invariant (P := fun s => s.Started c → I (s.peers c).client (s.peers c).events)
    (fun h => absurd rfl h) ?_ hstarted
  intro s a s' _ hstep ih hstarted
  rcases networkStep_client hstep c with ⟨cl, -, hcl, hclient, hevents⟩ |
    ⟨writes, -, hcall⟩ | ⟨hclient, hevents⟩
  · rw [hclient, hevents]
    exact hstart cl hcl
  · rcases Peer.called hcall (hcode _ _ (ih (present_of_call hcall))) with
      ⟨cl, e, hI, hclient, hevents⟩
    rw [hclient, hevents]
    exact hI
  · rw [hclient, hevents]
    rw [Network.Started, hclient] at hstarted
    exact ih hstarted

/-! ## Events of clients -/

/-- The message variables after the receives of a client. -/
def clientMessages (events : List ClientEvent) : List Message :=
  events.filterMap fun e =>
    match e with
    | .received _ m => some m
    | _ => none

/-- The lines that the user of a client has typed. -/
def typedLines (events : List ClientEvent) : List Bytes :=
  events.filterMap fun e =>
    match e with
    | .typed line => some line
    | _ => none

/-- The requests that the user of a client has typed. -/
def typedRequests (events : List ClientEvent) : List Message :=
  (typedLines events).filterMap requestOf

/-- The messages that a client has passed to {lit}`send`. -/
def clientRequests (events : List ClientEvent) : List Message :=
  (clientSends events).map Prod.fst

/-- The login message of a sender client. -/
def slogin (cl : Client) : Message :=
  { tag := tagSlogin, data := cl.username }

/-- The login message of a receiver client. -/
def rlogin (cl : Client) : Message :=
  { tag := tagRlogin, data := cl.username }

/-- The join message of a receiver client. -/
def joinRequest (cl : Client) : Message :=
  { tag := tagJoin, data := cl.roomName }

section

variable (events : List ClientEvent) (msg : Message) (ok : Bool) (line : Option Bytes)
  (typed : Bytes)

/-- A send adds its message to the requests. -/
@[simp] theorem clientRequests_sent :
    clientRequests (events ++ [.sent msg ok]) = clientRequests events ++ [msg] := by
  simp [clientRequests, clientSends]

/-- A receive adds no request. -/
@[simp] theorem clientRequests_received :
    clientRequests (events ++ [.received line msg]) = clientRequests events := by
  simp [clientRequests, clientSends]

/-- A typed line adds no request. -/
@[simp] theorem clientRequests_typed :
    clientRequests (events ++ [.typed typed]) = clientRequests events := by
  simp [clientRequests, clientSends]

/-- A send adds no received message. -/
@[simp] theorem clientMessages_sent :
    clientMessages (events ++ [.sent msg ok]) = clientMessages events := by
  simp [clientMessages]

/-- A receive adds its message to the received ones. -/
@[simp] theorem clientMessages_received :
    clientMessages (events ++ [.received line msg]) = clientMessages events ++ [msg] := by
  simp [clientMessages]

/-- A typed line adds no received message. -/
@[simp] theorem clientMessages_typed :
    clientMessages (events ++ [.typed typed]) = clientMessages events := by
  simp [clientMessages]

/-- A send adds nothing that was typed. -/
@[simp] theorem typedRequests_sent :
    typedRequests (events ++ [.sent msg ok]) = typedRequests events := by
  simp [typedRequests, typedLines]

/-- A receive adds nothing that was typed. -/
@[simp] theorem typedRequests_received :
    typedRequests (events ++ [.received line msg]) = typedRequests events := by
  simp [typedRequests, typedLines]

/-- A typed line adds the request that it asks for. -/
@[simp] theorem typedRequests_typed :
    typedRequests (events ++ [.typed typed]) =
      typedRequests events ++ (requestOf typed).toList := by
  simp only [typedRequests, typedLines, List.filterMap_append, List.filterMap_cons,
    List.filterMap_nil]
  cases requestOf typed <;> rfl

end

/-! ## The talk of a client -/

/-- The first message that the client has received has the tag ok. -/
def Welcomed (events : List ClientEvent) : Prop :=
  ∃ w ms, clientMessages events = w :: ms ∧ w.tag = tagOk

/-- The requests and the replies of a client at its control point. -/
def Talk (cl : Client) (events : List ClientEvent) : Prop :=
  match cl.pc with
  | .absent => False
  | .sender .login => clientRequests events = [] ∧ clientMessages events = [] ∧
      typedRequests events = []
  | .sender .loginReply => clientRequests events = [slogin cl] ∧
      clientMessages events = [] ∧ typedRequests events = []
  | .sender .prompt => clientRequests events = slogin cl :: typedRequests events ∧
      (clientMessages events).length = (clientRequests events).length ∧ Welcomed events
  | .sender (.request _) =>
      clientRequests events ++ [cl.msg] = slogin cl :: typedRequests events ∧
        (clientMessages events).length = (clientRequests events).length ∧ Welcomed events
  | .sender (.reply _) => clientRequests events = slogin cl :: typedRequests events ∧
      (clientMessages events).length + 1 = (clientRequests events).length ∧ Welcomed events
  | .receiver .login => clientRequests events = [] ∧ clientMessages events = [] ∧
      cl.stdout = []
  | .receiver .loginReply => clientRequests events = [rlogin cl] ∧
      clientMessages events = [] ∧ cl.stdout = []
  | .receiver .join => clientRequests events = [rlogin cl] ∧
      (∃ w, clientMessages events = [w] ∧ w.tag = tagOk) ∧ cl.stdout = []
  | .receiver .joinReply => clientRequests events = [rlogin cl, joinRequest cl] ∧
      (∃ w, clientMessages events = [w] ∧ w.tag = tagOk) ∧ cl.stdout = []
  | .receiver .deliver => clientRequests events = [rlogin cl, joinRequest cl] ∧
      ∃ w j ms, clientMessages events = w :: j :: ms ∧ w.tag = tagOk ∧ j.tag = tagOk ∧
        cl.stdout = endLines (ms.flatMap fun m => (deliveryOutput m).1)
  | .exited _ | .aborted | .killed =>
      clientRequests events <+: slogin cl :: typedRequests events ∧
          (clientRequests events).length ≤ (clientMessages events).length + 1 ∨
        clientRequests events <+: [rlogin cl, joinRequest cl] ∧ cl.stdout = []

/-- A client stays welcomed. -/
theorem Welcomed.append {events : List ClientEvent} (h : Welcomed events) (e : ClientEvent) :
    Welcomed (events ++ [e]) := by
  rcases h with ⟨w, ms, hmessages, hw⟩
  cases e with
  | typed line => exact ⟨w, ms, by rw [clientMessages_typed, hmessages], hw⟩
  | sent msg ok => exact ⟨w, ms, by rw [clientMessages_sent, hmessages], hw⟩
  | received line m =>
      exact ⟨w, ms ++ [m], by rw [clientMessages_received, hmessages, List.cons_append], hw⟩

/-- Every call of the receiver's {lit}`main` keeps the talk of the client. -/
theorem receiverMain_talk {cl : Client} {p : ReceiverMainPc} {events : List ClientEvent}
    (hpc : cl.pc = .receiver p) (h : Talk cl events) :
    (receiverMain cl p).Called cl fun cl' e => Talk cl' (events ++ [e]) := by
  unfold Talk at h
  rw [hpc] at h
  cases p with
  | login =>
      rcases h with ⟨hrequests, hmessages, hstdout⟩
      refine ⟨by simp [Talk, Client.goto, hrequests, hstdout, rlogin], fun ok => ?_⟩
      dsimp only
      split_ifs
      · simp [Talk, Client.goto, Client.complain, hrequests, hstdout, rlogin]
      · simp [Talk, Client.goto, hrequests, hmessages, hstdout, rlogin]
  | loginReply =>
      rcases h with ⟨hrequests, hmessages, hstdout⟩
      have hreply : ∀ line msg, Talk
          (if msg.tag ≠ tagOk then (cl.complain [msg.data]).goto (.exited 1)
            else cl.goto (.receiver .join)) (events ++ [.received line msg]) := by
        intro line msg
        split_ifs with htag
        · simp [Talk, Client.goto, Client.complain, hrequests, hstdout, rlogin]
        · simp only [ne_eq, not_not] at htag
          simp [Talk, Client.goto, hrequests, hmessages, hstdout, htag, rlogin]
      exact ⟨fun line _ => hreply line _, fun line m _ => hreply (some line) m⟩
  | join =>
      rcases h with ⟨hrequests, ⟨w, hmessages, hw⟩, hstdout⟩
      refine ⟨by simp [Talk, Client.goto, hrequests, hstdout, rlogin, joinRequest],
        fun ok => ?_⟩
      dsimp only
      split_ifs
      · simp [Talk, Client.goto, Client.complain, hrequests, hstdout, rlogin, joinRequest]
      · simp [Talk, Client.goto, hrequests, hmessages, hstdout, hw, rlogin, joinRequest]
  | joinReply =>
      rcases h with ⟨hrequests, ⟨w, hmessages, hw⟩, hstdout⟩
      have hreply : ∀ line msg, Talk
          (if msg.tag ≠ tagOk then (cl.complain [msg.data]).goto (.exited 2)
            else { cl with msg := {}, pc := .receiver .deliver })
          (events ++ [.received line msg]) := by
        intro line msg
        split_ifs with htag
        · simp [Talk, Client.goto, Client.complain, hrequests, hstdout, rlogin, joinRequest]
        · simp only [ne_eq, not_not] at htag
          refine ⟨by simp [hrequests, rlogin, joinRequest], w, msg, [], ?_, hw, htag, ?_⟩
          · simp [hmessages]
          · simpa [endLines] using hstdout
      exact ⟨fun line _ => hreply line _, fun line m _ => hreply (some line) m⟩
  | deliver =>
      rcases h with ⟨hrequests, w, j, ms, hmessages, hw, hj, hstdout⟩
      have hreply : ∀ line msg, Talk
          { cl.complain (deliveryOutput msg).2 with
            msg := msg, stdout := cl.stdout ++ endLines (deliveryOutput msg).1 }
          (events ++ [.received line msg]) := by
        intro line msg
        simp only [Talk, Client.complain, hpc]
        refine ⟨by simp [hrequests, rlogin, joinRequest], w, j, ms ++ [msg], ?_, hw, hj, ?_⟩
        · simp [hmessages]
        · simp [hstdout, endLines_append]
      exact ⟨fun line _ => hreply line _, fun line m _ => hreply (some line) m⟩

/-- Every call of the sender's {lit}`main` keeps the talk of the client. -/
theorem senderMain_talk {cl : Client} {p : SenderMainPc} {events : List ClientEvent}
    (hpc : cl.pc = .sender p) (h : Talk cl events) :
    (senderMain cl p).Called cl fun cl' e => Talk cl' (events ++ [e]) := by
  unfold Talk at h
  rw [hpc] at h
  cases p with
  | login =>
      rcases h with ⟨hrequests, hmessages, htyped⟩
      refine ⟨by simp [Talk, Client.goto, hrequests, htyped, slogin], fun ok => ?_⟩
      dsimp only
      split_ifs
      · simp [Talk, Client.goto, Client.complain, hrequests, htyped, slogin]
      · simp [Talk, Client.goto, hrequests, hmessages, htyped, slogin]
  | loginReply =>
      rcases h with ⟨hrequests, hmessages, htyped⟩
      have hreply : ∀ line msg, Talk
          (if msg.tag ≠ tagOk then (cl.complain [msg.data]).goto (.exited 1)
            else cl.goto (.sender .prompt)) (events ++ [.received line msg]) := by
        intro line msg
        split_ifs with htag
        · simp [Talk, Client.goto, Client.complain, hrequests, htyped, slogin]
        · simp only [ne_eq, not_not] at htag
          refine ⟨by simp [Client.goto, hrequests, htyped, slogin], by simp [hrequests, hmessages],
            msg, [], by simp [hmessages], htag⟩
      exact ⟨fun line _ => hreply line _, fun line m _ => hreply (some line) m⟩
  | prompt =>
      rcases h with ⟨hrequests, hlen, hwelcomed⟩
      intro line stdin
      dsimp only
      have hasked : ∀ {msg quits}, parseLine line = some (.ask msg quits) →
          requestOf line = some msg := by
        intro msg quits hparse
        simp [requestOf, hparse]
      cases hparse : parseLine line with
      | none =>
          have hnone : requestOf line = none := by simp [requestOf, hparse]
          refine .inl ⟨?_, ?_⟩
          · simp [Client.goto, hrequests, hnone, slogin]
          · simp [hlen]
      | some command =>
          cases command with
          | nothing =>
              have hnone : requestOf line = none := by simp [requestOf, hparse]
              refine ⟨?_, ?_, hwelcomed.append _⟩
              · simp [Client.goto, hrequests, hnone, slogin]
              · simp [hlen]
          | complain text =>
              have hnone : requestOf line = none := by simp [requestOf, hparse]
              refine ⟨?_, ?_, hwelcomed.append _⟩
              · simp [hrequests, hnone, slogin]
              · simp [hlen]
          | ask msg quits =>
              refine ⟨?_, ?_, hwelcomed.append _⟩
              · simp [hrequests, hasked hparse, slogin]
              · simp [hlen]
  | request quits =>
      rcases h with ⟨hrequests, hlen, hwelcomed⟩
      have hlen' : ∀ ok, (clientMessages (events ++ [.sent cl.msg ok])).length + 1 =
          (clientRequests (events ++ [.sent cl.msg ok])).length := by
        intro ok
        simp [hlen]
      refine ⟨.inl ⟨?_, ?_⟩, fun ok => ?_⟩
      · rw [clientRequests_sent, hrequests, typedRequests_sent]
        exact List.prefix_rfl
      · exact (hlen' false).ge
      dsimp only
      split_ifs
      · exact ⟨by simpa [Client.complain, Client.goto, slogin] using hrequests, hlen' ok,
          hwelcomed.append _⟩
      · exact ⟨by simpa [Client.goto, slogin] using hrequests, hlen' ok, hwelcomed.append _⟩
  | reply quits =>
      rcases h with ⟨hrequests, hlen, hwelcomed⟩
      have hreply : ∀ line msg, Talk
          { (if msg.tag ≠ tagOk then cl.complain [msg.data] else cl) with
            msg := msg, pc := if quits then .exited 0 else .sender .prompt }
          (events ++ [.received line msg]) := by
        intro line msg
        have hlogin : ∀ pc : ClientPc, slogin
            { (if msg.tag ≠ tagOk then cl.complain [msg.data] else cl) with
              msg := msg, pc := pc } = slogin cl := by
          intro pc
          split_ifs <;> rfl
        cases quits with
        | true =>
            refine .inl ⟨?_, ?_⟩
            · rw [hlogin]
              simp [hrequests]
            · simp [← hlen]
        | false =>
            refine ⟨?_, ?_, hwelcomed.append _⟩
            · rw [hlogin]
              simp [hrequests]
            · simp [hlen]
      exact ⟨fun line _ => hreply line _, fun line m _ => hreply (some line) m⟩

/-- In every reachable state the calls of every client fit its control point. -/
theorem reachable_talk {s : Network} (hs : network.Reachable s) {c : ConnId}
    (hstarted : s.Started c) : Talk (s.peers c).client (s.peers c).events := by
  refine client_history (I := Talk) ?_ ?_ hs hstarted
  · rintro cl (hcl | hcl) <;> rw [hcl] <;> exact ⟨rfl, rfl, rfl⟩
  · intro cl events h
    cases hpc : cl.pc with
    | sender p =>
        rw [Client.code_sender hpc]
        exact senderMain_talk hpc h
    | receiver p =>
        rw [Client.code_receiver hpc]
        exact receiverMain_talk hpc h
    | _ =>
        rw [Client.code, hpc]
        exact trivial

end ChatServer
