import ChatServer.Server.Handshake
import ChatServer.System.ClientHistory
import ChatServer.WireFormat

/-!
# Messages across a connection

What the two ends of an intact connection, on which no send and no receive has failed and all
messages were legal, know about each other: each has received the messages that the other one
has sent, without trailing whitespace, and the rest is on its way.

Main results:

- Theorem {lit}`reachable_decodes`: the message variable of a client holds the line that
  it has received.
- Theorem {lit}`carried_down` and theorem {lit}`carried_up`: the messages in both
  directions.
- Theorem {lit}`login_of_client`: a client that has been greeted has logged in at the
  server as what it is.

Current gaps:

- Only intact connections are considered; a message that is too long for a frame, or has a
  NUL, is not legal.
-/

namespace ChatServer

/-! ## What arrives of a message -/

/-- A message as it is received. -/
def Message.arrived (m : Message) : Message :=
  { tag := m.tag, data := rtrim m.data }

theorem Message.Legal.decode {m : Message} (h : m.Legal) : decode m.encoding = some m.arrived :=
  decode_encoding h.tag h.nul_data

/-- The message variable after a receive holds the line, if it decodes. -/
def ClientEvent.Decodes : ClientEvent → Prop
  | .received (some line) m => ∀ m', decode line = some m' → m = m'
  | _ => True

/-- The receives of every call decode. -/
theorem ClientOp.called_decodes (op : ClientOp) (cl : Client) :
    op.Called cl fun _ e => e.Decodes := by
  cases op with
  | halt => exact trivial
  | send msg k => exact ⟨trivial, fun ok => trivial⟩
  | receive msg k =>
      refine ⟨fun line hline => ?_, fun line m hdec m' hdec' => ?_⟩
      · cases line with
        | none => exact trivial
        | some line =>
            intro m' hdec'
            rw [hline line rfl] at hdec'
            cases hdec'
      · rw [hdec] at hdec'
        exact Option.some.inj hdec'
  | getline k => exact fun line stdin => trivial

/-- In every reachable state the message variables of a client are the lines that it has
received. -/
theorem reachable_decodes {s : Network} (hs : network.Reachable s) {c : ConnId}
    (hstarted : s.Started c) : ∀ e ∈ (s.peers c).events, e.Decodes := by
  refine client_history (I := fun _ events => ∀ e ∈ events, e.Decodes) ?_ ?_ hs hstarted
  · intro cl _ e he
    cases he
  · intro cl events h
    have hmem : ∀ e, e.Decodes → ∀ e' ∈ events ++ [e], e'.Decodes := by
      intro e he e' he'
      rcases List.mem_append.mp he' with he' | he'
      · exact h e' he'
      · rwa [List.mem_singleton.mp he']
    have hcalled := cl.code.called_decodes cl
    cases hop : cl.code with
    | halt => exact trivial
    | send msg k => exact ⟨hmem _ trivial, fun ok => hmem _ trivial⟩
    | receive msg k =>
        rw [hop] at hcalled
        exact ⟨fun line hline => hmem _ (hcalled.1 line hline),
          fun line m hdec => hmem _ (hcalled.2 line m hdec)⟩
    | getline k => exact fun line stdin => hmem _ trivial

/-- A client that has received the encodings of some legal messages has these messages. -/
theorem clientMessages_of_lines {events : List ClientEvent} (hdecodes : ∀ e ∈ events, e.Decodes)
    {got : List Message} (hlegal : ∀ m ∈ got, m.Legal)
    (hlines : clientLines events = got.map fun m => some m.encoding) :
    clientMessages events = got.map Message.arrived := by
  induction events generalizing got with
  | nil =>
      have hnil : got = [] := List.map_eq_nil_iff.mp hlines.symm
      simp [hnil, clientMessages]
  | cons e events ih =>
      have hdecodes' : ∀ e' ∈ events, e'.Decodes :=
        fun e' he' => hdecodes e' (List.mem_cons_of_mem _ he')
      cases e with
      | typed line => exact ih hdecodes' hlegal hlines
      | sent msg ok => exact ih hdecodes' hlegal hlines
      | received line msg =>
          cases got with
          | nil => simp [clientLines] at hlines
          | cons m got =>
              have hcons : line :: clientLines events =
                  some m.encoding :: got.map fun m => some m.encoding := hlines
              rw [List.cons.injEq] at hcons
              rcases hcons with ⟨rfl, hrest⟩
              have hmsg : msg = m.arrived :=
                hdecodes _ List.mem_cons_self _ (hlegal m List.mem_cons_self).decode
              have hrest' := ih hdecodes'
                (fun m' hm' => hlegal m' (List.mem_cons_of_mem _ hm')) hrest
              have hstep : clientMessages (.received (some m.encoding) msg :: events) =
                  msg :: clientMessages events := rfl
              rw [hstep, hmsg, hrest', List.map_cons]

/-! ## Intact connections -/

/-- The connection is intact: no send and no receive on it has failed, and all messages
that were sent on it were legal. -/
structure Network.Intact (s : Network) (c : ConnId) : Prop where
  down : (s.down c).Sound
  up : (s.up c).Sound
  client : none ∉ (s.down c).received
  server : none ∉ (s.up c).received

instance (s : Network) (c : ConnId) : Decidable (s.Intact c) :=
  decidable_of_iff ((s.down c).Sound ∧ (s.up c).Sound ∧ none ∉ (s.down c).received ∧
      none ∉ (s.up c).received)
    ⟨fun h => ⟨h.1, h.2.1, h.2.2.1, h.2.2.2⟩, fun h => ⟨h.down, h.up, h.client, h.server⟩⟩

/-- On an intact connection no send of the server has failed. -/
theorem Network.Intact.not_failed {s : Network} {c : ConnId} (h : s.Intact c) (m : Message) :
    .sent m false ∉ s.server.base.calls c := by
  intro hm
  have hsent : (m, false) ∈ (s.down c).sent :=
    List.mem_filterMap.mpr ⟨.sent m false, hm, rfl⟩
  exact absurd (h.down m false hsent).1 (by simp)

/-- Nor has a send of the client. -/
theorem Network.Intact.client_not_failed {s : Network} {c : ConnId} (h : s.Intact c)
    (m : Message) : .sent m false ∉ (s.peers c).events := by
  intro hm
  have hsent : (m, false) ∈ (s.up c).sent :=
    List.mem_filterMap.mpr ⟨.sent m false, hm, rfl⟩
  exact absurd (h.up m false hsent).1 (by simp)

theorem map_fst_sendResults (calls : List Event) :
    (sendResults calls).map Prod.fst = sentFrames calls := by
  rw [sendResults, sentFrames, List.map_filterMap]
  congr 1
  funext e
  cases e <;> rfl

section

variable {s : Network} (hs : network.Reachable s) {c : ConnId} (hstarted : s.Started c)
  (hintact : s.Intact c)
include hs hstarted hintact

/-- The messages on a connection from the server to the client. -/
theorem carried_down :
    ∃ got todo : List Message,
      sentFrames (s.server.base.calls c) = got ++ todo ∧
        (∀ m ∈ got ++ todo, m.Legal) ∧
        clientMessages (s.peers c).events = got.map Message.arrived ∧
        (s.peers c).socket.stream ++ (s.peers c).toClient = encodings todo := by
  rcases (reachable_faithful hs c hstarted).1.carries hintact.down hintact.client with
    ⟨got, todo, hsent, hgot, hway⟩
  have hframes : sentFrames (s.server.base.calls c) = got ++ todo := by
    rw [← map_fst_sendResults]
    exact hsent
  have hlegal : ∀ m ∈ got ++ todo, m.Legal := by
    intro m hm
    rw [← hsent] at hm
    rcases List.mem_map.mp hm with ⟨⟨m', ok⟩, hmem, rfl⟩
    exact (hintact.down m' ok hmem).2
  exact ⟨got, todo, hframes, hlegal,
    clientMessages_of_lines (reachable_decodes hs hstarted)
      (fun m hm => hlegal m (List.mem_append_left _ hm)) hgot, hway⟩

/-- The messages on a connection from the client to the server. -/
theorem carried_up :
    ∃ got todo : List Message,
      clientRequests (s.peers c).events = got ++ todo ∧
        (∀ m ∈ got ++ todo, m.Legal) ∧
        receivedLines (s.server.base.calls c) = got.map (fun m => some m.encoding) ∧
        (s.server.base.conns c).stream ++ (s.peers c).toServer = encodings todo := by
  rcases (reachable_faithful hs c hstarted).2.carries hintact.up hintact.server with
    ⟨got, todo, hsent, hgot, hway⟩
  refine ⟨got, todo, hsent, fun m hm => ?_, hgot, hway⟩
  rw [← hsent] at hm
  rcases List.mem_map.mp hm with ⟨⟨m', ok⟩, hmem, rfl⟩
  exact (hintact.up m' ok hmem).2

/-- A client whose first message has the tag ok has logged in with its first request, has
been greeted, and everything else that it has received belongs to the session. -/
theorem login_of_client {w : Message} {ms : List Message}
    (hmessages : clientMessages (s.peers c).events = w :: ms) (hok : w.tag = tagOk)
    {login : Message} {requests : List Message}
    (hrequests : clientRequests (s.peers c).events = login :: requests) :
    (s.server.base.threads c).login = login.arrived ∧
      Greeted login.arrived true (s.server.base.loginCalls c) ∧
      w = (welcomeReply login.arrived.data).arrived := by
  have hreach := network_refines hs
  rcases carried_down hs hstarted hintact with ⟨got, todo, hframes, hlegal, hgot, -⟩
  rcases carried_up hs hstarted hintact with ⟨got', todo', hsent, hlegal', hlines, -⟩
  rw [hmessages] at hgot
  cases got with
  | nil => cases hgot
  | cons first got =>
      rw [List.map_cons, List.cons.injEq] at hgot
      rcases hgot with ⟨rfl, -⟩
      rw [List.cons_append] at hframes
      rcases greeted_of_ok hreach hframes hok with ⟨ok, hgreeted⟩
      have hsuccess : ok = true := by
        rcases hgreeted with ⟨line, -, hcalls⟩
        refine (hintact.down (welcomeReply (s.server.base.threads c).login.data) ok ?_).1
        simp [Network.down, State.calls, hcalls, sendResults]
      subst ok
      rcases hgreeted.calls with ⟨hcalls, -⟩
      have hlogin : (s.server.base.threads c).login = login.arrived := by
        rcases hgreeted with ⟨line, hline, hcalls⟩
        cases got' with
        | nil => simp [State.calls, hcalls, receivedLines] at hlines
        | cons m got' =>
            have hm : m = login := by
              rw [hrequests, List.cons_append, List.cons.injEq] at hsent
              exact hsent.1.symm
            subst m
            simp only [State.calls, hcalls, receivedLines, List.cons_append,
              List.filterMap_cons, List.map_cons, List.cons.injEq, Option.some.injEq] at hlines
            have hdecode := hline.decodes
            rw [hlines.1, (hlegal' login (by simp)).decode] at hdecode
            exact (Option.some.inj hdecode).symm
      refine ⟨hlogin, hlogin ▸ hgreeted, ?_⟩
      rw [hframes, List.cons.injEq] at hcalls
      rw [hcalls.1, hlogin]

end

end ChatServer
