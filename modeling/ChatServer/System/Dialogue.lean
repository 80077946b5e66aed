import ChatServer.System.Messages

/-!
# The dialogue of a sender

A sender waits for a reply after each of its requests.  So on an intact connection, on which
no send and no receive fails and all messages are legal, its user sees what a sequential
program answers to the requests that were typed, whatever the other clients do.

Main results:

- Definition {lit}`senderDialogue`: the sequential program on typed requests.
- Theorem {lit}`sender_dialogue`: what the client has received and what the server has
  broadcast are the first replies and texts of this program, and all of them whenever the
  client prompts for the next line.

Current gaps:

- Only intact connections are considered.  A message that is too long for a frame is not
  legal, so the reply to a join of a room with a name of 240 letters is excluded, although
  no send and no receive fails there.
-/

namespace ChatServer

/-! ## Requests on the way to the server -/

/-- The end of a trimmed text is trimmed. -/
theorem rtrim_drop {text : Bytes} (h : rtrim text = text) (n : ℕ) :
    rtrim (text.drop n) = text.drop n := by
  rw [rtrim_eq_rdropWhile, List.rdropWhile_eq_self_iff] at h ⊢
  intro hne
  rw [List.getLast_drop]
  exact h fun hnil => hne (by simp [hnil])

/-- Trimmed text has no blank at its end. -/
theorem rtrim_trim (text : Bytes) : rtrim (trim text) = trim text :=
  rtrim_rtrim _

/-- What is asked for has no trailing whitespace. -/
theorem rtrim_of_ask {line : Bytes} {m : Message} {quits : Bool}
    (h : parseLine line = some (.ask m quits)) : rtrim m.data = m.data := by
  rcases ask_cases h with ⟨rfl, -⟩ | ⟨rfl, -⟩ | ⟨rfl, -⟩ | ⟨rfl, -⟩
  · exact rtrim_trim line
  · exact rtrim_drop (rtrim_trim line) 6
  · decide
  · decide

/-- The requests that a user types arrive as they are. -/
theorem arrived_of_requestOf {line : Bytes} {m : Message} (h : requestOf line = some m) :
    m.arrived = m := by
  unfold requestOf at h
  cases hparse : parseLine line with
  | none => simp [hparse] at h
  | some command =>
      cases command with
      | nothing => simp [hparse] at h
      | complain text => simp [hparse] at h
      | ask msg quits =>
          simp only [hparse, Option.some.injEq] at h
          subst msg
          rw [Message.arrived, rtrim_of_ask hparse]

/-- What is typed arrives as it was typed. -/
theorem arrived_of_typedRequests {events : List ClientEvent} {m : Message}
    (hm : m ∈ typedRequests events) : m.arrived = m := by
  rcases List.mem_filterMap.mp hm with ⟨line, -, hline⟩
  exact arrived_of_requestOf hline

/-! ## The sequential program on requests -/

/-- The session of a sender whose requests are these. -/
def senderDialogue (username : Bytes) (requests : List Message) : SenderSession :=
  requests.foldl (SenderSession.request username) {}

/-- Lines that are encodings of legal messages are requests. -/
theorem senderSession_encodings (username : Bytes) {requests : List Message}
    (hlegal : ∀ m ∈ requests, m.Legal) (harrived : ∀ m ∈ requests, m.arrived = m) :
    senderSession username (requests.map fun m => some m.encoding) =
      senderDialogue username requests := by
  rw [senderSession, senderDialogue, List.foldl_map]
  refine List.foldl_ext _ _ _ fun σ m hm => ?_
  simp only [SenderSession.receive, (hlegal m hm).decode, harrived m hm]

/-- A request gets one reply, and is one text at most. -/
theorem SenderSession.request_grows (username : Bytes) (σ : SenderSession) (m : Message) :
    (∃ reply, (σ.request username m).replies = σ.replies ++ [reply]) ∧
      σ.texts <+: (σ.request username m).texts := by
  unfold request
  cases hroom : σ.room with
  | none => split_ifs <;> exact ⟨⟨_, rfl⟩, by simp [refuse]⟩
  | some name => split_ifs <;> exact ⟨⟨_, rfl⟩, by simp [refuse]⟩

/-- One more request goes on with the dialogue. -/
theorem senderDialogue_concat (username : Bytes) (requests : List Message) (m : Message) :
    senderDialogue username (requests ++ [m]) =
      (senderDialogue username requests).request username m := by
  simp [senderDialogue]

/-- More requests only add replies and texts. -/
theorem senderDialogue_append (username : Bytes) (requests more : List Message) :
    (senderDialogue username requests).replies <+:
        (senderDialogue username (requests ++ more)).replies ∧
      (senderDialogue username requests).texts <+:
        (senderDialogue username (requests ++ more)).texts := by
  induction more using List.reverseRecOn with
  | nil => simp
  | append_singleton more m ih =>
      rcases (senderDialogue username (requests ++ more)).request_grows username m with
        ⟨⟨reply, hreply⟩, hmore⟩
      rw [← List.append_assoc, senderDialogue_concat, hreply]
      exact ⟨ih.1.trans (List.prefix_append _ _), ih.2.trans hmore⟩

/-- There are as many replies as requests. -/
theorem length_senderDialogue (username : Bytes) (requests : List Message) :
    (senderDialogue username requests).replies.length = requests.length := by
  induction requests using List.reverseRecOn with
  | nil => rfl
  | append_singleton requests m ih =>
      rcases ((senderDialogue username requests).request_grows username m).1 with ⟨reply, hreply⟩
      rw [senderDialogue_concat, hreply, List.length_append, List.length_append, ih]
      rfl

/-! ## Texts that were typed -/

/-- A thread that has sent its greeting has left {lit}`worker`. -/
theorem Greeted.not_worker {s : State} (hs : server.Reachable s) {c : ConnId} {login : Message}
    {ok : Bool} (h : Greeted login ok (s.loginCalls c)) (p : WorkerPc) :
    (s.threads c).pc ≠ .worker p := by
  intro hpc
  rcases h with ⟨line, -, hcalls⟩
  have hlogin := reachable_login hs c
  unfold LoginHistory at hlogin
  rw [hpc, hcalls] at hlogin
  cases p with
  | receive => cases hlogin
  | refuse why => simp at hlogin
  | newUser => simp at hlogin
  | welcome => simp at hlogin

/-- The first line of a connection that was greeted is its login. -/
theorem Greeted.receivedLines {s : State} {c : ConnId} {login : Message} {ok : Bool}
    (h : Greeted login ok (s.loginCalls c)) :
    ∃ line, ChatServer.receivedLines (s.calls c) =
      some line :: ChatServer.receivedLines (s.chatCalls c) := by
  rcases h with ⟨line, -, hcalls⟩
  exact ⟨line, by simp [State.calls, hcalls, ChatServer.receivedLines]⟩

/-- The sender client is in its loop. -/
def ClientPc.inCommandLoop : ClientPc → Bool
  | .sender .prompt | .sender (.request _) | .sender (.reply _) => true
  | _ => false

/-- A client in its command loop has been started. -/
theorem started_of_inCommandLoop {s : Network} {c : ConnId}
    (hpc : (s.peers c).client.pc.inCommandLoop) : s.Started c := by
  intro habsent
  rw [habsent] at hpc
  cases hpc

/-- In the loop the requests of a sender are its login and some of those that were typed,
and it has been greeted; at the prompt they are all of them, and all are answered. -/
theorem Talk.sender {cl : Client} {events : List ClientEvent} (h : Talk cl events)
    (hpc : cl.pc.inCommandLoop) :
    Welcomed events ∧
      (∃ asked more, clientRequests events = slogin cl :: asked ∧
        typedRequests events = asked ++ more) ∧
      (cl.pc = .sender .prompt → clientRequests events = slogin cl :: typedRequests events ∧
        (clientMessages events).length = (clientRequests events).length) := by
  unfold Talk at h
  unfold ClientPc.inCommandLoop at hpc
  split at hpc <;> rename_i hp
  · rw [hp] at h
    rcases h with ⟨hrequests, hlen, hwelcomed⟩
    exact ⟨hwelcomed, ⟨_, [], hrequests, by simp⟩, fun _ => ⟨hrequests, hlen⟩⟩
  · rw [hp] at h
    rcases h with ⟨hrequests, hlen, hwelcomed⟩
    refine ⟨hwelcomed, ?_, by simp [hp]⟩
    cases hasked : clientRequests events with
    | nil =>
        rcases hwelcomed with ⟨w, ms, hmessages, -⟩
        rw [hmessages, hasked] at hlen
        cases hlen
    | cons login asked =>
        rw [hasked, List.cons_append, List.cons.injEq] at hrequests
        exact ⟨asked, [cl.msg], by rw [hrequests.1], hrequests.2.symm⟩
  · rw [hp] at h
    rcases h with ⟨hrequests, -, hwelcomed⟩
    exact ⟨hwelcomed, ⟨_, [], hrequests, by simp⟩, by simp [hp]⟩
  · cases hpc

section

variable {s : Network} (hs : network.Reachable s) {c : ConnId}
  (hpc : (s.peers c).client.pc.inCommandLoop) (hintact : s.Intact c)
include hs hpc hintact

/-- A sender in its loop has logged in with its name, and its first message is the
greeting. -/
theorem sender_login :
    (s.server.base.threads c).login = (slogin (s.peers c).client).arrived ∧
      Greeted (slogin (s.peers c).client).arrived true (s.server.base.loginCalls c) := by
  have hstarted := started_of_inCommandLoop hpc
  obtain ⟨⟨w, ms, hmessages, hw⟩, ⟨asked, more, hrequests, -⟩, -⟩ :=
    (reachable_talk hs hstarted).sender hpc
  obtain ⟨hlogin, hgreeted, -⟩ := login_of_client hs hstarted hintact hmessages hw hrequests
  exact ⟨hlogin, hgreeted⟩

/-- The server has heard some of the requests that the client has sent, and its session is
the one of these requests. -/
theorem sender_heard :
    ∃ heard unheard unsent : List Message,
      clientRequests (s.peers c).events = slogin (s.peers c).client :: (heard ++ unheard) ∧
        typedRequests (s.peers c).events = heard ++ (unheard ++ unsent) ∧
        SessionAgrees s.server.base.names (rtrim (s.peers c).client.username)
          (s.server.base.threads c) (s.server.base.chatCalls c) (s.server.base.ownTexts c) ∧
        senderSession (rtrim (s.peers c).client.username)
            (receivedLines (s.server.base.chatCalls c)) =
          senderDialogue (rtrim (s.peers c).client.username) heard ∧
        (receivedLines (s.server.base.chatCalls c)).length = heard.length := by
  have hstarted := started_of_inCommandLoop hpc
  have hreach := network_refines hs
  obtain ⟨-, ⟨asked, unsent, hrequests, htyped⟩, -⟩ := (reachable_talk hs hstarted).sender hpc
  obtain ⟨hlogin, hgreeted⟩ := sender_login hs hpc hintact
  obtain ⟨heard, unheard, hsent, hlegal, hlines, -⟩ := carried_up hs hstarted hintact
  rcases hgreeted.receivedLines with ⟨line, hreceived⟩
  have hslogin : (s.server.base.threads c).login.tag = tagSlogin := by rw [hlogin]; rfl
  have hagrees := reachable_sessionAgrees hreach hslogin (hgreeted.not_worker hreach)
  rw [hlogin] at hagrees
  rw [hrequests] at hsent
  rw [hreceived] at hlines
  cases heard with
  | nil => cases hlines
  | cons login heard =>
      rw [List.cons_append, List.cons.injEq] at hsent
      rw [List.map_cons, List.cons.injEq] at hlines
      have htyped' : typedRequests (s.peers c).events = heard ++ (unheard ++ unsent) := by
        rw [htyped, hsent.2, List.append_assoc]
      refine ⟨heard, unheard, unsent, by rw [hrequests, hsent.2], htyped', hagrees, ?_,
        by simp [hlines.2]⟩
      rw [hlines.2]
      refine senderSession_encodings _ (fun m hm => hlegal m (by simp [hm])) fun m hm => ?_
      have hmem : m ∈ typedRequests (s.peers c).events := by simp [htyped', hm]
      exact arrived_of_typedRequests hmem

/-- The client has received the greeting and then the first frames of the session. -/
theorem sender_received :
    ∃ replies todo : List Message,
      clientMessages (s.peers c).events =
          (welcomeReply (rtrim (s.peers c).client.username)).arrived ::
            replies.map Message.arrived ∧
        sentFrames (s.server.base.chatCalls c) = replies ++ todo := by
  have hstarted := started_of_inCommandLoop hpc
  obtain ⟨⟨w, ms, hmessages, -⟩, -⟩ := (reachable_talk hs hstarted).sender hpc
  obtain ⟨-, hgreeted⟩ := sender_login hs hpc hintact
  obtain ⟨got, todo, hframes, -, hgot, -⟩ := carried_down hs hstarted hintact
  rw [hgreeted.calls.1] at hframes
  rw [hmessages] at hgot
  cases got with
  | nil => cases hgot
  | cons m replies =>
      rw [List.cons_append, List.cons.injEq] at hframes
      rw [← hframes.1] at hgot
      exact ⟨replies, todo, by rw [hmessages, hgot]; rfl, hframes.2⟩

/-- The server has broadcast the first texts of the dialogue. -/
theorem sender_texts :
    ((s.server.base.ownTexts c).map fun p => (s.server.base.names p.1, p.2)) <+:
      (senderDialogue (rtrim (s.peers c).client.username)
        (typedRequests (s.peers c).events)).texts := by
  obtain ⟨heard, unheard, unsent, -, htyped, hagrees, hsession, -⟩ := sender_heard hs hpc hintact
  have htexts := hagrees.texts
  rw [hsession] at htexts
  obtain ⟨-, hgrow⟩ :=
    senderDialogue_append (rtrim (s.peers c).client.username) heard (unheard ++ unsent)
  rw [← htyped] at hgrow
  exact List.IsPrefix.trans ⟨_, htexts⟩ hgrow

/-- When there is a reply for each request that was typed, these are all replies and all
texts of the dialogue, and all broadcasts of the sender have ended. -/
theorem sender_answered
    (hall : (typedRequests (s.peers c).events).length ≤
      (sentFrames (s.server.base.chatCalls c)).length) :
    let σ := senderDialogue (rtrim (s.peers c).client.username) (typedRequests (s.peers c).events)
    sentFrames (s.server.base.chatCalls c) = σ.replies ∧
      (s.server.base.ownTexts c).map (fun p => (s.server.base.names p.1, p.2)) = σ.texts ∧
      ∀ b ∈ s.server.base.ownBroadcasts c, b.rest = ∅ := by
  intro σ
  obtain ⟨heard, unheard, unsent, -, htyped, hagrees, hsession, -⟩ := sender_heard hs hpc hintact
  have hframes := hagrees.replies
  have htexts := hagrees.texts
  rw [hsession] at hframes htexts
  have hlength := congrArg List.length hframes
  rw [List.length_append, length_senderDialogue] at hlength
  rw [htyped, List.length_append] at hall
  have hunheard : unheard ++ unsent = [] := List.length_eq_zero_iff.mp (by omega)
  have hσ : σ = senderDialogue (rtrim (s.peers c).client.username) heard := by
    rw [hunheard, List.append_nil] at htyped
    simp only [σ, htyped]
  have hpending : (s.server.base.threads c).pendingReplies s.server.base.names
      (rtrim (s.peers c).client.username) = [] :=
    List.length_eq_zero_iff.mp (by omega)
  have hnone := count_pendingReplies (s.server.base.threads c) s.server.base.names
    (rtrim (s.peers c).client.username)
  rw [hpending, List.count_nil] at hnone
  refine ⟨?_, ?_, fun b hb => ?_⟩
  · rw [hσ, ← hframes, hpending, List.append_nil]
  · have hquiet : (s.server.base.threads c).pendingTexts s.server.base.names = [] :=
      List.length_eq_zero_iff.mp (by omega)
    rw [hσ, ← htexts, hquiet, List.append_nil]
  · rcases List.mem_iff_getElem?.mp hb with ⟨i, hi⟩
    refine finished_of_lt (network_refines hs) hi fun hunanswered => ?_
    rw [if_pos hunanswered] at hnone
    omega

/-- At the prompt the client has received all replies, and all texts have been broadcast. -/
theorem sender_prompted (hprompt : (s.peers c).client.pc = .sender .prompt)
    {replies todo : List Message} (hmessages : clientMessages (s.peers c).events =
      (welcomeReply (rtrim (s.peers c).client.username)).arrived :: replies.map Message.arrived)
    (hchat : sentFrames (s.server.base.chatCalls c) = replies ++ todo) :
    let σ := senderDialogue (rtrim (s.peers c).client.username) (typedRequests (s.peers c).events)
    replies = σ.replies ∧
      (s.server.base.ownTexts c).map (fun p => (s.server.base.names p.1, p.2)) = σ.texts ∧
      ∀ b ∈ s.server.base.ownBroadcasts c, b.rest = ∅ := by
  intro σ
  have hstarted := started_of_inCommandLoop hpc
  obtain ⟨hall, hlen⟩ := ((reachable_talk hs hstarted).sender hpc).2.2 hprompt
  have hcount : (typedRequests (s.peers c).events).length = replies.length := by
    rw [hmessages, hall] at hlen
    simpa using hlen.symm
  have hfirst : replies <+: sentFrames (s.server.base.chatCalls c) := by
    rw [hchat]
    exact List.prefix_append _ _
  obtain ⟨hreplies, hdone⟩ := sender_answered hs hpc hintact (hcount.le.trans hfirst.length_le)
  refine ⟨(hreplies ▸ hfirst).eq_of_length ?_, hdone⟩
  rw [← hcount, length_senderDialogue]

end

/-- The user of a sender has seen the replies to all requests that were typed, and all
texts have been broadcast. -/
structure Network.Answered (s : Network) (c : ConnId) : Prop where
  messages : clientMessages (s.peers c).events =
    (welcomeReply (rtrim (s.peers c).client.username)).arrived ::
      (senderDialogue (rtrim (s.peers c).client.username)
        (typedRequests (s.peers c).events)).replies.map Message.arrived
  texts : (s.server.base.ownTexts c).map (fun p => (s.server.base.names p.1, p.2)) =
    (senderDialogue (rtrim (s.peers c).client.username) (typedRequests (s.peers c).events)).texts
  finished : ∀ b ∈ s.server.base.ownBroadcasts c, b.rest = ∅

/-- At the prompt everything is answered. -/
theorem answered_of_prompt {s : Network} (hs : network.Reachable s) {c : ConnId}
    (hprompt : (s.peers c).client.pc = .sender .prompt) (hintact : s.Intact c) :
    s.Answered c := by
  have hpc : (s.peers c).client.pc.inCommandLoop := by
    rw [hprompt]
    rfl
  obtain ⟨replies, todo, hmessages, hchat⟩ := sender_received hs hpc hintact
  obtain ⟨hreplies, htexts, hfinished⟩ := sender_prompted hs hpc hintact hprompt hmessages hchat
  exact ⟨by rw [hmessages, hreplies], htexts, hfinished⟩

/-- What the user of a sender sees on an intact connection. Whatever the other clients do, the
messages that the client has received are the greeting and the first replies of the sequential
program on the requests that were typed, and the server has broadcast its first texts. At the
prompt these are all replies and all texts, and every broadcast has ended. -/
theorem sender_dialogue {s : Network} (hs : network.Reachable s) {c : ConnId}
    (hpc : (s.peers c).client.pc.inCommandLoop) (hintact : s.Intact c) :
    let username := rtrim (s.peers c).client.username
    let σ := senderDialogue username (typedRequests (s.peers c).events)
    let texts := (s.server.base.ownTexts c).map fun p => (s.server.base.names p.1, p.2)
    ∃ replies : List Message,
      clientMessages (s.peers c).events =
          (welcomeReply username).arrived :: replies.map Message.arrived ∧
        replies <+: σ.replies ∧ texts <+: σ.texts ∧
        ((s.peers c).client.pc = .sender .prompt →
          replies = σ.replies ∧ texts = σ.texts ∧
            ∀ b ∈ s.server.base.ownBroadcasts c, b.rest = ∅) := by
  intro username σ texts
  obtain ⟨heard, unheard, unsent, -, htyped, hagrees, hsession, -⟩ := sender_heard hs hpc hintact
  obtain ⟨replies, todo, hmessages, hchat⟩ := sender_received hs hpc hintact
  have hframes := hagrees.replies
  rw [hsession, hchat, List.append_assoc] at hframes
  obtain ⟨hgrow, -⟩ := senderDialogue_append username heard (unheard ++ unsent)
  rw [← htyped] at hgrow
  exact ⟨replies, hmessages, List.IsPrefix.trans ⟨_, hframes⟩ hgrow,
    sender_texts hs hpc hintact, fun hprompt =>
      sender_prompted hs hpc hintact hprompt hmessages hchat⟩

/-- A user who joins a room and sends a text to nobody. -/
def bobAlone : List NetAction :=
  [.start 0 { pc := .sender .login, username := str "bob", stdin := str "/join hall\n hi \n" },
    .call 0, .toServer 0 (piece "slogin:bob\n"), .serve 0, .serve 0, .serve 0,
    .toClient 0 (piece "ok:Welcome bob!\n"), .call 0, .call 0, .call 0,
    .toServer 0 (piece "join:hall\n"), .serve 0, .serve 0, .serve 0, .serve 0,
    .toClient 0 (piece "ok:succesfully joined hall!\n"), .call 0, .call 0, .call 0,
    .toServer 0 (piece "sendall:hi\n"), .serve 0, .serve 0, .serve 0 { pick := 0 }, .serve 0,
    .serve 0, .toClient 0 (piece "ok:message was sent to all users\n"), .call 0]

/-- The dialogue of a user who has typed two lines. -/
theorem sender_dialogue_alone :
    ∃ s, network.run network.init bobAlone = some s ∧
      typedLines (s.peers 0).events = [str "/join hall", str " hi "] ∧
      clientMessages (s.peers 0).events =
        (welcomeReply (str "bob")).arrived ::
          (senderDialogue (str "bob") (typedRequests (s.peers 0).events)).replies.map
            Message.arrived := by
  have hrun : (network.run network.init bobAlone).map
      (fun s => (decide (s.Intact 0), (s.peers 0).client.pc, (s.peers 0).client.username,
        typedLines (s.peers 0).events)) =
      some (true, .sender .prompt, str "bob", [str "/join hall", str " hi "]) := by
    decide +kernel
  rcases TransitionSystem.exists_reachable_of_run hrun with ⟨s, hs, hobs, hreach⟩
  simp only [Prod.mk.injEq, decide_eq_true_eq] at hobs
  obtain ⟨hintact, hpc, husername, htyped⟩ := hobs
  have hname : rtrim (str "bob") = str "bob" := by decide
  obtain ⟨replies, hmessages, -, -, hprompt⟩ :=
    sender_dialogue hreach (by rw [hpc]; rfl) hintact
  rw [husername, hname] at hmessages hprompt
  exact ⟨s, hs, htyped, by rw [hmessages, (hprompt hpc).1]⟩

end ChatServer
