import ChatServer.Server.RoomNames
import ChatServer.System.Prompt

/-!
# What is typed is heard

The way of one text through the whole system under fair scheduling: from the line that a
user types to the line that another user in the room sees, if both connections are intact.

Main results:

- Theorem {lit}`text_broadcast`: a text that is typed is broadcast.
- Theorem {lit}`line_printed`: a broadcast that begins is printed by its receivers.
- Theorem {lit}`text_heard`: a text that is typed is printed by the receivers in the room.

Current gaps:

- How long anything takes is not considered, and every write returns.
- Only intact connections are considered: no send and no receive fails, and all messages are
  legal.  A text with a NUL is not legal, nor is one whose delivery is too long for a frame.
-/

namespace ChatServer

open Function Filter TransitionSystem

/-! ## The names of a client -/

/-- A client after some calls: it still has the names that it was started with. -/
structure Client.Continues (cl cl' : Client) : Prop where
  present : cl'.pc ≠ .absent
  username : cl'.username = cl.username
  roomName : cl'.roomName = cl.roomName

theorem Client.continues_ite {b : Prop} [Decidable b] {cl cl₁ cl₂ : Client}
    (h₁ : cl.Continues cl₁) (h₂ : cl.Continues cl₂) : cl.Continues (if b then cl₁ else cl₂) := by
  split_ifs
  · exact h₁
  · exact h₂

/-- No call of a client changes its names. -/
theorem Client.code_continues (cl : Client) :
    cl.code.Called cl fun cl' _ => cl.Continues cl' := by
  have hgoto : ∀ {lines : List Bytes} {pc : ClientPc}, pc ≠ .absent →
      cl.Continues ((cl.complain lines).goto pc) := fun hpc => ⟨hpc, rfl, rfl⟩
  have hkilled : cl.Continues (cl.goto .killed) := ⟨by simp [goto], rfl, rfl⟩
  cases hpc : cl.pc with
  | sender p =>
      rw [code_sender hpc]
      cases p with
      | login | request =>
          exact ⟨hkilled, fun ok => continues_ite (hgoto (by simp)) ⟨by simp [goto], rfl, rfl⟩⟩
      | loginReply =>
          have hreply : ∀ msg : Message, cl.Continues
              (if msg.tag ≠ tagOk then (cl.complain [msg.data]).goto (.exited 1)
                else cl.goto (.sender .prompt)) :=
            fun msg => continues_ite (hgoto (by simp)) ⟨by simp [goto], rfl, rfl⟩
          exact ⟨fun line _ => hreply _, fun line m _ => hreply m⟩
      | prompt =>
          intro line stdin
          dsimp only
          split <;> exact ⟨by simp [goto], rfl, rfl⟩
      | reply quits =>
          have hreply : ∀ msg : Message, cl.Continues
              { (if msg.tag ≠ tagOk then cl.complain [msg.data] else cl) with
                msg := msg, pc := if quits then .exited 0 else .sender .prompt } := by
            intro msg
            constructor
            · cases quits <;> simp
            · dsimp only
              split_ifs <;> rfl
            · dsimp only
              split_ifs <;> rfl
          exact ⟨fun line _ => hreply _, fun line m _ => hreply m⟩
  | receiver p =>
      rw [code_receiver hpc]
      cases p with
      | login | join =>
          exact ⟨hkilled, fun ok => continues_ite (hgoto (by simp)) ⟨by simp [goto], rfl, rfl⟩⟩
      | loginReply =>
          have hreply : ∀ msg : Message, cl.Continues
              (if msg.tag ≠ tagOk then (cl.complain [msg.data]).goto (.exited 1)
                else cl.goto (.receiver .join)) :=
            fun msg => continues_ite (hgoto (by simp)) ⟨by simp [goto], rfl, rfl⟩
          exact ⟨fun line _ => hreply _, fun line m _ => hreply m⟩
      | joinReply =>
          have hreply : ∀ msg : Message, cl.Continues
              (if msg.tag ≠ tagOk then (cl.complain [msg.data]).goto (.exited 2)
                else { cl with msg := {}, pc := .receiver .deliver }) :=
            fun msg => continues_ite (hgoto (by simp)) ⟨by simp, rfl, rfl⟩
          exact ⟨fun line _ => hreply _, fun line m _ => hreply m⟩
      | deliver =>
          have hdeliver : ∀ msg : Message, cl.Continues
              { cl.complain (deliveryOutput msg).2 with
                msg := msg, stdout := cl.stdout ++ endLines (deliveryOutput msg).1 } :=
            fun msg => ⟨by simp [complain, hpc], rfl, rfl⟩
          exact ⟨fun line _ => hdeliver _, fun line m _ => hdeliver m⟩
  | _ =>
      rw [code, hpc]
      exact trivial

/-- A client that has been started keeps its names. -/
theorem client_continues (ρ : network.Behavior) {n m : ℕ} (hnm : n ≤ m) {c : ConnId}
    (hstarted : (ρ.states n).Started c) :
    ((ρ.states n).peers c).client.Continues ((ρ.states m).peers c).client := by
  refine Behavior.persists ρ
    (P := fun s => ((ρ.states n).peers c).client.Continues (s.peers c).client) ?_ hnm
    ⟨hstarted, rfl, rfl⟩
  intro s a s' hs hstep hsame
  rcases networkStep_client hstep c with ⟨cl, rfl, -⟩ | ⟨writes, -, hcall⟩ | ⟨hclient, -⟩
  · exact absurd hstep (not_start_of_started hs hsame.present)
  · obtain ⟨cl, -, hcl, hclient, -⟩ := Peer.called hcall (s.peers c).client.code_continues
    rw [hclient]
    exact ⟨hcl.present, hcl.username.trans hsame.username, hcl.roomName.trans hsame.roomName⟩
  · rwa [hclient]

/-! ## The text that a user has typed -/

/-- A request to send a text in a room keeps the room and adds the text. -/
theorem SenderSession.request_sendall {username : Bytes} {σ : SenderSession} {m : Message}
    {name : Bytes} (htag : m.tag = tagSendall) (hroom : (σ.request username m).room = some name) :
    (σ.request username m).texts = σ.texts ++ [(name, m.data)] := by
  have htags : m.tag ≠ tagJoin ∧ m.tag ≠ tagLeave ∧ m.tag ≠ tagQuit := by
    rw [htag]
    decide
  unfold request at hroom ⊢
  rw [if_neg htags.1, if_neg htags.2.1, if_neg htags.2.2, if_pos htag] at hroom ⊢
  cases hσ : σ.room with
  | none => simp [hσ, refuse] at hroom
  | some name' =>
      simp only [hσ, Option.some.injEq] at hroom
      rw [hroom]

/-- As long as a client has not sent its request, the server has broadcast earlier texts
only. -/
theorem text_unsent {s : Network} (hs : network.Reachable s) {c : ConnId} {quits : Bool}
    (hpc : (s.peers c).client.pc = .sender (.request quits)) (hintact : s.Intact c)
    (htag : (s.peers c).client.msg.tag = tagSendall) {name : Bytes}
    (hroom : (senderDialogue (rtrim (s.peers c).client.username)
      (typedRequests (s.peers c).events)).room = some name) :
    ∃ earlier : List (Bytes × Bytes),
      (senderDialogue (rtrim (s.peers c).client.username)
          (typedRequests (s.peers c).events)).texts =
        earlier ++ [(name, (s.peers c).client.msg.data)] ∧
      (s.server.base.ownBroadcasts c).length ≤ earlier.length := by
  have hloop : (s.peers c).client.pc.inCommandLoop := by
    rw [hpc]
    rfl
  have htalk := reachable_talk hs (started_of_inCommandLoop hloop)
  unfold Talk at htalk
  rw [hpc] at htalk
  obtain ⟨heard, unheard, -, hsent, -, hagrees, hsession, -⟩ := sender_heard hs hloop hintact
  have htyped : typedRequests (s.peers c).events =
      heard ++ unheard ++ [(s.peers c).client.msg] := by
    have hrequests := htalk.1
    rw [hsent, List.cons_append, List.cons.injEq] at hrequests
    exact hrequests.2.symm
  rw [htyped, senderDialogue_concat] at hroom ⊢
  refine ⟨_, SenderSession.request_sendall htag hroom, ?_⟩
  have htexts := congrArg List.length hagrees.texts
  have hgrow := (senderDialogue_append (rtrim (s.peers c).client.username) heard
    unheard).2.length_le
  rw [hsession] at htexts
  simp only [List.length_append, List.length_map, State.ownTexts] at htexts
  rw [State.ownBroadcasts]
  omega

/-- The last one of some images belongs to the second part, if the first part is short. -/
theorem exists_of_map_concat {α β : Type*} {f : α → β} {xs ys : List α} {images : List β} {y : β}
    (h : (xs ++ ys).map f = images ++ [y]) (hxs : xs.length ≤ images.length) :
    ∃ x ∈ ys, f x = y := by
  rcases List.eq_nil_or_concat ys with rfl | ⟨ys, x, rfl⟩
  · have hlength := congrArg List.length h
    simp at hlength
    omega
  · rw [List.concat_eq_append, ← List.append_assoc, List.map_append] at h
    exact ⟨x, by simp, List.singleton_inj.mp (List.append_inj_right' h rfl)⟩

/-! ## The broadcast of the text -/

/-- Under fair scheduling a text that is typed is broadcast in the room of the user. -/
theorem text_broadcast {ρ : network.Behavior} (hfair : Fair ρ) {n : ℕ} {c : ConnId} {quits : Bool}
    (hintact : ∀ m, n ≤ m → (ρ.states m).Intact c)
    (hpc : ((ρ.states n).peers c).client.pc = .sender (.request quits))
    (htag : ((ρ.states n).peers c).client.msg.tag = tagSendall) {name : Bytes}
    (hroom : (senderDialogue (rtrim ((ρ.states n).peers c).client.username)
      (typedRequests ((ρ.states n).peers c).events)).room = some name) :
    ∃ m, n ≤ m ∧
      ∃ b ∈ (ρ.states m).server.base.broadcasts.drop
          (ρ.states n).server.base.broadcasts.length,
        (ρ.states m).server.base.names b.room = name ∧
          b.username = rtrim ((ρ.states n).peers c).client.username ∧
          b.text = ((ρ.states n).peers c).client.msg.data := by
  have hloop : ((ρ.states n).peers c).client.pc.inCommandLoop := by
    rw [hpc]
    rfl
  have hstarted := started_of_inCommandLoop hloop
  obtain ⟨m, hm, -, htyped, hanswered⟩ := prompt_again hfair hintact hloop
  obtain ⟨earlier, htexts, hshort⟩ :=
    text_unsent (ρ.reachable n) hpc (hintact n le_rfl) htag hroom
  obtain ⟨old, hlog, hold⟩ := behavior_log (liveBehavior ρ) hm
  have hlog' : (ρ.states m).server.base.broadcasts = old ++
      (ρ.states m).server.base.broadcasts.drop (ρ.states n).server.base.broadcasts.length := hlog
  have hown := hanswered.texts
  rw [(client_continues ρ hm hstarted).username, typedRequests, htyped, ← typedRequests, htexts,
    State.ownTexts, List.map_map, hlog', List.filter_append] at hown
  obtain ⟨b, hb, htext⟩ := exists_of_map_concat hown (by
    rw [← own_of_progress hold c]
    exact hshort)
  rw [List.mem_filter, decide_eq_true_eq] at hb
  simp only [comp_apply, Prod.mk.injEq] at htext
  refine ⟨m, hm, b, hb.1, htext.1, ?_, htext.2⟩
  have hreach := network_refines (ρ.reachable n)
  have hreach' := network_refines (ρ.reachable m)
  obtain ⟨hlogin, hgreeted⟩ := sender_login (ρ.reachable n) hloop (hintact n le_rfl)
  have hin := Pc.loggedIn_of_present (present_of_started (ρ.reachable n) hstarted)
    (hgreeted.not_worker hreach)
  have hauthored := reachable_authored hreach' (List.mem_of_mem_drop hb.1)
  have husername : ((ρ.states m).server.base.users c).username =
      ((ρ.states n).server.base.users c).username := (behavior_obtained (liveBehavior ρ) hm hin).2.1
  rw [hauthored.username, ← hauthored.greeted.username hreach', hb.2, husername,
    hgreeted.username hreach]
  rfl

/-! ## The line of the text -/

/-- Progress keeps the lines of the broadcasts for a user. -/
theorem lines_of_progress {bs bs' : List Broadcast} (h : List.Forall₂ Broadcast.Progress bs bs')
    (u : ConnId) (username : Bytes) :
    (bs.filter fun b => b.Addresses u username).filterMap Broadcast.line =
      (bs'.filter fun b => b.Addresses u username).filterMap Broadcast.line := by
  have hfilter := List.rel_filter (p := fun b => b.Addresses u username)
    (q := fun b => b.Addresses u username) (fun b b' hb => ?_) h
  · have hlines : ((bs.filter fun b => b.Addresses u username).map Broadcast.line) =
        (bs'.filter fun b => b.Addresses u username).map Broadcast.line := by
      rw [← List.forall₂_eq_eq_eq]
      refine List.rel_map (fun b b' hb => ?_) hfilter
      rw [Broadcast.line, Broadcast.line, hb.username, hb.text]
    simpa only [List.filterMap_map, id_comp] using congrArg (List.filterMap id) hlines
  · simp only [decide_eq_true_eq]
    simp [Broadcast.Addresses, hb.members, hb.username]

/-- What a receiver has printed are lines of broadcasts for its user. -/
theorem printed_of_addressed {s : Network} (hs : network.Reachable s) {a : ConnId}
    (hpc : (s.peers a).client.pc = .receiver .deliver) (hintact : s.Intact a) :
    ∃ lines, (s.peers a).client.stdout = endLines lines ∧
      lines.Sublist ((s.server.base.addressed a).filterMap Broadcast.line) := by
  obtain ⟨-, hname, -⟩ := receiver_joined hs hpc hintact
  obtain ⟨printed, later, hlog, hstdout, -⟩ := receiver_printed hs hpc hintact
  refine ⟨_, hstdout, List.Sublist.filterMap _ ?_⟩
  have hreached : printed.Sublist (printed ++ later) := List.sublist_append_left _ _
  rw [← hlog] at hreached
  refine hreached.trans ?_
  rw [State.addressed, hname]
  refine List.monotone_filter_right _ fun b hb => ?_
  rw [decide_eq_true_eq] at hb ⊢
  exact ⟨hb.1, hb.2.2⟩

/-- The line of a broadcast among those that are printed. -/
theorem lines_of_mem {bs : List Broadcast} {b : Broadcast} {line : Bytes} (hb : b ∈ bs)
    (hline : b.line = some line) :
    ∃ earlier later, bs.filterMap Broadcast.line = earlier ++ line :: later := by
  rcases List.append_of_mem hb with ⟨earlier, later, rfl⟩
  exact ⟨earlier.filterMap Broadcast.line, later.filterMap Broadcast.line, by simp [hline]⟩

section

variable {ρ : network.Behavior} (hfair : Fair ρ) {n : ℕ} {a : ConnId}
  (hlistens : ((ρ.states n).peers a).client.pc = .receiver .deliver)
  (hintact : ∀ m, n ≤ m → (ρ.states m).Intact a)
include hlistens hintact

/-- A receiver stays a member of the room that it has asked for. -/
theorem listener_stays :
    ∃ r, (∀ m, n ≤ m → a ∈ ((ρ.states m).server.base.rooms r).members) ∧
      ∀ m, n ≤ m → (ρ.states m).server.base.names r =
        rtrim ((ρ.states n).peers a).client.roomName := by
  obtain ⟨-, -, r, hjoined, -⟩ := receiver_joined (ρ.reachable n) hlistens (hintact n le_rfl)
  have hstays : ∀ m, n ≤ m → a ∈ ((ρ.states m).server.base.rooms r).members ∧
      (ρ.states m).server.base.names r = rtrim ((ρ.states n).peers a).client.roomName := by
    intro m hm
    have hreach := network_refines (ρ.reachable m)
    have hpc := (deliver_stays ρ hm hlistens).1
    have hsame := client_continues ρ hm (c := a) (by simp [Network.Started, hlistens])
    obtain ⟨hlogin, -, q, hq, hroomName⟩ := receiver_joined (ρ.reachable m) hpc (hintact m hm)
    have hrlogin : ((ρ.states m).server.base.threads a).login.tag = tagRlogin := by
      rw [hlogin]
      rfl
    have hjoined' : (ρ.states m).server.base.Joined r a :=
      (behavior_chatCalls (liveBehavior ρ) hm a).subset hjoined
    constructor
    · exact member_of_looping hreach hrlogin
        (looping_of_receiver (ρ.reachable m) hpc (hintact m hm)) hjoined'
    · rw [joined_unique hreach hrlogin hjoined' hq, hroomName, hsame.roomName]
  exact ⟨r, fun m hm => (hstays m hm).1, fun m hm => (hstays m hm).2⟩

/-- A broadcast that begins in the room that a receiver has asked for is one for its user,
unless it is one of a user with the same name. -/
theorem addresses_listener {m : ℕ} (hm : n ≤ m) {b : Broadcast}
    (hb : b ∈ (ρ.states m).server.base.broadcasts.drop
      (ρ.states n).server.base.broadcasts.length)
    (hroom : (ρ.states m).server.base.names b.room =
      rtrim ((ρ.states n).peers a).client.roomName)
    (hname : b.username ≠ rtrim ((ρ.states n).peers a).client.username) :
    b ∈ (ρ.states m).server.base.addressed a := by
  have hreach := network_refines (ρ.reachable m)
  obtain ⟨r, hmember, hnames⟩ := listener_stays hlistens hintact
  have hb' := List.mem_of_mem_drop hb
  have hbr : b.room = r := by
    refine room_eq_of_roomName hreach ((reachable_broadcastLog hreach).message b hb').1 ?_
      (hroom.trans (hnames m hm).symm)
    exact reachable_room_lt hreach
      (Thread.room_of_memberOf ((reachable_memberships hreach a r).mp (hmember m hm)))
  obtain ⟨-, husername, -⟩ :=
    receiver_joined (ρ.reachable m) (deliver_stays ρ hm hlistens).1 (hintact m hm)
  have hsame := client_continues ρ hm (c := a) (by simp [Network.Started, hlistens])
  rw [State.addressed, List.mem_filter, decide_eq_true_eq]
  refine ⟨hb', behavior_begun (liveBehavior ρ) hm hmember b hb hbr, ?_⟩
  rwa [husername, hsame.username]

include hfair

/-- A broadcast for a receiver that begins from now on is printed, after everything that the
receiver has printed by now. -/
theorem line_printed (hpatient : Patient (liveBehavior ρ) a) {m : ℕ} (hm : n ≤ m) {b : Broadcast}
    (hb : b ∈ (ρ.states m).server.base.broadcasts.drop
      (ρ.states n).server.base.broadcasts.length)
    (haddressed : b ∈ (ρ.states m).server.base.addressed a) {line : Bytes}
    (hline : b.line = some line) :
    ∃ k, m ≤ k ∧ ∃ before after, ((ρ.states n).peers a).client.stdout <+: before ∧
      ((ρ.states k).peers a).client.stdout = before ++ (line ++ [newline]) ++ after := by
  have hpc := (deliver_stays ρ hm hlistens).1
  obtain ⟨k, hk, hprinted⟩ :=
    lines_printed hfair (fun j hj => hintact j (hm.trans hj)) hpatient hpc
  obtain ⟨lines, hstdout, hlines⟩ :=
    printed_of_addressed (ρ.reachable n) hlistens (hintact n le_rfl)
  obtain ⟨old, hlog, hold⟩ := behavior_log (liveBehavior ρ) hm
  have hlog' : (ρ.states m).server.base.broadcasts = old ++
      (ρ.states m).server.base.broadcasts.drop (ρ.states n).server.base.broadcasts.length := hlog
  have hname : ((ρ.states m).server.base.users a).username =
      ((ρ.states n).server.base.users a).username :=
    (behavior_obtained (liveBehavior ρ) hm (Pc.loggedIn_of_looping
      (looping_of_receiver (ρ.reachable n) hlistens (hintact n le_rfl)))).2.1
  have hbegun : b ∈ ((ρ.states m).server.base.broadcasts.drop
      (ρ.states n).server.base.broadcasts.length).filter
        fun b => b.Addresses a ((ρ.states n).server.base.users a).username := by
    rw [State.addressed, List.mem_filter, hname] at haddressed
    exact List.mem_filter.mpr ⟨hb, haddressed.2⟩
  obtain ⟨earlier, later, hnew⟩ := lines_of_mem hbegun hline
  have hall : ((ρ.states m).server.base.addressed a).filterMap Broadcast.line =
      ((ρ.states n).server.base.addressed a).filterMap Broadcast.line ++ earlier ++
        line :: later := by
    rw [State.addressed, hname, hlog', List.filter_append, List.filterMap_append, hnew,
      ← lines_of_progress hold, List.append_assoc]
    rfl
  rcases hprinted with ⟨rest, hrest⟩
  rw [hall, endLines_append] at hrest
  have hsplit : ((ρ.states k).peers a).client.stdout =
      endLines (((ρ.states n).server.base.addressed a).filterMap Broadcast.line ++ earlier) ++
        (line ++ [newline]) ++ (endLines later ++ rest) := by
    rw [← hrest]
    simp [endLines]
  refine ⟨k, hk, _, _, ?_, hsplit⟩
  refine List.prefix_of_prefix_length_le (deliver_stays ρ (hm.trans hk) hlistens).2
    ⟨_, by rw [hsplit, List.append_assoc]⟩ ?_
  rw [hstdout, endLines_append, List.length_append]
  exact (hlines.flatMap _).length_le.trans (Nat.le_add_right _ _)

end

/-- A text that is typed is heard.  Under fair scheduling, when a user types a text in a room,
a receiver in this room prints its line, after everything that it has printed before, unless
one of the two connections does not stay intact: a send or a receive fails on it, or a
message that is not legal is sent. -/
theorem text_heard {ρ : network.Behavior} (hfair : Fair ρ) {a c : ConnId}
    (hpatient : Patient (liveBehavior ρ) a) {n : ℕ} {quits : Bool}
    (hlistens : ((ρ.states n).peers a).client.pc = .receiver .deliver)
    (hasks : ((ρ.states n).peers c).client.pc = .sender (.request quits))
    (htag : ((ρ.states n).peers c).client.msg.tag = tagSendall)
    (hroom : (senderDialogue (rtrim ((ρ.states n).peers c).client.username)
      (typedRequests ((ρ.states n).peers c).events)).room =
        some (rtrim ((ρ.states n).peers a).client.roomName))
    (hnames : rtrim ((ρ.states n).peers c).client.username ≠
      rtrim ((ρ.states n).peers a).client.username)
    (hcolon : colon ∉ rtrim ((ρ.states n).peers c).client.username ∧
      colon ∉ ((ρ.states n).peers c).client.msg.data) :
    ∃ m, n ≤ m ∧ (¬ (ρ.states m).Intact c ∨ ¬ (ρ.states m).Intact a ∨
      ∃ before after, ((ρ.states n).peers a).client.stdout <+: before ∧
        ((ρ.states m).peers a).client.stdout =
          before ++ (rtrim ((ρ.states n).peers c).client.username ++ str ": " ++
            ((ρ.states n).peers c).client.msg.data ++ [newline]) ++ after) := by
  by_contra hnever
  have hintact : ∀ m, n ≤ m → (ρ.states m).Intact c := by
    intro m hm
    by_contra hfailed
    exact hnever ⟨m, hm, .inl hfailed⟩
  have hintact' : ∀ m, n ≤ m → (ρ.states m).Intact a := by
    intro m hm
    by_contra hfailed
    exact hnever ⟨m, hm, .inr (.inl hfailed)⟩
  obtain ⟨m, hm, b, hb, hbroom, husername, htext⟩ :=
    text_broadcast hfair hintact hasks htag hroom
  have haddressed := addresses_listener hlistens hintact' hm hb hbroom (husername ▸ hnames)
  have hline : b.line = some (rtrim ((ρ.states n).peers c).client.username ++ str ": " ++
      ((ρ.states n).peers c).client.msg.data) := by
    rw [Broadcast.line, husername, htext, if_neg (not_or.mpr hcolon)]
  obtain ⟨k, hk, before, after, hbefore, hstdout⟩ :=
    line_printed hfair hlistens hintact' hpatient hm hb haddressed hline
  exact hnever ⟨k, hm.trans hk, .inr (.inr ⟨before, after, hbefore, hstdout⟩)⟩

/-- The first text is heard. -/
theorem text_heard_hi :
    ∃ ρ : network.Behavior,
      ((ρ.states 34).peers 0).client.pc = .sender (.request false) ∧
      ((ρ.states 34).peers 1).client.stdout = [] ∧
      ∃ m, 34 ≤ m ∧ (¬ (ρ.states m).Intact 0 ∨ ¬ (ρ.states m).Intact 1 ∨
        ∃ before after, ((ρ.states m).peers 1).client.stdout =
          before ++ str "bob: hi\n" ++ after) := by
  rcases annIsLost_fair with ⟨s, hrun, hfair⟩
  have hpatient := patient_of_run hrun (by decide) 1
  have hobs := Behavior.observe_ofRun hrun (k := 34)
    (f := fun s => ([(s.peers 1).client.pc, (s.peers 0).client.pc],
      [(s.peers 1).client.username, (s.peers 1).client.roomName, (s.peers 1).client.stdout,
        (s.peers 0).client.username],
      (s.peers 0).client.msg,
      (senderDialogue (str "bob") (typedRequests (s.peers 0).events)).room))
    (b := ([.receiver .deliver, .sender (.request false)],
      [str "ann", str "hall", [], str "bob"], { tag := tagSendall, data := str "hi" },
      some (str "hall"))) (by decide +kernel)
  simp only [Prod.mk.injEq, List.cons.injEq, and_true] at hobs
  obtain ⟨⟨hlistens, hasks⟩, ⟨hann, hhall, hstdout, hbob⟩, hmsg, hroom⟩ := hobs
  have htrim : rtrim (str "ann") = str "ann" ∧ rtrim (str "bob") = str "bob" ∧
      rtrim (str "hall") = str "hall" := by decide
  obtain ⟨m, hm, hend⟩ := text_heard hfair hpatient hlistens hasks (by rw [hmsg])
    (by rw [hbob, hhall, htrim.2.1, htrim.2.2, hroom])
    (by rw [hbob, hann, htrim.1, htrim.2.1]; decide)
    (by rw [hbob, hmsg, htrim.2.1]; decide)
  refine ⟨Behavior.ofRun hrun, hasks, hstdout, m, hm, hend.imp_right (Or.imp_right ?_)⟩
  rintro ⟨before, after, -, hprinted⟩
  rw [hbob, hmsg, htrim.2.1] at hprinted
  exact ⟨before, after, hprinted⟩

end ChatServer
