import ChatServer.Server.Admission
import ChatServer.System.Liveness

/-!
# Every request of a client is answered

A client of the system has at most one request that is not yet answered.  Under fair
scheduling, while it waits for the reply on an intact connection, the server receives
everything that it has sent, answers it, and the reply arrives.

Main results:

- Theorem {lit}`requests_heard`: the server receives what a waiting client has sent.
- Theorem {lit}`replies_sent`: the server answers what a waiting client has sent.
- Theorem {lit}`reply_arrives`: a client does not wait for a reply forever.

Current gaps:

- How long anything takes is not considered, and every write returns.
- Only intact connections are considered: no send and no receive fails, and all messages are
  legal.  The reply to a join of a room with a name of 240 letters is too long to be legal.
-/

namespace ChatServer

open Function Filter TransitionSystem

/-! ## Quit requests -/

/-- The loop of a sender is left after a quit request. -/
theorem quits_of_ask {line : Bytes} {m : Message} {quits : Bool}
    (h : parseLine line = some (.ask m quits)) (hm : m.tag = tagQuit) : quits = true := by
  have htags : tagJoin ≠ tagQuit ∧ tagLeave ≠ tagQuit ∧ tagSendall ≠ tagQuit := by decide
  rcases ask_cases h with ⟨rfl, -⟩ | ⟨rfl, -⟩ | ⟨rfl, -⟩ | ⟨rfl, hquits⟩
  · exact absurd hm htags.2.2
  · exact absurd hm htags.1
  · exact absurd hm htags.2.1
  · exact hquits

/-- A sender client sends a quit request as its last one only. -/
def QuitsLast (cl : Client) (events : List ClientEvent) : Prop :=
  match cl.pc with
  | .sender (.request quits) =>
      (∀ m ∈ clientRequests events, m.tag ≠ tagQuit) ∧ (cl.msg.tag = tagQuit → quits = true)
  | .sender (.reply quits) =>
      (∀ m ∈ (clientRequests events).dropLast, m.tag ≠ tagQuit) ∧
        (quits = false → ∀ m ∈ clientRequests events, m.tag ≠ tagQuit)
  | .sender _ => ∀ m ∈ clientRequests events, m.tag ≠ tagQuit
  | _ => True

/-- Every call of the sender's {lit}`main` keeps a quit request the last one. -/
theorem senderMain_quitsLast {cl : Client} {p : SenderMainPc} {events : List ClientEvent}
    (hpc : cl.pc = .sender p) (h : QuitsLast cl events) :
    (senderMain cl p).Called cl fun cl' e => QuitsLast cl' (events ++ [e]) := by
  unfold QuitsLast at h
  rw [hpc] at h
  cases p with
  | login =>
      refine ⟨trivial, fun ok => ?_⟩
      dsimp only
      split_ifs
      · exact trivial
      · have hslogin : tagSlogin ≠ tagQuit := by decide
        intro m hm
        rw [clientRequests_sent, List.mem_append, List.mem_singleton] at hm
        rcases hm with hm | rfl
        · exact h m hm
        · exact hslogin
  | loginReply =>
      have hreply : ∀ line msg, QuitsLast
          (if msg.tag ≠ tagOk then (cl.complain [msg.data]).goto (.exited 1)
            else cl.goto (.sender .prompt)) (events ++ [.received line msg]) := by
        intro line msg
        split_ifs
        · exact trivial
        · simpa [QuitsLast, Client.goto] using h
      exact ⟨fun line _ => hreply line _, fun line m _ => hreply (some line) m⟩
  | prompt =>
      intro line stdin
      dsimp only
      cases hparse : parseLine line with
      | none => exact trivial
      | some command =>
          cases command with
          | nothing => simpa [QuitsLast, Client.goto] using h
          | complain text => simpa [QuitsLast] using h
          | ask msg quits =>
              refine ⟨?_, fun hquit => quits_of_ask hparse hquit⟩
              simpa using h
  | request quits =>
      have hsent : ∀ ok, (∀ m ∈ (clientRequests (events ++ [.sent cl.msg ok])).dropLast,
          m.tag ≠ tagQuit) ∧
          (quits = false →
            ∀ m ∈ clientRequests (events ++ [.sent cl.msg ok]), m.tag ≠ tagQuit) := by
        intro ok
        rw [clientRequests_sent, List.dropLast_concat]
        refine ⟨h.1, fun hquits m hm => ?_⟩
        rw [List.mem_append, List.mem_singleton] at hm
        rcases hm with hm | rfl
        · exact h.1 m hm
        · intro htag
          rw [h.2 htag] at hquits
          cases hquits
      refine ⟨trivial, fun ok => ?_⟩
      dsimp only
      split_ifs
      · exact hsent ok
      · exact hsent ok
  | reply quits =>
      have hreply : ∀ line msg, QuitsLast
          { (if msg.tag ≠ tagOk then cl.complain [msg.data] else cl) with
            msg := msg, pc := if quits then .exited 0 else .sender .prompt }
          (events ++ [.received line msg]) := by
        intro line msg
        cases quits with
        | true => exact trivial
        | false => simpa [QuitsLast] using h.2 rfl
      exact ⟨fun line _ => hreply line _, fun line m _ => hreply (some line) m⟩

/-- Receivers send no quit request. -/
theorem receiverMain_quitsLast {cl : Client} {p : ReceiverMainPc} (hpc : cl.pc = .receiver p)
    (events : List ClientEvent) :
    (receiverMain cl p).Called cl fun cl' e => QuitsLast cl' (events ++ [e]) := by
  have hleave : ∀ (b : Prop) [Decidable b] (cl₁ cl₂ : Client) (e : ClientEvent),
      QuitsLast cl₁ (events ++ [e]) → QuitsLast cl₂ (events ++ [e]) →
        QuitsLast (if b then cl₁ else cl₂) (events ++ [e]) := by
    intro b _ cl₁ cl₂ e h₁ h₂
    split_ifs
    · exact h₁
    · exact h₂
  cases p with
  | login | join => exact ⟨trivial, fun ok => hleave _ _ _ _ trivial trivial⟩
  | loginReply | joinReply =>
      exact ⟨fun line _ => hleave _ _ _ _ trivial trivial,
        fun line m _ => hleave _ _ _ _ trivial trivial⟩
  | deliver => simp [receiverMain, ClientOp.Called, QuitsLast, Client.complain, hpc]

/-- In every reachable state no client goes on after a quit request. -/
theorem reachable_quitsLast {s : Network} (hs : network.Reachable s) {c : ConnId}
    (hstarted : s.Started c) : QuitsLast (s.peers c).client (s.peers c).events := by
  refine client_history (I := QuitsLast) ?_ ?_ hs hstarted
  · rintro cl (hcl | hcl) <;> rw [hcl]
    · exact fun m hm => by cases hm
    · exact trivial
  · intro cl events h
    cases hpc : cl.pc with
    | sender p =>
        rw [Client.code_sender hpc]
        exact senderMain_quitsLast hpc h
    | receiver p =>
        rw [Client.code_receiver hpc]
        exact receiverMain_quitsLast hpc events
    | _ =>
        rw [Client.code, hpc]
        exact trivial

/-! ## Clients that wait for a reply -/

/-- The client has sent a request and waits for the reply to it. -/
def ClientPc.awaits : ClientPc → Bool
  | .sender .loginReply | .sender (.reply _) | .receiver .loginReply | .receiver .joinReply => true
  | _ => false

/-- The control points that wait for a reply. -/
theorem ClientPc.cases_of_awaits {pc : ClientPc} (h : pc.awaits) :
    pc = .sender .loginReply ∨ pc = .receiver .loginReply ∨ (∃ quits, pc = .sender (.reply quits)) ∨
      pc = .receiver .joinReply := by
  unfold awaits at h
  split at h
  · exact .inl rfl
  · exact .inr (.inr (.inl ⟨_, rfl⟩))
  · exact .inr (.inl rfl)
  · exact .inr (.inr (.inr rfl))
  · cases h

/-- A client that waits for a reply has been started. -/
theorem started_of_awaits {s : Network} {c : ConnId} (h : (s.peers c).client.pc.awaits) :
    s.Started c := by
  intro habsent
  rw [habsent] at h
  cases h

/-- A client that waits for a reply is about to receive. -/
theorem code_of_awaits {cl : Client} (h : cl.pc.awaits) : ∃ msg k, cl.code = .receive msg k := by
  rcases ClientPc.cases_of_awaits h with hpc | hpc | ⟨quits, hpc⟩ | hpc
  · exact ⟨_, _, Client.code_sender hpc⟩
  · exact ⟨_, _, Client.code_receiver hpc⟩
  · exact ⟨_, _, Client.code_sender hpc⟩
  · exact ⟨_, _, Client.code_receiver hpc⟩

/-- One reply is missing. -/
theorem Talk.awaits {cl : Client} {events : List ClientEvent} (h : Talk cl events)
    (hpc : cl.pc.awaits) :
    (clientMessages events).length + 1 = (clientRequests events).length := by
  unfold Talk at h
  rcases ClientPc.cases_of_awaits hpc with hp | hp | ⟨quits, hp⟩ | hp <;> rw [hp] at h
  · rw [h.1, h.2.1]
    rfl
  · rw [h.1, h.2.1]
    rfl
  · exact h.2.1
  · rcases h with ⟨hrequests, ⟨w, hmessages, -⟩, -⟩
    rw [hrequests, hmessages]
    rfl

/-- A receive adds a line. -/
theorem run_receives {s s' : State} {c : ConnId} {env : Env} (hs : server.Reachable s)
    (hpc : (s.threads c).pc.receives) (hstep : server.step s (.run c env) = some s') :
    (receivedLines (s'.calls c)).length = (receivedLines (s.calls c)).length + 1 := by
  have hcalled : (code s c).Called fun _ e => ∃ line, e = .received line := by
    rw [← Thread.code_isReceive (s.threads c) (s.users c) fun r => (s.rooms r).roomName] at hpc
    change (code s c).isReceive = true at hpc
    cases hop : code s c with
    | receive msg k => exact called_receive fun ok result m line _ => ⟨line, rfl⟩
    | _ => simp [hop, Op.isReceive] at hpc
  obtain ⟨t, e, ⟨line, rfl⟩, -, hcalls⟩ := run_called hs hstep hcalled
  rw [hcalls, update_self, receivedLines_append, List.length_append]
  rfl

/-! ## What the server still has to receive -/

/-- The thread of a sender client that waits for a reply does not return before it has
received all requests. -/
theorem not_done_of_unheard {s : Network} (hs : network.Reachable s) {c : ConnId}
    (hintact : s.Intact c) {quits : Bool} (hpc : (s.peers c).client.pc = .sender (.reply quits))
    (hunheard : (receivedLines (s.server.base.calls c)).length <
      (clientRequests (s.peers c).events).length) :
    (s.server.base.threads c).pc ≠ .done := by
  intro hdone
  have hstarted : s.Started c := by simp [Network.Started, hpc]
  obtain ⟨hlogin, -⟩ := sender_login hs (by rw [hpc]; rfl) hintact
  obtain ⟨got, todo, hrequests, hlegal, hgot, -⟩ := carried_up hs hstarted hintact
  have htodo : todo ≠ [] := by
    rintro rfl
    rw [hgot, hrequests] at hunheard
    simp at hunheard
  rcases sender_returns (network_refines hs) (by rw [hlogin]; rfl) hdone with
    ⟨msg, hfailed⟩ | ⟨line, hlast, hquit⟩
  · have hsent : (msg, false) ∈ (s.down c).sent :=
      List.mem_filterMap.mpr ⟨.sent msg false, hfailed, rfl⟩
    exact absurd (hintact.down msg false hsent).1 (by simp)
  · rw [hgot, List.getLast?_map, Option.map_eq_some_iff] at hlast
    rcases hlast with ⟨m, hm, rfl⟩
    have hmem : m ∈ got := List.mem_of_getLast? hm
    rcases hquit m.encoding rfl with ⟨m', hdec, htag⟩
    rw [(hlegal m (List.mem_append_left _ hmem)).decode, Option.some.injEq] at hdec
    have hearlier := reachable_quitsLast hs hstarted
    unfold QuitsLast at hearlier
    rw [hpc, hrequests, List.dropLast_append_of_ne_nil htodo] at hearlier
    refine hearlier.1 m (List.mem_append_left _ hmem) ?_
    rw [← hdec] at htag
    exact htag

/-- A receiver client that waits for the reply to its join has logged in. -/
theorem receiver_login {s : Network} (hs : network.Reachable s) {c : ConnId}
    (hpc : (s.peers c).client.pc = .receiver .joinReply) (hintact : s.Intact c) :
    clientRequests (s.peers c).events =
        [rlogin (s.peers c).client, joinRequest (s.peers c).client] ∧
      (s.server.base.threads c).login = (rlogin (s.peers c).client).arrived := by
  have hstarted : s.Started c := by simp [Network.Started, hpc]
  have htalk := reachable_talk hs hstarted
  unfold Talk at htalk
  rw [hpc] at htalk
  obtain ⟨hrequests, ⟨w, hmessages, hok⟩, -⟩ := htalk
  exact ⟨hrequests, (login_of_client hs hstarted hintact hmessages hok hrequests).1⟩

section

variable {s : Network} (hs : network.Reachable s) {c : ConnId} (hintact : s.Intact c)
  (hawaits : (s.peers c).client.pc.awaits) (hwaiting : (s.server.base.threads c).pc.waiting)
include hs hintact hawaits hwaiting

/-- As long as a thread has not received everything that a waiting client has sent, it waits
for a line. -/
theorem receives_of_unheard
    (hunheard : (receivedLines (s.server.base.calls c)).length <
      (clientRequests (s.peers c).events).length) :
    (s.server.base.threads c).pc.receives := by
  have hreach := network_refines hs
  have hstarted := started_of_awaits hawaits
  have hpresent := present_of_started hs hstarted
  have htalk := reachable_talk hs hstarted
  have hfirst : receivedLines (s.server.base.calls c) = [] →
      (s.server.base.threads c).pc.receives := by
    intro hnil
    rw [waits_for_login hreach hwaiting hpresent hnil]
    rfl
  have hlogin : (clientRequests (s.peers c).events).length = 1 →
      (s.server.base.threads c).pc.receives := by
    intro hone
    exact hfirst (List.length_eq_zero_iff.mp (by omega))
  unfold Talk at htalk
  rcases ClientPc.cases_of_awaits hawaits with hpc | hpc | ⟨quits, hpc⟩ | hpc <;>
    rw [hpc] at htalk
  · exact hlogin (by rw [htalk.1]; rfl)
  · exact hlogin (by rw [htalk.1]; rfl)
  · have hloop : (s.peers c).client.pc.inCommandLoop := by
      rw [hpc]
      rfl
    obtain ⟨hslogin, hgreeted⟩ := sender_login hs hloop hintact
    rcases sender_of_login hreach (by rw [hslogin]; rfl) (hgreeted.not_worker hreach) with
      hsender | hdone
    · rw [Pc.receive_of_waiting hsender hwaiting]
      rfl
    · exact absurd hdone (not_done_of_unheard hs hintact hpc hunheard)
  · obtain ⟨hrequests, hrlogin⟩ := receiver_login hs hpc hintact
    obtain ⟨got, todo, hsent, -, hlines, -⟩ := carried_up hs hstarted hintact
    rw [hrequests] at hunheard
    rcases got with _ | ⟨first, _ | ⟨second, got⟩⟩
    · exact hfirst hlines
    · rw [waits_for_join hreach hwaiting (by rw [hrlogin]; rfl) hintact.not_failed hlines]
      rfl
    · rw [hlines] at hunheard
      simp only [List.map_cons, List.length_cons, List.length_nil] at hunheard
      omega

/-- A thread that waits and has received everything that a waiting client has sent has
answered it. -/
theorem answered_of_heard
    (hheard : (clientRequests (s.peers c).events).length ≤
      (receivedLines (s.server.base.calls c)).length) :
    (clientRequests (s.peers c).events).length ≤
      (sentFrames (s.server.base.calls c)).length := by
  have hreach := network_refines hs
  have hstarted := started_of_awaits hawaits
  have htalk := reachable_talk hs hstarted
  obtain ⟨got, todo, hsent, -, hlines, -⟩ := carried_up hs hstarted hintact
  have hlogin : (clientRequests (s.peers c).events).length = 1 →
      (clientRequests (s.peers c).events).length ≤
        (sentFrames (s.server.base.calls c)).length := by
    intro hone
    rw [hlines, List.length_map, hone] at hheard
    cases got with
    | nil => cases hheard
    | cons first got =>
        rw [hone]
        exact (login_answered hreach hwaiting hlines).length_le
  unfold Talk at htalk
  rcases ClientPc.cases_of_awaits hawaits with hpc | hpc | ⟨quits, hpc⟩ | hpc <;>
    rw [hpc] at htalk
  · exact hlogin (by rw [htalk.1]; rfl)
  · exact hlogin (by rw [htalk.1]; rfl)
  · have hloop : (s.peers c).client.pc.inCommandLoop := by
      rw [hpc]
      rfl
    obtain ⟨hslogin, hgreeted⟩ := sender_login hs hloop hintact
    have hend : (s.server.base.threads c).pc = .sender .receive ∨
        (s.server.base.threads c).pc = .done := by
      rcases sender_of_login hreach (by rw [hslogin]; rfl) (hgreeted.not_worker hreach) with
        hsender | hdone
      · exact .inl (Pc.receive_of_waiting hsender hwaiting)
      · exact .inr hdone
    obtain ⟨heard, -, -, -, -, hagrees, hsession, hcount⟩ := sender_heard hs hloop hintact
    have hreplies := (hagrees.complete hend).1
    rcases hgreeted.receivedLines with ⟨line, hreceived⟩
    refine hheard.trans ?_
    rw [hreceived, hgreeted.calls.1, hreplies, hsession, List.length_cons, List.length_cons,
      length_senderDialogue, hcount]
  · obtain ⟨hrequests, hrlogin⟩ := receiver_login hs hpc hintact
    rw [hlines, List.length_map, hrequests] at hheard
    rcases got with _ | ⟨first, _ | ⟨second, got⟩⟩
    · cases hheard
    · simp at hheard
    · rw [hrequests]
      exact (join_answered hreach hwaiting (by rw [hrlogin]; rfl) hintact.not_failed
        hlines).length_le

end

/-! ## The reply -/

section

variable {ρ : network.Behavior} (hfair : Fair ρ) {n : ℕ} {c : ConnId}
  (hintact : ∀ m, n ≤ m → (ρ.states m).Intact c)
  (hawaits : ((ρ.states n).peers c).client.pc.awaits)
  (hno : ∀ m, n ≤ m → ¬ ρ.Occurs (NetAction.Calls c) m)

include hawaits hno in
/-- A client that waits for a reply stays as it is. -/
theorem client_waits {m : ℕ} (hm : n ≤ m) :
    ((ρ.states m).peers c).client.pc.awaits ∧
      ((ρ.states m).peers c).events = ((ρ.states n).peers c).events := by
  have hsame := client_stays (started_of_awaits hawaits) hno hm
  exact ⟨by rw [hsame.1, hawaits], hsame.2⟩

include hfair hintact hawaits hno

/-- A thread makes its next call, if its client has sent more than it has received. -/
theorem thread_calls {k : ℕ} (hk : n ≤ k)
    (hpc : ((ρ.states k).server.base.threads c).pc.receives)
    (hsent : (receivedLines ((ρ.states k).server.base.calls c)).length <
      (clientRequests ((ρ.states n).peers c).events).length) :
    ∃ m, k ≤ m ∧ (liveBehavior ρ).Occurs (LiveAction.By c) m := by
  by_contra hnone
  have hnocall : ∀ m, k ≤ m → ¬ (liveBehavior ρ).Occurs (LiveAction.By c) m :=
    fun m hm hoccurs => hnone ⟨m, hm, hoccurs⟩
  have hpresent : (((liveBehavior ρ).states k).base.threads c).pc ≠ .absent ∧
      (((liveBehavior ρ).states k).base.threads c).pc ≠ .done := by
    change ((ρ.states k).server.base.threads c).pc ≠ .absent ∧
      ((ρ.states k).server.base.threads c).pc ≠ .done
    constructor
    · intro h
      rw [h] at hpc
      cases hpc
    · intro h
      rw [h] at hpc
      cases hpc
  have hready : ∀ᶠ m in atTop, ¬ ((ρ.states m).up c).Waits := by
    refine ready_in_the_end (n := k) (p := fun s => s.up c) (fun m hm => ?_) (fun m hm => ?_)
      (fun s => enabledIn_bytesUp) (hfair.up c)
    · rcases ρ.step_cases m with ⟨hlabel, hstutter⟩ | ⟨a, hlabel, hstep⟩
      · rw [hlabel, hstutter]
        exact ⟨(List.append_nil _).symm, id⟩
      · rw [hlabel]
        have hstarted := started_of_awaits (client_waits hawaits hno (hk.trans hm)).1
        refine networkStep_arrivesUp (ρ.reachable m) hstarted hstep fun ha => hnocall m hm ?_
        cases a with
        | serve d env =>
            refine ⟨.run d env, ?_, ha⟩
            change (ρ.labels m).bind NetAction.atServer = _
            rw [hlabel]
            rfl
        | _ => exact absurd ha id
    · obtain ⟨hawaits', hevents⟩ := client_waits hawaits hno (hk.trans hm)
      obtain ⟨got, todo, hrequests, hlegal, hgot, hway⟩ :=
        carried_up (ρ.reachable m) (started_of_awaits hawaits') (hintact m (hk.trans hm))
      refine ⟨todo, ?_, fun x hx => hlegal x (List.mem_append_right _ hx), hway⟩
      rintro rfl
      have hcalls : (ρ.states m).server.base.calls c = (ρ.states k).server.base.calls c :=
        calls_stay hpresent.1 hnocall hm
      have hlen := congrArg List.length hgot
      rw [hcalls, List.length_map] at hlen
      rw [hevents, List.append_nil] at hrequests
      rw [hrequests] at hsent
      omega
  have hfree : ∃ᶠ m in atTop, ¬ ((liveBehavior ρ).states m).Blocked c := by
    refine Eventually.frequently (hready.mono fun m hm => ?_)
    rintro ⟨-, hwaits⟩
    exact hm hwaits
  exact hnone (thread_runs (fun d => (hfair.live d).weaklyFair) (hfair.live c) hpresent.1
    hpresent.2 hfree)

/-- The server receives everything that a waiting client has sent. -/
theorem requests_heard :
    ∃ m, n ≤ m ∧ (clientRequests ((ρ.states n).peers c).events).length ≤
      (receivedLines ((ρ.states m).server.base.calls c)).length := by
  refine exists_of_catchUp fun m hm hless => ?_
  obtain ⟨k, hmk, hwaiting, hlines⟩ :=
    thread_waits (ρ := liveBehavior ρ) (fun d => (hfair.live d).weaklyFair) (hfair.live c) m
  have hk : n ≤ k := hm.trans hmk
  have hlines' : receivedLines ((ρ.states k).server.base.calls c) =
      receivedLines ((ρ.states m).server.base.calls c) := hlines
  obtain ⟨hawaits', hevents⟩ := client_waits hawaits hno hk
  rw [← hlines'] at hless
  have hreceives : ((ρ.states k).server.base.threads c).pc.receives := by
    refine receives_of_unheard (ρ.reachable k) (hintact k hk) hawaits' hwaiting ?_
    rwa [hevents]
  obtain ⟨l, env, hl, -, hstep, hthread, hlogins, hchat⟩ :=
    next_call (ρ := liveBehavior ρ) (n := k) (c := c)
      (present_of_started (ρ.reachable k) (started_of_awaits hawaits'))
      (thread_calls hfair hintact hawaits hno hk hreceives hless)
  refine ⟨l + 1, by omega, ?_⟩
  have hcalls : (ρ.states l).server.base.calls c = (ρ.states k).server.base.calls c :=
    congrArg₂ (· ++ ·) hlogins hchat
  have hmore := run_receives (network_refines (ρ.reachable l)) (hthread ▸ hreceives) hstep
  rw [hcalls, hlines'] at hmore
  exact hmore.ge

/-- The server answers everything that a waiting client has sent. -/
theorem replies_sent :
    ∃ m, n ≤ m ∧ (clientRequests ((ρ.states n).peers c).events).length ≤
      (sentFrames ((ρ.states m).server.base.calls c)).length := by
  obtain ⟨k, hk, hheard⟩ := requests_heard hfair hintact hawaits hno
  obtain ⟨m, hkm, hwaiting, hlines⟩ :=
    thread_waits (ρ := liveBehavior ρ) (fun d => (hfair.live d).weaklyFair) (hfair.live c) k
  have hm : n ≤ m := hk.trans hkm
  have hlines' : receivedLines ((ρ.states m).server.base.calls c) =
      receivedLines ((ρ.states k).server.base.calls c) := hlines
  obtain ⟨hawaits', hevents⟩ := client_waits hawaits hno hm
  refine ⟨m, hm, ?_⟩
  rw [← hevents]
  refine answered_of_heard (ρ.reachable m) (hintact m hm) hawaits' hwaiting ?_
  rwa [hevents, hlines']

end

/-- The reply to a request arrives. -/
theorem reply_arrives {ρ : network.Behavior} (hfair : Fair ρ) {n : ℕ} {c : ConnId}
    (hintact : ∀ m, n ≤ m → (ρ.states m).Intact c)
    (hawaits : ((ρ.states n).peers c).client.pc.awaits) :
    ∃ m, n ≤ m ∧ ρ.Occurs (NetAction.Calls c) m := by
  by_contra hnone
  have hno : ∀ m, n ≤ m → ¬ ρ.Occurs (NetAction.Calls c) m :=
    fun m hm hoccurs => hnone ⟨m, hm, hoccurs⟩
  obtain ⟨k, hk, hsent⟩ := replies_sent hfair hintact hawaits hno
  have hcount := (reachable_talk (ρ.reachable n) (started_of_awaits hawaits)).awaits hawaits
  refine hnone (client_calls hfair hintact ?_ hk (by omega))
  rcases code_of_awaits hawaits with ⟨msg, next, hcode⟩
  simp [hcode]

end ChatServer
