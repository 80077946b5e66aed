import ChatServer.Server.Login

/-!
# The first frames of a connection

What the tags of its first frames tell a client.  An ok frame at the beginning is the
greeting of a login that has gone through, and an ok frame at the beginning of the session
of a receiver is the reply to its join.

Main results:

- Theorem {lit}`reachable_greeted`: a thread that has made a call in its chat function has
  sent its greeting.
- Theorem {lit}`greeted_of_ok` and theorem {lit}`joined_of_ok`: what an ok frame tells.
- Theorem {lit}`reachable_found`: rooms are found by their names.

Current gaps:

- None for the frames that have been passed to {lit}`send`.
-/

namespace ChatServer

open Function

/-! ## The login during the session -/

/-- A thread that can make a call has not returned. -/
theorem not_done_of_run {s s' : State} {c : ConnId} {env : Env}
    (hstep : server.step s (.run c env) = some s') : (s.threads c).pc ≠ .done := by
  intro hdone
  have hcode : code s c = .halt := by simp [code, Thread.code, hdone]
  have hperf := performed_of_perform hstep
  rw [hcode] at hperf
  cases hperf

/-- A call of a chat function leaves the calls of the login alone. -/
theorem Performed.loginCalls {s s' : State} {c : ConnId} {op : Op} (h : Performed s c op s')
    {d : ConnId} (hd : d ≠ c ∨ ∀ p, (s.threads c).pc ≠ .worker p) :
    s'.loginCalls d = s.loginCalls d := by
  obtain ⟨s₁, t, e, rfl, -, hthreads, hlogin, -, -⟩ := h.called op.called_matches
  by_cases hpc : ∃ p, (s.threads c).pc = .worker p
  · rcases hpc with ⟨p, hpc⟩
    rw [← hthreads] at hpc
    rw [State.loginCalls_resume_worker t e hpc, hlogin]
    rcases hd with hd | hd
    · exact update_of_ne hd _ _
    · rw [hthreads] at hpc
      exact absurd hpc (hd p)
  · rw [not_exists] at hpc
    rw [State.loginCalls_resume t e (by rwa [hthreads]), hlogin]

/-- A call leaves the calls of other threads alone, and a worker has none in its chat
function. -/
theorem Performed.chatCalls {s s' : State} {c : ConnId} {op : Op} (h : Performed s c op s')
    {d : ConnId} (hd : d ≠ c ∨ ∃ p, (s.threads c).pc = .worker p) :
    s'.chatCalls d = s.chatCalls d := by
  obtain ⟨s₁, t, e, rfl, -, hthreads, -, hchat, -⟩ := h.called op.called_matches
  by_cases hpc : ∃ p, (s.threads c).pc = .worker p
  · rcases hpc with ⟨p, hpc⟩
    rw [State.chatCalls_resume_worker t e (by rwa [hthreads]), hchat]
  · rw [not_exists] at hpc
    rw [State.chatCalls_resume t e (by rwa [hthreads]), hchat]
    rcases hd with hd | ⟨p, hp⟩
    · exact update_of_ne hd _ _
    · exact absurd hp (hpc p)

/-- The login does not change during the session. -/
theorem Performed.login {s s' : State} {c : ConnId} (h : Performed s c (code s c) s')
    (hpc : (s.threads c).pc.isSender ∨ (s.threads c).pc.isReceiver) :
    (s'.threads c).login = (s.threads c).login ∧ s'.loginCalls c = s.loginCalls c := by
  have hworker : ∀ p, (s.threads c).pc ≠ .worker p := by
    intro p hp
    simp [hp, Pc.isSender, Pc.isReceiver] at hpc
  have hkeeps : (code s c).Called fun t' _ => t'.login = (s.threads c).login := by
    refine Thread.code_cases trivial (fun p hp => absurd hp (hworker p)) ?_ ?_
    · exact fun p _ => (chatWithSender_stays _ _ _ p).imp fun _ _ h => h.login
    · exact fun p _ => (chatWithReceiver_stays _ p).imp fun _ _ h => h.login
  refine ⟨?_, h.loginCalls (.inr hworker)⟩
  obtain ⟨s₁, t, e, rfl, hlogin, -⟩ := h.called hkeeps
  simpa using hlogin

/-- A sender stays in its session until it returns. -/
theorem Performed.stays_sender {s s' : State} {c : ConnId} (h : Performed s c (code s c) s')
    (hpc : (s.threads c).pc.isSender) :
    (s'.threads c).pc.isSender ∨ (s'.threads c).pc = .done := by
  cases hp : (s.threads c).pc with
  | sender p =>
      rw [code, Thread.code_sender hp] at h
      obtain ⟨s₁, t, e, rfl, hstays, -⟩ := h.called (chatWithSender_stays _ _ _ p)
      simpa using hstays.pc
  | _ => simp [hp, Pc.isSender] at hpc

/-! ## The greeting -/

/-- A thread that has made a call in its chat function has sent its greeting. -/
theorem reachable_greeted {s : State} (hs : server.Reachable s) {c : ConnId}
    (hchat : s.chatCalls c ≠ []) : Greeted (s.threads c).login true (s.loginCalls c) := by
  refine hs.invariant
    (P := fun s => s.chatCalls c ≠ [] → Greeted (s.threads c).login true (s.loginCalls c))
    (fun h => absurd rfl h) ?_ hchat
  intro s a s' hs hstep ih hchat'
  rcases step_cases hstep with ⟨d, fdbuf, habsent, rfl⟩ | ⟨d, env, rfl, hperf⟩
  · have hcd : c ≠ d := by
      rintro rfl
      have hsession := reachable_session hs c
      rw [InSession, habsent] at hsession
      exact hchat' hsession
    simpa [hcd] using ih hchat'
  · by_cases hcd : c = d
    · subst c
      cases hpc : (s.threads d).pc with
      | worker p =>
          rw [hperf.chatCalls (.inr ⟨p, hpc⟩)] at hchat'
          exact absurd (chatCalls_of_worker hs hpc) hchat'
      | sender p =>
          have hsender : (s.threads d).pc.isSender := by rw [hpc]; rfl
          rw [(hperf.login (.inl hsender)).1, (hperf.login (.inl hsender)).2]
          exact greeted_of_chat hs (.inl hsender)
      | receiver p =>
          have hreceiver : (s.threads d).pc.isReceiver := by rw [hpc]; rfl
          rw [(hperf.login (.inr hreceiver)).1, (hperf.login (.inr hreceiver)).2]
          exact greeted_of_chat hs (.inr hreceiver)
      | _ =>
          have hcode : code s d = .halt := by simp [code, Thread.code, hpc]
          rw [hcode] at hperf
          cases hperf
    · rw [hperf.chatCalls (.inl hcd)] at hchat'
      rw [hperf.loginCalls (.inl hcd), (step_other hstep (Ne.symm hcd)).1]
      exact ih hchat'

/-- If the first frame of a connection has the tag ok, it is the greeting of a login that
has gone through. -/
theorem greeted_of_ok {s : State} (hs : server.Reachable s) {c : ConnId} {m : Message}
    {frames : List Message} (hframes : sentFrames (s.calls c) = m :: frames)
    (hok : m.tag = tagOk) :
    ∃ ok, Greeted (s.threads c).login ok (s.loginCalls c) := by
  by_cases hchat : s.chatCalls c = []
  · rw [State.calls, hchat, List.append_nil] at hframes
    have hlogin := reachable_login hs c
    unfold LoginHistory at hlogin
    split at hlogin
    · simp [hlogin, sentFrames] at hframes
    · simp [hlogin, sentFrames] at hframes
    · rcases hlogin with ⟨line, hcalls⟩
      simp [hcalls, sentFrames] at hframes
    · rcases hlogin with ⟨line, -, hcalls⟩
      simp [hcalls, sentFrames] at hframes
    · rcases hlogin with ⟨line, -, hcalls⟩
      simp [hcalls, sentFrames] at hframes
    · exact ⟨true, hlogin⟩
    · exact ⟨true, hlogin⟩
    · rcases hlogin with (hcalls | ⟨line, why, ok, hcalls⟩) | hgreeted
      · simp [hcalls, sentFrames] at hframes
      · simp only [hcalls, sentFrames, List.filterMap_cons, List.filterMap_nil,
          List.cons.injEq] at hframes
        rw [← hframes.1] at hok
        exact absurd (show tagErr = tagOk from hok) (by decide)
      · exact hgreeted
  · exact ⟨true, reachable_greeted hs hchat⟩

/-- The frames and the received lines of a connection whose login has gone through. -/
theorem Greeted.calls {s : State} {c : ConnId} {login : Message} {ok : Bool}
    (h : Greeted login ok (s.loginCalls c)) :
    sentFrames (s.calls c) = welcomeReply login.data :: sentFrames (s.chatCalls c) ∧
      ∃ line, LoginLine line login ∧ .received (some line) ∈ s.calls c := by
  rcases h with ⟨line, hline, hcalls⟩
  exact ⟨by simp [State.calls, hcalls, sentFrames], line, hline, by simp [State.calls, hcalls]⟩

/-! ## The join of a receiver -/

/-- The calls of a receiver up to the join of its room. -/
def JoinedBy (calls : List Event) (line : Bytes) (r : RoomPtr) : Prop :=
  ∃ m more, decode line = some m ∧ m.tag = tagJoin ∧
    calls = .received (some line) :: .found m.data r :: .added r :: more

/-- The session of a receiver: what it has done up to the join of its room, or its
refusal. -/
def JoinHistory (t : Thread) (calls : List Event) : Prop :=
  match t.pc with
  | .receiver .receive => calls = []
  | .receiver (.refuse _) => ∃ line, calls = [.received line]
  | .receiver .find =>
      ∃ line, decode line = some t.msg ∧ t.msg.tag = tagJoin ∧ calls = [.received (some line)]
  | .receiver .add =>
      ∃ line m r, decode line = some m ∧ m.tag = tagJoin ∧ t.room = some r ∧
        calls = [.received (some line), .found m.data r]
  | .done =>
      (∃ line r, JoinedBy calls line r) ∨
        ∃ line why ok, calls = [.received line, .sent (Refusal.reply why) ok]
  | _ => ∃ line r, JoinedBy calls line r

theorem JoinedBy.append {calls : List Event} {line : Bytes} {r : RoomPtr}
    (h : JoinedBy calls line r) (e : Event) : JoinedBy (calls ++ [e]) line r := by
  rcases h with ⟨m, more, hdec, htag, rfl⟩
  exact ⟨m, more ++ [e], hdec, htag, by simp⟩

theorem chatWithReceiver_joinHistory {t : Thread} {p : ReceiverPc} {calls : List Event}
    (hpc : t.pc = .receiver p) (h : JoinHistory t calls) :
    (chatWithReceiver t p).Called fun t' e => JoinHistory t' (calls ++ [e]) := by
  unfold JoinHistory at h
  rw [hpc] at h
  cases p with
  | receive =>
      have hnil : calls = [] := h
      subst calls
      refine ⟨⟨none, rfl⟩, fun line _ _ => ⟨fun _ => ⟨some line, rfl⟩, fun m result hdec => ?_⟩⟩
      dsimp only
      split_ifs with hinvalid heof htag hvalid
      · exact ⟨some line, rfl⟩
      · exact ⟨some line, rfl⟩
      · exact ⟨some line, rfl⟩
      · exact ⟨some line, rfl⟩
      · exact ⟨line, hdec, not_not.mp htag, rfl⟩
  | refuse why =>
      rcases h with ⟨line, rfl⟩
      exact fun ok => .inr ⟨line, why, ok, rfl⟩
  | find =>
      rcases h with ⟨line, hdec, htag, rfl⟩
      exact fun r => ⟨line, t.msg, r, hdec, htag, rfl, rfl⟩
  | add =>
      rcases h with ⟨line, m, r, hdec, htag, hroom, rfl⟩
      apply deref_cases trivial
      intro q hq
      rw [hroom, Option.some.injEq] at hq
      subst q
      exact ⟨line, r, m, [], hdec, htag, rfl⟩
  | joined =>
      rcases h with ⟨line, r, h⟩
      exact fun ok => ⟨line, r, h.append _⟩
  | dequeue =>
      rcases h with ⟨line, r, h⟩
      intro newMsg
      cases newMsg with
      | none => exact ⟨line, r, h.append _⟩
      | some m => exact ⟨line, r, h.append _⟩
  | deliver newMsg =>
      rcases h with ⟨line, r, h⟩
      intro ok
      dsimp only
      split_ifs
      · exact ⟨line, r, h.append _⟩
      · exact ⟨line, r, h.append _⟩
  | empty =>
      rcases h with ⟨line, r, h⟩
      exact fun ok => ⟨line, r, h.append _⟩
  | remove =>
      rcases h with ⟨line, r, h⟩
      exact deref_cases trivial fun q _ => .inl ⟨line, r, h.append _⟩

/-- If the first frame of the session of a receiver has the tag ok, the receiver has
joined the room that it has asked for. -/
theorem joined_of_ok {s : State} (hs : server.Reachable s) {c : ConnId}
    (hlogin : (s.threads c).login.tag = tagRlogin) {m : Message} {frames : List Message}
    (hframes : sentFrames (s.chatCalls c) = m :: frames) (hok : m.tag = tagOk) :
    ∃ line r, JoinedBy (s.chatCalls c) line r := by
  have hhistory : ReceiverHistory JoinHistory (s.threads c) (s.chatCalls c) := by
    refine receiver_invariant ?_ (fun t p calls => chatWithReceiver_joinHistory) hs c
    intro t hpc _
    unfold JoinHistory
    rw [hpc]
  have hresult : JoinHistory (s.threads c) (s.chatCalls c) →
      ∃ line r, JoinedBy (s.chatCalls c) line r := by
    intro h
    unfold JoinHistory at h
    split at h
    · simp [h, sentFrames] at hframes
    · rcases h with ⟨line, hcalls⟩
      simp [hcalls, sentFrames] at hframes
    · rcases h with ⟨line, -, -, hcalls⟩
      simp [hcalls, sentFrames] at hframes
    · rcases h with ⟨line, m', r, -, -, -, hcalls⟩
      simp [hcalls, sentFrames] at hframes
    · rcases h with hjoined | ⟨line, why, ok, hcalls⟩
      · exact hjoined
      · simp only [hcalls, sentFrames, List.filterMap_cons, List.filterMap_nil,
          List.cons.injEq] at hframes
        rw [← hframes.1] at hok
        exact absurd (show tagErr = tagOk from hok) (by decide)
    · exact h
  unfold ReceiverHistory at hhistory
  split at hhistory
  · simp [hhistory, sentFrames] at hframes
  · simp [hhistory, sentFrames] at hframes
  · rw [hlogin] at hhistory
    exact absurd hhistory (by decide)
  · exact hresult hhistory
  · rcases hhistory hlogin with hnil | h
    · simp [hnil, sentFrames] at hframes
    · exact hresult h

/-- Rooms that were found are registered under the name that was looked up. -/
theorem reachable_found {s : State} (hs : server.Reachable s) {c : ConnId} {name : Bytes}
    {r : RoomPtr} (hfound : .found name r ∈ s.chatCalls c) : s.mRooms name = some r := by
  refine hs.invariant (P := fun s => ∀ c, .found name r ∈ s.chatCalls c →
    s.mRooms name = some r) (fun c h => by cases h) ?_ c hfound
  intro s a s' _ hstep ih c hfound
  rcases step_cases hstep with ⟨d, fdbuf, -, rfl⟩ | ⟨d, env, rfl, hperf⟩
  · exact ih c hfound
  · by_cases hold : .found name r ∈ s.chatCalls c
    · exact step_mRooms hstep (ih c hold)
    · obtain ⟨s₁, t, e, rfl, -, hthreads, -, hchat, hregistered⟩ :=
        hperf.called (code s d).called_matches
      refine hregistered name r ?_
      by_contra he
      refine hold ?_
      by_cases hworker : ∃ p, (s₁.threads d).pc = .worker p
      · rcases hworker with ⟨p, hpc⟩
        rwa [State.chatCalls_resume_worker t e hpc, hchat] at hfound
      · rw [State.chatCalls_resume t e (not_exists.mp hworker), hchat] at hfound
        by_cases hcd : c = d
        · subst c
          rw [update_self, List.mem_append, List.mem_singleton] at hfound
          exact hfound.resolve_right fun h => he h.symm
        · rwa [update_of_ne hcd] at hfound

end ChatServer
