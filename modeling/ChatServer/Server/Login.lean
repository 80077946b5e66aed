import ChatServer.Server.ReceiverSession

/-!
# Logins

What a worker has done before it enters its chat function.  It has received one line
that decodes to a login, has created the user with the name of this login and has sent
the greeting; or it has been refused, or has met the end of its stream.

Main results:

- Theorem {lit}`reachable_login`: the calls of the login at each control point.
- Theorem {lit}`reachable_username`: the user of a thread has the name of its login.

Current gaps:

- None for the calls of {lit}`worker`.
-/

namespace ChatServer

open Function

/-! ## The history of a login -/

/-- A property of a thread and the calls of its login that the code of {lit}`worker`
preserves, and that the chat functions do not affect, holds in every reachable state. -/
theorem login_invariant {I : Thread → List Event → Prop} (habsent : I {} [])
    (haccept : ∀ t calls, t.pc = .absent → I t calls → I { pc := .worker .receive } calls)
    (hworker : ∀ t p calls, t.pc = .worker p → I t calls →
      (worker t p).Called fun t' e => I t' (calls ++ [e]))
    (hchat : ∀ t user getRoomName calls, (∀ p, t.pc ≠ .worker p) → I t calls →
      (t.code user getRoomName).Called fun t' _ => I t' calls)
    {s : State} (hs : server.Reachable s) (c : ConnId) :
    I (s.threads c) (s.loginCalls c) := by
  induction hs generalizing c with
  | init => exact habsent
  | @step s s' a _ _ hstep ih =>
      rcases step_cases hstep with ⟨d, fdbuf, hpc, rfl⟩ | ⟨d, env, -, hperf⟩
      · by_cases hcd : c = d
        · subst c
          simpa using haccept _ _ hpc (ih d)
        · simpa [hcd] using ih c
      · by_cases hpc : ∃ p, (s.threads d).pc = .worker p
        · rcases hpc with ⟨p, hpc⟩
          have hcode : code s d = worker (s.threads d) p := Thread.code_worker hpc
          rw [hcode] at hperf
          obtain ⟨s₁, t, e, rfl, ht, hthreads, hlogin, -, -⟩ :=
            hperf.called (hworker _ p _ hpc (ih d))
          rw [← hthreads] at hpc
          rw [State.loginCalls_resume_worker t e hpc, hlogin, State.resume_threads, hthreads]
          by_cases hcd : c = d
          · subst c
            simpa using ht
          · simpa [hcd] using ih c
        · rw [not_exists] at hpc
          obtain ⟨s₁, t, e, rfl, ht, hthreads, hlogin, -, -⟩ :=
            hperf.called (hchat _ _ _ _ hpc (ih d))
          rw [← hthreads] at hpc
          rw [State.loginCalls_resume t e hpc, hlogin, State.resume_threads, hthreads]
          by_cases hcd : c = d
          · subst c
            simpa using ht
          · simpa [hcd] using ih c

/-! ## Successful and refused logins -/

/-- The line of a login. -/
structure LoginLine (line : Bytes) (login : Message) : Prop where
  decodes : decode line = some login
  tag : login.tag = tagRlogin ∨ login.tag = tagSlogin

/-- The calls of a login that has gone through; {lit}`ok` is the result of the send of
the greeting. -/
def Greeted (login : Message) (ok : Bool) (calls : List Event) : Prop :=
  ∃ line, LoginLine line login ∧
    calls = [.received (some line), .created login.data, .sent (welcomeReply login.data) ok]

/-- The calls of a login that was not accepted: the stream has ended or failed, or the
line was answered with an err frame. -/
def TurnedAway (calls : List Event) : Prop :=
  calls = [.received none] ∨
    ∃ line why ok, calls = [.received (some line), .sent (Refusal.reply why) ok]

/-- The calls of the login at each control point. -/
def LoginHistory (t : Thread) (calls : List Event) : Prop :=
  match t.pc with
  | .absent | .worker .receive => calls = []
  | .worker (.refuse _) => ∃ line, calls = [.received (some line)]
  | .worker .newUser => ∃ line, LoginLine line t.login ∧ calls = [.received (some line)]
  | .worker .welcome =>
      ∃ line, LoginLine line t.login ∧
        calls = [.received (some line), .created t.login.data]
  | .sender _ | .receiver _ => Greeted t.login true calls
  | .done => TurnedAway calls ∨ ∃ ok, Greeted t.login ok calls

/-- The calls of {lit}`worker` follow the login. -/
theorem worker_loginHistory {t : Thread} {p : WorkerPc} {calls : List Event}
    (hpc : t.pc = .worker p) (h : LoginHistory t calls) :
    (worker t p).Called fun t' e => LoginHistory t' (calls ++ [e]) := by
  unfold LoginHistory at h
  rw [hpc] at h
  cases p with
  | receive =>
      have hnil : calls = [] := h
      subst calls
      refine ⟨.inl (.inl rfl), fun line _ _ => ⟨fun _ => ⟨line, rfl⟩, ?_⟩⟩
      intro m result hdec
      dsimp only
      rw [if_pos rfl]
      split_ifs with htag
      · exact ⟨line, rfl⟩
      · refine ⟨line, ⟨hdec, ?_⟩, rfl⟩
        by_contra hnone
        rw [not_or] at hnone
        exact htag hnone
  | refuse why =>
      rcases h with ⟨line, rfl⟩
      exact fun ok => .inl (.inr ⟨line, why, ok, rfl⟩)
  | newUser =>
      rcases h with ⟨line, hline, rfl⟩
      exact ⟨line, hline, rfl⟩
  | welcome =>
      rcases h with ⟨line, hline, rfl⟩
      intro ok
      dsimp only
      split_ifs with hok hrlogin hslogin
      · exact .inr ⟨ok, line, hline, rfl⟩
      · have htrue : ok = true := by simpa using hok
        subst ok
        exact ⟨line, hline, rfl⟩
      · have htrue : ok = true := by simpa using hok
        subst ok
        exact ⟨line, hline, rfl⟩
      · exact .inr ⟨ok, line, hline, rfl⟩

/-- In every reachable state the calls of every login fit the control point. -/
theorem reachable_login {s : State} (hs : server.Reachable s) (c : ConnId) :
    LoginHistory (s.threads c) (s.loginCalls c) := by
  refine login_invariant rfl ?_ (fun t p calls => worker_loginHistory) ?_ hs c
  · intro t calls hpc h
    unfold LoginHistory at h
    rw [hpc] at h
    exact h
  · intro t user getRoomName calls hworker h
    have hstays : ∀ {t' : Thread}, t'.login = t.login →
        t'.pc.isSender ∨ t'.pc.isReceiver ∨ t'.pc = .done → Greeted t.login true calls →
        LoginHistory t' calls := by
      intro t' hlogin hpc' hgreeted
      unfold LoginHistory
      rw [hlogin]
      rcases hpc' with hpc' | hpc' | hpc'
      · cases hp : t'.pc with
        | sender p => exact hgreeted
        | _ => simp [hp, Pc.isSender] at hpc'
      · cases hp : t'.pc with
        | receiver p => exact hgreeted
        | _ => simp [hp, Pc.isReceiver] at hpc'
      · rw [hpc']
        exact .inr ⟨true, hgreeted⟩
    unfold LoginHistory at h
    apply Thread.code_cases
    · exact trivial
    · exact fun p hpc => absurd hpc (hworker p)
    · intro p hpc
      rw [hpc] at h
      apply (chatWithSender_stays user getRoomName t p).imp
      exact fun t' _ ht' => hstays ht'.login (ht'.pc.imp id .inr) h
    · intro p hpc
      rw [hpc] at h
      apply (chatWithReceiver_stays t p).imp
      exact fun t' _ ht' => hstays ht'.login (.inr ht'.pc) h

/-! ## Names of users -/

/-- Only the creation of a user changes a name. -/
theorem Performed.username {s s' : State} {c : ConnId} {op : Op} (h : Performed s c op s')
    (hop : ∀ name k, op ≠ .newUser name k) (u : ConnId) :
    (s'.users u).username = (s.users u).username := by
  cases h with
  | newUser name k => exact absurd rfl (hop name k)
  | visited r name text rest k v hv =>
      by_cases huv : u = v
      · subst u
        simp only [State.resume_users, update_self]
        split <;> rfl
      · simp [huv]
  | dequeued k m mqueue hqueue =>
      by_cases huc : u = c
      · subst u
        simp
      · simp [huc]
  | _ => rfl

/-- Only {lit}`worker` creates a user, with the name of the login. -/
theorem code_newUser {s : State} {c : ConnId} {name : Bytes} {k : Thread}
    (hcode : code s c = .newUser name k) :
    (s.threads c).pc = .worker .newUser ∧ name = (s.threads c).login.data := by
  have hrole := code_role s c
  rw [hcode] at hrole
  cases hpc : (s.threads c).pc with
  | absent => simp [code, Thread.code, hpc] at hcode
  | worker p =>
      rw [code, Thread.code_worker hpc] at hcode
      cases p with
      | newUser =>
          cases hcode
          exact ⟨rfl, rfl⟩
      | _ => cases hcode
  | _ => simp [Op.Role, hpc, Pc.loggedIn] at hrole

/-- A call adds at most its own event to the calls of the logins. -/
theorem State.mem_loginCalls_resume {s : State} {c d : ConnId} {t : Thread} {e e' : Event}
    (h : e' ∈ (s.resume d t e).loginCalls c) : e' ∈ s.loginCalls c ∨ c = d ∧ e' = e := by
  by_cases hpc : ∃ p, (s.threads d).pc = .worker p
  · rcases hpc with ⟨p, hpc⟩
    rw [loginCalls_resume_worker t e hpc] at h
    by_cases hcd : c = d
    · subst c
      rw [update_self, List.mem_append, List.mem_singleton] at h
      exact h.imp id fun h => ⟨rfl, h⟩
    · rw [update_of_ne hcd] at h
      exact .inl h
  · rw [not_exists] at hpc
    rw [loginCalls_resume t e hpc] at h
    exact .inl h

/-- Users have the names with which they were created. -/
def UsersNamed (s : State) : Prop :=
  ∀ c name, .created name ∈ s.loginCalls c → (s.users c).username = name

/-- The user that a login creates has the name of the login. -/
theorem Performed.usersNamed_newUser {s s' : State} {c : ConnId} {name : Bytes} {k : Thread}
    (hs : server.Reachable s) (hcode : code s c = .newUser name k)
    (h : Performed s c (.newUser name k) s') (hnamed : UsersNamed s) : UsersNamed s' := by
  rcases code_newUser hcode with ⟨hpc, -⟩
  have hlogin := reachable_login hs c
  unfold LoginHistory at hlogin
  rw [hpc] at hlogin
  rcases hlogin with ⟨line, -, hcalls⟩
  cases h
  intro d name' hcreated
  rcases State.mem_loginCalls_resume hcreated with hold | ⟨rfl, heq⟩
  · have hdc : d ≠ c := by
      rintro rfl
      simp [hcalls] at hold
    simpa [hdc] using hnamed d name' hold
  · cases heq
    simp

/-- In every reachable state the users have the names with which they were created. -/
theorem reachable_usersNamed {s : State} (hs : server.Reachable s) : UsersNamed s := by
  refine hs.invariant (fun c name h => by cases h) ?_
  intro s a s' hs hstep hnamed
  rcases step_cases hstep with ⟨c, fdbuf, -, rfl⟩ | ⟨c, env, -, hperf⟩
  · exact hnamed
  · by_cases hnew : ∃ name k, code s c = .newUser name k
    · rcases hnew with ⟨name, k, hcode⟩
      rw [hcode] at hperf
      exact hperf.usersNamed_newUser hs hcode hnamed
    · simp only [not_exists] at hnew
      intro d name hcreated
      rw [hperf.username hnew]
      rcases hperf.called (code s c).called_matches with
        ⟨s₁, t, e, rfl, hmatch, hthreads, hlogin, -, -⟩
      rcases State.mem_loginCalls_resume hcreated with hold | ⟨rfl, rfl⟩
      · rw [hlogin] at hold
        exact hnamed d name hold
      · rcases hmatch with ⟨k, hk⟩
        exact absurd hk (hnew name k)

/-- The calls of the login of a thread in its chat function. -/
theorem greeted_of_chat {s : State} (hs : server.Reachable s) {c : ConnId}
    (hpc : (s.threads c).pc.isSender ∨ (s.threads c).pc.isReceiver) :
    Greeted (s.threads c).login true (s.loginCalls c) := by
  have hlogin := reachable_login hs c
  unfold LoginHistory at hlogin
  cases hp : (s.threads c).pc with
  | sender p => rwa [hp] at hlogin
  | receiver p => rwa [hp] at hlogin
  | _ => simp [hp, Pc.isSender, Pc.isReceiver] at hpc

/-- The user of a login that has gone through has the name of the login. -/
theorem Greeted.username {s : State} (hs : server.Reachable s) {c : ConnId} {login : Message}
    {ok : Bool} (h : Greeted login ok (s.loginCalls c)) : (s.users c).username = login.data := by
  rcases h with ⟨line, -, hcalls⟩
  exact reachable_usersNamed hs c _ (by simp [hcalls])

/-- In its chat function a thread has the user with the name of its login. -/
theorem reachable_username {s : State} (hs : server.Reachable s) {c : ConnId}
    (hpc : (s.threads c).pc.isSender ∨ (s.threads c).pc.isReceiver) :
    (s.users c).username = (s.threads c).login.data :=
  (greeted_of_chat hs hpc).username hs

end ChatServer
