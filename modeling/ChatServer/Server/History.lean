import ChatServer.Server.Step

/-!
# Threads and their histories

Invariance rules for properties of single threads.  Such a property has to be
checked against the thread code alone: for each call, with the event that the
call leaves behind and with what a receive can return.  One rule relates a
thread to the calls it has made in its chat function, the other to the registry
of rooms.

Main results:

- Theorem {lit}`Performed.called`: a performed call leaves behind one of the
  continuations of the call, and the matching event.
- Theorem {lit}`history_invariant` and theorem {lit}`registry_invariant`: the
  invariance rules.
- Theorem {lit}`receiver_invariant`: the rule for the threads of receivers, to be
  checked against {lit}`chat_with_receiver` only.
- Theorem {lit}`reachable_role`: only threads with a sender login are in
  {lit}`chat_with_sender`, and only threads with a receiver login in
  {lit}`chat_with_receiver`.

Current gaps:

- Of the shared data the rules see the registry of rooms only.
-/

namespace ChatServer

open Function LineFraming

/-! ## Continuations and events -/

/-- Every thread that a call can leave behind satisfies {lit}`P` with the event of
the call.  A receive reports an exhausted stream, or a line that does not decode,
or the message that it decoded. -/
def Op.Called (P : Thread → Event → Prop) : Op → Prop
  | .halt => True
  | .receive msg k =>
      P (k false .eofOrError { msg with tag := tagErr }) (.received none) ∧
        ∀ line, line.length ≤ maxLen → newline ∉ line.dropLast →
          (decode line = none →
            P (k false .invalidMsg { msg with tag := tagErr }) (.received (some line))) ∧
          ∀ m result, decode line = some m → P (k true result m) (.received (some line))
  | .send msg k => ∀ ok, P (k ok) (.sent msg ok)
  | .newUser username k => P k (.created username)
  | .findOrCreateRoom roomName k => ∀ r, P (k r) (.found roomName r)
  | .addMember r k => P k (.added r)
  | .removeMember r k => P k (.removed r)
  | .lockRoom r _ _ k => ∀ members, P (k members) (.locked r)
  | .visitMember _ _ _ _ k => ∀ u, P (k u) (.visited u)
  | .unlockRoom r k => P k (.unlocked r)
  | .dequeue k => ∀ m, P (k m) (.dequeued m)

/-- A receive leads to {lit}`P` if it does so for every outcome; no outcome puts a
newline into the data of the message. -/
theorem called_receive {P : Thread → Event → Prop} {msg : Message}
    {k : Bool → Result → Message → Thread}
    (h : ∀ ok result m line, (newline ∉ msg.data → newline ∉ m.data) →
      P (k ok result m) (.received line)) :
    (Op.receive msg k).Called P := by
  refine ⟨h _ _ _ _ id, fun line hlen hline => ⟨fun _ => h _ _ _ _ id, ?_⟩⟩
  intro m result hdec
  exact h _ _ _ _ fun _ => (decode_bounds hlen hline hdec).2.1

/-- What holds after a call may be weakened. -/
theorem Op.Called.imp {P Q : Thread → Event → Prop} {op : Op} (h : op.Called P)
    (hPQ : ∀ t e, P t e → Q t e) : op.Called Q := by
  cases op with
  | halt => exact trivial
  | receive msg k =>
      refine ⟨hPQ _ _ h.1, fun line hlen hline => ⟨fun hdec => ?_, fun m result hdec => ?_⟩⟩
      · exact hPQ _ _ ((h.2 line hlen hline).1 hdec)
      · exact hPQ _ _ ((h.2 line hlen hline).2 m result hdec)
  | send msg k => exact fun ok => hPQ _ _ (h ok)
  | newUser username k => exact hPQ _ _ h
  | findOrCreateRoom name k => exact fun r => hPQ _ _ (h r)
  | addMember r k => exact hPQ _ _ h
  | removeMember r k => exact hPQ _ _ h
  | lockRoom r name text k => exact fun members => hPQ _ _ (h members)
  | visitMember r name text rest k => exact fun u => hPQ _ _ (h u)
  | unlockRoom r k => exact hPQ _ _ h
  | dequeue k => exact fun m => hPQ _ _ (h m)

/-- Two properties that hold after a call hold together. -/
theorem Op.Called.and {P Q : Thread → Event → Prop} {op : Op} (hP : op.Called P)
    (hQ : op.Called Q) : op.Called fun t e => P t e ∧ Q t e := by
  cases op with
  | halt => exact trivial
  | receive msg k =>
      refine ⟨⟨hP.1, hQ.1⟩, fun line hlen hline => ⟨fun hdec => ?_, fun m result hdec => ?_⟩⟩
      · exact ⟨(hP.2 line hlen hline).1 hdec, (hQ.2 line hlen hline).1 hdec⟩
      · exact ⟨(hP.2 line hlen hline).2 m result hdec, (hQ.2 line hlen hline).2 m result hdec⟩
  | send msg k => exact fun ok => ⟨hP ok, hQ ok⟩
  | newUser username k => exact ⟨hP, hQ⟩
  | findOrCreateRoom name k => exact fun r => ⟨hP r, hQ r⟩
  | addMember r k => exact ⟨hP, hQ⟩
  | removeMember r k => exact ⟨hP, hQ⟩
  | lockRoom r name text k => exact fun members => ⟨hP members, hQ members⟩
  | visitMember r name text rest k => exact fun u => ⟨hP u, hQ u⟩
  | unlockRoom r k => exact ⟨hP, hQ⟩
  | dequeue k => exact fun m => ⟨hP m, hQ m⟩

/-- The event belongs to the call. -/
def Op.Matches (op : Op) : Event → Prop
  | .received _ => ∃ msg k, op = .receive msg k
  | .sent msg _ => ∃ k, op = .send msg k
  | .created username => ∃ k, op = .newUser username k
  | .found name _ => ∃ k, op = .findOrCreateRoom name k
  | .added r => ∃ k, op = .addMember r k
  | .removed r => ∃ k, op = .removeMember r k
  | .locked r => ∃ name text k, op = .lockRoom r name text k
  | .visited _ => ∃ r name text rest k, op = .visitMember r name text rest k
  | .unlocked r => ∃ k, op = .unlockRoom r k
  | .dequeued _ => ∃ k, op = .dequeue k

/-- The event that a call reports is one of its own. -/
theorem Op.called_matches (op : Op) : op.Called fun _ e => op.Matches e := by
  cases op <;> simp [Called, Matches]

/-- The line that a receive reads fits the limit and is a single line. -/
theorem Connection.line_of_nextLine {conn : Connection} {line : Bytes}
    (h : conn.nextLine = some line) :
    line.length ≤ maxLen ∧ newline ∉ line.dropLast := by
  rw [nextLine_eq] at h
  split at h
  · cases h
  · cases h
    exact ⟨length_takeLine_le _ _ _, delim_not_mem_dropLast_takeLine _ _ _⟩

/-- A performed call leaves behind one of its continuations and the matching
event, recorded by {lit}`State.resume`; a room that it has found is registered. -/
theorem Performed.called {s s' : State} {c : ConnId} {op : Op} (h : Performed s c op s')
    {P : Thread → Event → Prop} (hop : op.Called P) :
    ∃ s₁ t e, s' = State.resume s₁ c t e ∧ P t e ∧ s₁.threads = s.threads ∧
      s₁.loginCalls = s.loginCalls ∧ s₁.chatCalls = s.chatCalls ∧
      ∀ name r, e = .found name r → s'.mRooms name = some r := by
  cases h with
  | receive msg k =>
      refine ⟨_, _, _, rfl, ?_, rfl, rfl, rfl, by simp⟩
      rw [Connection.receive_eq]
      cases hline : (s.conns c).nextLine with
      | none => exact hop.1
      | some line =>
          rcases Connection.line_of_nextLine hline with ⟨hlen, hone⟩
          cases hdec : decode line with
          | none => simpa [hdec] using (hop.2 line hlen hone).1 hdec
          | some m => simpa [hdec] using (hop.2 line hlen hone).2 m _ hdec
  | send msg k writes => exact ⟨_, _, _, rfl, hop _, rfl, rfl, rfl, by simp⟩
  | newUser username k => exact ⟨_, _, _, rfl, hop, rfl, rfl, rfl, by simp⟩
  | found name k r hroom =>
      refine ⟨_, _, _, rfl, hop r, rfl, rfl, rfl, ?_⟩
      rintro name' r' ⟨rfl, rfl⟩
      exact hroom
  | newRoom name k hroom =>
      refine ⟨_, _, _, rfl, hop _, rfl, rfl, rfl, ?_⟩
      rintro name' r' ⟨rfl, rfl⟩
      simp [State.newRoom]
  | added r k hlock => exact ⟨_, _, _, rfl, hop, rfl, rfl, rfl, by simp⟩
  | removed r k hlock => exact ⟨_, _, _, rfl, hop, rfl, rfl, rfl, by simp⟩
  | locked r name text k hlock => exact ⟨_, _, _, rfl, hop _, rfl, rfl, rfl, by simp⟩
  | visited r name text rest k u hu => exact ⟨_, _, _, rfl, hop u, rfl, rfl, rfl, by simp⟩
  | unlocked r k => exact ⟨_, _, _, rfl, hop, rfl, rfl, rfl, by simp⟩
  | timedOut k => exact ⟨_, _, _, rfl, hop none, rfl, rfl, rfl, by simp⟩
  | dequeued k m mqueue hqueue => exact ⟨_, _, _, rfl, hop (some m), rfl, rfl, rfl, by simp⟩

/-! ## The invariance rules -/

/-- A property of a thread and its calls in the chat function that the thread code
preserves holds in every reachable state; calls in {lit}`worker` are not part of
that history. -/
theorem history_invariant {I : Thread → List Event → Prop} (habsent : I {} [])
    (haccept : ∀ t calls, t.pc = .absent → I t calls → I { pc := .worker .receive } calls)
    (hworker : ∀ t p user getRoomName calls, t.pc = .worker p → I t calls →
      (t.code user getRoomName).Called fun t' _ => I t' calls)
    (hchat : ∀ t user getRoomName calls, (∀ p, t.pc ≠ .worker p) → I t calls →
      (t.code user getRoomName).Called fun t' e => I t' (calls ++ [e]))
    {s : State} (hs : server.Reachable s) (c : ConnId) :
    I (s.threads c) (s.chatCalls c) := by
  induction hs generalizing c with
  | init => exact habsent
  | @step s s' a _ _ hstep ih =>
      rcases step_cases hstep with ⟨d, fdbuf, hpc, rfl⟩ | ⟨d, env, -, hperf⟩
      · by_cases hcd : c = d
        · subst c
          simpa using haccept _ _ hpc (ih d)
        · simpa [hcd] using ih c
      · by_cases hpc : ∃ p, (s.threads d).pc = .worker p
        · rcases hpc with ⟨p, hpc⟩
          obtain ⟨s₁, t, e, rfl, ht, hthreads, -, hchat', -⟩ :=
            hperf.called (hworker _ p _ _ _ hpc (ih d))
          rw [← hthreads] at hpc
          rw [State.chatCalls_resume_worker t e hpc, hchat', State.resume_threads, hthreads]
          by_cases hcd : c = d
          · subst c
            simpa using ht
          · simpa [hcd] using ih c
        · rw [not_exists] at hpc
          obtain ⟨s₁, t, e, rfl, ht, hthreads, -, hchat', -⟩ :=
            hperf.called (hchat _ _ _ _ hpc (ih d))
          rw [← hthreads] at hpc
          rw [State.chatCalls_resume t e hpc, hchat', State.resume_threads, hthreads]
          by_cases hcd : c = d
          · subst c
            simpa using ht
          · simpa [hcd] using ih c

/-- What a property {lit}`I` of threads and the registry asks for after a call: a
lookup returns the room that the registry has from then on. -/
def AfterCall (I : (Bytes → Option RoomPtr) → Thread → Prop) (m : Bytes → Option RoomPtr)
    (t : Thread) : Event → Prop
  | .found name r =>
      ∀ m', (∀ n q, m n = some q → m' n = some q) → m' name = some r → I m' t
  | _ => I m t

/-- A property of a thread and the registry of rooms that survives the
registration of further rooms and that the thread code preserves holds in every
reachable state. -/
theorem registry_invariant {I : (Bytes → Option RoomPtr) → Thread → Prop}
    (hmono : ∀ m m' t, (∀ n q, m n = some q → m' n = some q) → I m t → I m' t)
    (habsent : ∀ m, I m {}) (haccept : ∀ m, I m { pc := .worker .receive })
    (hcode : ∀ m t user getRoomName, I m t → (t.code user getRoomName).Called (AfterCall I m))
    {s : State} (hs : server.Reachable s) (c : ConnId) : I s.mRooms (s.threads c) := by
  induction hs generalizing c with
  | init => exact habsent _
  | @step s s' a _ _ hstep ih =>
      have hgrow : ∀ n q, s.mRooms n = some q → s'.mRooms n = some q :=
        fun n q => step_mRooms hstep
      rcases step_cases hstep with ⟨d, fdbuf, -, rfl⟩ | ⟨d, env, -, hperf⟩
      · by_cases hcd : c = d
        · subst c
          simpa using haccept s.mRooms
        · simpa [hcd] using ih c
      · obtain ⟨s₁, t, e, hs', ht, hthreads, -, -, hfound⟩ :=
          hperf.called (hcode s.mRooms _ _ _ (ih d))
        have hother : s'.threads = update s.threads d t := by
          rw [hs', State.resume_threads, hthreads]
        rw [hother]
        by_cases hcd : c = d
        · subst c
          rw [update_self]
          cases e with
          | found name r => exact ht _ hgrow (hfound name r rfl)
          | _ => exact hmono _ _ _ hgrow ht
        · rw [update_of_ne hcd]
          exact hmono _ _ _ hgrow (ih c)

/-! ## Logins and chat functions -/

/-- Control points of {lit}`chat_with_sender`. -/
def Pc.isSender : Pc → Bool
  | .sender _ => true
  | _ => false

/-- Control points of {lit}`chat_with_receiver`. -/
def Pc.isReceiver : Pc → Bool
  | .receiver _ => true
  | _ => false

/-- A control point of {lit}`chat_with_sender` is none of {lit}`chat_with_receiver`. -/
theorem Pc.isReceiver_of_isSender {pc : Pc} (h : pc.isSender) : pc.isReceiver = false := by
  cases pc with
  | sender p => rfl
  | _ => cases h

/-- A control point of {lit}`chat_with_receiver` is none of {lit}`chat_with_sender`. -/
theorem Pc.isSender_of_isReceiver {pc : Pc} (h : pc.isReceiver) : pc.isSender = false := by
  cases pc with
  | receiver p => rfl
  | _ => cases h

/-- The chat function of a thread is the one its login asked for. -/
structure Thread.InRole (t : Thread) : Prop where
  sender : t.pc.isSender → t.login.tag = tagSlogin
  receiver : t.pc.isReceiver → t.login.tag = tagRlogin

/-- A thread outside of the chat functions has no role to keep. -/
private theorem inRole_of_outside {t : Thread} (hsender : t.pc.isSender = false)
    (hreceiver : t.pc.isReceiver = false) : t.InRole :=
  ⟨by simp [hsender], by simp [hreceiver]⟩

/-- {lit}`worker` enters the chat function that the login asked for. -/
theorem worker_inRole (t : Thread) (p : WorkerPc) :
    (worker t p).Called fun t' _ => t'.InRole := by
  cases p with
  | receive =>
      apply called_receive
      intro ok result msg _ _
      split_ifs <;> exact inRole_of_outside rfl rfl
  | refuse why => exact fun _ => inRole_of_outside rfl rfl
  | newUser => exact inRole_of_outside rfl rfl
  | welcome =>
      intro ok
      dsimp only
      split_ifs with hok hrlogin hslogin
      · exact inRole_of_outside rfl rfl
      · exact ⟨by simp [Pc.isSender], fun _ => hrlogin⟩
      · exact ⟨fun _ => hslogin, by simp [Pc.isReceiver]⟩
      · exact inRole_of_outside rfl rfl

/-- The thread is still in the request loop of the same login, or has returned,
and no newline has come into its message. -/
structure Thread.StaysSender (t t' : Thread) : Prop where
  login : t'.login = t.login
  pc : t'.pc.isSender ∨ t'.pc = .done
  oneLine : newline ∉ t.msg.data → newline ∉ t'.msg.data

/-- The branches of the request loop are inside it. -/
theorem Thread.staysSender_dispatch {t t' : Thread} (hlogin : t'.login = t.login)
    (hmsg : newline ∉ t.msg.data → newline ∉ t'.msg.data) : t.StaysSender t'.dispatch := by
  unfold dispatch
  split_ifs <;> exact ⟨hlogin, .inl rfl, hmsg⟩

/-- The end of the request loop is still in {lit}`chat_with_sender`, or has returned. -/
theorem Thread.staysSender_breakLoop (t : Thread) : t.StaysSender t.breakLoop := by
  unfold breakLoop
  split_ifs
  · exact ⟨rfl, .inl rfl, id⟩
  · exact ⟨rfl, .inr rfl, id⟩

/-- Every call of {lit}`chat_with_sender` stays in it or returns. -/
theorem chatWithSender_stays (user : User) (getRoomName : RoomPtr → Bytes) (t : Thread)
    (p : SenderPc) :
    (chatWithSender user getRoomName t p).Called fun t' _ => t.StaysSender t' := by
  have hgoto : ∀ p' : SenderPc, t.StaysSender (t.goto (.sender p')) := fun _ =>
    ⟨rfl, .inl rfl, id⟩
  cases p with
  | receive =>
      apply called_receive
      intro ok result m line hm
      have hdispatch : t.StaysSender ({ t with msg := m } : Thread).dispatch :=
        Thread.staysSender_dispatch rfl hm
      split_ifs
      · exact ⟨rfl, .inl rfl, hm⟩
      · exact ⟨rfl, .inl rfl, hm⟩
      · exact hdispatch
      · exact hdispatch
  | invalid => exact fun _ => Thread.staysSender_dispatch rfl id
  | eof => exact fun _ => t.staysSender_breakLoop
  | refuse why => exact fun _ => hgoto _
  | switch => exact deref_cases trivial fun r _ => hgoto _
  | find => exact fun _ => ⟨rfl, .inl rfl, id⟩
  | add => exact deref_cases trivial fun r _ => hgoto _
  | joined => exact fun _ => hgoto _
  | leave => exact deref_cases trivial fun r _ => hgoto _
  | left => exact deref_cases trivial fun r _ _ => ⟨rfl, .inl rfl, id⟩
  | quit => exact fun _ => t.staysSender_breakLoop
  | broadcast => exact deref_cases trivial fun r _ _ => hgoto _
  | visit rest =>
      apply deref_cases trivial
      intro r _
      split_ifs
      · exact hgoto _
      · exact fun _ => hgoto _
  | sent => exact fun _ => hgoto _
  | exit => exact deref_cases trivial fun r _ => ⟨rfl, .inr rfl, id⟩

/-- The thread still serves the receiver of the same login, or has returned, and
no newline has come into its message. -/
structure Thread.StaysReceiver (t t' : Thread) : Prop where
  login : t'.login = t.login
  pc : t'.pc.isReceiver ∨ t'.pc = .done
  oneLine : newline ∉ t.msg.data → newline ∉ t'.msg.data

/-- Every call of {lit}`chat_with_receiver` stays in it or returns. -/
theorem chatWithReceiver_stays (t : Thread) (p : ReceiverPc) :
    (chatWithReceiver t p).Called fun t' _ => t.StaysReceiver t' := by
  have hgoto : ∀ p' : ReceiverPc, t.StaysReceiver (t.goto (.receiver p')) := fun _ =>
    ⟨rfl, .inl rfl, id⟩
  have hdone : t.StaysReceiver (t.goto .done) := ⟨rfl, .inr rfl, id⟩
  cases p with
  | receive =>
      apply called_receive
      intro ok result m line hm
      dsimp only
      split_ifs <;> exact ⟨rfl, .inl rfl, hm⟩
  | refuse why => exact fun _ => hdone
  | find => exact fun _ => ⟨rfl, .inl rfl, id⟩
  | add => exact deref_cases trivial fun r _ => hgoto _
  | joined => exact fun _ => hgoto _
  | dequeue => exact fun m => by cases m <;> exact hgoto _
  | deliver newMsg =>
      intro ok
      dsimp only
      split_ifs
      · exact hgoto _
      · exact hgoto _
  | empty => exact fun _ => hgoto _
  | remove => exact deref_cases trivial fun r _ => hdone

/-- A thread stays in the chat function its login asked for. -/
theorem Thread.InRole.code {t : Thread} (h : t.InRole) (user : User)
    (getRoomName : RoomPtr → Bytes) :
    (t.code user getRoomName).Called fun t' _ => t'.InRole := by
  apply Thread.code_cases
  · exact trivial
  · exact fun p _ => worker_inRole t p
  · intro p hpc
    have hlogin := h.sender (by rw [hpc]; rfl)
    apply (chatWithSender_stays user getRoomName t p).imp
    intro t' _ ht'
    rcases ht'.pc with hsender | hdone
    · exact ⟨fun _ => ht'.login ▸ hlogin, by simp [Pc.isReceiver_of_isSender hsender]⟩
    · exact inRole_of_outside (by rw [hdone]; rfl) (by rw [hdone]; rfl)
  · intro p hpc
    have hlogin := h.receiver (by rw [hpc]; rfl)
    apply (chatWithReceiver_stays t p).imp
    intro t' _ ht'
    rcases ht'.pc with hreceiver | hdone
    · exact ⟨by simp [Pc.isSender_of_isReceiver hreceiver], fun _ => ht'.login ▸ hlogin⟩
    · exact inRole_of_outside (by rw [hdone]; rfl) (by rw [hdone]; rfl)

/-- In every reachable state a sender login is served by {lit}`chat_with_sender` and a receiver
login by {lit}`chat_with_receiver`. -/
theorem reachable_role {s : State} (hs : server.Reachable s) (c : ConnId) :
    (s.threads c).InRole :=
  history_invariant (I := fun t _ => t.InRole) (inRole_of_outside rfl rfl)
    (fun _ _ _ _ => inRole_of_outside rfl rfl)
    (fun _ _ user getRoomName _ _ h => h.code user getRoomName)
    (fun _ user getRoomName _ _ h => h.code user getRoomName) hs c

/-- A thread of {lit}`worker` does not become an absent one. -/
theorem worker_present (t : Thread) (p : WorkerPc) :
    (worker t p).Called fun t' _ => t'.pc ≠ .absent := by
  cases p with
  | receive =>
      apply called_receive
      intro ok result msg _ _
      split_ifs <;> simp
  | refuse why => exact fun _ => by simp [Thread.goto]
  | newUser => simp [worker, Op.Called, Thread.goto]
  | welcome =>
      intro ok
      dsimp only
      split_ifs <;> simp [Thread.goto]

/-- No call makes a thread absent. -/
theorem Thread.code_present (t : Thread) (user : User) (getRoomName : RoomPtr → Bytes) :
    (t.code user getRoomName).Called fun t' _ => t'.pc ≠ .absent := by
  apply Thread.code_cases
  · exact trivial
  · exact fun p _ => worker_present t p
  · intro p _
    apply (chatWithSender_stays user getRoomName t p).imp
    rintro t' _ hstays habsent
    simpa [habsent, Pc.isSender] using hstays.pc
  · intro p _
    apply (chatWithReceiver_stays t p).imp
    rintro t' _ hstays habsent
    simpa [habsent, Pc.isReceiver] using hstays.pc

/-- The thread of a connection that has not arrived is untouched. -/
theorem reachable_absent {s : State} (hs : server.Reachable s) {c : ConnId}
    (hpc : (s.threads c).pc = .absent) : s.threads c = {} := by
  have hpresent : ∀ (t : Thread) user getRoomName,
      (t.code user getRoomName).Called fun t' _ => t'.pc = .absent → t' = {} :=
    fun t user getRoomName =>
      (t.code_present user getRoomName).imp fun _ _ h habsent => absurd habsent h
  refine history_invariant (I := fun t _ => t.pc = .absent → t = {}) (fun _ => rfl) ?_
    (fun t _ user getRoomName _ _ _ => hpresent t user getRoomName)
    (fun t user getRoomName _ _ _ => hpresent t user getRoomName) hs c hpc
  intro t calls _ _ habsent
  cases habsent

/-! ## Receiver threads -/

/-- A property of receiver threads and their calls, at the control points where it
is asked for; a thread may return before it gets to its chat function. -/
def ReceiverHistory (I : Thread → List Event → Prop) (t : Thread) (calls : List Event) :
    Prop :=
  match t.pc with
  | .absent | .worker _ => calls = []
  | .sender _ => t.login.tag = tagSlogin
  | .receiver _ => I t calls
  | .done => t.login.tag = tagRlogin → calls = [] ∨ I t calls

section

variable {I : Thread → List Event → Prop}

/-- A thread that has returned without a chat call has the property. -/
private theorem receiverHistory_done {t : Thread} (hpc : t.pc = .done) :
    ReceiverHistory I t [] := by
  unfold ReceiverHistory
  rw [hpc]
  exact fun _ => .inl rfl

/-- {lit}`worker` enters {lit}`chat_with_receiver` with no chat call made. -/
theorem worker_receiverHistory
    (hstart : ∀ t, t.pc = .receiver .receive → t.login.tag = tagRlogin → I t [])
    (t : Thread) (p : WorkerPc) :
    (worker t p).Called fun t' _ => ReceiverHistory I t' [] := by
  cases p with
  | receive =>
      apply called_receive
      intro ok result msg _ _
      split_ifs
      · rfl
      · rfl
      · rfl
      · exact receiverHistory_done rfl
  | refuse why => exact fun _ => receiverHistory_done rfl
  | newUser => rfl
  | welcome =>
      intro ok
      dsimp only
      split_ifs with hok hrlogin hslogin
      · exact receiverHistory_done rfl
      · exact hstart _ rfl hrlogin
      · exact hslogin
      · exact receiverHistory_done rfl

/-- The property says nothing about sender threads. -/
theorem Thread.StaysSender.receiverHistory {t t' : Thread} (h : t.StaysSender t')
    (hlogin : t.login.tag = tagSlogin) (calls : List Event) : ReceiverHistory I t' calls := by
  unfold ReceiverHistory
  rw [h.login, hlogin]
  rcases h.pc with hpc | hpc
  · cases hp : t'.pc with
    | sender p => rfl
    | _ => simp [hp, Pc.isSender] at hpc
  · rw [hpc]
    exact fun hrlogin => absurd hrlogin (by decide)

/-- A call that stays in {lit}`chat_with_receiver`, or returns from it, carries the property
over. -/
theorem Thread.StaysReceiver.receiverHistory {t t' : Thread} {calls : List Event}
    (h : t.StaysReceiver t') (hI : I t' calls) : ReceiverHistory I t' calls := by
  unfold ReceiverHistory
  rcases h.pc with hpc | hpc
  · cases hp : t'.pc with
    | receiver p => exact hI
    | _ => simp [hp, Pc.isReceiver] at hpc
  · rw [hpc]
    exact fun _ => .inr hI

end

/-- A property of receiver threads and their calls that holds when
{lit}`chat_with_receiver` is entered and that its code preserves holds in every
reachable state. -/
theorem receiver_invariant {I : Thread → List Event → Prop}
    (hstart : ∀ t, t.pc = .receiver .receive → t.login.tag = tagRlogin → I t [])
    (hcode : ∀ t p calls, t.pc = .receiver p → I t calls →
      (chatWithReceiver t p).Called fun t' e => I t' (calls ++ [e]))
    {s : State} (hs : server.Reachable s) (c : ConnId) :
    ReceiverHistory I (s.threads c) (s.chatCalls c) := by
  refine history_invariant rfl ?_ ?_ ?_ hs c
  · intro t calls hpc h
    simpa [ReceiverHistory, hpc] using h
  · intro t p user getRoomName calls hpc h
    have hnil : calls = [] := by simpa [ReceiverHistory, hpc] using h
    rw [Thread.code_worker hpc, hnil]
    exact worker_receiverHistory hstart t p
  · intro t user getRoomName calls hworker h
    apply Thread.code_cases
    · exact trivial
    · exact fun p hpc => absurd hpc (hworker p)
    · intro p hpc
      have hlogin : t.login.tag = tagSlogin := by simpa [ReceiverHistory, hpc] using h
      apply (chatWithSender_stays user getRoomName t p).imp
      exact fun t' _ hstays => hstays.receiverHistory hlogin _
    · intro p hpc
      have hI : I t calls := by simpa [ReceiverHistory, hpc] using h
      apply ((chatWithReceiver_stays t p).and (hcode t p calls hpc hI)).imp
      exact fun t' e ht' => ht'.1.receiverHistory ht'.2

/-! ## The steps of one thread -/

/-- The connection whose step it is. -/
def Action.conn : Action → ConnId
  | .accept c _ _ => c
  | .run c _ => c

/-- The calls of a thread from its login on. -/
def State.calls (s : State) (c : ConnId) : List Event :=
  s.loginCalls c ++ s.chatCalls c

/-- A thread that is still in {lit}`worker` has made no chat call. -/
theorem chatCalls_of_worker {s : State} (hs : server.Reachable s) {c : ConnId}
    {p : WorkerPc} (hpc : (s.threads c).pc = .worker p) : s.chatCalls c = [] := by
  have hhistory : ReceiverHistory (fun _ _ => True) (s.threads c) (s.chatCalls c) := by
    refine receiver_invariant (fun _ _ _ => trivial) (fun t p _ _ _ => ?_) hs c
    exact (chatWithReceiver_stays t p).imp fun _ _ _ => trivial
  simpa [ReceiverHistory, hpc] using hhistory

/-- The calls after a call. -/
theorem State.calls_resume {s : State} {c : ConnId}
    (hchat : ∀ p, (s.threads c).pc = .worker p → s.chatCalls c = []) (t : Thread) (e : Event) :
    (s.resume c t e).calls = update s.calls c (s.calls c ++ [e]) := by
  funext d
  by_cases hworker : ∃ p, (s.threads c).pc = .worker p
  · rcases hworker with ⟨p, hpc⟩
    simp only [calls, chatCalls_resume_worker t e hpc, loginCalls_resume_worker t e hpc]
    by_cases hdc : d = c
    · subst d
      simp [hchat p hpc]
    · simp [hdc, calls]
  · rw [not_exists] at hworker
    simp only [calls, chatCalls_resume t e hworker, loginCalls_resume t e hworker]
    by_cases hdc : d = c
    · subst d
      simp
    · simp [hdc, calls]

/-- A step of a thread leaves behind one of the continuations of its next call and
adds the matching event to its calls. -/
theorem run_called {s s' : State} {c : ConnId} {env : Env} (hs : server.Reachable s)
    (hstep : server.step s (.run c env) = some s') {P : Thread → Event → Prop}
    (hP : (code s c).Called P) :
    ∃ t e, P t e ∧ s'.threads = update s.threads c t ∧
      s'.calls = update s.calls c (s.calls c ++ [e]) := by
  obtain ⟨s₁, t, e, rfl, ht, hthreads, hlogin, hchat, -⟩ :=
    (performed_of_perform hstep).called hP
  have hcalls : s₁.calls = s.calls := by
    funext d
    rw [State.calls, State.calls, hlogin, hchat]
  refine ⟨t, e, ht, by rw [State.resume_threads, hthreads], ?_⟩
  rw [State.calls_resume, hcalls]
  · intro p hpc
    rw [hthreads] at hpc
    rw [hchat]
    exact chatCalls_of_worker hs hpc

/-- The steps of others leave a thread and its calls alone. -/
theorem step_other {s s' : State} {a : Action} (hstep : server.step s a = some s')
    {c : ConnId} (hc : a.conn ≠ c) :
    s'.threads c = s.threads c ∧ s'.calls c = s.calls c := by
  cases a with
  | accept d reads ending =>
      rcases accept_step hstep with ⟨-, rfl⟩
      exact ⟨update_of_ne (Ne.symm hc) _ _, rfl⟩
  | run d env =>
      obtain ⟨s₁, t, e, rfl, -, hthreads, hlogin, hchat, -⟩ :=
        (performed_of_perform hstep).called (code s d).called_matches
      have hcd : c ≠ d := Ne.symm hc
      refine ⟨by simp [hcd, hthreads], ?_⟩
      unfold State.calls State.resume
      split <;> simp [hcd, hlogin, hchat]

/-- The steps of others leave a connection alone. -/
theorem step_other_conns {s s' : State} {a : Action} (hstep : server.step s a = some s')
    {c : ConnId} (hc : a.conn ≠ c) : s'.conns c = s.conns c := by
  cases a with
  | accept d reads ending =>
      rcases accept_step hstep with ⟨-, rfl⟩
      exact update_of_ne (Ne.symm hc) _ _
  | run d env =>
      have hperf := performed_of_perform hstep
      generalize code s d = op at hperf
      cases hperf with
      | receive => exact update_of_ne (Ne.symm hc) _ _
      | send => exact update_of_ne (Ne.symm hc) _ _
      | _ => rfl

/-- A step of the server keeps the calls of a thread, or adds one of them. -/
theorem step_calls {s s' : State} {a : Action} (hs : server.Reachable s)
    (hstep : server.step s a = some s') (c : ConnId) :
    ∃ events, s'.calls c = s.calls c ++ events := by
  by_cases hc : a.conn = c
  · cases a with
    | accept d reads ending =>
        rcases accept_step hstep with ⟨-, rfl⟩
        exact ⟨[], by rw [List.append_nil]; rfl⟩
    | run d env =>
        cases hc
        rcases run_called hs hstep (code s d).called_matches with ⟨t, e, -, -, hcalls⟩
        exact ⟨[e], by rw [hcalls]; exact update_self _ _ _⟩
  · exact ⟨[], by rw [(step_other hstep hc).2, List.append_nil]⟩

/-- Along a run the calls of a thread only grow. -/
theorem run_calls {s s' : State} {as : List Action} (hs : server.Reachable s)
    (hrun : server.run s as = some s') (c : ConnId) :
    ∃ events, s'.calls c = s.calls c ++ events := by
  induction as generalizing s with
  | nil =>
      cases hrun
      exact ⟨[], (List.append_nil _).symm⟩
  | cons a as ih =>
      rw [TransitionSystem.run_cons, Option.bind_eq_some_iff] at hrun
      rcases hrun with ⟨t, hstep, hrest⟩
      rcases step_calls hs hstep c with ⟨events, hevents⟩
      rcases ih (.step hs trivial hstep) hrest with ⟨events', hevents'⟩
      exact ⟨events ++ events', by rw [hevents', hevents, List.append_assoc]⟩

end ChatServer
