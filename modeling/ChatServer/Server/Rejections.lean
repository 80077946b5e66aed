import ChatServer.Server.History

/-!
# Rejected requests

A frame that the server does not accept is answered with err frames and changes
nothing else.  The control points split into those of a request that is being
refused, from which a thread only sends err frames, and those of a request that
is being served, from which it sends none before its next receive or dequeue.
The tag that {lit}`receive` writes for a malformed line keeps the sender loop on
the first side, although the data of an earlier request is still in its message.

Main results:

- Theorem {lit}`Thread.code_received`: a received line is refused or served.
- Theorem {lit}`rejected_request_changes_nothing`: a request that is answered with
  an err frame, and any malformed line, changes no room, queue or registry entry
  and leaves the thread in its room.

Current gaps:

- None for the steps of {lit}`Server.Step`.
-/

namespace ChatServer

open Function

/-! ## Refusing and serving a request -/

/-- The request has been refused: err frames are due, or have been sent. -/
def Thread.Rejecting (t : Thread) : Prop :=
  match t.pc with
  | .worker (.refuse _) | .sender (.refuse _) | .receiver (.refuse _) => True
  | .sender .invalid => t.msg.tag = tagErr
  | .sender .receive | .done => True
  | _ => False

/-- The request is being served, or has been. -/
def Thread.Accepting (t : Thread) : Prop :=
  match t.pc with
  | .absent | .worker .receive | .worker (.refuse _) | .receiver (.refuse _) => False
  | .sender .invalid | .sender .eof | .sender (.refuse _) => False
  | .receiver (.deliver _) | .receiver .empty | .receiver .remove => False
  | _ => True

/-- The event begins the next request of a sender or the delivery loop of a
receiver. -/
def Event.endsRequest : Event → Bool
  | .received _ | .dequeued _ => true
  | _ => false

/-- The send of an err frame. -/
def Event.isErrReply : Event → Bool
  | .sent m _ => m.tag = tagErr
  | _ => false

/-- Every refusal is answered with the tag err. -/
theorem Refusal.reply_tag (why : Refusal) : why.reply.tag = tagErr :=
  rfl

/-- The dispatch refuses the request without a change of the room, or serves it. -/
theorem Thread.dispatch_decides (t : Thread) :
    (t.dispatch.Rejecting ∧ t.dispatch.room = t.room) ∨ t.dispatch.Accepting := by
  unfold dispatch
  split_ifs
  · exact .inl ⟨trivial, rfl⟩
  · exact .inr trivial
  · exact .inr trivial
  · exact .inl ⟨trivial, rfl⟩
  · exact .inr trivial
  · exact .inr trivial
  · exact .inl ⟨trivial, rfl⟩
  · exact .inr trivial
  · exact .inl ⟨trivial, rfl⟩

/-- A message with tag err is refused, whatever data it carries. -/
theorem Thread.rejecting_dispatch_of_err {t : Thread} (h : t.msg.tag = tagErr) :
    t.dispatch.Rejecting ∧ t.dispatch.room = t.room := by
  have hjoin : tagErr ≠ tagJoin := by decide
  have hleave : tagErr ≠ tagLeave := by decide
  have hquit : tagErr ≠ tagQuit := by decide
  have hsendall : tagErr ≠ tagSendall := by decide
  unfold dispatch
  rw [h, if_neg hjoin, if_neg hleave, if_neg hquit, if_neg hsendall]
  exact ⟨trivial, rfl⟩

/-- A thread that leaves the request loop refuses nothing. -/
theorem Thread.accepting_breakLoop (t : Thread) : t.breakLoop.Accepting := by
  unfold breakLoop
  split_ifs <;> exact trivial

/-! ## The calls of a request -/

/-- A thread that refuses a request sends an err frame and stays in its room, until
the next request. -/
theorem Thread.code_rejecting {t : Thread} (h : t.Rejecting) (user : User)
    (getRoomName : RoomPtr → Bytes) :
    (t.code user getRoomName).Called fun t' e =>
      e.endsRequest ∨ t'.Rejecting ∧ t'.room = t.room ∧ e.isErrReply := by
  unfold Rejecting at h
  split at h
  · rename_i why hpc
    rw [code_worker hpc]
    exact fun _ => .inr ⟨trivial, rfl, by simp [Event.isErrReply, why.reply_tag]⟩
  · rename_i why hpc
    rw [code_sender hpc]
    exact fun _ => .inr ⟨trivial, rfl, by simp [Event.isErrReply, why.reply_tag]⟩
  · rename_i why hpc
    rw [code_receiver hpc]
    exact fun _ => .inr ⟨trivial, rfl, by simp [Event.isErrReply, why.reply_tag]⟩
  · rename_i hpc
    rw [code_sender hpc]
    rcases rejecting_dispatch_of_err h with ⟨hdispatch, hroom⟩
    exact fun _ => .inr ⟨hdispatch, hroom, by simp [Event.isErrReply, Refusal.reply_tag]⟩
  · rename_i hpc
    rw [code_sender hpc]
    exact called_receive fun _ _ _ _ _ => .inl rfl
  · rename_i hpc
    simp [code, hpc, Op.Called]
  · cases h

/-- A thread that serves a request sends no err frame, until the next request. -/
theorem Thread.code_accepting {t : Thread} (h : t.Accepting) (user : User)
    (getRoomName : RoomPtr → Bytes) :
    (t.code user getRoomName).Called fun t' e =>
      e.endsRequest ∨ t'.Accepting ∧ e.isErrReply = false := by
  have hok : ∀ (data : Bytes) (ok : Bool),
      (Event.sent { tag := tagOk, data := data } ok).isErrReply = false := by
    intro data ok
    simp [Event.isErrReply, tagOk, tagErr, str]
  apply Thread.code_cases
  · exact trivial
  · intro p hpc
    cases p with
    | receive => simp [Accepting, hpc] at h
    | refuse why => simp [Accepting, hpc] at h
    | newUser => exact .inr ⟨trivial, rfl⟩
    | welcome =>
        intro ok
        refine .inr ⟨?_, hok _ ok⟩
        dsimp only
        split_ifs <;> exact trivial
  · intro p hpc
    cases p with
    | receive => exact called_receive fun _ _ _ _ _ => .inl rfl
    | invalid => simp [Accepting, hpc] at h
    | eof => simp [Accepting, hpc] at h
    | refuse why => simp [Accepting, hpc] at h
    | switch => exact deref_cases trivial fun r _ => .inr ⟨trivial, rfl⟩
    | find => exact fun _ => .inr ⟨trivial, rfl⟩
    | add => exact deref_cases trivial fun r _ => .inr ⟨trivial, rfl⟩
    | joined => exact fun ok => .inr ⟨trivial, hok _ ok⟩
    | leave => exact deref_cases trivial fun r _ => .inr ⟨trivial, rfl⟩
    | left => exact deref_cases trivial fun r _ ok => .inr ⟨trivial, hok _ ok⟩
    | quit => exact fun ok => .inr ⟨t.accepting_breakLoop, hok _ ok⟩
    | broadcast => exact deref_cases trivial fun r _ _ => .inr ⟨trivial, rfl⟩
    | visit rest =>
        apply deref_cases trivial
        intro r _
        split_ifs
        · exact .inr ⟨trivial, rfl⟩
        · exact fun _ => .inr ⟨trivial, rfl⟩
    | sent => exact fun ok => .inr ⟨trivial, hok _ ok⟩
    | exit => exact deref_cases trivial fun r _ => .inr ⟨trivial, rfl⟩
  · intro p hpc
    cases p with
    | receive => exact called_receive fun _ _ _ _ _ => .inl rfl
    | refuse why => simp [Accepting, hpc] at h
    | find => exact fun _ => .inr ⟨trivial, rfl⟩
    | add => exact deref_cases trivial fun r _ => .inr ⟨trivial, rfl⟩
    | joined => exact fun ok => .inr ⟨trivial, hok _ ok⟩
    | dequeue => exact fun m => .inl rfl
    | deliver m => simp [Accepting, hpc] at h
    | empty => simp [Accepting, hpc] at h
    | remove => simp [Accepting, hpc] at h

/-- What a thread does with a line it has received: it refuses it without a change
of its room, as it does with every malformed line, or it serves it. -/
def Thread.Decides (t t' : Thread) : Event → Prop
  | .received (some line) =>
      (t'.Rejecting ∧ t'.room = t.room) ∨ (t'.Accepting ∧ decode line ≠ none)
  | _ => True

/-- {lit}`worker` refuses or serves its first line. -/
theorem worker_received (t : Thread) (p : WorkerPc) :
    (worker t p).Called fun t' e => t.Decides t' e := by
  cases p with
  | receive =>
      refine ⟨trivial, fun line _ _ => ⟨fun _ => .inl ⟨trivial, rfl⟩, ?_⟩⟩
      intro m result hdec
      dsimp only
      split_ifs
      · exact .inl ⟨trivial, rfl⟩
      · exact .inr ⟨trivial, by simp [hdec]⟩
      · exact .inl ⟨trivial, rfl⟩
      · exact .inl ⟨trivial, rfl⟩
  | refuse why => exact fun _ => trivial
  | newUser => exact trivial
  | welcome => exact fun _ => trivial

/-- {lit}`chat_with_sender` refuses or serves every line. -/
theorem chatWithSender_received (user : User) (getRoomName : RoomPtr → Bytes) (t : Thread)
    (p : SenderPc) :
    (chatWithSender user getRoomName t p).Called fun t' e => t.Decides t' e := by
  cases p with
  | receive =>
      refine ⟨trivial, fun line _ _ => ⟨fun _ => .inl ⟨rfl, rfl⟩, ?_⟩⟩
      intro m result hdec
      rcases Thread.dispatch_decides { t with msg := m } with hreject | haccept
      · exact .inl hreject
      · exact .inr ⟨haccept, by simp [hdec]⟩
  | invalid => exact fun _ => trivial
  | eof => exact fun _ => trivial
  | refuse why => exact fun _ => trivial
  | switch => exact deref_cases trivial fun r _ => trivial
  | find => exact fun _ => trivial
  | add => exact deref_cases trivial fun r _ => trivial
  | joined => exact fun _ => trivial
  | leave => exact deref_cases trivial fun r _ => trivial
  | left => exact deref_cases trivial fun r _ _ => trivial
  | quit => exact fun _ => trivial
  | broadcast => exact deref_cases trivial fun r _ _ => trivial
  | visit rest =>
      apply deref_cases trivial
      intro r _
      split_ifs
      · exact trivial
      · exact fun _ => trivial
  | sent => exact fun _ => trivial
  | exit => exact deref_cases trivial fun r _ => trivial

/-- {lit}`chat_with_receiver` refuses or serves its line. -/
theorem chatWithReceiver_received (t : Thread) (p : ReceiverPc) :
    (chatWithReceiver t p).Called fun t' e => t.Decides t' e := by
  cases p with
  | receive =>
      refine ⟨trivial, fun line _ _ => ⟨fun _ => .inl ⟨trivial, rfl⟩, ?_⟩⟩
      intro m result hdec
      dsimp only
      split_ifs with hinvalid heof hjoin hvalid
      · simp at hinvalid
      · simp at heof
      · exact .inl ⟨trivial, rfl⟩
      · exact .inl ⟨trivial, rfl⟩
      · exact .inr ⟨trivial, by simp [hdec]⟩
  | refuse why => exact fun _ => trivial
  | find => exact fun _ => trivial
  | add => exact deref_cases trivial fun r _ => trivial
  | joined => exact fun _ => trivial
  | dequeue => exact fun _ => trivial
  | deliver newMsg => exact fun _ => trivial
  | empty => exact fun _ => trivial
  | remove => exact deref_cases trivial fun r _ => trivial

/-- Every received line is refused or served. -/
theorem Thread.code_received (t : Thread) (user : User) (getRoomName : RoomPtr → Bytes) :
    (t.code user getRoomName).Called fun t' e => t.Decides t' e := by
  apply Thread.code_cases
  · exact trivial
  · exact fun p _ => worker_received t p
  · exact fun p _ => chatWithSender_received user getRoomName t p
  · exact fun p _ => chatWithReceiver_received t p

/-! ## Runs during a request -/

/-- The step changes no entry of the registry, no member set and no queue. -/
structure Unaffected (s s' : State) : Prop where
  mRooms : s'.mRooms = s.mRooms
  members : ∀ r, (s'.rooms r).members = (s.rooms r).members
  mqueue : ∀ u, (s'.users u).mqueue = (s.users u).mqueue

/-- The steps of a thread along a run leave the shared data unaffected. -/
def UnaffectedBy (c : ConnId) (s : State) (as : List Action) : Prop :=
  server.Along (fun t a t' => a.conn = c → Unaffected t t') s as

/-- Receiving and sending change no shared data. -/
theorem Performed.unaffected {s s' : State} {c : ConnId} {op : Op} (h : Performed s c op s')
    (hop : (∃ msg k, op = .receive msg k) ∨ ∃ msg k, op = .send msg k) : Unaffected s s' := by
  rcases hop with ⟨msg, k, rfl⟩ | ⟨msg, k, rfl⟩
  · cases h with
    | receive => exact ⟨rfl, fun _ => rfl, fun _ => rfl⟩
  · cases h with
    | send => exact ⟨rfl, fun _ => rfl, fun _ => rfl⟩

/-- A receive and an err reply change no shared data. -/
theorem step_unaffected {s s' : State} {c : ConnId} {env : Env} {e : Event}
    (hstep : server.step s (.run c env) = some s') (hop : (code s c).Matches e)
    (he : (∃ line, e = .received line) ∨ e.isErrReply) : Unaffected s s' := by
  apply (performed_of_perform hstep).unaffected
  rcases he with ⟨line, rfl⟩ | he
  · exact .inl hop
  · cases e with
    | sent msg ok =>
        rcases hop with ⟨k, hk⟩
        exact .inr ⟨msg, k, hk⟩
    | _ => cases he

section

variable {I : Thread → Prop} {R : Event → Prop}

/-- One step of a run during a request.  A step of the thread itself adds the next
of the replies. -/
theorem request_step
    (hcode : ∀ t user getRoomName, I t → (t.code user getRoomName).Called fun t' e =>
      e.endsRequest ∨ I t' ∧ R e)
    (habsent : ∀ t, I t → t.pc ≠ .absent) {s s₁ s' : State} {a : Action} {as : List Action}
    {c : ConnId} {replies : List Event} (hs : server.Reachable s)
    (hstep : server.step s a = some s₁) (hrun : server.run s₁ as = some s')
    (hcalls : s'.calls c = s.calls c ++ replies)
    (hreplies : ∀ e ∈ replies, e.endsRequest = false) (h : I (s.threads c)) :
    I (s₁.threads c) ∧ ∃ replies', s'.calls c = s₁.calls c ++ replies' ∧
      ((a.conn ≠ c ∧ replies = replies') ∨
        ∃ env e, a = .run c env ∧ replies = e :: replies' ∧ R e ∧ (code s c).Matches e) := by
  rcases run_calls (.step hs trivial hstep) hrun c with ⟨replies', hcalls'⟩
  by_cases hc : a.conn = c
  · cases a with
    | accept d reads ending =>
        have hpc := (accept_step hstep).1
        rw [show d = c from hc] at hpc
        exact absurd hpc (habsent _ h)
    | run d env =>
        rw [show d = c from hc] at hstep ⊢
        obtain ⟨t, e, ⟨hnext, hmatches⟩, hthreads, hadd⟩ :=
          run_called hs hstep ((hcode _ _ _ h).and (code s c).called_matches)
        rw [hadd, update_self, hcalls, List.append_assoc, List.append_cancel_left_eq,
          List.singleton_append] at hcalls'
        have hother : e.endsRequest = false := hreplies e (by simp [hcalls'])
        rw [hother] at hnext
        rcases hnext with hend | ⟨hI, hR⟩
        · cases hend
        · refine ⟨by rwa [hthreads, update_self], replies', ?_, .inr ⟨env, e, rfl, ?_⟩⟩
          · rw [hcalls, hadd, update_self, hcalls', List.append_assoc, List.singleton_append]
          · exact ⟨hcalls', hR, hmatches⟩
  · rcases step_other hstep hc with ⟨hthread, hsame⟩
    rw [hsame, hcalls, List.append_cancel_left_eq] at hcalls'
    exact ⟨by rwa [hthread], replies', by rw [hcalls, hsame, hcalls'], .inl ⟨hc, hcalls'⟩⟩

end

/-- A thread that refuses a request is there. -/
theorem Thread.present_of_rejecting {t : Thread} (h : t.Rejecting) : t.pc ≠ .absent := by
  intro hpc
  simp [Rejecting, hpc] at h

/-- A thread that serves a request is there. -/
theorem Thread.present_of_accepting {t : Thread} (h : t.Accepting) : t.pc ≠ .absent := by
  intro hpc
  simp [Accepting, hpc] at h

/-- While a thread refuses a request it only sends err frames. -/
theorem rejecting_run {s s' : State} {as : List Action} {c : ConnId} {replies : List Event}
    (hs : server.Reachable s) (hrun : server.run s as = some s')
    (hcalls : s'.calls c = s.calls c ++ replies)
    (hreplies : ∀ e ∈ replies, e.endsRequest = false) (h : (s.threads c).Rejecting) :
    (∀ e ∈ replies, e.isErrReply) ∧ (s'.threads c).room = (s.threads c).room ∧
      UnaffectedBy c s as := by
  induction as generalizing s replies with
  | nil =>
      cases hrun
      have hnil : replies = [] := List.self_eq_append_right.mp hcalls
      subst hnil
      exact ⟨by simp, rfl, trivial⟩
  | cons a as ih =>
      rw [TransitionSystem.run_cons, Option.bind_eq_some_iff] at hrun
      rcases hrun with ⟨s₁, hstep, hrest⟩
      obtain ⟨⟨h₁, hroom₁⟩, replies', hcalls', hown⟩ :=
        request_step (I := fun t => t.Rejecting ∧ t.room = (s.threads c).room)
          (R := fun e => e.isErrReply)
          (fun t user getRoomName ht => (Thread.code_rejecting ht.1 user getRoomName).imp
            fun t' e hnext => hnext.imp_right fun hnext =>
              ⟨⟨hnext.1, hnext.2.1.trans ht.2⟩, hnext.2.2⟩)
          (fun t ht => Thread.present_of_rejecting ht.1)
          hs hstep hrest hcalls hreplies ⟨h, rfl⟩
      have hsub : ∀ e ∈ replies', e ∈ replies := by
        rcases hown with ⟨-, rfl⟩ | ⟨env, e, -, rfl, -, -⟩
        · exact fun _ he => he
        · exact fun _ he => List.mem_cons_of_mem _ he
      rcases ih (.step hs trivial hstep) hrest hcalls' (fun e he => hreplies e (hsub e he)) h₁ with
        ⟨herr, hroom, hunaffected⟩
      refine ⟨?_, hroom.trans hroom₁, ?_⟩
      · rcases hown with ⟨-, rfl⟩ | ⟨env, e, -, rfl, he, -⟩
        · exact herr
        · exact List.forall_mem_cons.mpr ⟨he, herr⟩
      · intro s₂ hs₂
        rw [hstep, Option.some.injEq] at hs₂
        subst s₂
        refine ⟨fun hc => ?_, hunaffected⟩
        rcases hown with ⟨hne, -⟩ | ⟨env, e, rfl, -, he, hmatches⟩
        · exact absurd hc hne
        · exact step_unaffected hstep hmatches (.inr he)

/-- While a thread serves a request it sends no err frame. -/
theorem accepting_run {s s' : State} {as : List Action} {c : ConnId} {replies : List Event}
    (hs : server.Reachable s) (hrun : server.run s as = some s')
    (hcalls : s'.calls c = s.calls c ++ replies)
    (hreplies : ∀ e ∈ replies, e.endsRequest = false) (h : (s.threads c).Accepting) :
    ∀ e ∈ replies, e.isErrReply = false := by
  induction as generalizing s replies with
  | nil =>
      cases hrun
      have hnil : replies = [] := List.self_eq_append_right.mp hcalls
      simp [hnil]
  | cons a as ih =>
      rw [TransitionSystem.run_cons, Option.bind_eq_some_iff] at hrun
      rcases hrun with ⟨s₁, hstep, hrest⟩
      obtain ⟨h₁, replies', hcalls', hown⟩ :=
        request_step (R := fun e => e.isErrReply = false)
          (fun t user getRoomName ht => Thread.code_accepting ht user getRoomName)
          (fun t ht => Thread.present_of_accepting ht) hs hstep hrest hcalls hreplies h
      rcases hown with ⟨-, rfl⟩ | ⟨env, e, -, rfl, he, -⟩
      · exact ih (.step hs trivial hstep) hrest hcalls' hreplies h₁
      · rw [List.forall_mem_cons] at hreplies ⊢
        exact ⟨he, ih (.step hs trivial hstep) hrest hcalls' hreplies.2 h₁⟩

/-! ## Rejected requests change nothing -/

/-- A thread receives a line, and {lit}`replies` are its calls before its next
receive or dequeue.  If the line is malformed, or one of the replies is an err
frame, then all of them are, the steps of the thread change no registry entry, no
member set and no queue, and the thread stays in its room. -/
theorem rejected_request_changes_nothing {s s' : State} (hs : server.Reachable s) {c : ConnId}
    {line : Bytes} {replies : List Event} {as : List Action}
    (hrun : server.run s as = some s')
    (hcalls : s'.calls c = s.calls c ++ .received (some line) :: replies)
    (hreplies : ∀ e ∈ replies, e.endsRequest = false)
    (hrejected : decode line = none ∨ ∃ e ∈ replies, e.isErrReply) :
    (∀ e ∈ replies, e.isErrReply) ∧ (s'.threads c).room = (s.threads c).room ∧
      UnaffectedBy c s as := by
  induction as generalizing s with
  | nil =>
      cases hrun
      simp at hcalls
  | cons a as ih =>
      rw [TransitionSystem.run_cons, Option.bind_eq_some_iff] at hrun
      rcases hrun with ⟨s₁, hstep, hrest⟩
      have hs₁ : server.Reachable s₁ := .step hs trivial hstep
      have hcons : (a.conn = c → Unaffected s s₁) → UnaffectedBy c s₁ as →
          UnaffectedBy c s (a :: as) := by
        intro hfirst hunaffected s₂ hs₂
        rw [hstep, Option.some.injEq] at hs₂
        subst s₂
        exact ⟨hfirst, hunaffected⟩
      by_cases hc : a.conn = c
      · cases a with
        | accept d reads ending =>
            rw [show d = c from hc] at hstep
            rcases accept_step hstep with ⟨hpc, rfl⟩
            rcases ih hs₁ hrest hcalls with ⟨herr, hroom, hunaffected⟩
            refine ⟨herr, hroom.trans ?_, hcons (fun _ => ?_) hunaffected⟩
            · simp [reachable_absent hs hpc]
            · exact ⟨rfl, fun _ => rfl, fun _ => rfl⟩
        | run d env =>
            rw [show d = c from hc] at hstep
            obtain ⟨t, e, ⟨hdecides, hmatches⟩, hthreads, hadd⟩ :=
              run_called hs hstep ((Thread.code_received _ _ _).and (code s c).called_matches)
            rcases run_calls hs₁ hrest c with ⟨events, hevents⟩
            rw [hadd, update_self, hcalls, List.append_assoc, List.append_cancel_left_eq,
              List.singleton_append, List.cons.injEq] at hevents
            rcases hevents with ⟨rfl, rfl⟩
            have hcalls₁ : s'.calls c = s₁.calls c ++ replies := by
              rw [hcalls, hadd, update_self, List.append_assoc, List.singleton_append]
            have hthread : s₁.threads c = t := by rw [hthreads, update_self]
            rcases hdecides with ⟨hrejecting, hroom⟩ | ⟨haccepting, hdec⟩
            · rw [← hthread] at hrejecting hroom
              rcases rejecting_run hs₁ hrest hcalls₁ hreplies hrejecting with
                ⟨herr, hroom', hunaffected⟩
              refine ⟨herr, hroom'.trans hroom, hcons (fun _ => ?_) hunaffected⟩
              exact step_unaffected hstep hmatches (.inl ⟨line, rfl⟩)
            · rw [← hthread] at haccepting
              have hok := accepting_run hs₁ hrest hcalls₁ hreplies haccepting
              rcases hrejected with hnone | ⟨e, he, herr⟩
              · exact absurd hnone hdec
              · rw [hok e he] at herr
                cases herr
      · rcases step_other hstep hc with ⟨hthread, hsame⟩
        rcases ih hs₁ hrest (by rwa [hsame]) with ⟨herr, hroom, hunaffected⟩
        exact ⟨herr, by rw [hroom, hthread], hcons (fun h => absurd h hc) hunaffected⟩

/-- A malformed line after a join is answered twice and changes nothing. -/
theorem rejected_request_changes_nothing_malformed :
    ∃ s s', server.run server.init
        (connect 1 (str "slogin:bob\njoin:hall\noops\n") :: serve 1 7) = some s ∧
      server.run s (serve 1 3) = some s' ∧ (s'.threads 1).pc = .sender .receive ∧
      (s'.threads 1).room = some 0 ∧ UnaffectedBy 1 s (serve 1 3) := by
  have hjoin : (server.run server.init
      (connect 1 (str "slogin:bob\njoin:hall\noops\n") :: serve 1 7)).map
      (fun s => ((s.threads 1).room, s.calls 1)) =
      some (some 0,
        [.received (some (str "slogin:bob\n")), .created (str "bob"),
          .sent { tag := tagOk, data := str "Welcome bob!" } true,
          .received (some (str "join:hall\n")), .found (str "hall") 0, .added 0,
          .sent { tag := tagOk, data := str "succesfully joined hall!" } true]) := by
    decide +kernel
  have hoops : (server.run server.init
      (connect 1 (str "slogin:bob\njoin:hall\noops\n") :: serve 1 7 ++ serve 1 3)).map
      (fun s => ((s.threads 1).pc, s.calls 1)) =
      some (.sender .receive,
        [.received (some (str "slogin:bob\n")), .created (str "bob"),
          .sent { tag := tagOk, data := str "Welcome bob!" } true,
          .received (some (str "join:hall\n")), .found (str "hall") 0, .added 0,
          .sent { tag := tagOk, data := str "succesfully joined hall!" } true] ++
        .received (some (str "oops\n")) :: [.sent Refusal.invalidMessage.reply true,
          .sent Refusal.invalidMessageTag.reply true]) := by
    decide +kernel
  rcases TransitionSystem.exists_reachable_of_run hjoin with ⟨s, hs, hend, hreach⟩
  rw [Prod.mk.injEq] at hend
  rw [TransitionSystem.run_append, hs, Option.bind_some] at hoops
  rcases Option.map_eq_some_iff.mp hoops with ⟨s', hs', hend'⟩
  rw [Prod.mk.injEq, ← hend.2] at hend'
  obtain ⟨-, hroom, hunaffected⟩ :=
    rejected_request_changes_nothing hreach hs' hend'.2 (by decide) (.inl (by decide))
  exact ⟨s, s', hs, hs', hend'.1, hroom.trans hend.1, hunaffected⟩

end ChatServer
