import ChatServer.Server.History
import ChatServer.Server.Membership

/-!
# Queues that nobody drains

Only {lit}`chat_with_receiver` dequeues.  A room member whose thread is in
{lit}`chat_with_sender` collects the messages of other senders for ever.  A
sender becomes a member by its call of {lit}`add_member`, and by nothing else;
so all members are receivers exactly in the runs without such a call.

Main results:

- Theorem {lit}`drained_iff_no_sender_adds`: as long as no sender is added, all
  members are receivers, and the first sender that is added ends this.
- Theorem {lit}`nothing_pending`: as long as no sender is added, no broadcast begins and
  all queues are empty, since only members of a room can send to it.

Current gaps:

- A receiver whose send has failed no longer dequeues, but stays a member until
  its {lit}`remove_member`.
-/

namespace ChatServer

open Function

/-! ## Members and their threads -/

/-- Control points of {lit}`chat_with_receiver` between {lit}`add_member` and
{lit}`remove_member`. -/
def Pc.awaitsRemoval : Pc → Bool
  | .receiver .joined | .receiver .dequeue | .receiver (.deliver _) | .receiver .empty
  | .receiver .remove => true
  | _ => false

/-- Every member of a room is the user of a receiver connection whose thread is
between its {lit}`add_member` and its {lit}`remove_member`. -/
def Drained (s : State) : Prop :=
  ∀ r c, c ∈ (s.rooms r).members →
    (s.threads c).login.tag = tagRlogin ∧ (s.threads c).pc.awaitsRemoval

/-- The step is not the {lit}`add_member` of a sender. -/
def NoSenderAdds (s : State) : Action → Prop
  | .accept _ _ _ => True
  | .run c _ => (s.threads c).pc ≠ .sender .add

instance (s : State) : (a : Action) → Decidable (NoSenderAdds s a)
  | .accept _ _ _ => isTrue trivial
  | .run c _ => inferInstanceAs (Decidable ((s.threads c).pc ≠ .sender .add))

/-- No sender is a member. -/
def SendersOutside (s : State) : Prop :=
  ∀ c, (s.threads c).pc.isSender → (s.threads c).memberOf = none

/-- A member is inside the request loop or awaits its removal. -/
theorem Thread.awaitsRemoval_of_memberOf {t : Thread} {r : RoomPtr}
    (h : t.memberOf = some r) (hsender : t.pc.isSender = false) : t.pc.awaitsRemoval := by
  unfold memberOf at h
  unfold Pc.isSender at hsender
  unfold Pc.awaitsRemoval
  split at h <;> simp_all

/-- With the senders outside of the rooms every member is a receiver before its removal. -/
theorem drained_of_sendersOutside {s : State} (hs : server.Reachable s)
    (hout : SendersOutside s) : Drained s := by
  intro r c hc
  rw [reachable_memberships hs] at hc
  have hsender : (s.threads c).pc.isSender = false := by
    by_contra hsender
    rw [hout c (by simpa using hsender)] at hc
    cases hc
  have hremoval := Thread.awaitsRemoval_of_memberOf hc hsender
  refine ⟨(reachable_role hs c).receiver ?_, hremoval⟩
  unfold Pc.awaitsRemoval at hremoval
  split at hremoval <;> simp_all [Pc.isReceiver]

/-! ## Steps without a sender that is added -/

/-- In {lit}`chat_with_sender` one control point adds the user to a room. -/
theorem chatWithSender_ne_addMember {user : User} {getRoomName : RoomPtr → Bytes}
    {t : Thread} {p : SenderPc} (hp : p ≠ .add) (r : RoomPtr) (k : Thread) :
    chatWithSender user getRoomName t p ≠ .addMember r k := by
  intro hadd
  have hfrom := chatWithSender_calledFrom user getRoomName t p
  rw [hadd] at hfrom
  exact hp hfrom

/-- The calls of a thread that is not about to add a sender leave senders outside. -/
theorem Thread.code_outside {t : Thread} (user : User) (getRoomName : RoomPtr → Bytes)
    (hadd : t.pc ≠ .sender .add) (hout : t.pc.isSender → t.memberOf = none) :
    (t.code user getRoomName).Called fun t' _ => t'.pc.isSender → t'.memberOf = none := by
  have hmoves := t.code_moves user getRoomName
  apply Thread.code_cases
  · exact trivial
  · intro p _
    exact ((worker_moves t p).called worker_ne_addMember).imp fun _ _ h _ => h
  · intro p hpc
    rw [hout (by rw [hpc]; rfl), Thread.code_sender hpc] at hmoves
    have hp : p ≠ .add := by
      rintro rfl
      exact hadd hpc
    exact (hmoves.called (chatWithSender_ne_addMember hp)).imp fun _ _ h _ => h
  · intro p _
    apply (chatWithReceiver_stays t p).imp
    intro t' _ hstays hsender
    rcases hstays.pc with hreceiver | hdone
    · simp [Pc.isReceiver_of_isSender hsender] at hreceiver
    · simp [hdone, Pc.isSender] at hsender

/-- A step that adds no sender leaves the senders outside of the rooms. -/
theorem SendersOutside.step {s s' : State} {a : Action} (hout : SendersOutside s)
    (hadd : NoSenderAdds s a) (hstep : server.step s a = some s') : SendersOutside s' := by
  intro c hsender
  rcases step_cases hstep with ⟨d, fdbuf, -, rfl⟩ | ⟨d, env, rfl, hperf⟩
  · by_cases hcd : c = d
    · subst c
      simp [Thread.memberOf]
    · simp only [State.accept_threads, update_of_ne hcd] at hsender ⊢
      exact hout c hsender
  · obtain ⟨s₁, t, e, rfl, ht, hthreads, -, -, -⟩ :=
      hperf.called (Thread.code_outside _ _ hadd (hout d))
    by_cases hcd : c = d
    · subst c
      simp only [State.resume_threads, update_self] at hsender ⊢
      exact ht hsender
    · simp only [State.resume_threads, update_of_ne hcd, hthreads] at hsender ⊢
      exact hout c hsender

/-- Once a sender is added it is a member that nobody drains. -/
theorem not_drained_of_sender_adds {s s' : State} {c : ConnId} {env : Env}
    (hs : server.Reachable s) (hpc : (s.threads c).pc = .sender .add)
    (hstep : server.step s (.run c env) = some s') : ¬ Drained s' := by
  have hlogin := (reachable_role hs c).sender (by rw [hpc]; rfl)
  rcases (reachable_located hs c).requested (by rw [hpc]; rfl) with ⟨r, hroom, -⟩
  have hperf : Performed s c (code s c) s' := performed_of_perform hstep
  rw [code, Thread.code_sender hpc, chatWithSender, hroom, deref] at hperf
  cases hperf with
  | added _ _ hlock =>
      intro hdrained
      have hmember := hdrained r c (by simp)
      simp only [State.resume_threads, update_self, Thread.goto] at hmember
      rw [hlogin] at hmember
      exact absurd hmember.1 (by decide)

/-- In every run without the {lit}`add_member` of a sender all members are
receivers between their {lit}`add_member` and their {lit}`remove_member`; and the
next step keeps it so exactly if it is no such call. -/
theorem drained_iff_no_sender_adds {s : State} (hs : server.ReachableBy NoSenderAdds s) :
    Drained s ∧
      ∀ a s', server.step s a = some s' → (Drained s' ↔ NoSenderAdds s a) := by
  have hdrained : ∀ {s : State}, server.ReachableBy NoSenderAdds s → Drained s := by
    intro s hs
    refine drained_of_sendersOutside hs.reachable (hs.invariant ?_ ?_)
    · intro c hsender
      cases hsender
    · exact fun s a s' _ hadd hstep hout => hout.step hadd hstep
  refine ⟨hdrained hs, fun a s' hstep => ⟨fun h => ?_, fun hadd => ?_⟩⟩
  · cases a with
    | accept c reads ending => exact trivial
    | run c env =>
        intro hpc
        exact not_drained_of_sender_adds hs.reachable hpc hstep h
  · exact hdrained (hs.step hadd hstep)

/-- A run without a sender in a room. -/
theorem drained_iff_no_sender_adds_receiver :
    ∃ s, server.runBy NoSenderAdds server.init
        (connect 0 (str "rlogin:ann\njoin:hall\n") :: serve 0 7) = some s ∧
      0 ∈ (s.rooms 0).members ∧ Drained s := by
  have hrun : (server.runBy NoSenderAdds server.init
      (connect 0 (str "rlogin:ann\njoin:hall\n") :: serve 0 7)).map
      (fun s => decide (0 ∈ (s.rooms 0).members)) = some true := by
    decide +kernel
  rcases Option.map_eq_some_iff.mp hrun with ⟨s, hs, hmember⟩
  have hreach : server.ReachableBy NoSenderAdds s :=
    TransitionSystem.ReachableBy.of_runBy .init hs
  exact ⟨s, hs, of_decide_eq_true hmember, (drained_iff_no_sender_adds hreach).1⟩

/-- A message for a sender stays in its queue, since its thread is in the request
loop. -/
theorem message_for_sender_orphaned :
    ∃ s, server.run server.init
        (connect 0 (str "slogin:ann\njoin:hall\n") :: serve 0 7 ++
          connect 1 (str "slogin:bob\njoin:hall\nsendall:hi\n") :: serve 1 9 ++
          [.run 1 { pick := 0 }]) = some s ∧
      0 ∈ (s.rooms 0).members ∧ (s.threads 0).pc = .sender .receive ∧
      (s.users 0).mqueue = [{ tag := tagDelivery, data := str "hall:bob:hi" }] ∧
      ¬ Drained s := by
  have hrun : (server.run server.init
      (connect 0 (str "slogin:ann\njoin:hall\n") :: serve 0 7 ++
        connect 1 (str "slogin:bob\njoin:hall\nsendall:hi\n") :: serve 1 9 ++
        [.run 1 { pick := 0 }])).map
      (fun s => (decide (0 ∈ (s.rooms 0).members), (s.threads 0).pc, (s.users 0).mqueue)) =
      some (true, .sender .receive, [{ tag := tagDelivery, data := str "hall:bob:hi" }]) := by
    decide +kernel
  rcases Option.map_eq_some_iff.mp hrun with ⟨s, hs, hend⟩
  rw [Prod.mk.injEq, Prod.mk.injEq] at hend
  rcases hend with ⟨hmember, hpc, hqueue⟩
  refine ⟨s, hs, of_decide_eq_true hmember, hpc, hqueue, fun hdrained => ?_⟩
  have hremoval := (hdrained 0 0 (of_decide_eq_true hmember)).2
  rw [hpc] at hremoval
  cases hremoval

/-! ## Pending messages -/

/-- No broadcast has begun, and no message is pending. -/
def NothingPending (s : State) : Prop :=
  s.broadcasts = [] ∧ ∀ c, (s.users c).mqueue = []

/-- The call neither begins a broadcast nor visits a member. -/
def Op.NoBroadcast : Op → Prop
  | .lockRoom _ _ _ _ | .visitMember _ _ _ _ _ => False
  | _ => True

/-- A sender outside of the rooms broadcasts nothing. -/
theorem Thread.code_noBroadcast {t : Thread} (user : User) (getRoomName : RoomPtr → Bytes)
    (hout : t.pc.isSender → t.memberOf = none) : (t.code user getRoomName).NoBroadcast := by
  apply Thread.code_cases
  · exact trivial
  · intro p _
    cases p <;> exact trivial
  · intro p hpc
    have hnone : t.memberOf = none := hout (by rw [hpc]; rfl)
    rw [memberOf, hpc] at hnone
    cases p with
    | broadcast | visit rest =>
        have hroom : t.room = none := hnone
        rw [chatWithSender, hroom]
        exact trivial
    | switch | add | leave | left | exit => exact deref_cases trivial fun r _ => trivial
    | _ => exact trivial
  · intro p _
    cases p with
    | add | remove => exact deref_cases trivial fun r _ => trivial
    | _ => exact trivial

/-- A call that broadcasts nothing leaves nothing pending. -/
theorem Performed.nothingPending {s s' : State} {c : ConnId} {op : Op}
    (h : Performed s c op s') (hop : op.NoBroadcast) (hpending : NothingPending s) :
    NothingPending s' := by
  rcases hpending with ⟨hlog, hqueues⟩
  have hupdate : ∀ {user : User}, user.mqueue = [] →
      ∀ d, (update s.users c user d).mqueue = [] := by
    intro user huser d
    by_cases hd : d = c
    · rw [hd, update_self]
      exact huser
    · rw [update_of_ne hd]
      exact hqueues d
  cases h with
  | locked => exact absurd hop id
  | visited => exact absurd hop id
  | newUser username k => exact ⟨hlog, hupdate rfl⟩
  | dequeued k m mqueue hqueue =>
      rw [hqueues c] at hqueue
      cases hqueue
  | _ => exact ⟨hlog, hqueues⟩

/-- In every run without the {lit}`add_member` of a sender no broadcast begins, and no
message is ever pending: a broadcast needs a sender that is a member of the room. -/
theorem nothing_pending {s : State} (hs : server.ReachableBy NoSenderAdds s) :
    NothingPending s := by
  have hboth : SendersOutside s ∧ NothingPending s := by
    refine hs.invariant (P := fun s => SendersOutside s ∧ NothingPending s) ?_ ?_
    · refine ⟨fun c hsender => ?_, rfl, fun c => rfl⟩
      cases hsender
    · rintro s a s' _ hadd hstep ⟨hout, hpending⟩
      refine ⟨hout.step hadd hstep, ?_⟩
      rcases step_cases hstep with ⟨d, fdbuf, -, rfl⟩ | ⟨d, env, rfl, hperf⟩
      · exact hpending
      · exact hperf.nothingPending (Thread.code_noBroadcast _ _ (hout d)) hpending
  exact hboth.2

end ChatServer
