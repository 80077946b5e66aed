import ChatServer.Server.ReceiverSession

/-!
# Failed sends of a receiver session

After its join a receiver thread sends from three places: the reply to the join,
the deliveries, and the err frames of dequeues that timed out.  Only the result
of a delivery is looked at; the failure of another send goes unnoticed, and the
thread serves the dead connection on.

Main results:

- Theorem {lit}`reachable_ending`: at every control point, which sends can have
  failed.
- Theorem {lit}`failed_send_ends_session_iff`: failed sends end the session iff
  each of them was the send of a delivery.

Current gaps:

- The removal that ends a session waits for the lock of the room; that it is
  granted is left to {lit}`Server.Liveness`.
-/

namespace ChatServer

/-! ## Failed sends at each control point -/

/-- The sends that have failed are those whose result is thrown away. -/
def Unnoticed (calls : List Event) : Prop :=
  ∀ m, .sent m false ∈ calls → m = receiverJoinedReply ∨ m = emptyReply

/-- A history whose last call is the failed send of a dequeued message, while the
earlier failures went unnoticed. -/
def Noticed (calls : List Event) : Prop :=
  ∃ before m, calls = before ++ [.sent m false] ∧ some m ∈ dequeueResults before ∧
    Unnoticed before

/-- Which sends of a receiver thread can have failed at its control point. -/
def Ending (t : Thread) (calls : List Event) : Prop :=
  match t.pc with
  | .receiver .receive | .receiver (.refuse _) | .receiver .find | .receiver .add =>
      Unjoined calls
  | .receiver (.deliver m) => some m ∈ dequeueResults calls ∧ Unnoticed calls
  | .receiver .remove => Noticed calls
  | .receiver _ => Unnoticed calls
  | .done => (∃ r, .added r ∈ calls) → ∃ before r, calls = before ++ [.removed r] ∧ Noticed before
  | _ => True

/-- A send adds its frame to the sent ones. -/
theorem mem_sentFrames {calls : List Event} {m : Message} {ok : Bool}
    (h : .sent m ok ∈ calls) : m ∈ sentFrames calls :=
  List.mem_filterMap.mpr ⟨_, h, rfl⟩

/-- Before the join no send has failed unnoticed. -/
theorem Unjoined.unnoticed {calls : List Event} (h : Unjoined calls) : Unnoticed calls := by
  intro m hm
  have hframe := mem_sentFrames hm
  rw [h.frames] at hframe
  cases hframe

/-- Calls that are no sends fail no send. -/
theorem Unnoticed.append {calls : List Event} {e : Event} (h : Unnoticed calls)
    (he : ∀ m, e ≠ .sent m false) : Unnoticed (calls ++ [e]) := by
  intro m hm
  rcases List.mem_append.mp hm with hm | hm
  · exact h m hm
  · exact absurd (List.mem_singleton.mp hm).symm (he m)

/-- The failure of a reply whose result is thrown away. -/
theorem Unnoticed.sent {calls : List Event} {m : Message} (h : Unnoticed calls)
    (hm : m = receiverJoinedReply ∨ m = emptyReply) (ok : Bool) :
    Unnoticed (calls ++ [.sent m ok]) := by
  intro m' hm'
  rcases List.mem_append.mp hm' with hm' | hm'
  · exact h m' hm'
  · rw [List.mem_singleton, Event.sent.injEq] at hm'
    rwa [hm'.1]

/-- The calls of {lit}`chat_with_receiver` keep the failed sends in step with the control point.
-/
theorem chatWithReceiver_ending {t : Thread} {p : ReceiverPc} {calls : List Event}
    (h : Ending (t.goto (.receiver p)) calls) :
    (chatWithReceiver t p).Called fun t' e => Ending t' (calls ++ [e]) := by
  cases p with
  | receive =>
      have hkeep : ∀ line, Unjoined (calls ++ [.received line]) := fun line =>
        Unjoined.append h rfl rfl (by simp)
      apply called_receive
      intro ok result m line _
      dsimp only
      split_ifs <;> exact hkeep _
  | refuse why =>
      intro ok hadded
      rcases hadded with ⟨r, hr⟩
      simp [Unjoined.added h r] at hr
  | find => exact fun r => Unjoined.append h rfl rfl (by simp)
  | add => exact deref_cases trivial fun r _ => (Unjoined.unnoticed h).append (by simp)
  | joined => exact fun ok => Unnoticed.sent h (.inl rfl) ok
  | dequeue =>
      have hkeep : ∀ result, Unnoticed (calls ++ [.dequeued result]) := fun result =>
        Unnoticed.append h (by simp)
      intro result
      cases result with
      | none => exact hkeep none
      | some m =>
          refine ⟨?_, hkeep (some m)⟩
          rw [dequeueResults_append]
          simp [dequeueResults]
  | deliver newMsg =>
      intro ok
      cases ok with
      | true => exact h.2.append (by simp)
      | false => exact ⟨calls, newMsg, rfl, h.1, h.2⟩
  | empty => exact fun ok => Unnoticed.sent h (.inr rfl) ok
  | remove => exact deref_cases trivial fun r _ _ => ⟨calls, r, rfl, h⟩

/-- In every reachable state the failed sends of a receiver thread fit its control
point. -/
theorem reachable_ending {s : State} (hs : server.Reachable s) (c : ConnId) :
    ReceiverHistory Ending (s.threads c) (s.chatCalls c) := by
  refine receiver_invariant ?_ ?_ hs c
  · intro t hpc _
    simpa [Ending, hpc] using Unjoined.nil
  · intro t p calls hpc h
    have hgoto : t.goto (.receiver p) = t := by simp [Thread.goto, ← hpc]
    exact chatWithReceiver_ending (hgoto ▸ h)

/-! ## The end of a session -/

/-- Nothing but the removal follows: the thread is about to remove its user from
the room and to return, or it has removed the user, who is in no room, and has
returned. -/
def SessionEnds (s : State) (c : ConnId) (after : List Event) : Prop :=
  (after = [] ∧ ∃ r, (s.threads c).memberOf = some r ∧
      code s c = .removeMember r ((s.threads c).goto .done)) ∨
    (∃ r, after = [.removed r]) ∧ (s.threads c).pc = .done ∧ ∀ q, c ∉ (s.rooms q).members

/-- Every failed send of a thread ends its session. -/
def FailedSendsEnd (s : State) (c : ConnId) : Prop :=
  ∀ before m after, s.chatCalls c = before ++ .sent m false :: after → SessionEnds s c after

/-- An element that does not occur before the last one occurs as the last one. -/
theorem eq_nil_of_append_cons_eq {α : Type*} {x y : α} {before after before' : List α}
    (h : before ++ x :: after = before' ++ [y]) (hx : x ∉ before') : after = [] := by
  rcases List.eq_nil_or_concat after with rfl | ⟨after', z, rfl⟩
  · rfl
  · rw [List.concat_eq_append, ← List.cons_append, ← List.append_assoc] at h
    rw [← (List.append_inj' h rfl).1] at hx
    simp at hx

/-- The failed send that ended a session was the send of a delivery. -/
theorem Noticed.tag {s : State} (hs : server.Reachable s) {c : ConnId}
    {before rest : List Event} {m : Message} (hcalls : s.chatCalls c = before ++ rest)
    (hm : some m ∈ dequeueResults before) : m.tag = tagDelivery := by
  apply tag_of_mem_dequeues hs (c := c)
  rw [← reduceOption_dequeueResults, List.reduceOption_mem_iff, hcalls, dequeueResults_append]
  exact List.mem_append_left _ hm

/-- Failures that go unnoticed are not failures of deliveries. -/
theorem Unnoticed.not_sent {calls : List Event} (h : Unnoticed calls) {m : Message}
    (hm : m.tag = tagDelivery) : .sent m false ∉ calls := by
  intro hsent
  rcases h m hsent with rfl | rfl <;> exact absurd hm (by decide)

/-- A session that has been joined goes on, is about to end, or has ended. -/
theorem ending_cases {s : State} (hs : server.Reachable s) {c : ConnId} {r : RoomPtr}
    (hlogin : (s.threads c).login.tag = tagRlogin) (hjoined : .added r ∈ s.chatCalls c) :
    (Unnoticed (s.chatCalls c) ∧ ∀ after, ¬ SessionEnds s c after) ∨
      (Noticed (s.chatCalls c) ∧ ∀ after, SessionEnds s c after ↔ after = []) ∨
      ∃ before q, s.chatCalls c = before ++ [.removed q] ∧ Noticed before ∧
        ∀ after, SessionEnds s c after ↔ ∃ q', after = [.removed q'] := by
  have hending := reachable_ending hs c
  have hunjoined : ¬ Unjoined (s.chatCalls c) := fun h => h.added r hjoined
  have hcalls : s.chatCalls c ≠ [] := List.ne_nil_of_mem hjoined
  have hopen : Unnoticed (s.chatCalls c) → (s.threads c).pc ≠ .done →
      (∀ q k, code s c ≠ .removeMember q k) →
      (Unnoticed (s.chatCalls c) ∧ ∀ after, ¬ SessionEnds s c after) := by
    intro h hdone hcode
    refine ⟨h, ?_⟩
    rintro after (⟨-, q, -, hq⟩ | ⟨-, hpc, -⟩)
    · exact hcode q _ hq
    · exact hdone hpc
  cases hpc : (s.threads c).pc with
  | absent => exact absurd (by simpa [ReceiverHistory, hpc] using hending) hcalls
  | worker p => exact absurd (by simpa [ReceiverHistory, hpc] using hending) hcalls
  | sender p =>
      have hslogin := (reachable_role hs c).sender (by rw [hpc]; rfl)
      rw [hlogin] at hslogin
      exact absurd hslogin (by decide)
  | receiver p =>
      have hp : Ending (s.threads c) (s.chatCalls c) := by
        simpa [ReceiverHistory, hpc] using hending
      unfold Ending at hp
      rw [hpc] at hp hopen
      cases p with
      | receive => exact absurd hp hunjoined
      | refuse why => exact absurd hp hunjoined
      | find => exact absurd hp hunjoined
      | add => exact absurd hp hunjoined
      | joined =>
          refine .inl (hopen hp (by simp) ?_)
          simp [code, Thread.code_receiver hpc, chatWithReceiver]
      | dequeue =>
          refine .inl (hopen hp (by simp) ?_)
          simp [code, Thread.code_receiver hpc, chatWithReceiver]
      | deliver m =>
          refine .inl (hopen hp.2 (by simp) ?_)
          simp [code, Thread.code_receiver hpc, chatWithReceiver]
      | empty =>
          refine .inl (hopen hp (by simp) ?_)
          simp [code, Thread.code_receiver hpc, chatWithReceiver]
      | remove =>
          rcases (reachable_located hs c).requested (by rw [hpc]; rfl) with ⟨q, hroom, -⟩
          have hmember : (s.threads c).memberOf = some q := by
            simp [Thread.memberOf, hpc, hroom]
          have hcode : code s c = .removeMember q ((s.threads c).goto .done) := by
            simp [code, Thread.code_receiver hpc, chatWithReceiver, hroom, deref]
          refine .inr (.inl ⟨hp, fun after => ?_⟩)
          simp [SessionEnds, hpc, hmember, hcode]
  | done =>
      simp only [ReceiverHistory, hpc] at hending
      rcases hending hlogin with hnil | hdone
      · exact absurd hnil hcalls
      · unfold Ending at hdone
        rw [hpc] at hdone
        rcases hdone ⟨r, hjoined⟩ with ⟨before, q, hsplit, hnoticed⟩
        have hout := (membership_invariant hs).1.returned c hpc
        refine .inr (.inr ⟨before, q, hsplit, hnoticed, fun after => ?_⟩)
        simp [SessionEnds, hpc, hout, code, Thread.code]

/-- After the join of a receiver, failed sends end its session iff they are the
sends of deliveries. -/
theorem failed_send_ends_session_iff {s : State} (hs : server.Reachable s) {c : ConnId}
    {r : RoomPtr} (hlogin : (s.threads c).login.tag = tagRlogin)
    (hjoined : .added r ∈ s.chatCalls c) :
    FailedSendsEnd s c ↔ ∀ m, .sent m false ∈ s.chatCalls c → m.tag = tagDelivery := by
  constructor
  · intro hend m hm
    rcases List.append_of_mem hm with ⟨before, after, hsplit⟩
    have hafter := hend before m after hsplit
    rcases ending_cases hs hlogin hjoined with
      ⟨-, hopen⟩ | ⟨⟨before', m', hsplit', hm', -⟩, hclosing⟩ |
        ⟨before'', q, hsplit'', ⟨before', m', hsplit', hm', -⟩, hclosed⟩
    · exact absurd hafter (hopen after)
    · rw [(hclosing after).mp hafter] at hsplit
      have hlast := (List.append_inj' (hsplit.symm.trans hsplit') rfl).2
      rw [List.cons.injEq, Event.sent.injEq] at hlast
      rw [hlast.1.1]
      exact Noticed.tag hs hsplit' hm'
    · rcases (hclosed after).mp hafter with ⟨q', rfl⟩
      rw [hsplit', List.append_assoc] at hsplit''
      have hlast := (List.append_inj' (hsplit.symm.trans hsplit'') rfl).2
      rw [List.cons_append, List.cons.injEq, Event.sent.injEq] at hlast
      rw [hlast.1.1]
      exact Noticed.tag hs hsplit'' hm'
  · intro htag before m after hsplit
    have hmem : .sent m false ∈ s.chatCalls c := by simp [hsplit]
    have hm := htag m hmem
    rcases ending_cases hs hlogin hjoined with
      ⟨hopen, -⟩ | ⟨⟨before', m', hsplit', -, hunnoticed⟩, hclosing⟩ |
        ⟨before'', q, hsplit'', ⟨before', m', hsplit', -, hunnoticed⟩, hclosed⟩
    · exact absurd hmem (hopen.not_sent hm)
    · refine (hclosing after).mpr ?_
      exact eq_nil_of_append_cons_eq (hsplit.symm.trans hsplit') (hunnoticed.not_sent hm)
    · rw [hsplit''] at hsplit
      rcases List.eq_nil_or_concat after with rfl | ⟨after', e, rfl⟩
      · have hlast := (List.append_inj' hsplit rfl).2
        simp at hlast
      · rw [List.concat_eq_append, ← List.cons_append, ← List.append_assoc] at hsplit
        rcases List.append_inj' hsplit rfl with ⟨hinit, hlast⟩
        have hnil : after' = [] :=
          eq_nil_of_append_cons_eq (hinit.symm.trans hsplit') (hunnoticed.not_sent hm)
        refine (hclosed _).mpr ⟨q, ?_⟩
        rw [hnil, List.concat_eq_append, ← hlast, List.nil_append]

/-- The connection breaks before the first delivery; the thread leaves the room and
returns. -/
theorem failed_send_ends_session_iff_delivery :
    ∃ s, server.run server.init
        (connect 0 (str "rlogin:ann\njoin:hall\n") :: serve 0 7 ++
          connect 1 (str "slogin:bob\njoin:hall\nsendall:hi\n") :: serve 1 9 ++
          [.run 1 { pick := 0 }, .run 0 { timeout := true }, .run 0, .run 0,
            .run 0 { writes := [.error] }, .run 1 { pick := 1 }, .run 1, .run 0]) = some s ∧
      .sent { tag := tagDelivery, data := str "hall:bob:hi" } false ∈ s.chatCalls 0 ∧
      (s.threads 0).pc = .done ∧ FailedSendsEnd s 0 := by
  have hrun : (server.run server.init
      (connect 0 (str "rlogin:ann\njoin:hall\n") :: serve 0 7 ++
        connect 1 (str "slogin:bob\njoin:hall\nsendall:hi\n") :: serve 1 9 ++
        [.run 1 { pick := 0 }, .run 0 { timeout := true }, .run 0, .run 0,
          .run 0 { writes := [.error] }, .run 1 { pick := 1 }, .run 1, .run 0])).map
      (fun s => ((s.threads 0).login.tag, (s.threads 0).pc, s.chatCalls 0)) =
      some (tagRlogin, .done,
        [.received (some (str "join:hall\n")), .found (str "hall") 0, .added 0,
          .sent receiverJoinedReply true, .dequeued none, .sent emptyReply true,
          .dequeued (some { tag := tagDelivery, data := str "hall:bob:hi" }),
          .sent { tag := tagDelivery, data := str "hall:bob:hi" } false, .removed 0]) := by
    decide +kernel
  rcases TransitionSystem.exists_reachable_of_run hrun with ⟨s, hs, hend, hreach⟩
  rw [Prod.mk.injEq, Prod.mk.injEq] at hend
  rcases hend with ⟨hlogin, hpc, hcalls⟩
  have hjoined : Event.added 0 ∈ s.chatCalls 0 := by simp [hcalls]
  refine ⟨s, hs, by simp [hcalls], hpc, ?_⟩
  refine (failed_send_ends_session_iff hreach hlogin hjoined).mpr fun m hm => ?_
  have hm' : m = { tag := tagDelivery, data := str "hall:bob:hi" } := by
    simpa [hcalls] using hm
  rw [hm']

/-- The reply to the join cannot be sent, and then neither can the err frame of a
dequeue; the thread is still in the delivery loop and its user in the room. -/
theorem failed_join_reply_unnoticed :
    ∃ s, server.run server.init
        (connect 0 (str "rlogin:ann\njoin:hall\n") :: serve 0 6 ++
          [.run 0 { writes := [.error] }, .run 0 { timeout := true },
            .run 0 { writes := [.error] }]) = some s ∧
      (s.threads 0).login.tag = tagRlogin ∧ .added 0 ∈ s.chatCalls 0 ∧
      .sent receiverJoinedReply false ∈ s.chatCalls 0 ∧
      .sent emptyReply false ∈ s.chatCalls 0 ∧ (s.threads 0).pc = .receiver .dequeue ∧
      0 ∈ (s.rooms 0).members ∧ ¬ FailedSendsEnd s 0 := by
  have hrun : (server.run server.init
      (connect 0 (str "rlogin:ann\njoin:hall\n") :: serve 0 6 ++
        [.run 0 { writes := [.error] }, .run 0 { timeout := true },
          .run 0 { writes := [.error] }])).map
      (fun s => ((s.threads 0).login.tag, (s.threads 0).pc, decide (0 ∈ (s.rooms 0).members),
        s.chatCalls 0)) =
      some (tagRlogin, .receiver .dequeue, true,
        [.received (some (str "join:hall\n")), .found (str "hall") 0, .added 0,
          .sent receiverJoinedReply false, .dequeued none, .sent emptyReply false]) := by
    decide +kernel
  rcases Option.map_eq_some_iff.mp hrun with ⟨s, hs, hend⟩
  rw [Prod.mk.injEq, Prod.mk.injEq, Prod.mk.injEq] at hend
  rcases hend with ⟨hlogin, hpc, hmember, hcalls⟩
  refine ⟨s, hs, hlogin, by simp [hcalls], by simp [hcalls], by simp [hcalls], hpc,
    of_decide_eq_true hmember, fun hends => ?_⟩
  have hsplit : s.chatCalls 0 =
      [.received (some (str "join:hall\n")), .found (str "hall") 0, .added 0] ++
        .sent receiverJoinedReply false :: [.dequeued none, .sent emptyReply false] := hcalls
  rcases hends _ _ _ hsplit with ⟨hnil, -⟩ | ⟨-, hdone, -⟩
  · cases hnil
  · rw [hpc] at hdone
    cases hdone

end ChatServer
