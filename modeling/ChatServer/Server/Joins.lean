import ChatServer.Server.Broadcasts

/-!
# The rooms that a user has joined

Whom a broadcast concerns can be read off the calls of the threads: its author and
all whom it visits have made the call {lit}`add_member` of its room.  Users of
receivers make that call for one room only.

Main results:

- Theorems {lit}`joined_of_mem` and {lit}`joined_of_visiting`: members, and whoever
  takes part in a broadcast, have joined the room.
- Theorem {lit}`run_joined`: what has been joined stays joined.
- Theorem {lit}`receiver_joined_unique`: a receiver joins one room.

Current gaps:

- Leaving is not part of what is recorded here.
-/

namespace ChatServer

open Function

/-! ## Joins -/

/-- The user has been added to the room at some time. -/
def State.Joined (s : State) (r : RoomPtr) (u : ConnId) : Prop :=
  Event.added r ∈ s.chatCalls u

instance (s : State) (r : RoomPtr) : DecidablePred (s.Joined r) :=
  fun _ => inferInstanceAs (Decidable (_ ∈ _))

/-- Membership of another room than before comes from the call. -/
theorem Op.Moves.joined {before : Option RoomPtr} {op : Op} (h : op.Moves before) :
    op.Called fun t e => ∀ r, t.memberOf = some r → before = some r ∨ e = .added r := by
  cases op with
  | halt => exact trivial
  | receive msg k => exact called_receive fun ok result m line _ r hr => .inl (h _ _ _ ▸ hr)
  | send msg k => exact fun ok r hr => .inl (h ok ▸ hr)
  | newUser username k => exact fun r hr => .inl (h ▸ hr)
  | findOrCreateRoom name k =>
      intro q r hr
      rw [h.2 q] at hr
      cases hr
  | addMember q k =>
      intro r hr
      rw [h.2, Option.some.injEq] at hr
      exact .inr (congrArg Event.added hr)
  | removeMember q k =>
      intro r hr
      rw [h.2] at hr
      cases hr
  | lockRoom q name text k =>
      exact fun members r hr => .inl (h.1.trans ((h.2 members).symm.trans hr))
  | visitMember q name text rest k => exact fun u r hr => .inl (h.1.trans ((h.2 u).symm.trans hr))
  | unlockRoom q k => exact fun r hr => .inl (h.1.trans (h.2.symm.trans hr))
  | dequeue k => exact fun m r hr => .inl (h m ▸ hr)

/-- The user of a thread has joined the room that it is a member of. -/
theorem joined_of_memberOf {s : State} (hs : server.Reachable s) {c : ConnId} {r : RoomPtr}
    (h : (s.threads c).memberOf = some r) : s.Joined r c := by
  let I (t : Thread) (calls : List Event) : Prop :=
    ∀ r, t.memberOf = some r → Event.added r ∈ calls
  have hI : I (s.threads c) (s.chatCalls c) := by
    refine history_invariant ?_ ?_ ?_ ?_ hs c
    · intro r hr
      cases hr
    · intro t calls _ _ r hr
      cases hr
    · intro t p user getRoomName calls hpc _
      rw [Thread.code_worker hpc]
      apply ((worker_moves t p).called worker_ne_addMember).imp
      intro t' _ hnone r hr
      rw [hnone] at hr
      cases hr
    · intro t user getRoomName calls _ hbefore
      apply (Thread.code_moves t user getRoomName).joined.imp
      intro t' e ht' r hr
      rcases ht' r hr with hold | rfl
      · exact List.mem_append_left _ (hbefore r hold)
      · exact List.mem_append_right _ (List.mem_singleton_self _)
  exact hI r h

/-- Members of a room have joined it. -/
theorem joined_of_mem {s : State} (hs : server.Reachable s) {c : ConnId} {r : RoomPtr}
    (h : c ∈ (s.rooms r).members) : s.Joined r c :=
  joined_of_memberOf hs ((reachable_memberships hs c r).mp h)

/-- The author of a broadcast and those whom it has still to visit have joined the
room. -/
theorem joined_of_visiting {s : State} (hs : server.Reachable s) {c : ConnId} {r : RoomPtr}
    {rest : Finset ConnId} (hpc : (s.threads c).pc = .sender (.visit rest))
    (hroom : (s.threads c).room = some r) :
    s.Joined r c ∧ ∀ u ∈ rest, s.Joined r u := by
  have hlog := reachable_broadcastLog hs
  constructor
  · apply joined_of_memberOf hs
    simpa [Thread.memberOf, hpc] using hroom
  · intro u hu
    obtain ⟨b, hlatest, rfl, hserves⟩ := hlog.served c rest (by rw [hpc]; rfl)
    have hrest : u ∈ b.rest := hserves.rest ▸ hu
    have hb := hlatest.mem
    obtain ⟨-, hbroom, hmembers⟩ := hlog.unfinished b hb (Finset.ne_empty_of_mem hrest)
    rw [hroom, Option.some.injEq] at hbroom
    subst r
    apply joined_of_mem hs
    rw [← hmembers]
    exact hlog.subset b hb hrest

/-! ## Joins along runs -/

/-- A user that has joined a room has joined it for ever. -/
theorem step_joined {s s' : State} {a : Action} (hstep : server.step s a = some s')
    {r : RoomPtr} {u : ConnId} (h : s.Joined r u) : s'.Joined r u := by
  rcases step_cases hstep with ⟨d, fdbuf, -, rfl⟩ | ⟨d, env, -, hperf⟩
  · exact h
  · obtain ⟨s₁, t, e, rfl, -, hthreads, -, hchat, -⟩ := hperf.called (code s d).called_matches
    rw [State.Joined, ← hchat] at h
    unfold State.Joined
    by_cases hworker : ∃ p, (s₁.threads d).pc = .worker p
    · rcases hworker with ⟨p, hpc⟩
      rwa [State.chatCalls_resume_worker t e hpc]
    · rw [State.chatCalls_resume t e (not_exists.mp hworker)]
      by_cases hud : u = d
      · subst u
        rw [update_self]
        exact List.mem_append_left _ h
      · rwa [update_of_ne hud]

/-- What has been joined stays joined. -/
theorem run_joined {s s' : State} {as : List Action} (hrun : server.run s as = some s')
    {r : RoomPtr} {u : ConnId} (h : s.Joined r u) : s'.Joined r u := by
  let keeps (s s' : State) : Prop := ∀ r u, s.Joined r u → s'.Joined r u
  have hkeep : keeps s s' := by
    refine TransitionSystem.run_relation ?_ ?_ ?_ hrun
    · exact fun _ _ _ h => h
    · intro s t u hst htu r v h
      exact htu r v (hst r v h)
    · exact fun _ _ _ hstep _ _ => step_joined hstep
  exact hkeep r u h

/-! ## Receivers join one room -/

/-- The control points of {lit}`chat_with_receiver`. -/
theorem Pc.eq_receiver {pc : Pc} (h : pc.isReceiver) : ∃ p, pc = .receiver p := by
  cases pc with
  | receiver p => exact ⟨p, rfl⟩
  | _ => cases h

/-- Control points of {lit}`chat_with_receiver` up to the join. -/
def Pc.beforeJoin : Pc → Bool
  | .receiver .receive | .receiver (.refuse _) | .receiver .find | .receiver .add => true
  | _ => false

/-- The calls of a receiver name one room, which is the one in its variable. -/
structure Thread.JoinsOnce (t : Thread) (calls : List Event) : Prop where
  before : t.pc.beforeJoin → ∀ r, Event.added r ∉ calls
  room : ∀ r, Event.added r ∈ calls → t.room = some r

/-- A receiver is added to the one room that its join has found. -/
theorem chatWithReceiver_joinsOnce {t : Thread} {p : ReceiverPc} {calls : List Event}
    (hpc : t.pc = .receiver p) (h : t.JoinsOnce calls) :
    (chatWithReceiver t p).Called fun t' e => t'.JoinsOnce (calls ++ [e]) := by
  have hold : ∀ {e : Event} {r : RoomPtr}, (∀ q, e ≠ .added q) →
      Event.added r ∈ calls ++ [e] → Event.added r ∈ calls := by
    intro e r he hr
    simpa [Ne.symm (he r)] using hr
  have hlater : ∀ {t' : Thread} {e : Event}, (∀ q, e ≠ .added q) → t'.room = t.room →
      t'.pc.beforeJoin = false → t'.JoinsOnce (calls ++ [e]) := by
    intro t' e he hroom hpc'
    exact ⟨by simp [hpc'], fun r hr => hroom ▸ h.room r (hold he hr)⟩
  have hearlier : ∀ {t' : Thread} {e : Event}, t.pc.beforeJoin → (∀ q, e ≠ .added q) →
      t'.JoinsOnce (calls ++ [e]) := by
    intro t' e hbefore he
    have hnone : ∀ r, Event.added r ∉ calls ++ [e] := fun r hr => h.before hbefore r (hold he hr)
    exact ⟨fun _ => hnone, fun r hr => absurd hr (hnone r)⟩
  cases p with
  | receive => exact called_receive fun ok result m line _ => hearlier (by rw [hpc]; rfl) (by simp)
  | refuse why => exact fun ok => hearlier (by rw [hpc]; rfl) (by simp)
  | find => exact fun r => hearlier (by rw [hpc]; rfl) (by simp)
  | add =>
      apply deref_cases trivial
      intro q hq
      have hnone := h.before (by rw [hpc]; rfl)
      refine ⟨fun hbefore => absurd hbefore (by simp [Thread.goto, Pc.beforeJoin]), ?_⟩
      intro r hr
      have heq : r = q := by simpa [hnone] using hr
      rw [heq]
      exact hq
  | joined => exact fun ok => hlater (by simp) rfl rfl
  | dequeue =>
      intro m
      cases m <;> exact hlater (by simp) rfl rfl
  | deliver newMsg =>
      intro ok
      dsimp only
      split_ifs <;> exact hlater (by simp) rfl rfl
  | empty => exact fun ok => hlater (by simp) rfl rfl
  | remove => exact deref_cases trivial fun r _ => hlater (by simp) rfl rfl

/-- In every reachable state a receiver has been added to no other room than its own. -/
theorem reachable_joinsOnce {s : State} (hs : server.Reachable s) (c : ConnId) :
    ReceiverHistory Thread.JoinsOnce (s.threads c) (s.chatCalls c) := by
  refine receiver_invariant ?_ ?_ hs c
  · intro t hpc hlogin
    exact ⟨fun _ r => List.not_mem_nil, fun r hr => absurd hr List.not_mem_nil⟩
  · intro t p calls hpc h
    exact chatWithReceiver_joinsOnce hpc h

/-- Whoever has joined a room has come to one of the chat functions. -/
theorem pc_of_joined {s : State} (hs : server.Reachable s) {u : ConnId} {r : RoomPtr}
    (h : s.Joined r u) :
    (s.threads u).pc.isSender ∨ (s.threads u).pc.isReceiver ∨ (s.threads u).pc = .done := by
  have hhistory := reachable_joinsOnce hs u
  unfold State.Joined at h
  cases hpc : (s.threads u).pc with
  | absent =>
      simp only [ReceiverHistory, hpc] at hhistory
      simp [hhistory] at h
  | worker p =>
      simp only [ReceiverHistory, hpc] at hhistory
      simp [hhistory] at h
  | sender p => exact .inl rfl
  | receiver p => exact .inr (.inl rfl)
  | done => exact .inr (.inr rfl)

/-- A user joins one room if its login is one of a receiver. -/
theorem joined_unique {s : State} (hs : server.Reachable s) {u : ConnId}
    (hlogin : (s.threads u).login.tag = tagRlogin) {r q : RoomPtr} (hr : s.Joined r u)
    (hq : s.Joined q u) : r = q := by
  have hhistory := reachable_joinsOnce hs u
  have honce : (s.threads u).JoinsOnce (s.chatCalls u) := by
    rcases pc_of_joined hs hr with hsender | hreceiver | hdone
    · have hslogin := (reachable_role hs u).sender hsender
      rw [hlogin] at hslogin
      exact absurd hslogin (by decide)
    · rcases Pc.eq_receiver hreceiver with ⟨p, hpc⟩
      simpa [ReceiverHistory, hpc] using hhistory
    · simp only [ReceiverHistory, hdone] at hhistory
      rcases hhistory hlogin with hnil | honce
      · simp [State.Joined, hnil] at hr
      · exact honce
  exact Option.some.inj ((honce.room r hr).symm.trans (honce.room q hq))

/-- The thread of a receiver serves it until it returns. -/
theorem receiver_stays {s s' : State} {a : Action} (hstep : server.step s a = some s')
    {c : ConnId} (h : ((s.threads c).pc.isReceiver ∨ (s.threads c).pc = .done) ∧
      (s.threads c).login.tag = tagRlogin) :
    ((s'.threads c).pc.isReceiver ∨ (s'.threads c).pc = .done) ∧
      (s'.threads c).login.tag = tagRlogin := by
  by_cases hc : a.conn = c
  · rcases step_cases hstep with ⟨d, fdbuf, habsent, rfl⟩ | ⟨d, env, rfl, hperf⟩
    · by_cases hcd : c = d
      · subst d
        simp [habsent, Pc.isReceiver] at h
      · simpa [hcd] using h
    · change d = c at hc
      subst d
      rcases h with ⟨hreceiver | hdone, hlogin⟩
      · rcases Pc.eq_receiver hreceiver with ⟨p, hpc⟩
        have hstays := chatWithReceiver_stays (s.threads c) p
        rw [code, Thread.code_receiver hpc] at hperf
        obtain ⟨s₁, t, e, rfl, ht, -, -, -, -⟩ := hperf.called hstays
        rw [State.resume_threads, update_self, ht.login]
        exact ⟨ht.pc, hlogin⟩
      · have hhalt : code s c = .halt := by simp [code, Thread.code, hdone]
        rw [hhalt] at hperf
        cases hperf
  · rwa [(step_other hstep hc).1]

/-- What a receiver has joined at some time is the only room that it ever joins. -/
theorem receiver_joined_unique {s s' : State} {as : List Action} (hs : server.Reachable s)
    (hrun : server.run s as = some s') {u : ConnId} (hpc : (s.threads u).pc.isReceiver)
    {r q : RoomPtr} (hq : s.Joined q u) (hr : s'.Joined r u) : r = q := by
  have hstays := hs.run_invariant
    (P := fun s => ((s.threads u).pc.isReceiver ∨ (s.threads u).pc = .done) ∧
      (s.threads u).login.tag = tagRlogin)
    ⟨.inl hpc, (reachable_role hs u).receiver hpc⟩
    (fun _ _ _ _ hstep h => receiver_stays hstep h) hrun
  exact joined_unique (hs.of_run hrun) hstays.2 hr (run_joined hrun hq)

end ChatServer
