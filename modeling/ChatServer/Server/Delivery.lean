import ChatServer.Server.Broadcasts

/-!
# Exactly-once delivery

What a user has been given is a function of the broadcast log: the messages of
the broadcasts that took their lock while the user was a member and that have
reached it, in the order of the log.  Only a visit changes both sides, and it
adds one message at the end of both, because whoever waits for a broadcast is
not a member in any later entry.

Main results:

- Theorem {lit}`reachable_obtained`: the queue equation.
- Theorem {lit}`exactly_once_delivery`: what follows for answers, for the common
  order and for receivers whose join has been answered.

Current gaps:

- That a started broadcast finishes is left to {lit}`Server.Liveness`.
-/

namespace ChatServer

open Function

/-! ## The log seen from a user -/

/-- The broadcast has put its message into the queue of the user. -/
def Broadcast.Reaches (b : Broadcast) (u : ConnId) (username : Bytes) : Prop :=
  u ∈ b.members ∧ u ∉ b.rest ∧ b.username ≠ username

instance (b : Broadcast) (u : ConnId) (username : Bytes) : Decidable (b.Reaches u username) :=
  inferInstanceAs (Decidable (_ ∧ _))

/-- The messages of the broadcasts that have reached a user, in log order. -/
def State.delivered (s : State) (u : ConnId) : List Message :=
  (s.broadcasts.filter fun b => b.Reaches u (s.users u).username).map Broadcast.message

/-- Visiting somebody else is not noticed by a user. -/
theorem Broadcast.reaches_visit_of_ne {u v : ConnId} (hvu : v ≠ u) (c : ConnId)
    (b : Broadcast) (username : Bytes) :
    (b.visit c u).Reaches v username ↔ b.Reaches v username := by
  have hrest : v ∈ (b.visit c u).rest ↔ v ∈ b.rest := by
    rw [rest_visit]
    split <;> simp [hvu]
  simp [Reaches, hrest]

/-- A user without an entry in the log has been given nothing. -/
private theorem delivered_eq_nil {s : State} {u : ConnId}
    (h : ∀ b ∈ s.broadcasts, u ∉ b.members) : s.delivered u = [] := by
  have hnone : s.broadcasts.filter (fun b => b.Reaches u (s.users u).username) = [] := by
    rw [List.filter_eq_nil_iff]
    intro b hb
    simp [Broadcast.Reaches, h b hb]
  rw [State.delivered, hnone, List.map_nil]

/-- A step outside of broadcasts keeps the equation of queue and log. -/
theorem Elsewhere.delivered {s s' : State} {c : ConnId} (h : Elsewhere s s' c)
    (hlog : BroadcastLog s) {u : ConnId} (heq : s.obtained u = s.delivered u) :
    s'.obtained u = s'.delivered u := by
  cases hin : (s.threads u).pc.loggedIn with
  | true =>
      rw [h.obtained u hin, heq, State.delivered, State.delivered, h.broadcasts,
        h.username u hin]
  | false =>
      have hout : ∀ b ∈ s.broadcasts, u ∉ b.members := by
        intro b hb hu
        simp [hlog.loggedIn b hb u hu] at hin
      rw [h.nothing u (heq.trans (delivered_eq_nil hout)),
        delivered_eq_nil (by rwa [h.broadcasts])]

/-- A new broadcast has given nothing to anyone yet. -/
theorem Locks.delivered {s s' : State} {c : ConnId} {r : RoomPtr} (h : Locks s s' c r)
    (u : ConnId) : s'.delivered u = s.delivered u := by
  have hnew : ∀ username, ¬ (s.newBroadcast c r).Reaches u username :=
    fun _ hreach => hreach.2.1 hreach.1
  simp [State.delivered, h.broadcasts, h.users, hnew]

/-- A visit gives nothing to the other members. -/
theorem Visits.delivered_of_ne {s s' : State} {c : ConnId} {r : RoomPtr}
    {rest : Finset ConnId} {u v : ConnId} (h : Visits s s' c r rest u) (hvu : v ≠ u) :
    s'.delivered v = s.delivered v := by
  simp only [State.delivered, h.broadcasts, h.username, List.filter_map, List.map_map]
  congr 1
  · funext b
    simp
  · apply List.filter_congr
    intro b _
    simp [Broadcast.reaches_visit_of_ne hvu]

/-- A visit gives the member the message of the broadcast, unless the member has
the name of the sender. -/
theorem Visits.delivered_self {s s' : State} {c : ConnId} {r : RoomPtr}
    {rest : Finset ConnId} {u : ConnId} (h : Visits s s' c r rest u) (hlog : BroadcastLog s) :
    s'.delivered u = s.delivered u ++
      if (s.users u).username ≠ (s.users c).username then
        [(s.rooms r).newMessage (s.users c).username (s.threads c).msg.data]
      else [] := by
  obtain ⟨b, ⟨earlier, later, hsplit, hearlier, hlater⟩, rfl, hserves⟩ :=
    hlog.served c rest (by rw [h.pc]; rfl)
  have hb : b ∈ s.broadcasts := by simp [hsplit]
  have hu : u ∈ b.rest := hserves.rest ▸ h.mem
  have hroom : b.room = r := Option.some.inj (hserves.room.symm.trans h.room)
  have hmessage : b.message =
      (s.rooms r).newMessage (s.users b.author).username (s.threads b.author).msg.data := by
    rw [(hlog.message b hb).2, hroom, hserves.username, hserves.text]
  have hlate : later.filter (fun b' => b'.Reaches u (s.users u).username) = [] := by
    rw [List.filter_eq_nil_iff]
    intro b' hb'
    have hordered := hlog.ordered
    rw [hsplit, List.pairwise_append, List.pairwise_cons] at hordered
    simp [Broadcast.Reaches, hordered.2.1.1 b' hb' u hu]
  have hbefore : ¬ b.Reaches u (s.users u).username := fun hreach => hreach.2.1 hu
  have hafter : (b.visit b.author u).Reaches u (s.users u).username ↔
      (s.users u).username ≠ (s.users b.author).username := by
    simp only [Broadcast.Reaches, Broadcast.visit_members, Broadcast.visit_username,
      Broadcast.rest_visit, hserves.username]
    simp [hlog.subset b hb hu, ne_comm]
  have hlog' : s'.broadcasts = earlier ++ b.visit b.author u :: later := by
    rw [h.broadcasts, hsplit, Latest.map_visit_eq hearlier hlater]
  rw [State.delivered, State.delivered, h.username, hlog', hsplit]
  simp only [List.filter_append, List.filter_cons, hlate, hbefore, hafter, List.map_append]
  by_cases hname : (s.users u).username = (s.users b.author).username
  · simp [hname]
  · simp [hname, hmessage]

/-- The end of a broadcast changes nothing of what the log gives. -/
theorem Unlocks.delivered {s s' : State} {c : ConnId} {r : RoomPtr} (h : Unlocks s s' c r)
    (u : ConnId) : s'.delivered u = s.delivered u := by
  simp [State.delivered, h.broadcasts, h.users]

/-- The queue equation: what a user has been given, dequeued or not, is what the
log owes it. -/
theorem reachable_obtained {s : State} (hs : server.Reachable s) (u : ConnId) :
    s.obtained u = s.delivered u := by
  induction hs generalizing u with
  | init => rfl
  | @step s s' a hs _ hstep ih =>
      have hlog := reachable_broadcastLog hs
      cases step_kind hstep with
      | elsewhere c h => exact h.delivered hlog (ih u)
      | locks c r h => rw [h.obtained, h.delivered, ih u]
      | visits c r rest v h =>
          by_cases huv : u = v
          · subst u
            rw [h.obtained, h.delivered_self hlog, ih v]
          · rw [h.others u huv, h.delivered_of_ne huv, ih u]
      | unlocks c r h => rw [h.obtained, h.delivered, ih u]

/-! ## Later states of a broadcast -/

/-- The same broadcast, which may have visited more members. -/
structure Broadcast.Progress (b b' : Broadcast) : Prop where
  author : b'.author = b.author
  room : b'.room = b.room
  username : b'.username = b.username
  text : b'.text = b.text
  message : b'.message = b.message
  members : b'.members = b.members
  rest : b'.rest ⊆ b.rest

/-- A broadcast is a later state of itself. -/
theorem Broadcast.Progress.refl (b : Broadcast) : b.Progress b :=
  ⟨rfl, rfl, rfl, rfl, rfl, rfl, Finset.Subset.refl _⟩

/-- A later state of a later state is a later state. -/
theorem Broadcast.Progress.trans {b b' b'' : Broadcast} (h : b.Progress b')
    (h' : b'.Progress b'') : b.Progress b'' :=
  ⟨h'.author.trans h.author, h'.room.trans h.room, h'.username.trans h.username,
    h'.text.trans h.text, h'.message.trans h.message, h'.members.trans h.members,
    h'.rest.trans h.rest⟩

/-- A visit leads to a later state of the broadcast. -/
theorem Broadcast.progress_visit (c u : ConnId) (b : Broadcast) : b.Progress (b.visit c u) :=
  ⟨by simp, by simp, by simp, by simp, by simp, by simp, rest_visit_subset c u b⟩

/-- The log keeps its entries in their places. -/
def LogGrows (s s' : State) : Prop :=
  ∀ (i : Nat) (b : Broadcast), s.broadcasts[i]? = some b →
    ∃ b', s'.broadcasts[i]? = some b' ∧ b.Progress b'

/-- Every step keeps the places of the log. -/
theorem step_logGrows {s s' : State} {a : Action} (h : server.step s a = some s') :
    LogGrows s s' := by
  intro i b hb
  have hi : i < s.broadcasts.length := (List.getElem?_eq_some_iff.mp hb).1
  cases step_kind h with
  | elsewhere c h => exact ⟨b, by rw [h.broadcasts, hb], .refl b⟩
  | locks c r h => exact ⟨b, by rw [h.broadcasts, List.getElem?_append_left hi, hb], .refl b⟩
  | visits c r rest u h =>
      exact ⟨b.visit c u, by rw [h.broadcasts, List.getElem?_map, hb]; rfl, b.progress_visit c u⟩
  | unlocks c r h => exact ⟨b, by rw [h.broadcasts, hb], .refl b⟩

/-- Along every run the log keeps its entries in their places. -/
theorem run_logGrows {s s' : State} {as : List Action} (hrun : server.run s as = some s') :
    LogGrows s s' := by
  refine TransitionSystem.run_relation ?_ ?_ (fun _ _ _ => step_logGrows) hrun
  · exact fun s i b hb => ⟨b, hb, .refl b⟩
  · intro s t u hst htu i b hb
    rcases hst i b hb with ⟨b', hb', h⟩
    rcases htu i b' hb' with ⟨b'', hb'', h'⟩
    exact ⟨b'', hb'', h.trans h'⟩

/-- The only step of a thread that is about to broadcast is taking the lock. -/
theorem step_locks {s s' : State} {c : ConnId} {env : Env} {r : RoomPtr}
    (hpc : (s.threads c).pc = .sender .broadcast) (hroom : (s.threads c).room = some r)
    (h : server.step s (.run c env) = some s') : Locks s s' c r := by
  have hperf : Performed s c (code s c) s' := performed_of_perform h
  have hcode : code s c = .lockRoom r (s.users c).username (s.threads c).msg.data
      fun members => (s.threads c).goto (.sender (.visit members)) := by
    simp [code, Thread.code, hpc, chatWithSender, hroom, deref]
  rw [hcode] at hperf
  cases hperf with
  | locked _ _ _ _ hlock =>
      exact
        { pc := hpc, room := hroom, free := hlock, threads := rfl, rooms := rfl
          nextRoom := rfl, users := rfl, broadcasts := rfl
          obtained := funext fun u => State.obtained_resume rfl u }

/-! ## Exactly-once delivery -/

/-- A finished broadcast has reached every member with another name. -/
theorem mem_obtained {s : State} (hs : server.Reachable s) {b : Broadcast}
    (hb : b ∈ s.broadcasts) (hrest : b.rest = ∅) {u : ConnId} (hu : u ∈ b.members)
    (hname : b.username ≠ (s.users u).username) : b.message ∈ s.obtained u := by
  rw [reachable_obtained hs, State.delivered]
  refine List.mem_map_of_mem (List.mem_filter.mpr ⟨hb, ?_⟩)
  simp [Broadcast.Reaches, hu, hrest, hname]

/-- What a state owes to the users: every entry of the log carries the message
made from its room, sender and text; users have been given exactly the entries
that have reached them; the entries that have reached two users are in the same
order for both; and a broadcast about to be answered has reached everybody. -/
structure ExactlyOnce (s : State) : Prop where
  payload : ∀ b ∈ s.broadcasts, b.message = (s.rooms b.room).newMessage b.username b.text
  delivered : ∀ u, s.obtained u = s.delivered u
  common_order : ∀ u v,
    let common := (s.broadcasts.filter fun b =>
      b.Reaches u (s.users u).username ∧ b.Reaches v (s.users v).username).map Broadcast.message
    common.Sublist (s.obtained u) ∧ common.Sublist (s.obtained v)
  answered : ∀ c, (s.threads c).pc = .sender .sent →
    ∃ b, Latest s.broadcasts b ∧ b.author = c ∧
      b.Serves (s.threads c) (s.users c) ∅ ∧
      ∀ u ∈ b.members, b.username ≠ (s.users u).username → b.message ∈ s.obtained u

/-- Delivery is exactly-once and in order, and a broadcast that a thread starts
in a room after the join of a receiver has been answered, and before its
removal, has the receiver among its members for the rest of every run, and its
message has been given to the receiver once it is finished. -/
theorem exactly_once_delivery {s : State} (hs : server.Reachable s) :
    ExactlyOnce s ∧
      ∀ c env r s₁, (s.threads c).pc = .sender .broadcast → (s.threads c).room = some r →
        server.step s (.run c env) = some s₁ →
        ∀ v, ((s.threads v).pc.inDeliveryLoop ∨ (s.threads v).pc = .receiver .remove) →
          (s.threads v).room = some r →
          ∀ as s₂, server.run s₁ as = some s₂ →
            ∃ b, s₂.broadcasts[s.broadcasts.length]? = some b ∧ b.author = c ∧ b.room = r ∧
              b.text = (s.threads c).msg.data ∧ v ∈ b.members ∧
              (b.rest = ∅ → b.username ≠ (s₂.users v).username → b.message ∈ s₂.obtained v) := by
  refine ⟨⟨?_, fun u => reachable_obtained hs u, ?_, ?_⟩, ?_⟩
  · exact fun b hb => ((reachable_broadcastLog hs).message b hb).2
  · intro u v
    rw [reachable_obtained hs, reachable_obtained hs]
    constructor
    all_goals
      refine List.Sublist.map _ (List.monotone_filter_right _ fun b hb => ?_)
      simp only [decide_eq_true_eq] at hb ⊢
    · exact hb.1
    · exact hb.2
  · intro c hpc
    obtain ⟨b, hlatest, hauthor, hserves⟩ :=
      (reachable_broadcastLog hs).served c ∅ (by rw [hpc]; rfl)
    exact ⟨b, hlatest, hauthor, hserves,
      fun u hu hname => mem_obtained hs hlatest.mem hserves.rest hu hname⟩
  · intro c env r s₁ hpc hroom hstep v hv hvroom as s₂ hrun
    have hlocks := step_locks hpc hroom hstep
    have hnew : s₁.broadcasts[s.broadcasts.length]? = some (s.newBroadcast c r) := by
      simp [hlocks.broadcasts]
    rcases run_logGrows hrun _ _ hnew with ⟨b, hb, hprogress⟩
    have hmember : v ∈ (s.rooms r).members := by
      rw [reachable_memberships hs v r, ← hvroom]
      rcases hv with hv | hv
      · exact Thread.memberOf_of_inDeliveryLoop hv
      · simp [Thread.memberOf, hv]
    have hvb : v ∈ b.members := by
      rw [hprogress.members]
      exact hmember
    have hs₂ : server.Reachable s₂ :=
      TransitionSystem.Reachable.of_run (hs.step trivial hstep) hrun
    exact ⟨b, hb, hprogress.author, hprogress.room, hprogress.text, hvb,
      fun hrest hname => mem_obtained hs₂ (List.mem_of_getElem? hb) hrest hvb hname⟩

/-- A run in which a receiver is given the message of a sender. -/
theorem exactly_once_delivery_meeting :
    ∃ s, server.run server.init
        (connect 0 (str "rlogin:ann\njoin:hall\n") :: serve 0 7 ++
          connect 1 (str "slogin:bob\njoin:hall\nsendall:hi\n") :: serve 1 9 ++
          [.run 1 { pick := 1 }, .run 1 { pick := 0 }, .run 1]) = some s ∧
      ExactlyOnce s ∧ (s.threads 1).pc = .sender .sent ∧
      s.obtained 0 = [{ tag := tagDelivery, data := str "hall:bob:hi" }] := by
  have hrun : (server.run server.init
      (connect 0 (str "rlogin:ann\njoin:hall\n") :: serve 0 7 ++
        connect 1 (str "slogin:bob\njoin:hall\nsendall:hi\n") :: serve 1 9 ++
        [.run 1 { pick := 1 }, .run 1 { pick := 0 }, .run 1])).map
      (fun s => ((s.threads 1).pc, s.obtained 0)) =
      some (.sender .sent, [{ tag := tagDelivery, data := str "hall:bob:hi" }]) := by
    decide +kernel
  rcases TransitionSystem.exists_reachable_of_run hrun with ⟨s, hs, hend, hreach⟩
  rw [Prod.mk.injEq] at hend
  exact ⟨s, hs, (exactly_once_delivery hreach).1, hend⟩

end ChatServer
