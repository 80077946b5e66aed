import ChatServer.Server.Broadcasts

/-!
# The locks of the rooms

Only a broadcast holds the mutex of a room for more than one step.  So the holder
of a lock can be read off the control points, and whoever waits for a lock waits
for a thread that can go on.

Main results:

- Theorem {lit}`reachable_lock`: the thread that holds the lock of a room is inside
  a broadcast in this room.
- Theorem {lit}`thread_progress`: a thread that has not returned can make its next
  call, or waits for the lock of a room whose holder can.

Current gaps:

- That a thread which waits for a lock gets it is left to {lit}`Server.Liveness`.
-/

namespace ChatServer

open Function

/-! ## Who holds a lock -/

/-- A call takes a lock only by starting a broadcast. -/
theorem Performed.lock {s s' : State} {c d : ConnId} {op : Op} {r : RoomPtr}
    (h : Performed s c op s') (hlock : (s'.rooms r).lock = some d) :
    (s.rooms r).lock = some d ∨ d = c ∧ ∃ name text k, op = .lockRoom r name text k := by
  have hsame : ∀ {q : RoomPtr} {room : Room}, room.lock = (s.rooms q).lock →
      (update s.rooms q room r).lock = some d → (s.rooms r).lock = some d := by
    intro q room hroom hnew
    by_cases hrq : r = q
    · subst r
      rwa [update_self, hroom] at hnew
    · rwa [update_of_ne hrq] at hnew
  cases h with
  | newRoom name k hroom =>
      left
      by_cases hr : r = s.nextRoom
      · simp [State.newRoom, hr] at hlock
      · simpa [State.newRoom, hr] using hlock
  | added q k hfree => exact .inl (hsame (by simp) hlock)
  | removed q k hfree => exact .inl (hsame (by simp) hlock)
  | locked q name text k hfree =>
      by_cases hrq : r = q
      · subst r
        exact .inr ⟨by simpa using hlock.symm, name, text, k, rfl⟩
      · exact .inl (by simpa [hrq] using hlock)
  | unlocked q k =>
      by_cases hrq : r = q
      · simp [hrq] at hlock
      · exact .inl (by simpa [hrq] using hlock)
  | _ => exact .inl hlock

/-- The thread is inside {lit}`broadcast_message` of a room. -/
def Thread.Broadcasting (t : Thread) (r : RoomPtr) : Prop :=
  t.room = some r ∧ ∃ rest, t.pc = .sender (.visit rest)

/-- A thread inside a broadcast takes no further lock. -/
theorem not_quiet_of_broadcasting {t t' : Thread} {r : RoomPtr} (h : t.Broadcasting r) :
    ¬ t.Quiet t' := by
  rcases h with ⟨-, rest, hpc⟩
  intro hquiet
  have hvisiting := hquiet.visiting
  rw [hpc] at hvisiting
  cases hvisiting

/-- A thread that is inside a broadcast stays inside until it releases the lock. -/
theorem Performed.broadcasting {s s' : State} {c : ConnId} {op : Op} {r : RoomPtr}
    (h : Performed s c op s') (hop : op.Role (s.threads c) (s.users c))
    (hin : (s.threads c).Broadcasting r) (hlock : (s'.rooms r).lock = some c) :
    (s'.threads c).Broadcasting r := by
  have hquiet : ∀ {t : Thread}, ¬ (s.threads c).Quiet t := not_quiet_of_broadcasting hin
  rcases hin with ⟨hroom, rest, hpc⟩
  cases h with
  | receive msg k => exact absurd (hop false .eofOrError msg) hquiet
  | send msg k writes => exact absurd (hop false) hquiet
  | newUser username k => exact absurd hop.2 hquiet
  | found name k q hfound => exact absurd (hop q) hquiet
  | newRoom name k hfound => exact absurd (hop s.nextRoom) hquiet
  | added q k hfree => exact absurd hop hquiet
  | removed q k hfree => exact absurd hop hquiet
  | locked q name text k hfree =>
      have hstart := hop.1
      rw [hpc] at hstart
      cases hstart
  | visited q name text rest' k u hu =>
      refine ⟨?_, rest'.erase u, ?_⟩ <;>
        simp [hop.2.2.2.2 u, Thread.goto, hroom]
  | unlocked q k =>
      rw [hop.2.1, Option.some.injEq] at hroom
      subst q
      simp at hlock
  | timedOut k => exact absurd (hop.2 none) hquiet
  | dequeued k m mqueue hqueue => exact absurd (hop.2 (some m)) hquiet

/-- In every reachable state the thread that holds the lock of a room is inside a
broadcast in this room. -/
theorem reachable_lock {s : State} (hs : server.Reachable s) {r : RoomPtr} {d : ConnId}
    (hlock : (s.rooms r).lock = some d) : (s.threads d).Broadcasting r := by
  let Held (s : State) : Prop :=
    ∀ r d, (s.rooms r).lock = some d → (s.threads d).Broadcasting r
  have hheld : Held s := by
    refine TransitionSystem.Reachable.invariant ?_ ?_ hs
    · intro r d h
      cases h
    · intro s a s' hs hstep hheld r d hlock
      rcases step_cases hstep with ⟨c, fdbuf, habsent, rfl⟩ | ⟨c, env, rfl, hperf⟩
      · have hin := hheld r d hlock
        have hdc : d ≠ c := by
          rintro rfl
          rcases hin with ⟨-, rest, hpc⟩
          rw [habsent] at hpc
          cases hpc
        rwa [State.accept_threads, update_of_ne hdc]
      · rcases hperf.lock hlock with hold | ⟨rfl, name, text, k, hop⟩
        · have hin := hheld r d hold
          by_cases hdc : c = d
          · subst d
            exact hperf.broadcasting (code_role _ _) hin hlock
          · rwa [(step_other hstep hdc).1]
        · have hrole := code_role s d
          rw [hop] at hperf hrole
          rcases hrole with ⟨-, hroom, -, -, hk⟩
          cases hperf with
          | locked _ _ _ _ hfree =>
              refine ⟨?_, (s.rooms r).members, ?_⟩ <;> simp [hk, Thread.goto, hroom]
  exact hheld r d hlock

/-! ## Threads that can go on -/

/-- The thread can make its next call. -/
def State.Enabled (s : State) (c : ConnId) : Prop :=
  ∃ env s', server.step s (.run c env) = some s'

/-- The next call of {lit}`c` takes the lock of {lit}`r`, which another thread
holds. -/
structure State.WaitsFor (s : State) (c : ConnId) (r : RoomPtr) (d : ConnId) : Prop where
  locked : (s.rooms r).lock = some d
  other : d ≠ c
  call : (∃ k, code s c = .addMember r k) ∨ (∃ k, code s c = .removeMember r k) ∨
    ∃ name text k, code s c = .lockRoom r name text k

/-- Calls of a thread that has not returned: a broadcast that visits members has
somebody to visit. -/
def Op.Ready : Op → Prop
  | .halt => False
  | .visitMember _ _ _ rest _ => rest.Nonempty
  | _ => True

/-- In {lit}`chat_with_sender` there is always a next call. -/
theorem chatWithSender_ready {m : Bytes → Option RoomPtr} {user : User}
    {getRoomName : RoomPtr → Bytes} {t : Thread} {p : SenderPc} (ht : t.Located m)
    (hpc : t.pc = .sender p) : (chatWithSender user getRoomName t p).Ready := by
  have hderef : ∀ {f : RoomPtr → Op}, t.room ≠ none → (∀ r, (f r).Ready) →
      (deref t.room f).Ready := by
    intro f hroom hready
    rcases Option.ne_none_iff_exists'.mp hroom with ⟨r, hr⟩
    rw [hr]
    exact hready r
  have hinside := ht.inside
  have hrequested := ht.requested
  rw [hpc] at hinside hrequested
  cases p with
  | switch => exact hderef (hinside rfl) fun r => trivial
  | add =>
      rcases hrequested rfl with ⟨r, hr, -⟩
      exact hderef (by simp [hr]) fun r => trivial
  | leave => exact hderef (hinside rfl) fun r => trivial
  | left => exact hderef (hinside rfl) fun r => trivial
  | broadcast => exact hderef (hinside rfl) fun r => trivial
  | visit rest =>
      refine hderef (hinside rfl) fun r => ?_
      split_ifs with hrest
      · exact trivial
      · exact Finset.nonempty_iff_ne_empty.mpr hrest
  | exit => exact hderef (hinside rfl) fun r => trivial
  | _ => exact trivial

/-- In {lit}`chat_with_receiver` there is always a next call. -/
theorem chatWithReceiver_ready {m : Bytes → Option RoomPtr} {t : Thread} {p : ReceiverPc}
    (ht : t.Located m) (hpc : t.pc = .receiver p) : (chatWithReceiver t p).Ready := by
  have hrequested := ht.requested
  rw [hpc] at hrequested
  cases p with
  | add =>
      rcases hrequested rfl with ⟨r, hr, -⟩
      simp [chatWithReceiver, hr, deref, Op.Ready]
  | remove =>
      rcases hrequested rfl with ⟨r, hr, -⟩
      simp [chatWithReceiver, hr, deref, Op.Ready]
  | _ => exact trivial

/-- A thread that has arrived and not returned has a next call. -/
theorem code_ready {s : State} (hs : server.Reachable s) {c : ConnId}
    (habsent : (s.threads c).pc ≠ .absent) (hdone : (s.threads c).pc ≠ .done) :
    (code s c).Ready := by
  have hlocated := reachable_located hs c
  cases hpc : (s.threads c).pc with
  | absent => exact absurd hpc habsent
  | worker p =>
      rw [code, Thread.code_worker hpc]
      cases p <;> exact trivial
  | sender p =>
      rw [code, Thread.code_sender hpc]
      exact chatWithSender_ready hlocated hpc
  | receiver p =>
      rw [code, Thread.code_receiver hpc]
      exact chatWithReceiver_ready hlocated hpc
  | done => exact absurd hpc hdone

/-- A thread whose call has an effect is enabled. -/
theorem enabled_of_perform {s s' : State} {c : ConnId} (env : Env) {op : Op}
    (hcode : code s c = op) (h : perform s c env op = some s') : s.Enabled c := by
  subst op
  exact ⟨env, s', h⟩

/-- A thread inside a broadcast can go on. -/
theorem enabled_of_broadcasting {s : State} {d : ConnId} {r : RoomPtr}
    (h : (s.threads d).Broadcasting r) : s.Enabled d := by
  rcases h with ⟨hroom, rest, hpc⟩
  have hcode : code s d = chatWithSender (s.users d) (fun q => (s.rooms q).roomName)
      (s.threads d) (.visit rest) := Thread.code_sender hpc
  rw [chatWithSender, hroom, deref] at hcode
  by_cases hrest : rest = ∅
  · rw [if_pos hrest] at hcode
    exact enabled_of_perform {} hcode rfl
  · rw [if_neg hrest] at hcode
    rcases Finset.nonempty_iff_ne_empty.mpr hrest with ⟨u, hu⟩
    exact enabled_of_perform { pick := u } hcode (if_pos hu)

/-- A thread that has not returned can make its next call, or it waits for the lock
of a room, and then the holder of the lock can make its next call. -/
theorem thread_progress {s : State} (hs : server.Reachable s) {c : ConnId}
    (habsent : (s.threads c).pc ≠ .absent) (hdone : (s.threads c).pc ≠ .done) :
    s.Enabled c ∨ ∃ r d, s.WaitsFor c r d ∧ s.Enabled d := by
  have hready := code_ready hs habsent hdone
  have hrole := code_role s c
  have hwaits : ∀ {r : RoomPtr}, (s.rooms r).lock ≠ none →
      (¬ (s.threads c).Broadcasting r) →
      ((∃ k, code s c = .addMember r k) ∨ (∃ k, code s c = .removeMember r k) ∨
        ∃ name text k, code s c = .lockRoom r name text k) →
      ∃ r d, s.WaitsFor c r d ∧ s.Enabled d := by
    intro r hlock hout hcall
    rcases Option.ne_none_iff_exists'.mp hlock with ⟨d, hd⟩
    have hin := reachable_lock hs hd
    have hdc : d ≠ c := by
      rintro rfl
      exact hout hin
    exact ⟨r, d, ⟨hd, hdc, hcall⟩, enabled_of_broadcasting hin⟩
  cases hcode : code s c with
  | halt =>
      rw [hcode] at hready
      exact absurd hready id
  | receive msg k => exact .inl (enabled_of_perform {} hcode rfl)
  | send msg k => exact .inl (enabled_of_perform {} hcode rfl)
  | newUser name k => exact .inl (enabled_of_perform {} hcode rfl)
  | findOrCreateRoom name k =>
      cases hroom : s.mRooms name with
      | none => exact .inl (enabled_of_perform {} hcode (by rw [perform, hroom]))
      | some r => exact .inl (enabled_of_perform {} hcode (by rw [perform, hroom]))
  | addMember r k =>
      rw [hcode] at hrole
      by_cases hlock : (s.rooms r).lock = none
      · exact .inl (enabled_of_perform {} hcode (if_pos hlock))
      · refine .inr (hwaits hlock (fun hin => ?_) (.inl ⟨k, hcode⟩))
        exact not_quiet_of_broadcasting hin hrole
  | removeMember r k =>
      rw [hcode] at hrole
      by_cases hlock : (s.rooms r).lock = none
      · exact .inl (enabled_of_perform {} hcode (if_pos hlock))
      · refine .inr (hwaits hlock (fun hin => ?_) (.inr (.inl ⟨k, hcode⟩)))
        exact not_quiet_of_broadcasting hin hrole
  | lockRoom r name text k =>
      rw [hcode] at hrole
      by_cases hlock : (s.rooms r).lock = none
      · exact .inl (enabled_of_perform {} hcode (if_pos hlock))
      · refine .inr (hwaits hlock ?_ (.inr (.inr ⟨name, text, k, hcode⟩)))
        rintro ⟨-, rest, hpc⟩
        rw [hrole.1] at hpc
        cases hpc
  | visitMember r name text rest k =>
      rw [hcode] at hready
      rcases hready with ⟨u, hu⟩
      exact .inl (enabled_of_perform { pick := u } hcode (if_pos hu))
  | unlockRoom r k => exact .inl (enabled_of_perform {} hcode rfl)
  | dequeue k => exact .inl (enabled_of_perform { timeout := true } hcode rfl)

end ChatServer
