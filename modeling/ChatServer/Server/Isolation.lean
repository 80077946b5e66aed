import ChatServer.Lib.Unwinding
import ChatServer.Server.Joins
import ChatServer.Server.Restriction

/-!
# Rooms do not interfere

A server without the clients that never join a room cannot be told from the server
with all of them, as far as this room and the remaining clients are concerned.  The
two servers are run side by side: the remaining threads are alike, the rooms are the
same but for the members that are missing, and the queues that are dequeued are
equal, because the user of a receiver joins one room only.

Main results:

- Theorem {lit}`isolation`: the steps that remain are respected by both servers, and
  those of the others by the one that makes them.
- Theorem {lit}`rooms_do_not_interfere`: the steps that remain are a run, in which the
  room has the same member sets, its broadcasts enqueue the same messages, and the
  remaining clients get the same replies.

Current gaps:

- A visit of a member that has been removed counts as one of its steps.
-/

namespace ChatServer

open Function

/-! ## What a call does to the rooms -/

/-- The rooms that a call works on are the one of its thread. -/
def Op.Uses (room : Option RoomPtr) : Op → Prop
  | .addMember r _ | .removeMember r _ | .lockRoom r _ _ _ | .visitMember r _ _ _ _
  | .unlockRoom r _ => room = some r
  | _ => True

theorem Thread.code_uses (t : Thread) (user : User) (getRoomName : RoomPtr → Bytes) :
    (t.code user getRoomName).Uses t.room := by
  apply code_cases
  · exact trivial
  · intro p _
    cases p <;> exact trivial
  · intro p _
    cases p with
    | switch | add | leave | left | broadcast | exit =>
        exact deref_cases (Q := (·.Uses t.room)) trivial fun r hr => by
          first | exact hr | exact trivial
    | visit rest =>
        apply deref_cases (Q := (·.Uses t.room)) trivial
        intro r hr
        split_ifs <;> exact hr
    | _ => exact trivial
  · intro p _
    cases p with
    | add | remove => exact deref_cases (Q := (·.Uses t.room)) trivial fun r hr => hr
    | _ => exact trivial

/-- A call acts on the rooms as one of the operations of its thread. -/
theorem step_acts {s s' : State} {a : Action} (hs : server.Reachable s)
    (hstep : server.step s a = some s') (name : Bytes) :
    (s.roomAt name).Acts a.conn (s'.roomAt name) := by
  have hreg := reachable_registry hs
  cases a with
  | accept c reads ending =>
      rcases accept_step hstep with ⟨-, rfl⟩
      exact .same
  | run c env =>
      have huses : (code s c).Uses (s.threads c).room := Thread.code_uses _ _ _
      have hrole := code_role s c
      have hperf := performed_of_perform hstep
      generalize code s c = op at huses hrole hperf
      have hroom : ∀ {r : RoomPtr} {room : Room}, (s.threads c).room = some r →
          (s.rooms r).Acts c room → (s.roomAt name).Acts c ((s.setRoom r room).roomAt name) := by
        intro r room hr hacts
        rcases (reachable_located hs c).registered r hr with ⟨name', hname'⟩
        rw [State.roomAt_setRoom hreg hname']
        by_cases hname : name = name'
        · subst name'
          rw [update_self, State.roomAt_of_registered hname']
          exact hacts
        · rw [update_of_ne hname]
          exact .same
      cases hperf with
      | newRoom name' k hfree =>
          change (s.roomAt name).Acts c ((s.newRoom name').roomAt name)
          rw [State.roomAt_newRoom hreg hfree]
          exact .same
      | added r k hlock => exact hroom huses .added
      | removed r k hlock => exact hroom huses .removed
      | locked r name' text k hlock => exact hroom huses (.locked hlock)
      | unlocked r k =>
          refine hroom huses (.unlocked ?_)
          exact (reachable_broadcastLog hs).held c ∅ r (by rw [hrole.1]; rfl) huses
      | _ => exact .same

/-! ## Servers side by side -/

/-- The rooms have the same name. -/
def State.SameRoom (s t : State) (r r' : RoomPtr) : Prop :=
  ∃ name, s.mRooms name = some r ∧ t.mRooms name = some r'

/-- Control points from which a thread may still dequeue. -/
def Pc.mayDequeue : Pc → Bool
  | .sender _ | .done => false
  | _ => true

/-- The second server is the first one without the clients outside of {lit}`J`, as
far as the clients in {lit}`J` can tell. -/
structure Isolated (J : ConnId → Prop) [DecidablePred J] (s t : State) : Prop where
  threads : ∀ c, J c → Thread.Alike J (s.SameRoom t) (s.threads c) (t.threads c)
  conns : ∀ c, J c → t.conns c = s.conns c
  username : ∀ c, J c → (t.users c).username = (s.users c).username
  mqueue : ∀ c, J c → (s.threads c).pc.mayDequeue → (t.users c).mqueue = (s.users c).mqueue
  registered : ∀ name r', t.mRooms name = some r' → ∃ r, s.mRooms name = some r
  rooms : ∀ name, t.roomAt name = (s.roomAt name).restrict J

namespace Isolated

variable {J : ConnId → Prop} [DecidablePred J] {s t : State} {c : ConnId} {r r' : RoomPtr}

theorem rooms_eq (h : Isolated J s t) (hr : s.SameRoom t r r') :
    t.rooms r' = (s.rooms r).restrict J := by
  rcases hr with ⟨name, hname, hname'⟩
  rw [← State.roomAt_of_registered hname, ← State.roomAt_of_registered hname']
  exact h.rooms name

/-- The connection of a client changes in the same way. -/
theorem setConn (h : Isolated J s t) (c : ConnId) (conn : Connection) :
    Isolated J { s with conns := update s.conns c conn }
      { t with conns := update t.conns c conn } where
  threads := h.threads
  conns d hd := by
    by_cases hdc : d = c
    · subst d
      simp
    · simpa [hdc] using h.conns d hd
  username := h.username
  mqueue := h.mqueue
  registered := h.registered
  rooms := h.rooms

/-- A user changes in the same way. -/
theorem setUser (h : Isolated J s t) (c : ConnId) {user user' : User}
    (hname : J c → user'.username = user.username)
    (hqueue : J c → (s.threads c).pc.mayDequeue → user'.mqueue = user.mqueue) :
    Isolated J { s with users := update s.users c user }
      { t with users := update t.users c user' } where
  threads := h.threads
  conns := h.conns
  username d hd := by
    by_cases hdc : d = c
    · subst d
      simpa using hname hd
    · simpa [hdc] using h.username d hd
  mqueue d hd hpc := by
    by_cases hdc : d = c
    · subst d
      simpa using hqueue hd hpc
    · simpa [hdc] using h.mqueue d hd hpc
  registered := h.registered
  rooms := h.rooms

/-- A room changes in the same way. -/
theorem setRoom (h : Isolated J s t) (hs : Registry s) (ht : Registry t)
    (hr : s.SameRoom t r r') (room : Room) :
    Isolated J (s.setRoom r room) (t.setRoom r' (room.restrict J)) where
  threads := h.threads
  conns := h.conns
  username := h.username
  mqueue := h.mqueue
  registered := h.registered
  rooms name := by
    rcases hr with ⟨name', hname, hname'⟩
    rw [State.roomAt_setRoom hs hname, State.roomAt_setRoom ht hname']
    by_cases heq : name = name'
    · subst name'
      simp
    · simpa [heq] using h.rooms name

/-- The second server creates a room that the first one has already. -/
theorem newRoom_right (h : Isolated J s t) (ht : Registry t) {name : Bytes}
    (hname : s.mRooms name = some r) (hfree : t.mRooms name = none) :
    Isolated J s (t.newRoom name) where
  threads c hc := by
    refine (h.threads c hc).mono fun q q' => ?_
    rintro ⟨name', hq, hq'⟩
    refine ⟨name', hq, ?_⟩
    have hne : name' ≠ name := by
      rintro rfl
      rw [hfree] at hq'
      cases hq'
    simpa [State.newRoom, hne] using hq'
  conns := h.conns
  username := h.username
  mqueue := h.mqueue
  registered name' r' hr' := by
    by_cases heq : name' = name
    · subst name'
      exact ⟨r, hname⟩
    · exact h.registered name' r' (by simpa [State.newRoom, heq] using hr')
  rooms := by
    rw [State.roomAt_newRoom ht hfree]
    exact h.rooms

/-- The first server creates a room. -/
theorem newRoom_left (h : Isolated J s t) (hs : Registry s) {name : Bytes}
    (hfree : s.mRooms name = none) : Isolated J (s.newRoom name) t where
  threads c hc := by
    refine (h.threads c hc).mono fun q q' => ?_
    rintro ⟨name', hq, hq'⟩
    refine ⟨name', ?_, hq'⟩
    have hne : name' ≠ name := by
      rintro rfl
      rw [hfree] at hq
      cases hq
    simpa [State.newRoom, hne] using hq
  conns := h.conns
  username := h.username
  mqueue := h.mqueue
  registered name' r' hr' := by
    rcases h.registered name' r' hr' with ⟨r, hr⟩
    have hne : name' ≠ name := by
      rintro rfl
      rw [hfree] at hr
      cases hr
    exact ⟨r, by simpa [State.newRoom, hne] using hr⟩
  rooms := by
    rw [State.roomAt_newRoom hs hfree]
    exact h.rooms

/-- A thread of both servers goes on after a call. -/
theorem resume (h : Isolated J s t) {k k' : Thread} (hk : Thread.Alike J (s.SameRoom t) k k')
    (hmay : k.pc.mayDequeue → (s.threads c).pc.mayDequeue) (e e' : Event) :
    Isolated J (s.resume c k e) (t.resume c k' e') where
  threads d hd := by
    by_cases hdc : d = c
    · subst d
      rw [State.resume_threads, State.resume_threads, update_self, update_self]
      exact hk
    · rw [State.resume_threads, State.resume_threads, update_of_ne hdc, update_of_ne hdc]
      exact h.threads d hd
  conns := h.conns
  username := h.username
  mqueue d hd hpc := by
    refine h.mqueue d hd ?_
    by_cases hdc : d = c
    · subst d
      exact hmay (by simpa using hpc)
    · simpa [hdc] using hpc
  registered := h.registered
  rooms := h.rooms

/-- The log of broadcasts does not matter. -/
theorem log (h : Isolated J s t) (b b' : List Broadcast) :
    Isolated J { s with broadcasts := b } { t with broadcasts := b' } :=
  ⟨h.threads, h.conns, h.username, h.mqueue, h.registered, h.rooms⟩

/-- Alike threads make alike calls in both servers. -/
theorem alike (h : Isolated J s t) (hc : J c) :
    Op.Alike J (s.SameRoom t) (code s c) (code t c) := by
  refine (h.threads c hc).code (h.username c hc) fun r r' hr => ?_
  rw [h.rooms_eq hr]
  rfl

end Isolated

/-- A thread that has come to a chat function for senders, or has returned, does not
come to dequeue any more. -/
theorem step_mayDequeue {s s' : State} {a : Action} (hstep : server.step s a = some s')
    {c : ConnId} (h : (s'.threads c).pc.mayDequeue) : (s.threads c).pc.mayDequeue := by
  by_cases hc : a.conn = c
  · rcases step_cases hstep with ⟨d, fdbuf, habsent, rfl⟩ | ⟨d, env, rfl, hperf⟩
    · by_cases hcd : c = d
      · subst d
        rw [habsent]
        rfl
      · simpa [hcd] using h
    · change d = c at hc
      subst d
      cases hpc : (s.threads c).pc with
      | sender p =>
          rw [code, Thread.code_sender hpc] at hperf
          obtain ⟨s₁, t, e, rfl, ht, -, -, -, -⟩ :=
            hperf.called (chatWithSender_stays _ _ (s.threads c) p)
          rw [State.resume_threads, update_self] at h
          rcases ht.pc with hsender | hdone
          · unfold Pc.mayDequeue at h
            unfold Pc.isSender at hsender
            split at hsender
            · rename_i heq
              simp [heq] at h
            · cases hsender
          · simp [hdone, Pc.mayDequeue] at h
      | done =>
          have hhalt : code s c = .halt := by simp [code, Thread.code, hpc]
          rw [hhalt] at hperf
          cases hperf
      | _ => rfl
  · rwa [(step_other hstep hc).1] at h

theorem mayDequeue_of_code {s : State} {c : ConnId} {k : Option Message → Thread}
    (h : code s c = .dequeue k) : (s.threads c).pc.mayDequeue := by
  cases hpc : (s.threads c).pc with
  | sender p =>
      have hfrom := chatWithSender_calledFrom (s.users c) (fun r => (s.rooms r).roomName)
        (s.threads c) p
      rw [code, Thread.code_sender hpc] at h
      rw [h] at hfrom
      exact absurd hfrom id
  | done => simp [code, Thread.code, hpc] at h
  | _ => rfl

/-! ## Steps that remain -/

/-- The member that a call visits. -/
def Op.visits (env : Env) : Op → Option ConnId
  | .visitMember _ _ _ _ _ => some env.pick
  | _ => none

/-- The step belongs to a client in {lit}`J`, and so does the member that it visits,
if it is a step of a broadcast. -/
def Keeps (J : ConnId → Prop) (s : State) : Action → Prop
  | .accept c _ _ => J c
  | .run c env => J c ∧ ∀ u ∈ (code s c).visits env, J u

instance (J : ConnId → Prop) [DecidablePred J] (s : State) (a : Action) :
    Decidable (Keeps J s a) :=
  match a with
  | .accept c _ _ => inferInstanceAs (Decidable (J c))
  | .run c env => inferInstanceAs (Decidable (J c ∧ ∀ u ∈ (code s c).visits env, J u))

/-- A visit that remains has somebody to visit. -/
theorem exists_visited {J : ConnId → Prop} [DecidablePred J] {s s' : State} {c : ConnId}
    {env : Env} {r : RoomPtr} {name text : Bytes} {rest : Finset ConnId} {k : ConnId → Thread}
    (hstep : perform s c env (.visitMember r name text rest k) = some s')
    (hvisits : ∀ u ∈ (Op.visitMember r name text rest k).visits env, J u) :
    env.pick ∈ rest.filter J :=
  Finset.mem_filter.mpr ⟨mem_of_visit hstep, hvisits env.pick rfl⟩

section

variable {J : ConnId → Prop} [DecidablePred J] {s s' t : State} {c : ConnId}

/-- The steps that remain are made by both servers. -/
theorem Isolated.run (h : Isolated J s t) (hs : server.Reachable s) (ht : server.Reachable t)
    {env : Env} (hkeep : Keeps J s (.run c env)) (hstep : server.step s (.run c env) = some s') :
    ∃ t', server.step t (.run c env) = some t' ∧ Isolated J s' t' := by
  rcases hkeep with ⟨hc, hvisits⟩
  have hregs := reachable_registry hs
  have hregt := reachable_registry ht
  have hmay : (s'.threads c).pc.mayDequeue → (s.threads c).pc.mayDequeue :=
    step_mayDequeue hstep
  have halike := h.alike hc
  have hqueue : ∀ k, code s c = .dequeue k → (s.threads c).pc.mayDequeue :=
    fun k => mayDequeue_of_code
  change perform s c env (code s c) = some s' at hstep
  change ∃ t', perform t c env (code t c) = some t' ∧ Isolated J s' t'
  generalize code s c = op, code t c = op' at hstep halike hvisits hqueue ⊢
  cases halike with
  | halt => cases hstep
  | receive msg hk =>
      cases hstep
      refine ⟨_, rfl, ?_⟩
      rw [h.conns c hc]
      exact (h.setConn c _).resume (hk _ _ _) (by simpa using hmay) _ _
  | send msg hk =>
      cases hstep
      refine ⟨_, rfl, ?_⟩
      rw [h.conns c hc]
      exact (h.setConn c _).resume (hk _) (by simpa using hmay) _ _
  | newUser username hk =>
      cases hstep
      refine ⟨_, rfl, ?_⟩
      exact (h.setUser c (fun _ => rfl) fun _ _ => rfl).resume hk (by simpa using hmay) _ _
  | findOrCreateRoom name hk =>
      simp only [perform] at hstep ⊢
      cases hroom : s.mRooms name with
      | none =>
          have hroom' : t.mRooms name = none := by
            cases hfound : t.mRooms name with
            | none => rfl
            | some r' =>
                rcases h.registered name r' hfound with ⟨r, hr⟩
                rw [hroom] at hr
                cases hr
          rw [hroom] at hstep
          rw [hroom']
          cases hstep
          have hnew : (s.newRoom name).mRooms name = some s.nextRoom := by simp [State.newRoom]
          have hnew' : (t.newRoom name).mRooms name = some t.nextRoom := by simp [State.newRoom]
          refine ⟨_, rfl, ?_⟩
          exact ((h.newRoom_left hregs hroom).newRoom_right hregt hnew hroom').resume
            (hk _ _ _ ⟨name, hnew, hnew'⟩) (by simpa using hmay) _ _
      | some r =>
          rw [hroom] at hstep
          cases hstep
          cases hroom' : t.mRooms name with
          | none =>
              have hnew' : (t.newRoom name).mRooms name = some t.nextRoom := by
                simp [State.newRoom]
              refine ⟨_, rfl, ?_⟩
              exact (h.newRoom_right hregt hroom hroom').resume
                (hk _ _ _ ⟨name, hroom, hnew'⟩) (by simpa using hmay) _ _
          | some r' =>
              refine ⟨_, rfl, ?_⟩
              exact h.resume (hk _ _ _ ⟨name, hroom, hroom'⟩) (by simpa using hmay) _ _
  | @addMember r r' k k' hr hk =>
      simp only [perform] at hstep ⊢
      split at hstep <;> rename_i hlock <;> cases hstep
      rw [h.rooms_eq hr, if_pos (by simp [Room.restrict, hlock]), ← Room.restrict_addMember hc]
      refine ⟨_, rfl, ?_⟩
      exact (h.setRoom hregs hregt hr _).resume hk (by simpa using hmay) _ _
  | @removeMember r r' k k' hr hk =>
      simp only [perform] at hstep ⊢
      split at hstep <;> rename_i hlock <;> cases hstep
      rw [h.rooms_eq hr, if_pos (by simp [Room.restrict, hlock]), ← Room.restrict_removeMember]
      refine ⟨_, rfl, ?_⟩
      exact (h.setRoom hregs hregt hr _).resume hk (by simpa using hmay) _ _
  | @lockRoom r r' name text k k' hr hk =>
      simp only [perform] at hstep ⊢
      split at hstep <;> rename_i hlock <;> cases hstep
      have hroom : { t.rooms r' with lock := some c } =
          ({ s.rooms r with lock := some c } : Room).restrict J := by
        simp [h.rooms_eq hr, Room.restrict, Option.filter, hc]
      rw [hroom, h.rooms_eq hr, if_pos (by simp [Room.restrict, hlock])]
      refine ⟨_, rfl, ?_⟩
      exact ((h.setRoom hregs hregt hr _).log _ _).resume (hk _) (by simpa using hmay) _ _
  | @visitMember r r' name text rest k k' hr hk =>
      have hpick := exists_visited hstep hvisits
      have hJ := (Finset.mem_filter.mp hpick).2
      simp only [perform] at hstep ⊢
      rw [if_pos (Finset.mem_filter.mp hpick).1] at hstep
      rw [if_pos hpick]
      cases hstep
      refine ⟨_, rfl, ?_⟩
      have hmessage : (t.rooms r').newMessage name text = (s.rooms r).newMessage name text :=
        Room.newMessage_congr (by rw [h.rooms_eq hr]; rfl) name text
      have huser := h.username env.pick hJ
      refine ((h.setUser env.pick (fun _ => ?_) fun _ hqueue => ?_).log _ _).resume
        (hk _) (by simpa using hmay) _ _
      · rw [huser]
        split
        · exact huser
        · exact huser
      · have hsame := h.mqueue env.pick hJ hqueue
        rw [huser, hmessage]
        split
        · exact congrArg (· ++ _) hsame
        · exact hsame
  | visitNobody name text hrest =>
      have hpick := exists_visited hstep hvisits
      rw [hrest] at hpick
      cases hpick
  | @unlockRoom r r' k k' hr hk =>
      cases hstep
      refine ⟨_, rfl, ?_⟩
      have hroom : { t.rooms r' with lock := none } =
          ({ s.rooms r with lock := none } : Room).restrict J := by
        simp [h.rooms_eq hr, Room.restrict]
      rw [hroom]
      exact (h.setRoom hregs hregt hr _).resume hk (by simpa using hmay) _ _
  | dequeue hk =>
      have hsame := h.mqueue c hc (hqueue _ rfl)
      by_cases htimeout : env.timeout
      · simp only [perform, htimeout, if_true] at hstep ⊢
        cases hstep
        exact ⟨_, rfl, h.resume (hk _) (by simpa using hmay) _ _⟩
      · simp only [perform, htimeout, Bool.false_eq_true, if_false, hsame] at hstep ⊢
        split at hstep <;> cases hstep
        refine ⟨_, rfl, ?_⟩
        refine (h.setUser c (fun _ => ?_) fun _ _ => ?_).resume (hk _)
          (by simpa using hmay) _ _
        · exact h.username c hc
        · rfl

/-- The arrival of a client that remains. -/
theorem Isolated.accept (h : Isolated J s t) {reads : List ReadResult} {ending : StreamEnd}
    (hc : J c) (hstep : server.step s (.accept c reads ending) = some s') :
    ∃ t', server.step t (.accept c reads ending) = some t' ∧ Isolated J s' t' := by
  have hbefore : ∀ d, (s'.threads d).pc.mayDequeue → (s.threads d).pc.mayDequeue :=
    fun d => step_mayDequeue hstep
  rcases accept_step hstep with ⟨habsent, rfl⟩
  have hpc : (t.threads c).pc = .absent := (h.threads c hc).pc.trans (by rw [habsent]; rfl)
  refine ⟨_, if_pos hpc, ?_⟩
  have hconn := h.setConn c { fdbuf := { reads := reads, ending := ending } }
  refine ⟨fun d hd => ?_, hconn.conns, h.username, fun d hd hmay => h.mqueue d hd (hbefore d hmay),
    h.registered, h.rooms⟩
  rw [State.accept_threads, State.accept_threads]
  by_cases hdc : d = c
  · subst d
    rw [update_self, update_self]
    exact ⟨rfl, rfl, rfl, .none⟩
  · rw [update_of_ne hdc, update_of_ne hdc]
    exact h.threads d hd

/-! ## Steps that are removed -/

/-- Nobody outside of {lit}`J` has joined the room {lit}`R`, or a room that a user in
{lit}`J` who may dequeue has joined. -/
structure Closed (J : ConnId → Prop) (R : Bytes) (s : State) : Prop where
  room : ∀ r, s.mRooms R = some r → ∀ u, s.Joined r u → J u
  queues : ∀ u, J u → (s.threads u).pc.mayDequeue →
    ∀ r, s.Joined r u → ∀ d, s.Joined r d → J d

/-- A step of another thread keeps the name of a user, and adds to its queue only in a
room that both have joined. -/
theorem step_users {a : Action} (hs : server.Reachable s) (hstep : server.step s a = some s')
    {u : ConnId} (hu : a.conn ≠ u) :
    (s'.users u).username = (s.users u).username ∧
      ((s'.users u).mqueue = (s.users u).mqueue ∨ ∃ r, s.Joined r a.conn ∧ s.Joined r u) := by
  rcases step_cases hstep with ⟨d, fdbuf, -, rfl⟩ | ⟨d, env, rfl, hperf⟩
  · exact ⟨rfl, .inl rfl⟩
  · have hud : u ≠ d := Ne.symm hu
    have hrole := code_role s d
    generalize code s d = op at hperf hrole
    cases hperf with
    | newUser name k => simp [hud]
    | visited r name text rest k v hv =>
        by_cases huv : u = v
        · subst v
          have hjoined := joined_of_visiting hs hrole.1 hrole.2.1
          refine ⟨?_, .inr ⟨r, hjoined.1, hjoined.2 u hv⟩⟩
          simp only [State.resume_users, update_self]
          split <;> rfl
        · simp [huv]
    | dequeued k m mqueue hqueue => simp [hud]
    | _ => exact ⟨rfl, .inl rfl⟩

/-- The steps of a removed client cannot be noticed by the others. -/
theorem Isolated.others {R : Bytes} {a : Action} (h : Isolated J s t) (hs : server.Reachable s)
    (hclosed : Closed J R s) (hstep : server.step s a = some s') (hout : ¬ J a.conn) :
    Isolated J s' t := by
  have hne : ∀ d, J d → a.conn ≠ d := by
    rintro d hd rfl
    exact hout hd
  refine ⟨fun d hd => ?_, fun d hd => ?_, fun d hd => ?_, fun d hd hmay => ?_,
    fun name r' hr' => ?_, fun name => ?_⟩
  · rw [(step_other hstep (hne d hd)).1]
    refine (h.threads d hd).mono fun r r' => ?_
    rintro ⟨name, hr, hr'⟩
    exact ⟨name, step_mRooms hstep hr, hr'⟩
  · rw [step_other_conns hstep (hne d hd)]
    exact h.conns d hd
  · rw [(step_users hs hstep (hne d hd)).1]
    exact h.username d hd
  · rw [(step_other hstep (hne d hd)).1] at hmay
    rcases (step_users hs hstep (hne d hd)).2 with hsame | ⟨r, hjoined, hjoined'⟩
    · rw [hsame]
      exact h.mqueue d hd hmay
    · exact absurd (hclosed.queues d hd hmay r hjoined' _ hjoined) hout
  · rcases h.registered name r' hr' with ⟨r, hr⟩
    exact ⟨r, step_mRooms hstep hr⟩
  · rw [(step_acts hs hstep name).restrict hout]
    exact h.rooms name

/-- The visit of a removed member cannot be noticed by the others. -/
theorem Isolated.visit {env : Env} (h : Isolated J s t) (hc : J c)
    (hout : ∃ u ∈ (code s c).visits env, ¬ J u)
    (hstep : server.step s (.run c env) = some s') : Isolated J s' t := by
  have hrole := code_role s c
  have hbefore : ∀ d, (s'.threads d).pc.mayDequeue → (s.threads d).pc.mayDequeue :=
    fun d => step_mayDequeue hstep
  change perform s c env (code s c) = some s' at hstep
  generalize code s c = op at hout hrole hstep
  rcases hout with ⟨u, hu, hJ⟩
  cases op with
  | visitMember r name text rest k =>
      cases hu
      rcases hrole with ⟨hpc, -, -, -, hk⟩
      simp only [perform] at hstep
      split at hstep <;> rename_i hpick <;> cases hstep
      have hne : ∀ d, J d → d ≠ env.pick := by
        rintro d hd rfl
        exact hJ hd
      refine ⟨fun d hd => ?_, h.conns, fun d hd => ?_, fun d hd hmay => ?_, h.registered, h.rooms⟩
      · by_cases hdc : d = c
        · subst d
          have hthread := h.threads c hc
          rw [State.resume_threads, update_self, hk]
          refine ⟨?_, hthread.login, hthread.msg, hthread.room⟩
          have hnobody : env.pick ∉ rest.filter J := fun hmem => hJ (Finset.mem_filter.mp hmem).2
          rw [hthread.pc, hpc]
          simp only [Pc.restrict, Thread.goto]
          rw [Finset.filter_erase, Finset.erase_eq_of_notMem hnobody]
        · rw [State.resume_threads, update_of_ne hdc]
          exact h.threads d hd
      · simpa [hne d hd] using h.username d hd
      · simpa [hne d hd] using h.mqueue d hd (hbefore d hmay)
  | _ => cases hu

/-- The two servers stay alike: the steps that remain are made by both of them, and the
others by the first one. -/
theorem isolation (J : ConnId → Prop) [DecidablePred J] (R : Bytes) :
    server.Unwinding (Keeps J) (fun s _ s' => Closed J R s ∧ Closed J R s')
      (fun s t => server.Reachable s ∧ server.Reachable t ∧ Isolated J s t) where
  kept := by
    rintro s t s' a ⟨hs, ht, h⟩ hstep - hkeep
    have hboth : ∃ t', server.step t a = some t' ∧ Isolated J s' t' := by
      cases a with
      | accept c reads ending => exact h.accept hkeep hstep
      | run c env => exact h.run hs ht hkeep hstep
    rcases hboth with ⟨t', hstep', h'⟩
    exact ⟨t', hstep', hs.step trivial hstep, ht.step trivial hstep', h'⟩
  dropped := by
    rintro s t s' a ⟨hs, ht, h⟩ hstep ⟨hclosed, -⟩ hkeep
    refine ⟨hs.step trivial hstep, ht, ?_⟩
    by_cases hJ : J a.conn
    · cases a with
      | accept c reads ending => exact absurd hJ hkeep
      | run c env =>
          have hout : ∃ u ∈ (code s c).visits env, ¬ J u := by
            by_contra hnone
            refine hkeep ⟨hJ, fun u hu => ?_⟩
            by_contra hJu
            exact hnone ⟨u, hu, hJu⟩
          exact h.visit hJ hout hstep
    · exact h.others hs hclosed hstep hJ

end

/-! ## What can be observed -/

/-- The messages that a step of a broadcast in the room adds to the queue of a user. -/
def enqueues (R : Bytes) (u : ConnId) (s : State) (a : Action) (s' : State) : List Message :=
  match a with
  | .accept _ _ _ => []
  | .run c _ =>
      match code s c with
      | .visitMember r _ _ _ _ =>
          if s.mRooms R = some r then (s'.users u).mqueue.drop (s.users u).mqueue.length else []
      | _ => []

/-- The member set of the room after a step that changes it. -/
def memberSets (R : Bytes) (s : State) (_ : Action) (s' : State) : List (Finset ConnId) :=
  if (s'.roomAt R).members = (s.roomAt R).members then [] else [(s'.roomAt R).members]

/-- The replies that a step gives to a client; {lit}`ok` and {lit}`err` are their tags. -/
def replies (c : ConnId) (s : State) (a : Action) (_ : State) : List Message :=
  match a with
  | .accept _ _ _ => []
  | .run d _ =>
      if d = c then
        match code s c with
        | .send msg _ => [msg]
        | _ => []
      else []

section

variable {J : ConnId → Prop} {R : Bytes} {s s' : State} {a : Action} {c u : ConnId}

/-- Removed steps are no part of a broadcast in the room. -/
theorem Closed.enqueues_eq (hclosed : Closed J R s) (hs : server.Reachable s)
    (hout : ¬ Keeps J s a) (hstep : server.step s a = some s') :
    enqueues R u s a s' = [] := by
  cases a with
  | accept c reads ending => rfl
  | run c env =>
      have hrole := code_role s c
      simp only [enqueues]
      cases hcode : code s c with
      | visitMember r name text rest k =>
          rw [hcode] at hrole
          rcases hrole with ⟨hpc, hroom, -⟩
          refine if_neg fun hR => hout ⟨?_, ?_⟩
          · exact hclosed.room r hR c (joined_of_visiting hs hpc hroom).1
          · intro u hu
            rw [hcode] at hu
            cases hu
            refine hclosed.room r hR _ ((joined_of_visiting hs hpc hroom).2 _ ?_)
            change perform s c env (code s c) = some s' at hstep
            rw [hcode] at hstep
            exact mem_of_visit hstep
      | _ => rfl

/-- Removed steps give no replies to the remaining clients. -/
theorem replies_eq_nil (hc : J c) (hout : ¬ Keeps J s a) : replies c s a s' = [] := by
  cases a with
  | accept d reads ending => rfl
  | run d env =>
      by_cases hdc : d = c
      · subst d
        simp only [replies, if_true]
        cases hcode : code s c with
        | send msg k =>
            refine absurd ⟨hc, fun u hu => ?_⟩ hout
            rw [hcode] at hu
            cases hu
        | _ => rfl
      · simp only [replies, hdc, if_false]

end

section

variable {J : ConnId → Prop} [DecidablePred J] {R : Bytes} {s s' t t' : State} {a : Action}
  {c u : ConnId}

/-- The room has the same members in both servers. -/
theorem Isolated.members (h : Isolated J s t) (hs : server.Reachable s)
    (hclosed : Closed J R s) : (t.roomAt R).members = (s.roomAt R).members := by
  rw [h.rooms R]
  apply Finset.filter_true_of_mem
  intro u hu
  cases hroom : s.mRooms R with
  | none => simp [State.roomAt, hroom] at hu
  | some r =>
      rw [State.roomAt_of_registered hroom] at hu
      exact hclosed.room r hroom u (joined_of_mem hs hu)

/-- The rooms that are called {lit}`R` in both servers are the same. -/
theorem registered_iff (hs : server.Reachable s) (ht : server.Reachable t) {r r' : RoomPtr}
    (hr : s.SameRoom t r r') : t.mRooms R = some r' ↔ s.mRooms R = some r := by
  rcases hr with ⟨name, hname, hname'⟩
  constructor
  · intro hR
    have heq := (membership_invariant ht).1.injective _ _ _ hR hname'
    rwa [heq]
  · intro hR
    have heq := (membership_invariant hs).1.injective _ _ _ hR hname
    rwa [heq]

/-- What a visit adds to a queue. -/
theorem drop_of_visit {env : Env} {r : RoomPtr} {name text : Bytes} {rest : Finset ConnId}
    {k : ConnId → Thread} (hstep : perform s c env (.visitMember r name text rest k) = some s')
    (u : ConnId) :
    (s'.users u).mqueue.drop (s.users u).mqueue.length =
      if u = env.pick ∧ (s.users u).username ≠ name then [(s.rooms r).newMessage name text]
      else [] := by
  rw [mqueue_of_visit hstep, List.drop_left]

/-- Visits enqueue the same messages in both servers. -/
theorem Isolated.enqueues_eq (h : Isolated J s t) (hs : server.Reachable s)
    (ht : server.Reachable t) (hu : J u) (hkeep : Keeps J s a)
    (hstep : server.step s a = some s') (hstep' : server.step t a = some t') :
    enqueues R u t a t' = enqueues R u s a s' := by
  cases a with
  | accept c reads ending => rfl
  | run c env =>
      rcases hkeep with ⟨hc, hvisits⟩
      have halike := h.alike hc
      change perform s c env (code s c) = some s' at hstep
      change perform t c env (code t c) = some t' at hstep'
      simp only [enqueues]
      generalize code s c = op, code t c = op' at hstep hstep' halike hvisits ⊢
      cases halike with
      | @visitMember r r' name text rest k k' hr hk =>
          have hmessage : (t.rooms r').newMessage name text = (s.rooms r).newMessage name text :=
            Room.newMessage_congr (by rw [h.rooms_eq hr]; rfl) name text
          simp only [registered_iff hs ht hr, drop_of_visit hstep, drop_of_visit hstep',
            h.username u hu, hmessage]
      | visitNobody name text hrest =>
          have hpick := exists_visited hstep hvisits
          rw [hrest] at hpick
          cases hpick
      | _ => rfl

/-- The remaining clients get the same replies in both servers. -/
theorem Isolated.replies_eq (h : Isolated J s t) (hkeep : Keeps J s a)
    (hstep : server.step s a = some s') : replies c t a t' = replies c s a s' := by
  cases a with
  | accept d reads ending => rfl
  | run d env =>
      by_cases hdc : d = c
      · subst d
        rcases hkeep with ⟨hc, hvisits⟩
        have halike := h.alike hc
        change perform s c env (code s c) = some s' at hstep
        simp only [replies, if_true]
        generalize code s c = op, code t c = op' at hstep halike hvisits ⊢
        cases halike with
        | visitNobody name text hrest =>
            have hpick := exists_visited hstep hvisits
            rw [hrest] at hpick
            cases hpick
        | _ => rfl
      · simp only [replies, hdc, if_false]

end

/-! ## The clients that join a room -/

/-- The client has joined the room of that name. -/
def State.JoinsRoom (s : State) (R : Bytes) (c : ConnId) : Prop :=
  ∃ r ∈ s.mRooms R, s.Joined r c

instance (s : State) (R : Bytes) : DecidablePred (s.JoinsRoom R) :=
  fun _ => inferInstanceAs (Decidable (∃ r ∈ s.mRooms R, _))

/-- The clients that join a room sometime are closed all along the run. -/
theorem closed_of_run {s e : State} {as : List Action} (hs : server.Reachable s)
    (hrun : server.run s as = some e) (R : Bytes) : Closed (e.JoinsRoom R) R s where
  room r hR u hu := ⟨r, run_mRooms hrun hR, run_joined hrun hu⟩
  queues u hu hmay q hq d hd := by
    rcases hu with ⟨r, hR, hr⟩
    have hreceiver : (s.threads u).pc.isReceiver := by
      rcases pc_of_joined hs hq with hsender | hreceiver | hdone
      · unfold Pc.mayDequeue at hmay
        unfold Pc.isSender at hsender
        split at hsender
        · rename_i heq
          simp [heq] at hmay
        · cases hsender
      · exact hreceiver
      · simp [hdone, Pc.mayDequeue] at hmay
    have heq := receiver_joined_unique hs hrun hreceiver hq hr
    subst r
    exact ⟨q, hR, run_joined hrun hd⟩

/-- At the start there are no clients, and the two servers are alike. -/
theorem Isolated.init (J : ConnId → Prop) [DecidablePred J] :
    Isolated J server.init server.init where
  threads _ _ := ⟨rfl, rfl, rfl, .none⟩
  conns _ _ := rfl
  username _ _ := rfl
  mqueue _ _ _ := rfl
  registered _ _ hr := ⟨_, hr⟩
  rooms _ := rfl

/-- The schedule without the steps of the clients that have not joined the room at its
end, and without visits of their users. -/
def State.remaining (s : State) (R : Bytes) (as : List Action) : List Action :=
  server.purge (Keeps (s.JoinsRoom R)) server.init as

/-- The room does not notice when all others are removed from a schedule that ends in
{lit}`s`: what remains is a schedule of those that join the room; its broadcasts
enqueue the same messages to each of them, it has the same member sets, one after the
other, and they get the same replies. -/
structure Undisturbed (R : Bytes) (as : List Action) (s : State) : Prop where
  sublist : (s.remaining R as).Sublist as
  joined : ∀ a ∈ s.remaining R as, s.JoinsRoom R a.conn
  run : ∃ t, server.run server.init (s.remaining R as) = some t
  enqueued : ∀ u, s.JoinsRoom R u →
    server.trace (enqueues R u) server.init (s.remaining R as) =
      server.trace (enqueues R u) server.init as
  members : server.trace (memberSets R) server.init (s.remaining R as) =
    server.trace (memberSets R) server.init as
  replies : ∀ c, s.JoinsRoom R c →
    server.trace (replies c) server.init (s.remaining R as) =
      server.trace (replies c) server.init as

/-- Rooms do not interfere. -/
theorem rooms_do_not_interfere {as : List Action} {s : State}
    (hrun : server.run server.init as = some s) (R : Bytes) : Undisturbed R as s := by
  have h := isolation (s.JoinsRoom R) R
  have hinit : server.Reachable server.init ∧ server.Reachable server.init ∧
      Isolated (s.JoinsRoom R) server.init server.init := ⟨.init, .init, .init _⟩
  have hclosed : server.Along
      (fun s₁ _ s₂ => Closed (s.JoinsRoom R) R s₁ ∧ Closed (s.JoinsRoom R) R s₂)
      server.init as := by
    refine TransitionSystem.Reachable.along_of_run .init ?_ hrun
    intro s₁ a s₂ bs hs₁ hstep hrest
    have hrun₁ : server.run s₁ (a :: bs) = some s := by
      rw [TransitionSystem.run_cons, hstep, Option.bind_some, hrest]
    exact ⟨closed_of_run hs₁ hrun₁ R, closed_of_run (hs₁.step trivial hstep) hrest R⟩
  refine ⟨TransitionSystem.purge_sublist _ _, ?_, ?_, ?_, ?_, ?_⟩
  · have hkeep : ∀ s₁ b, Keeps (s.JoinsRoom R) s₁ b → s.JoinsRoom R b.conn := by
      intro s₁ b hb
      cases b with
      | accept c reads ending => exact hb
      | run c env => exact hb.1
    intro a ha
    exact TransitionSystem.of_mem_purge (Q := fun b : Action => s.JoinsRoom R b.conn) hkeep ha
  · rcases h.exists_run_purge hinit hclosed hrun with ⟨t, ht, -⟩
    exact ⟨t, ht⟩
  · intro u hu
    refine h.trace_purge ?_ ?_ hinit hclosed hrun
    · rintro s₁ t₁ s₂ t₂ a ⟨hs₁, ht₁, h₁⟩ hstep - hkeep hstep' -
      exact h₁.enqueues_eq hs₁ ht₁ hu hkeep hstep hstep'
    · rintro s₁ t₁ s₂ a ⟨hs₁, -, -⟩ hstep ⟨hclosed₁, -⟩ hout -
      exact hclosed₁.enqueues_eq hs₁ hout hstep
  · refine h.trace_purge ?_ ?_ hinit hclosed hrun
    · rintro s₁ t₁ s₂ t₂ a ⟨hs₁, -, h₁⟩ - ⟨hclosed₁, hclosed₂⟩ - - ⟨hs₂, -, h₂⟩
      simp only [memberSets, h₁.members hs₁ hclosed₁, h₂.members hs₂ hclosed₂]
    · rintro s₁ t₁ s₂ a ⟨hs₁, -, h₁⟩ - ⟨hclosed₁, hclosed₂⟩ - ⟨hs₂, -, h₂⟩
      exact if_pos ((h₂.members hs₂ hclosed₂).symm.trans (h₁.members hs₁ hclosed₁))
  · intro c hc
    refine h.trace_purge ?_ ?_ hinit hclosed hrun
    · rintro s₁ t₁ s₂ t₂ a ⟨-, -, h₁⟩ hstep - hkeep - -
      exact h₁.replies_eq hkeep hstep
    · rintro s₁ t₁ s₂ a - - - hout -
      exact replies_eq_nil hc hout

/-- A schedule in which bob sends to eve in one room, and then joins another one and
sends to ann. -/
def sendInTwoRooms : List Action :=
  connect 2 (str "slogin:eve\njoin:den\n") :: serve 2 7 ++
  connect 0 (str "rlogin:ann\njoin:hall\n") :: serve 0 7 ++
  connect 1 (str "slogin:bob\njoin:den\nsendall:yo\njoin:hall\nsendall:hi\n") :: serve 1 9 ++
  .run 1 { pick := 2 } :: .run 1 { pick := 1 } :: serve 1 9 ++
  .run 1 { pick := 1 } :: .run 1 { pick := 0 } :: serve 1 2

/-- Without the steps of eve and the visit of her, the second room has the same
members and the same message. -/
theorem rooms_do_not_interfere_two :
    ∃ s, server.run server.init sendInTwoRooms = some s ∧
      (sendInTwoRooms.length = 41 ∧ (s.remaining (str "hall") sendInTwoRooms).length = 32) ∧
      Undisturbed (str "hall") sendInTwoRooms s := by
  have hrun : (server.run server.init sendInTwoRooms).map
      (fun s => (s.remaining (str "hall") sendInTwoRooms).length) = some 32 := by
    decide +kernel
  rcases TransitionSystem.exists_reachable_of_run hrun with ⟨s, hs, hlength, -⟩
  exact ⟨s, hs, ⟨by decide, hlength⟩, rooms_do_not_interfere hs (str "hall")⟩

end ChatServer
