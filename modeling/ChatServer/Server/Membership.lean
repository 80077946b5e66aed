import ChatServer.Server.History

/-!
# Room membership

Membership is stored twice: in the member set of a room and in the control
point and the room variable of a thread.  The function {lit}`Thread.memberOf`
reads it off the thread; the invariant says that the two views agree in every
reachable state.

Main results:

- Theorem {lit}`Thread.code_moves`: what each call of the thread code does to the
  membership of its user.
- Theorem {lit}`reachable_memberships`: the two views of membership agree.
- Theorem {lit}`membership_invariant`: the registry of rooms is faithful and
  persistent, users are in at most one room, and the threads know which.

Current gaps:

- None for the steps of {lit}`Server.Step`.
-/

namespace ChatServer

open Function

/-! ## Membership seen from a thread -/

/-- The room whose member the user of a thread is, judged by the control point
of the thread. -/
def Thread.memberOf (t : Thread) : Option RoomPtr :=
  match t.pc with
  | .sender .find => none
  | .sender .add => none
  | .sender .left => none
  | .sender _ => t.room
  | .receiver .joined => t.room
  | .receiver .dequeue => t.room
  | .receiver (.deliver _) => t.room
  | .receiver .empty => t.room
  | .receiver .remove => t.room
  | _ => none

/-- The effect of a call on the membership of the caller's user: only adding
and removing change it, and they change it from and to what they should. -/
def Op.Moves (before : Option RoomPtr) : Op → Prop
  | .halt => True
  | .receive _ k => ∀ ok result msg, (k ok result msg).memberOf = before
  | .send _ k => ∀ ok, (k ok).memberOf = before
  | .newUser _ k => k.memberOf = before
  | .findOrCreateRoom _ k => before = none ∧ ∀ r, (k r).memberOf = none
  | .addMember r k => before = none ∧ k.memberOf = some r
  | .removeMember r k => before = some r ∧ k.memberOf = none
  | .lockRoom r _ _ k => before = some r ∧ ∀ members, (k members).memberOf = some r
  | .visitMember r _ _ _ k => before = some r ∧ ∀ u, (k u).memberOf = some r
  | .unlockRoom r k => before = some r ∧ k.memberOf = some r
  | .dequeue k => ∀ m, (k m).memberOf = before

/-- The request loop is left or continued without touching the membership. -/
theorem Thread.memberOf_dispatch (t : Thread) : t.dispatch.memberOf = t.room := by
  unfold dispatch
  split_ifs <;> simp_all [memberOf, goto]

/-- Leaving the request loop keeps the membership of the thread's room. -/
theorem Thread.memberOf_breakLoop (t : Thread) : t.breakLoop.memberOf = t.room := by
  unfold breakLoop
  split_ifs <;> simp_all [memberOf, goto]

/-- A thread is a member of no other room than its own. -/
theorem Thread.room_of_memberOf {t : Thread} {r : RoomPtr} (h : t.memberOf = some r) :
    t.room = some r := by
  unfold memberOf at h
  split at h <;> first | exact h | cases h

/-- {lit}`worker` changes no membership. -/
theorem worker_moves (t : Thread) (p : WorkerPc) : (worker t p).Moves none := by
  cases p with
  | receive =>
      intro ok result msg
      dsimp only
      split_ifs <;> rfl
  | refuse why => exact fun _ => rfl
  | newUser => rfl
  | welcome =>
      intro ok
      dsimp only
      split_ifs <;> rfl

/-- The calls of {lit}`chat_with_sender` move the user as its control point says. -/
theorem chatWithSender_moves (user : User) (getRoomName : RoomPtr → Bytes) (t : Thread)
    (p : SenderPc) :
    (chatWithSender user getRoomName t p).Moves (t.goto (.sender p)).memberOf := by
  cases p with
  | receive =>
      intro ok result msg
      dsimp only
      split_ifs
      · rfl
      · rfl
      · exact Thread.memberOf_dispatch _
      · exact Thread.memberOf_dispatch _
  | invalid => exact fun _ => t.memberOf_dispatch
  | eof => exact fun _ => t.memberOf_breakLoop
  | refuse why => exact fun _ => rfl
  | switch => exact deref_cases trivial fun r hr => ⟨hr, rfl⟩
  | find => exact ⟨rfl, fun _ => rfl⟩
  | add => exact deref_cases trivial fun r hr => ⟨rfl, hr⟩
  | joined => exact fun _ => rfl
  | leave => exact deref_cases trivial fun r hr => ⟨hr, rfl⟩
  | left => exact deref_cases trivial fun r hr _ => rfl
  | quit => exact fun _ => t.memberOf_breakLoop
  | broadcast => exact deref_cases trivial fun r hr => ⟨hr, fun _ => hr⟩
  | visit rest =>
      refine deref_cases trivial fun r hr => ?_
      split_ifs
      · exact ⟨hr, hr⟩
      · exact ⟨hr, fun _ => hr⟩
  | sent => exact fun _ => rfl
  | exit => exact deref_cases trivial fun r hr => ⟨hr, rfl⟩

/-- The calls of {lit}`chat_with_receiver` move the user as its control point says. -/
theorem chatWithReceiver_moves (t : Thread) (p : ReceiverPc) :
    (chatWithReceiver t p).Moves (t.goto (.receiver p)).memberOf := by
  cases p with
  | receive =>
      intro ok result msg
      dsimp only
      split_ifs <;> rfl
  | refuse why => exact fun _ => rfl
  | find => exact ⟨rfl, fun _ => rfl⟩
  | add => exact deref_cases trivial fun r hr => ⟨rfl, hr⟩
  | joined => exact fun _ => rfl
  | dequeue => exact fun m => by cases m <;> rfl
  | deliver newMsg =>
      intro ok
      dsimp only
      split_ifs <;> rfl
  | empty => exact fun _ => rfl
  | remove => exact deref_cases trivial fun r hr => ⟨hr, rfl⟩

/-- Every call of the thread code has its effect on membership. -/
theorem Thread.code_moves (t : Thread) (user : User) (getRoomName : RoomPtr → Bytes) :
    (t.code user getRoomName).Moves t.memberOf := by
  have hgoto : ∀ {pc : Pc}, t.pc = pc → t.goto pc = t := by
    intro pc hpc
    simp [Thread.goto, ← hpc]
  apply Thread.code_cases
  · exact trivial
  · intro p hpc
    have hnone : t.memberOf = none := by simp [memberOf, hpc]
    exact hnone ▸ worker_moves t p
  · intro p hpc
    have hmoves := chatWithSender_moves user getRoomName t p
    rwa [hgoto hpc] at hmoves
  · intro p hpc
    have hmoves := chatWithReceiver_moves t p
    rwa [hgoto hpc] at hmoves

/-- {lit}`worker` adds no member to a room. -/
theorem worker_ne_addMember {t : Thread} {p : WorkerPc} (r : RoomPtr) (k : Thread) :
    worker t p ≠ .addMember r k := by
  cases p <;> simp [worker]

/-- Only {lit}`add_member` makes a user a member. -/
theorem Op.Moves.called {op : Op} (h : op.Moves none) (hadd : ∀ r k, op ≠ .addMember r k) :
    op.Called fun t _ => t.memberOf = none := by
  cases op with
  | halt => exact trivial
  | receive msg k => exact called_receive fun ok result msg _ _ => h ok result msg
  | send msg k => exact fun ok => h ok
  | newUser username k => exact h
  | findOrCreateRoom name k => exact fun r => h.2 r
  | addMember r k => exact absurd rfl (hadd r k)
  | removeMember r k => exact h.2
  | lockRoom r name text k => exact absurd h.1 (by simp)
  | visitMember r name text rest k => exact absurd h.1 (by simp)
  | unlockRoom r k => exact absurd h.1 (by simp)
  | dequeue k => exact fun m => h m

/-! ## What a thread knows about the registry -/

/-- Control points of a sender at which it is in a room. -/
def Pc.insideRoom : Pc → Bool
  | .sender .switch | .sender .leave | .sender .left | .sender .broadcast
  | .sender (.visit _) | .sender .sent | .sender .exit => true
  | _ => false

/-- Control points at which the room is the one that the message asked for. -/
def Pc.atRequestedRoom : Pc → Bool
  | .sender .add | .sender .joined => true
  | .receiver .receive | .receiver (.refuse _) | .receiver .find => false
  | .receiver _ => true
  | _ => false

/-- The delivery loop of {lit}`chat_with_receiver`. -/
def Pc.inDeliveryLoop : Pc → Bool
  | .receiver .dequeue | .receiver (.deliver _) | .receiver .empty => true
  | _ => false

/-- The delivery loop runs in the requested room. -/
theorem Pc.atRequestedRoom_of_inDeliveryLoop {pc : Pc} (h : pc.inDeliveryLoop) :
    pc.atRequestedRoom := by
  unfold inDeliveryLoop at h
  split at h <;> first | rfl | cases h

/-- A receiver in its delivery loop is a member of its room. -/
theorem Thread.memberOf_of_inDeliveryLoop {t : Thread} (h : t.pc.inDeliveryLoop) :
    t.memberOf = t.room := by
  unfold Pc.inDeliveryLoop at h
  split at h
  · simp [memberOf, *]
  · simp [memberOf, *]
  · simp [memberOf, *]
  · cases h

/-- The room variable of a thread points to a registered room, is not null where
the code uses it, and is the requested room after a lookup; a receiver keeps the
message of its join, so for a receiver this holds to the end. -/
structure Thread.Located (mRooms : Bytes → Option RoomPtr) (t : Thread) : Prop where
  registered : ∀ r, t.room = some r → ∃ name, mRooms name = some r
  inside : t.pc.insideRoom → t.room ≠ none
  requested : t.pc.atRequestedRoom → ∃ r, t.room = some r ∧ mRooms t.msg.data = some r

/-- A thread stays located while further rooms are registered. -/
theorem Thread.Located.mono {m m' : Bytes → Option RoomPtr} {t : Thread}
    (hgrow : ∀ name r, m name = some r → m' name = some r) (ht : t.Located m) :
    t.Located m' where
  registered r hr := by
    rcases ht.registered r hr with ⟨name, hname⟩
    exact ⟨name, hgrow name r hname⟩
  inside := ht.inside
  requested hpc := by
    rcases ht.requested hpc with ⟨r, hr, hname⟩
    exact ⟨r, hr, hgrow _ _ hname⟩

/-- With the room variable unchanged, a control point that is neither inside a
room nor at the requested one asks for nothing new. -/
theorem Thread.Located.of_room_eq {m : Bytes → Option RoomPtr} {t t' : Thread}
    (ht : t.Located m) (hroom : t'.room = t.room)
    (hinside : t'.pc.insideRoom → t.room ≠ none)
    (hrequested : t'.pc.atRequestedRoom = false) : t'.Located m where
  registered := by simpa [hroom] using ht.registered
  inside := by simpa [hroom] using hinside
  requested h := by simp [hrequested] at h

/-- With the room variable unchanged, a control point outside of rooms. -/
theorem Thread.Located.of_outside {m : Bytes → Option RoomPtr} {t t' : Thread}
    (ht : t.Located m) (hroom : t'.room = t.room) (hinside : t'.pc.insideRoom = false)
    (hrequested : t'.pc.atRequestedRoom = false) : t'.Located m :=
  ht.of_room_eq hroom (by simp [hinside]) hrequested

/-- A thread that is located at a request is located in the branch of its tag. -/
theorem Thread.Located.dispatch {m : Bytes → Option RoomPtr} {t : Thread}
    (ht : t.Located m) : t.dispatch.Located m := by
  unfold Thread.dispatch
  split_ifs with h₁ h₂ h₃ h₄ h₅ h₆ h₇ h₈
  all_goals
    refine ht.of_room_eq rfl ?_ rfl
    simp_all [goto, Pc.insideRoom]

/-- A located thread that leaves the request loop is located behind it. -/
theorem Thread.Located.breakLoop {m : Bytes → Option RoomPtr} {t : Thread}
    (ht : t.Located m) : t.breakLoop.Located m := by
  unfold Thread.breakLoop
  split_ifs with hroom
  · exact ht.of_room_eq rfl (fun _ => hroom) rfl
  · exact ht.of_room_eq rfl (by simp [goto, Pc.insideRoom]) rfl

/-- A thread without a room, at a control point that needs none. -/
private theorem located_of_room_none {m : Bytes → Option RoomPtr} {t : Thread}
    (hroom : t.room = none) (hinside : t.pc.insideRoom = false)
    (hrequested : t.pc.atRequestedRoom = false) : t.Located m where
  registered r hr := by simp [hroom] at hr
  inside h := by simp [hinside] at h
  requested h := by simp [hrequested] at h

/-- A lookup of the data of the message leads to the requested room. -/
private theorem locatedAfterLookup_of_room {m : Bytes → Option RoomPtr} {t : Thread}
    {name : Bytes} {r : RoomPtr} (hname : t.msg.data = name) (hroom : t.room = some r)
    (hinside : t.pc.insideRoom = false) : AfterCall Thread.Located m t (.found name r) := by
  subst name
  intro m' _ hfound
  refine ⟨fun q hq => ?_, fun h => ?_, fun _ => ⟨r, hroom, hfound⟩⟩
  · rw [hroom, Option.some.injEq] at hq
    subst q
    exact ⟨_, hfound⟩
  · simp [hinside] at h

/-- The calls of {lit}`worker` keep the thread located. -/
theorem worker_located {m : Bytes → Option RoomPtr} {t : Thread} {p : WorkerPc}
    (ht : t.Located m) :
    (worker t p).Called (AfterCall Thread.Located m) := by
  cases p with
  | receive =>
      apply called_receive
      intro ok result msg _ _
      split_ifs <;> exact ht.of_outside rfl rfl rfl
  | refuse why => exact fun _ => ht.of_outside rfl rfl rfl
  | newUser => exact ht.of_outside rfl rfl rfl
  | welcome =>
      intro ok
      dsimp only
      split_ifs
      · exact ht.of_outside rfl rfl rfl
      · exact located_of_room_none rfl rfl rfl
      · exact located_of_room_none rfl rfl rfl
      · exact ht.of_outside rfl rfl rfl

/-- The calls of {lit}`chat_with_sender` keep the thread located. -/
theorem chatWithSender_located {m : Bytes → Option RoomPtr} {user : User}
    {getRoomName : RoomPtr → Bytes} {t : Thread} {p : SenderPc} (ht : t.Located m)
    (hpc : t.pc = .sender p) :
    (chatWithSender user getRoomName t p).Called
      (AfterCall Thread.Located m) := by
  cases p with
  | receive =>
      apply called_receive
      intro ok result msg _ _
      have hdispatch : ({ t with msg := msg } : Thread).dispatch.Located m := by
        refine Thread.Located.dispatch (ht.of_room_eq rfl ?_ ?_) <;>
          simp [hpc, Pc.insideRoom, Pc.atRequestedRoom]
      split_ifs
      · exact ht.of_outside rfl rfl rfl
      · exact ht.of_outside rfl rfl rfl
      · exact hdispatch
      · exact hdispatch
  | invalid => exact fun _ => ht.dispatch
  | eof => exact fun _ => ht.breakLoop
  | refuse why => exact fun _ => ht.of_outside rfl rfl rfl
  | switch => exact deref_cases trivial fun r hr => ht.of_outside rfl rfl rfl
  | find => exact fun r => locatedAfterLookup_of_room rfl rfl rfl
  | add =>
      exact deref_cases trivial fun r hr =>
        { registered := ht.registered
          inside := by simp [Thread.goto, Pc.insideRoom]
          requested := fun _ => ht.requested (by simp [hpc, Pc.atRequestedRoom]) }
  | joined => exact fun _ => ht.of_outside rfl rfl rfl
  | leave => exact deref_cases trivial fun r hr => ht.of_room_eq rfl (fun _ => by simp [hr]) rfl
  | left => exact deref_cases trivial fun r hr _ => located_of_room_none rfl rfl rfl
  | quit => exact fun _ => ht.breakLoop
  | broadcast =>
      exact deref_cases trivial fun r hr _ => ht.of_room_eq rfl (fun _ => by simp [hr]) rfl
  | visit rest =>
      refine deref_cases trivial fun r hr => ?_
      split_ifs
      · exact ht.of_room_eq rfl (fun _ => by simp [hr]) rfl
      · exact fun _ => ht.of_room_eq rfl (fun _ => by simp [hr]) rfl
  | sent => exact fun _ => ht.of_outside rfl rfl rfl
  | exit => exact deref_cases trivial fun r hr => ht.of_outside rfl rfl rfl

/-- The calls of {lit}`chat_with_receiver` keep the thread located. -/
theorem chatWithReceiver_located {m : Bytes → Option RoomPtr} {t : Thread}
    {p : ReceiverPc} (ht : t.Located m) (hpc : t.pc = .receiver p) :
    (chatWithReceiver t p).Called (AfterCall Thread.Located m) := by
  have hjoined : t.pc.atRequestedRoom → ∀ pc : Pc, pc.insideRoom = false →
      (t.goto pc).Located m := fun hrequested pc hinside =>
    { registered := ht.registered
      inside := by simp [Thread.goto, hinside]
      requested := fun _ => ht.requested hrequested }
  rw [hpc] at hjoined
  cases p with
  | receive =>
      apply called_receive
      intro ok result msg _ _
      dsimp only
      split_ifs <;> exact ht.of_outside rfl rfl rfl
  | refuse why => exact fun _ => ht.of_outside rfl rfl rfl
  | find => exact fun r => locatedAfterLookup_of_room rfl rfl rfl
  | add => exact deref_cases trivial fun r hr => hjoined rfl _ rfl
  | joined => exact fun _ => hjoined rfl _ rfl
  | dequeue =>
      intro newMsg
      cases newMsg with
      | none => exact hjoined rfl _ rfl
      | some msg => exact hjoined rfl _ rfl
  | deliver newMsg =>
      intro ok
      dsimp only
      split_ifs <;> exact hjoined rfl _ rfl
  | empty => exact fun _ => hjoined rfl _ rfl
  | remove => exact deref_cases trivial fun r hr => ht.of_outside rfl rfl rfl

/-- The thread code keeps its knowledge of the registry. -/
theorem Thread.Located.code {m : Bytes → Option RoomPtr} {t : Thread} (ht : t.Located m)
    (user : User) (getRoomName : RoomPtr → Bytes) :
    (t.code user getRoomName).Called (AfterCall Thread.Located m) := by
  apply Thread.code_cases
  · exact trivial
  · exact fun p _ => worker_located ht
  · exact fun p hpc => chatWithSender_located ht hpc
  · exact fun p hpc => chatWithReceiver_located ht hpc

/-- In every reachable state the room variable of a thread points to a registered room, and is
not null where the code uses it. -/
theorem reachable_located {s : State} (hs : server.Reachable s) (c : ConnId) :
    (s.threads c).Located s.mRooms :=
  registry_invariant (fun _ _ _ hgrow ht => ht.mono hgrow)
    (fun _ => located_of_room_none rfl rfl rfl) (fun _ => located_of_room_none rfl rfl rfl)
    (fun _ _ user getRoomName ht => ht.code user getRoomName) hs c

/-! ## The registry of rooms -/

/-- Registered rooms are allocated and carry the name they are registered under. -/
def Registry (s : State) : Prop :=
  ∀ name r, s.mRooms name = some r → r < s.nextRoom ∧ (s.rooms r).roomName = name

/-- Calls other than a lookup that misses keep the registry and the names. -/
private theorem registry_of_same {s s' : State} (h : Registry s)
    (hmap : s'.mRooms = s.mRooms) (hnext : s'.nextRoom = s.nextRoom)
    (hname : ∀ r, (s'.rooms r).roomName = (s.rooms r).roomName) : Registry s' := by
  intro name r hr
  rw [hmap] at hr
  rw [hnext, hname]
  exact h name r hr

/-- A new room is allocated under its own name, and the old entries stay. -/
theorem Registry.newRoom {s : State} (h : Registry s) {name : Bytes} :
    Registry (s.newRoom name) := by
  intro name' r hr
  by_cases heq : name' = name
  · subst name'
    simp only [State.newRoom, update_self, Option.some.injEq] at hr
    subst r
    simp [State.newRoom]
  · simp only [State.newRoom, update_of_ne heq] at hr
    rcases h name' r hr with ⟨hlt, hroom⟩
    have hne : r ≠ s.nextRoom := Nat.ne_of_lt hlt
    exact ⟨Nat.lt_succ_of_lt hlt, by simpa [State.newRoom, hne] using hroom⟩

/-- An update that keeps the name of its room keeps the names of all rooms. -/
theorem roomName_update {rooms : RoomPtr → Room} {r : RoomPtr} {room : Room}
    (h : room.roomName = (rooms r).roomName) (q : RoomPtr) :
    (update rooms r room q).roomName = (rooms q).roomName := by
  by_cases hq : q = r
  · subst q
    simpa using h
  · rw [update_of_ne hq]

/-- Every call keeps the registry well formed. -/
theorem Performed.registry {s s' : State} {c : ConnId} {op : Op} (h : Performed s c op s')
    (hreg : Registry s) : Registry s' := by
  cases h with
  | newRoom name k hroom => exact hreg.newRoom
  | added r k hlock => exact registry_of_same hreg rfl rfl (roomName_update (by simp))
  | removed r k hlock => exact registry_of_same hreg rfl rfl (roomName_update (by simp))
  | locked r name text k hlock => exact registry_of_same hreg rfl rfl (roomName_update rfl)
  | unlocked r k => exact registry_of_same hreg rfl rfl (roomName_update rfl)
  | _ => exact registry_of_same hreg rfl rfl fun _ => rfl

/-- In every reachable state the registered rooms are allocated and carry the names they are
registered under. -/
theorem reachable_registry {s : State} (hs : server.Reachable s) : Registry s := by
  refine TransitionSystem.Reachable.invariant ?_ ?_ hs
  · intro name r hr
    cases hr
  · intro s a s' _ hstep hreg
    rcases step_cases hstep with ⟨d, fdbuf, -, rfl⟩ | ⟨d, env, -, hperf⟩
    · exact hreg
    · exact hperf.registry hreg

/-- The room of a thread is allocated. -/
theorem reachable_room_lt {s : State} (hs : server.Reachable s) {c : ConnId} {r : RoomPtr}
    (hroom : (s.threads c).room = some r) : r < s.nextRoom := by
  rcases (reachable_located hs c).registered r hroom with ⟨name, hname⟩
  exact (reachable_registry hs name r hname).1

/-! ## The two views of membership -/

/-- The member sets of the rooms hold the users whose threads are members. -/
def Memberships (s : State) : Prop :=
  ∀ c r, c ∈ (s.rooms r).members ↔ (s.threads c).memberOf = some r

/-- A call that changes neither the member sets nor the membership of its thread
keeps the views equal. -/
private theorem memberships_of_same {s s' : State} {c : ConnId} {t : Thread}
    (h : Memberships s) (hthreads : s'.threads = update s.threads c t)
    (ht : t.memberOf = (s.threads c).memberOf)
    (hrooms : ∀ r, (s'.rooms r).members = (s.rooms r).members) : Memberships s' := by
  intro d r
  rw [hrooms, h d r, hthreads]
  by_cases hdc : d = c
  · subst d
    rw [update_self, ht]
  · rw [update_of_ne hdc]

/-- An update that keeps the members of its room keeps the members of all rooms. -/
theorem members_update {rooms : RoomPtr → Room} {r : RoomPtr} {room : Room}
    (h : room.members = (rooms r).members) (q : RoomPtr) :
    (update rooms r room q).members = (rooms q).members := by
  by_cases hq : q = r
  · subst q
    simpa using h
  · rw [update_of_ne hq]

/-- A room that is not registered yet has no members. -/
private theorem members_nextRoom {s : State} (h : Memberships s)
    (hfree : ∀ d, (s.threads d).memberOf ≠ some s.nextRoom) :
    (s.rooms s.nextRoom).members = ∅ := by
  ext d
  simpa [h d] using hfree d

/-- Adding the user of a thread that was in no room keeps the views equal. -/
theorem Memberships.added {s : State} {c : ConnId} {r : RoomPtr} {t : Thread} {e : Event}
    (h : Memberships s) (hbefore : (s.threads c).memberOf = none)
    (hafter : t.memberOf = some r) :
    Memberships ((s.setRoom r ((s.rooms r).addMember c)).resume c t e) := by
  intro d q
  by_cases hdc : d = c
  · subst d
    have hout : c ∉ (s.rooms q).members := by simp [h c q, hbefore]
    by_cases hqr : q = r
    · subst q
      simp [hafter]
    · simp [hqr, hafter, hout, Ne.symm hqr]
  · by_cases hqr : q = r
    · subst q
      simp [hdc, h d r]
    · simp [hdc, hqr, h d q]

/-- Removing the user of a thread from its room keeps the views equal. -/
theorem Memberships.removed {s : State} {c : ConnId} {r : RoomPtr} {t : Thread} {e : Event}
    (h : Memberships s) (hbefore : (s.threads c).memberOf = some r)
    (hafter : t.memberOf = none) :
    Memberships ((s.setRoom r ((s.rooms r).removeMember c)).resume c t e) := by
  intro d q
  by_cases hdc : d = c
  · subst d
    by_cases hqr : q = r
    · subst q
      simp [hafter]
    · have hout : c ∉ (s.rooms q).members := by simp [h c q, hbefore, Ne.symm hqr]
      simp [hqr, hafter, hout]
  · by_cases hqr : q = r
    · subst q
      simp [hdc, h d r]
    · simp [hdc, hqr, h d q]

/-- One call keeps the two views of membership equal. -/
theorem Performed.memberships {s s' : State} {c : ConnId} {op : Op}
    (h : Performed s c op s') (hop : op.Moves (s.threads c).memberOf)
    (hfree : ∀ d, (s.threads d).memberOf ≠ some s.nextRoom) (hmem : Memberships s) :
    Memberships s' := by
  cases h with
  | receive msg k => exact memberships_of_same hmem rfl (hop _ _ _) fun _ => rfl
  | send msg k writes => exact memberships_of_same hmem rfl (hop _) fun _ => rfl
  | newUser username k => exact memberships_of_same hmem rfl hop fun _ => rfl
  | found name k r hroom =>
      exact memberships_of_same hmem rfl ((hop.2 r).trans hop.1.symm) fun _ => rfl
  | newRoom name k hroom =>
      exact memberships_of_same hmem rfl ((hop.2 _).trans hop.1.symm)
        (members_update (members_nextRoom hmem hfree).symm)
  | added r k hlock => exact hmem.added hop.1 hop.2
  | removed r k hlock => exact hmem.removed hop.1 hop.2
  | locked r name text k hlock =>
      exact memberships_of_same hmem rfl ((hop.2 _).trans hop.1.symm) (members_update rfl)
  | visited r name text rest k u hu =>
      exact memberships_of_same hmem rfl ((hop.2 _).trans hop.1.symm) fun _ => rfl
  | unlocked r k =>
      exact memberships_of_same hmem rfl (hop.2.trans hop.1.symm) (members_update rfl)
  | timedOut k => exact memberships_of_same hmem rfl (hop _) fun _ => rfl
  | dequeued k m mqueue hqueue => exact memberships_of_same hmem rfl (hop _) fun _ => rfl

/-- The two views of membership agree in every reachable state. -/
theorem reachable_memberships {s : State} (hs : server.Reachable s) : Memberships s := by
  refine TransitionSystem.Reachable.invariant ?_ ?_ hs
  · intro c r
    simp [server, Thread.memberOf]
  · intro s a s' hs hstep hmem
    rcases step_cases hstep with ⟨d, fdbuf, habsent, rfl⟩ | ⟨d, env, -, hperf⟩
    · refine memberships_of_same hmem rfl ?_ fun _ => rfl
      simp [Thread.memberOf, habsent]
    · refine hperf.memberships (Thread.code_moves _ _ _) (fun c hc => ?_) hmem
      exact absurd (reachable_room_lt hs (Thread.room_of_memberOf hc)) (Nat.lt_irrefl _)

/-- Along a run, entries of the registry stay. -/
theorem run_mRooms {s s' : State} {as : List Action} (hrun : server.run s as = some s')
    {name : Bytes} {r : RoomPtr} (hr : s.mRooms name = some r) : s'.mRooms name = some r := by
  let keeps (s s' : State) : Prop := ∀ name r, s.mRooms name = some r → s'.mRooms name = some r
  have hkeep : keeps s s' := by
    refine TransitionSystem.run_relation ?_ ?_ ?_ hrun
    · exact fun _ _ _ h => h
    · intro s t u hst htu name r h
      exact htu name r (hst name r h)
    · exact fun _ _ _ hstep _ _ => step_mRooms hstep
  exact hkeep name r hr

/-! ## The membership invariant -/

/-- What the registry, the member sets and the threads agree on. -/
structure MembershipInvariant (s : State) : Prop where
  named : ∀ name r, s.mRooms name = some r → (s.rooms r).roomName = name
  injective : ∀ name name' r, s.mRooms name = some r → s.mRooms name' = some r → name = name'
  unique_room : ∀ c r r', c ∈ (s.rooms r).members → c ∈ (s.rooms r').members → r = r'
  sender_loop : ∀ c, (s.threads c).pc = .sender .receive →
    ∀ r, c ∈ (s.rooms r).members ↔ (s.threads c).room = some r
  receiver_loop : ∀ c, (s.threads c).pc.inDeliveryLoop →
    ∃ r, s.mRooms (s.threads c).msg.data = some r ∧ ∀ q, c ∈ (s.rooms q).members ↔ q = r
  returned : ∀ c, (s.threads c).pc = .done → ∀ r, c ∉ (s.rooms r).members

/-- In every reachable state the registry is faithful, users are in at most one
room and the threads know which one, and along every run the entries of the
registry stay. -/
theorem membership_invariant {s : State} (hs : server.Reachable s) :
    MembershipInvariant s ∧
      ∀ as s', server.run s as = some s' →
        ∀ name r, s.mRooms name = some r → s'.mRooms name = some r := by
  have hreg := reachable_registry hs
  have hmem := reachable_memberships hs
  refine ⟨⟨?_, ?_, ?_, ?_, ?_, ?_⟩, ?_⟩
  · exact fun name r hr => (hreg name r hr).2
  · intro name name' r hr hr'
    rw [← (hreg name r hr).2, ← (hreg name' r hr').2]
  · intro c r r' hc hc'
    rw [hmem] at hc hc'
    exact Option.some.inj (hc.symm.trans hc')
  · intro c hpc r
    simp [hmem c r, Thread.memberOf, hpc]
  · intro c hpc
    have hrequested := Pc.atRequestedRoom_of_inDeliveryLoop hpc
    rcases (reachable_located hs c).requested hrequested with ⟨r, hroom, hname⟩
    refine ⟨r, hname, fun q => ?_⟩
    rw [hmem c q, Thread.memberOf_of_inDeliveryLoop hpc, hroom, Option.some.injEq]
    exact eq_comm
  · intro c hpc r
    simp [hmem c r, Thread.memberOf, hpc]
  · exact fun as s' hrun name r => run_mRooms hrun

/-- The invariant at the end of a run in which a receiver and a sender meet. -/
theorem membership_invariant_meeting :
    ∃ s, server.run server.init
        (connect 0 (str "rlogin:ann\njoin:hall\n") :: serve 0 7 ++
          connect 1 (str "slogin:bob\njoin:hall\n") :: serve 1 7) = some s ∧
      MembershipInvariant s ∧ (s.threads 0).pc = .receiver .dequeue ∧
      (s.threads 1).pc = .sender .receive := by
  have hrun : (server.run server.init
      (connect 0 (str "rlogin:ann\njoin:hall\n") :: serve 0 7 ++
        connect 1 (str "slogin:bob\njoin:hall\n") :: serve 1 7)).map
      (fun s => ((s.threads 0).pc, (s.threads 1).pc)) =
      some (.receiver .dequeue, .sender .receive) := by
    decide +kernel
  rcases TransitionSystem.exists_reachable_of_run hrun with ⟨s, hs, hpcs, hreach⟩
  rw [Prod.mk.injEq] at hpcs
  exact ⟨s, hs, (membership_invariant hreach).1, hpcs⟩

end ChatServer
