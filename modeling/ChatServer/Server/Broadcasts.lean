import ChatServer.Server.Membership

/-!
# The broadcast log

Broadcasts are the only calls that span several steps.  Seen from the log of
broadcasts there are four kinds of steps: a broadcast takes its lock, visits a
member, releases its lock, or nothing about broadcasts happens.  The invariant
of the log ties every unfinished entry to a thread that is inside
{lit}`broadcast_message` and to the room that this thread keeps locked.

Main results:

- Theorem {lit}`Thread.code_role`: at which control points the calls of a
  broadcast are made, and that no other call interferes with one.
- Theorem {lit}`step_kind`: the four kinds of steps.
- Theorem {lit}`reachable_broadcastLog`: the invariant of the log.

Current gaps:

- That a started broadcast finishes is left to {lit}`Server.Liveness`.
-/

namespace ChatServer

open Function

/-! ## Control points of a broadcast -/

/-- The members that a thread inside {lit}`broadcast_message` has still to visit. -/
def Pc.visiting : Pc → Option (Finset ConnId)
  | .sender (.visit rest) => some rest
  | _ => none

/-- The same from the lock of the room to the reply to the request. -/
def Pc.unanswered : Pc → Option (Finset ConnId)
  | .sender (.visit rest) => some rest
  | .sender .sent => some ∅
  | _ => none

/-- The thread has left {lit}`worker` for good. -/
def Pc.loggedIn : Pc → Bool
  | .absent | .worker _ => false
  | _ => true

/-- While members are visited the request is not answered. -/
theorem Pc.unanswered_of_visiting {pc : Pc} {rest : Finset ConnId}
    (h : pc.visiting = some rest) : pc.unanswered = some rest := by
  unfold visiting at h
  split at h
  · exact h
  · cases h

/-- Only a thread that has logged in owes the answer to a broadcast. -/
theorem Pc.loggedIn_of_unanswered {pc : Pc} {rest : Finset ConnId}
    (h : pc.unanswered = some rest) : pc.loggedIn := by
  unfold unanswered at h
  split at h
  · rfl
  · rfl
  · cases h

/-- Only a thread that has logged in is a member of a room. -/
theorem Thread.loggedIn_of_memberOf {t : Thread} {r : RoomPtr} (h : t.memberOf = some r) :
    t.pc.loggedIn := by
  unfold memberOf at h
  unfold Pc.loggedIn
  split at h <;> simp_all

/-! ## The part of each call in a broadcast -/

/-- A call outside of broadcasts: the thread is not visiting members, does not
start to, and does not go back to {lit}`worker`. -/
structure Thread.Quiet (t t' : Thread) : Prop where
  visiting : t.pc.visiting = none
  unanswered : t'.pc.unanswered = none
  loggedIn : t.pc.loggedIn → t'.pc.loggedIn

/-- The part of a call in a broadcast; {lit}`user` is the user of the thread. -/
def Op.Role (t : Thread) (user : User) : Op → Prop
  | .halt => True
  | .receive _ k => ∀ ok result msg, t.Quiet (k ok result msg)
  | .send _ k => ∀ ok, t.Quiet (k ok)
  | .newUser _ k => t.pc.loggedIn = false ∧ t.Quiet k
  | .findOrCreateRoom _ k => ∀ r, t.Quiet (k r)
  | .addMember _ k => t.Quiet k
  | .removeMember _ k => t.Quiet k
  | .lockRoom r name text k =>
      t.pc = .sender .broadcast ∧ t.room = some r ∧ name = user.username ∧
        text = t.msg.data ∧ ∀ members, k members = t.goto (.sender (.visit members))
  | .visitMember r name text rest k =>
      t.pc = .sender (.visit rest) ∧ t.room = some r ∧ name = user.username ∧
        text = t.msg.data ∧ ∀ u, k u = t.goto (.sender (.visit (rest.erase u)))
  | .unlockRoom r k =>
      t.pc = .sender (.visit ∅) ∧ t.room = some r ∧ k = t.goto (.sender .sent)
  | .dequeue k => t.pc.loggedIn ∧ ∀ m, t.Quiet (k m)

/-- The dispatch on the tag begins no broadcast. -/
theorem Thread.quiet_dispatch {t t' : Thread} (hpc : t.pc.visiting = none) :
    t.Quiet t'.dispatch := by
  refine ⟨hpc, ?_, fun _ => ?_⟩ <;> unfold Thread.dispatch <;> split_ifs <;> rfl

/-- The end of the request loop begins no broadcast. -/
theorem Thread.quiet_breakLoop {t t' : Thread} (hpc : t.pc.visiting = none) :
    t.Quiet t'.breakLoop := by
  refine ⟨hpc, ?_, fun _ => ?_⟩ <;> unfold Thread.breakLoop <;> split_ifs <;> rfl

/-- Every call of {lit}`worker` plays its part in the broadcasts. -/
theorem worker_role {t : Thread} {p : WorkerPc} (user : User) (hpc : t.pc = .worker p) :
    (worker t p).Role t user := by
  have hquiet : ∀ {t' : Thread}, t'.pc.unanswered = none → t.Quiet t' := fun h =>
    ⟨by rw [hpc]; rfl, h, by simp [hpc, Pc.loggedIn]⟩
  cases p with
  | receive =>
      intro ok result msg
      dsimp only
      split_ifs <;> exact hquiet rfl
  | refuse why => exact fun _ => hquiet rfl
  | newUser => exact ⟨by rw [hpc]; rfl, hquiet rfl⟩
  | welcome =>
      intro ok
      dsimp only
      split_ifs <;> exact hquiet rfl

/-- Every call of {lit}`chat_with_sender` plays its part in the broadcasts. -/
theorem chatWithSender_role {user : User} {getRoomName : RoomPtr → Bytes} {t : Thread}
    {p : SenderPc} (hpc : t.pc = .sender p) :
    (chatWithSender user getRoomName t p).Role t user := by
  have hquiet : (Pc.sender p).visiting = none → ∀ {t' : Thread}, t'.pc.unanswered = none →
      t'.pc.loggedIn → t.Quiet t' := fun hvisit _ h h' =>
    ⟨by rw [hpc]; exact hvisit, h, fun _ => h'⟩
  have hdispatch : (Pc.sender p).visiting = none → ∀ t' : Thread, t.Quiet t'.dispatch :=
    fun h _ => Thread.quiet_dispatch (by rw [hpc]; exact h)
  have hbreak : (Pc.sender p).visiting = none → ∀ t' : Thread, t.Quiet t'.breakLoop :=
    fun h _ => Thread.quiet_breakLoop (by rw [hpc]; exact h)
  cases p with
  | receive =>
      intro ok result msg
      dsimp only
      split_ifs
      · exact hquiet rfl rfl rfl
      · exact hquiet rfl rfl rfl
      · exact hdispatch rfl _
      · exact hdispatch rfl _
  | invalid => exact fun _ => hdispatch rfl _
  | eof => exact fun _ => hbreak rfl _
  | refuse why => exact fun _ => hquiet rfl rfl rfl
  | switch => exact deref_cases trivial fun r hr => hquiet rfl rfl rfl
  | find => exact fun _ => hquiet rfl rfl rfl
  | add => exact deref_cases trivial fun r hr => hquiet rfl rfl rfl
  | joined => exact fun _ => hquiet rfl rfl rfl
  | leave => exact deref_cases trivial fun r hr => hquiet rfl rfl rfl
  | left => exact deref_cases trivial fun r hr _ => hquiet rfl rfl rfl
  | quit => exact fun _ => hbreak rfl _
  | broadcast => exact deref_cases trivial fun r hr => ⟨hpc, hr, rfl, rfl, fun _ => rfl⟩
  | visit rest =>
      refine deref_cases trivial fun r hr => ?_
      split_ifs with hrest
      · exact ⟨hrest ▸ hpc, hr, rfl⟩
      · exact ⟨hpc, hr, rfl, rfl, fun _ => rfl⟩
  | sent => exact fun _ => hquiet rfl rfl rfl
  | exit => exact deref_cases trivial fun r hr => hquiet rfl rfl rfl

/-- Every call of {lit}`chat_with_receiver` plays its part in the broadcasts. -/
theorem chatWithReceiver_role {t : Thread} {p : ReceiverPc} (user : User)
    (hpc : t.pc = .receiver p) : (chatWithReceiver t p).Role t user := by
  have hquiet : ∀ {t' : Thread}, t'.pc.unanswered = none → t'.pc.loggedIn → t.Quiet t' :=
    fun h h' => ⟨by rw [hpc]; rfl, h, fun _ => h'⟩
  cases p with
  | receive =>
      intro ok result msg
      dsimp only
      split_ifs <;> exact hquiet rfl rfl
  | refuse why => exact fun _ => hquiet rfl rfl
  | find => exact fun _ => hquiet rfl rfl
  | add => exact deref_cases trivial fun r hr => hquiet rfl rfl
  | joined => exact fun _ => hquiet rfl rfl
  | dequeue => exact ⟨by rw [hpc]; rfl, fun m => by cases m <;> exact hquiet rfl rfl⟩
  | deliver newMsg =>
      intro ok
      dsimp only
      split_ifs <;> exact hquiet rfl rfl
  | empty => exact fun _ => hquiet rfl rfl
  | remove => exact deref_cases trivial fun r hr => hquiet rfl rfl

/-- Every call of the thread code plays its part. -/
theorem Thread.code_role (t : Thread) (user : User) (getRoomName : RoomPtr → Bytes) :
    (t.code user getRoomName).Role t user := by
  apply Thread.code_cases
  · exact trivial
  · exact fun p hpc => worker_role user hpc
  · exact fun p hpc => chatWithSender_role hpc
  · exact fun p hpc => chatWithReceiver_role user hpc

/-- Every call of a thread plays its part in the broadcasts. -/
theorem code_role (s : State) (c : ConnId) : (code s c).Role (s.threads c) (s.users c) :=
  Thread.code_role _ _ _

/-! ## The four kinds of steps -/

/-- The messages that a history of calls has dequeued. -/
def dequeues (calls : List Event) : List Message :=
  calls.filterMap fun e =>
    match e with
    | .dequeued m => m
    | _ => none

/-- What a user has been given: the messages already dequeued, then the messages
still in the queue. -/
def State.obtained (s : State) (u : ConnId) : List Message :=
  dequeues (s.chatCalls u) ++ (s.users u).mqueue

/-- The log entry of the broadcast that a thread is about to start. -/
def State.newBroadcast (s : State) (c : ConnId) (r : RoomPtr) : Broadcast :=
  let username := (s.users c).username
  let text := (s.threads c).msg.data
  { author := c, room := r, username := username, text := text
    message := (s.rooms r).newMessage username text
    members := (s.rooms r).members, rest := (s.rooms r).members }

/-- A step of thread {lit}`c` outside of broadcasts. -/
structure Elsewhere (s s' : State) (c : ConnId) : Prop where
  threads : ∀ d, d ≠ c → s'.threads d = s.threads d
  quiet : (s.threads c).Quiet (s'.threads c)
  nextRoom : s.nextRoom ≤ s'.nextRoom
  roomName : ∀ r, r < s.nextRoom → (s'.rooms r).roomName = (s.rooms r).roomName
  locked : ∀ r, r < s.nextRoom → (s.rooms r).lock ≠ none → s'.rooms r = s.rooms r
  username : ∀ d, (s.threads d).pc.loggedIn → (s'.users d).username = (s.users d).username
  broadcasts : s'.broadcasts = s.broadcasts
  obtained : ∀ u, (s.threads u).pc.loggedIn → s'.obtained u = s.obtained u
  nothing : ∀ u, s.obtained u = [] → s'.obtained u = []

/-- Thread {lit}`c` takes the lock of {lit}`r` for a broadcast. -/
structure Locks (s s' : State) (c : ConnId) (r : RoomPtr) : Prop where
  pc : (s.threads c).pc = .sender .broadcast
  room : (s.threads c).room = some r
  free : (s.rooms r).lock = none
  threads : s'.threads =
    update s.threads c ((s.threads c).goto (.sender (.visit (s.rooms r).members)))
  rooms : s'.rooms = update s.rooms r { s.rooms r with lock := some c }
  nextRoom : s'.nextRoom = s.nextRoom
  users : s'.users = s.users
  broadcasts : s'.broadcasts = s.broadcasts ++ [s.newBroadcast c r]
  obtained : s'.obtained = s.obtained

/-- The broadcast of thread {lit}`c` in {lit}`r` visits member {lit}`u`. -/
structure Visits (s s' : State) (c : ConnId) (r : RoomPtr) (rest : Finset ConnId)
    (u : ConnId) : Prop where
  pc : (s.threads c).pc = .sender (.visit rest)
  room : (s.threads c).room = some r
  mem : u ∈ rest
  threads : s'.threads =
    update s.threads c ((s.threads c).goto (.sender (.visit (rest.erase u))))
  rooms : s'.rooms = s.rooms
  nextRoom : s'.nextRoom = s.nextRoom
  username : ∀ d, (s'.users d).username = (s.users d).username
  broadcasts : s'.broadcasts = s.broadcasts.map (Broadcast.visit c u)
  others : ∀ d, d ≠ u → s'.obtained d = s.obtained d
  obtained : s'.obtained u = s.obtained u ++
    if (s.users u).username ≠ (s.users c).username then
      [(s.rooms r).newMessage (s.users c).username (s.threads c).msg.data]
    else []

/-- The broadcast of thread {lit}`c` releases the lock of {lit}`r`. -/
structure Unlocks (s s' : State) (c : ConnId) (r : RoomPtr) : Prop where
  pc : (s.threads c).pc = .sender (.visit ∅)
  room : (s.threads c).room = some r
  threads : s'.threads = update s.threads c ((s.threads c).goto (.sender .sent))
  rooms : s'.rooms = update s.rooms r { s.rooms r with lock := none }
  nextRoom : s'.nextRoom = s.nextRoom
  users : s'.users = s.users
  broadcasts : s'.broadcasts = s.broadcasts
  obtained : s'.obtained = s.obtained

/-- What has been dequeued after one more call. -/
theorem dequeues_append (calls : List Event) (e : Event) :
    dequeues (calls ++ [e]) = dequeues calls ++ dequeues [e] := by
  simp [dequeues]

/-- A call that dequeues nothing gives nothing to anybody. -/
theorem State.obtained_resume {s : State} {c : ConnId} {t : Thread} {e : Event}
    (he : dequeues [e] = []) (u : ConnId) : (s.resume c t e).obtained u = s.obtained u := by
  simp only [State.obtained, State.resume_users]
  by_cases hworker : ∃ p, (s.threads c).pc = .worker p
  · rcases hworker with ⟨p, hpc⟩
    rw [State.chatCalls_resume_worker t e hpc]
  · rw [State.chatCalls_resume t e (not_exists.mp hworker)]
    by_cases huc : u = c
    · subst u
      simp [dequeues_append, he]
    · simp [huc]

/-- A room that is locked is not the free one that is replaced. -/
private theorem room_update {rooms : RoomPtr → Room} {r q : RoomPtr} {room : Room}
    (hroom : (rooms r).lock = none) (hlock : (rooms q).lock ≠ none) :
    update rooms r room q = rooms q := by
  by_cases hq : q = r
  · subst q
    exact absurd hroom hlock
  · exact update_of_ne hq _ _

/-- A call without effect on rooms, names, broadcasts and queues. -/
private theorem elsewhere_of_same {s s₁ : State} {c : ConnId} {t : Thread} {e : Event}
    (ht : (s.threads c).Quiet t) (he : dequeues [e] = [])
    (hthreads : s₁.threads = s.threads) (hnext : s₁.nextRoom = s.nextRoom)
    (hname : ∀ r, (s₁.rooms r).roomName = (s.rooms r).roomName)
    (hlocked : ∀ r, (s.rooms r).lock ≠ none → s₁.rooms r = s.rooms r)
    (husers : s₁.users = s.users) (hbroadcasts : s₁.broadcasts = s.broadcasts)
    (hchat : s₁.chatCalls = s.chatCalls) : Elsewhere s (s₁.resume c t e) c := by
  have hobtained : ∀ u, (s₁.resume c t e).obtained u = s.obtained u := by
    intro u
    rw [State.obtained_resume he, State.obtained, State.obtained, husers, hchat]
  exact
    { threads := fun d hd => by simp [hd, hthreads]
      quiet := by simpa using ht
      nextRoom := by simp [hnext]
      roomName := fun r _ => hname r
      locked := fun r _ => hlocked r
      username := fun d _ => by simp [husers]
      broadcasts := hbroadcasts
      obtained := fun u _ => hobtained u
      nothing := fun u hu => by rw [hobtained, hu] }

/-- The four kinds of steps, one case each. -/
inductive StepKind (s s' : State) : Prop
  | elsewhere (c : ConnId) (h : Elsewhere s s' c)
  | locks (c : ConnId) (r : RoomPtr) (h : Locks s s' c r)
  | visits (c : ConnId) (r : RoomPtr) (rest : Finset ConnId) (u : ConnId)
      (h : Visits s s' c r rest u)
  | unlocks (c : ConnId) (r : RoomPtr) (h : Unlocks s s' c r)

/-- The creation of a user happens elsewhere. -/
theorem Performed.kind_newUser {s : State} {c : ConnId} {name : Bytes} {k : Thread}
    (hpc : (s.threads c).pc.loggedIn = false) (hk : (s.threads c).Quiet k) :
    Elsewhere s (({ s with users := update s.users c { username := name } } : State).resume c
      k (.created name)) c where
  threads d hd := by simp [hd]
  quiet := by simpa using hk
  nextRoom := le_rfl
  roomName _ _ := rfl
  locked _ _ _ := rfl
  username d hd := by
    have hdc : d ≠ c := by
      rintro rfl
      simp [hpc] at hd
    simp [hdc]
  broadcasts := rfl
  obtained u hu := by
    have huc : u ≠ c := by
      rintro rfl
      simp [hpc] at hu
    rw [State.obtained_resume rfl]
    simp [State.obtained, huc]
  nothing u hu := by
    rw [State.obtained_resume rfl]
    by_cases huc : u = c
    · subst u
      simp only [State.obtained, List.append_eq_nil_iff] at hu
      simp [State.obtained, hu.1]
    · simpa [State.obtained, huc] using hu

/-- The creation of a room happens elsewhere. -/
theorem Performed.kind_newRoom {s : State} {c : ConnId} {name : Bytes} {t : Thread}
    {e : Event} (ht : (s.threads c).Quiet t) (he : dequeues [e] = []) :
    Elsewhere s ((s.newRoom name).resume c t e) c := by
  have hold : ∀ r, r < s.nextRoom → (s.newRoom name).rooms r = s.rooms r := fun r hr =>
    update_of_ne (Nat.ne_of_lt hr) _ _
  have hobtained : ∀ u, ((s.newRoom name).resume c t e).obtained u = s.obtained u :=
    fun u => by rw [State.obtained_resume he]; rfl
  exact
    { threads := fun d hd => by simp [hd]
      quiet := by simpa using ht
      nextRoom := Nat.le_succ _
      roomName := fun r hr => by simp [hold r hr]
      locked := fun r hr _ => by simp [hold r hr]
      username := fun _ _ => rfl
      broadcasts := rfl
      obtained := fun u _ => hobtained u
      nothing := fun u hu => by rw [hobtained, hu] }

/-- The visit of a member is a step of the broadcast. -/
theorem Performed.kind_visited {s : State} {c : ConnId} {r : RoomPtr} {rest : Finset ConnId}
    {u : ConnId} {t : Thread} (hpc : (s.threads c).pc = .sender (.visit rest))
    (hroom : (s.threads c).room = some r) (hu : u ∈ rest)
    (ht : t = (s.threads c).goto (.sender (.visit (rest.erase u)))) :
    Visits s (({ s with
      users := update s.users u
        (if (s.users u).username ≠ (s.users c).username then
          (s.users u).enqueue
            ((s.rooms r).newMessage (s.users c).username (s.threads c).msg.data)
        else s.users u)
      broadcasts := s.broadcasts.map (Broadcast.visit c u) } : State).resume c t
        (.visited u)) c r rest u where
  pc := hpc
  room := hroom
  mem := hu
  threads := by simp [ht]
  rooms := rfl
  nextRoom := rfl
  username d := by
    by_cases hdu : d = u
    · subst d
      simp only [State.resume_users, update_self]
      split <;> rfl
    · simp [hdu]
  broadcasts := rfl
  others d hd := by
    rw [State.obtained_resume rfl]
    simp [State.obtained, hd]
  obtained := by
    rw [State.obtained_resume rfl]
    simp only [State.obtained, update_self, List.append_assoc]
    split <;> simp [User.enqueue]

/-- A dequeue happens elsewhere, and takes the head of the queue. -/
theorem Performed.kind_dequeued {s : State} {c : ConnId} {t : Thread} {m : Message}
    {mqueue : List Message} (hpc : (s.threads c).pc.loggedIn)
    (ht : (s.threads c).Quiet t) (hqueue : (s.users c).mqueue = m :: mqueue) :
    Elsewhere s (({ s with
      users := update s.users c { s.users c with mqueue := mqueue } } : State).resume c t
        (.dequeued (some m))) c := by
  have hworker : ∀ p, (s.threads c).pc ≠ .worker p := by
    intro p hp
    simp [hp, Pc.loggedIn] at hpc
  have hobtained : ∀ u, (({ s with
      users := update s.users c { s.users c with mqueue := mqueue } } : State).resume c t
        (.dequeued (some m))).obtained u = s.obtained u := by
    intro u
    simp only [State.obtained, State.resume_users]
    rw [State.chatCalls_resume _ _ (by exact hworker)]
    by_cases huc : u = c
    · subst u
      simp [dequeues, hqueue]
    · simp [huc]
  exact
    { threads := fun d hd => by simp [hd]
      quiet := by simpa using ht
      nextRoom := le_rfl
      roomName := fun _ _ => rfl
      locked := fun _ _ _ => rfl
      username := fun d _ => by
        by_cases hdc : d = c
        · subst d
          simp
        · simp [hdc]
      broadcasts := rfl
      obtained := fun u _ => hobtained u
      nothing := fun u hu => by rw [hobtained, hu] }

/-- A performed call is a step of one of the four kinds. -/
theorem Performed.kind {s s' : State} {c : ConnId} {op : Op} (h : Performed s c op s')
    (hop : op.Role (s.threads c) (s.users c)) : StepKind s s' := by
  have hname : ∀ {r : RoomPtr} {room : Room}, room.roomName = (s.rooms r).roomName →
      ∀ q, (update s.rooms r room q).roomName = (s.rooms q).roomName :=
    fun h => roomName_update h
  cases h with
  | receive msg k =>
      exact .elsewhere c (elsewhere_of_same (hop _ _ _) rfl rfl rfl (fun _ => rfl)
        (fun _ _ => rfl) rfl rfl rfl)
  | send msg k writes =>
      exact .elsewhere c (elsewhere_of_same (hop _) rfl rfl rfl (fun _ => rfl)
        (fun _ _ => rfl) rfl rfl rfl)
  | newUser username k => exact .elsewhere c (Performed.kind_newUser hop.1 hop.2)
  | found name k r hroom =>
      exact .elsewhere c (elsewhere_of_same (hop _) rfl rfl rfl (fun _ => rfl)
        (fun _ _ => rfl) rfl rfl rfl)
  | newRoom name k hroom => exact .elsewhere c (Performed.kind_newRoom (hop _) rfl)
  | added r k hlock =>
      exact .elsewhere c (elsewhere_of_same hop rfl rfl rfl (hname (by simp))
        (fun _ => room_update hlock) rfl rfl rfl)
  | removed r k hlock =>
      exact .elsewhere c (elsewhere_of_same hop rfl rfl rfl (hname (by simp))
        (fun _ => room_update hlock) rfl rfl rfl)
  | locked r name text k hlock =>
      rcases hop with ⟨hpc, hroom, rfl, rfl, hk⟩
      exact .locks c r
        { pc := hpc, room := hroom, free := hlock
          threads := by simp [hk]
          rooms := rfl, nextRoom := rfl, users := rfl, broadcasts := rfl
          obtained := funext fun u => State.obtained_resume rfl u }
  | visited r name text rest k u hu =>
      rcases hop with ⟨hpc, hroom, rfl, rfl, hk⟩
      exact .visits c r rest u (Performed.kind_visited hpc hroom hu (hk u))
  | unlocked r k =>
      rcases hop with ⟨hpc, hroom, rfl⟩
      exact .unlocks c r
        { pc := hpc, room := hroom, threads := rfl, rooms := rfl, nextRoom := rfl
          users := rfl, broadcasts := rfl
          obtained := funext fun u => State.obtained_resume rfl u }
  | timedOut k =>
      exact .elsewhere c (elsewhere_of_same (hop.2 _) rfl rfl rfl (fun _ => rfl)
        (fun _ _ => rfl) rfl rfl rfl)
  | dequeued k m mqueue hqueue =>
      exact .elsewhere c (Performed.kind_dequeued hop.1 (hop.2 _) hqueue)

/-- Every step of the server is of one of the four kinds. -/
theorem step_kind {s s' : State} {a : Action} (h : server.step s a = some s') :
    StepKind s s' := by
  rcases step_cases h with ⟨c, fdbuf, habsent, rfl⟩ | ⟨c, env, -, hperf⟩
  · refine .elsewhere c
      { threads := fun d hd => by simp [hd]
        quiet := ⟨by rw [habsent]; rfl, by simp [Pc.unanswered], by simp [habsent, Pc.loggedIn]⟩
        nextRoom := le_rfl
        roomName := fun _ _ => rfl
        locked := fun _ _ _ => rfl
        username := fun _ _ => rfl
        broadcasts := rfl
        obtained := fun _ _ => rfl
        nothing := fun _ hu => hu }
  · exact hperf.kind (code_role _ _)

/-! ## The invariant of the log -/

/-- {lit}`b` is the last broadcast of its author, and the earlier ones of this
author are finished. -/
def Latest (log : List Broadcast) (b : Broadcast) : Prop :=
  ∃ earlier later, log = earlier ++ b :: later ∧
    (∀ b' ∈ earlier, b'.author = b.author → b'.rest = ∅) ∧
    ∀ b' ∈ later, b'.author ≠ b.author

/-- The latest broadcast of an author is in the log. -/
theorem Latest.mem {log : List Broadcast} {b : Broadcast} (h : Latest log b) : b ∈ log := by
  rcases h with ⟨earlier, later, rfl, -, -⟩
  simp

/-- The latest broadcast of an author stays it when another one begins to broadcast. -/
theorem Latest.append_other {log : List Broadcast} {b b' : Broadcast} (h : Latest log b)
    (hne : b'.author ≠ b.author) : Latest (log ++ [b']) b := by
  rcases h with ⟨earlier, later, rfl, hearlier, hlater⟩
  refine ⟨earlier, later ++ [b'], by simp, hearlier, fun d hd => ?_⟩
  rcases List.mem_append.mp hd with hd | hd
  · exact hlater d hd
  · rw [List.mem_singleton.mp hd]
    exact hne

/-- A visit leaves the author alone. -/
@[simp]
theorem Broadcast.visit_author (c u : ConnId) (b : Broadcast) :
    (b.visit c u).author = b.author := by
  unfold visit
  split <;> rfl

/-- A visit leaves the room alone. -/
@[simp]
theorem Broadcast.visit_room (c u : ConnId) (b : Broadcast) :
    (b.visit c u).room = b.room := by
  unfold visit
  split <;> rfl

/-- A visit leaves the name of the author alone. -/
@[simp]
theorem Broadcast.visit_username (c u : ConnId) (b : Broadcast) :
    (b.visit c u).username = b.username := by
  unfold visit
  split <;> rfl

/-- A visit leaves the text alone. -/
@[simp]
theorem Broadcast.visit_text (c u : ConnId) (b : Broadcast) :
    (b.visit c u).text = b.text := by
  unfold visit
  split <;> rfl

/-- A visit leaves the message alone. -/
@[simp]
theorem Broadcast.visit_message (c u : ConnId) (b : Broadcast) :
    (b.visit c u).message = b.message := by
  unfold visit
  split <;> rfl

/-- A visit leaves the members alone. -/
@[simp]
theorem Broadcast.visit_members (c u : ConnId) (b : Broadcast) :
    (b.visit c u).members = b.members := by
  unfold visit
  split <;> rfl

/-- A visit leaves the broadcasts of other authors alone. -/
theorem Broadcast.visit_of_ne {c u : ConnId} {b : Broadcast} (h : b.author ≠ c) :
    b.visit c u = b :=
  if_neg h

/-- A visit leaves the broadcasts that have ended alone. -/
theorem Broadcast.visit_of_rest {c u : ConnId} {b : Broadcast} (h : b.rest = ∅) :
    b.visit c u = b := by
  rcases b with ⟨author, room, username, text, message, members, rest⟩
  subst h
  simp [visit]

/-- A visit of the author takes the member from those still to be visited. -/
theorem Broadcast.rest_visit (c u : ConnId) (b : Broadcast) :
    (b.visit c u).rest = if b.author = c then b.rest.erase u else b.rest := by
  unfold visit
  split <;> rfl

/-- No visit adds a member. -/
theorem Broadcast.rest_visit_subset (c u : ConnId) (b : Broadcast) :
    (b.visit c u).rest ⊆ b.rest := by
  rw [rest_visit]
  split
  · exact Finset.erase_subset u b.rest
  · exact Finset.Subset.refl _

/-- Of the log, a visit changes the last broadcast of its author only. -/
theorem Latest.map_visit_eq {earlier later : List Broadcast} {b : Broadcast}
    (hearlier : ∀ b' ∈ earlier, b'.author = b.author → b'.rest = ∅)
    (hlater : ∀ b' ∈ later, b'.author ≠ b.author) (u : ConnId) :
    (earlier ++ b :: later).map (Broadcast.visit b.author u) =
      earlier ++ b.visit b.author u :: later := by
  have hkeep : ∀ b' ∈ earlier, b'.visit b.author u = b' := by
    intro b' hb'
    by_cases hauthor : b'.author = b.author
    · exact Broadcast.visit_of_rest (hearlier b' hb' hauthor)
    · exact Broadcast.visit_of_ne hauthor
  rw [List.map_append, List.map_cons, List.map_congr_left hkeep,
    List.map_congr_left fun b' hb' => Broadcast.visit_of_ne (hlater b' hb')]
  simp

/-- The latest broadcast of an author stays it when a member is visited. -/
theorem Latest.map_visit {log : List Broadcast} {b : Broadcast} (h : Latest log b)
    (c u : ConnId) : Latest (log.map (Broadcast.visit c u)) (b.visit c u) := by
  rcases h with ⟨earlier, later, rfl, hearlier, hlater⟩
  refine ⟨_, _, List.map_append, fun b' hb' hauthor => ?_, fun b' hb' => ?_⟩
  · rcases List.mem_map.mp hb' with ⟨b'', hb'', rfl⟩
    have hnil : b''.rest = ∅ := hearlier b'' hb'' (by simpa using hauthor)
    rwa [Broadcast.visit_of_rest hnil]
  · rcases List.mem_map.mp hb' with ⟨b'', hb'', rfl⟩
    simpa using hlater b'' hb''

/-- The entry describes the request that its author is serving. -/
structure Broadcast.Serves (b : Broadcast) (t : Thread) (user : User)
    (rest : Finset ConnId) : Prop where
  rest : b.rest = rest
  room : t.room = some b.room
  username : b.username = user.username
  text : b.text = t.msg.data

/-- The invariant of the log.  A thread that visits members holds the lock of its
room; from the lock to the reply the last broadcast of the thread is the one it
serves; an unfinished broadcast is being served, and its room has kept the
members; and nobody who waits for a broadcast is a member in a later one. -/
structure BroadcastLog (s : State) : Prop where
  held : ∀ c rest r, (s.threads c).pc.visiting = some rest → (s.threads c).room = some r →
    (s.rooms r).lock = some c
  served : ∀ c rest, (s.threads c).pc.unanswered = some rest →
    ∃ b, Latest s.broadcasts b ∧ b.author = c ∧ b.Serves (s.threads c) (s.users c) rest
  unfinished : ∀ b ∈ s.broadcasts, b.rest ≠ ∅ →
    (s.threads b.author).pc.visiting = some b.rest ∧
      (s.threads b.author).room = some b.room ∧ b.members = (s.rooms b.room).members
  subset : ∀ b ∈ s.broadcasts, b.rest ⊆ b.members
  message : ∀ b ∈ s.broadcasts, b.room < s.nextRoom ∧
    b.message = (s.rooms b.room).newMessage b.username b.text
  loggedIn : ∀ b ∈ s.broadcasts, ∀ u ∈ b.members, (s.threads u).pc.loggedIn
  ordered : s.broadcasts.Pairwise fun b b' => ∀ u ∈ b.rest, u ∉ b'.members

/-- The message of a broadcast only depends on the name of the room. -/
theorem Room.newMessage_congr {room room' : Room} (h : room'.roomName = room.roomName)
    (name text : Bytes) : room'.newMessage name text = room.newMessage name text := by
  simp [newMessage, h]

/-- The invariant is kept by a step that happens elsewhere. -/
theorem BroadcastLog.elsewhere {s s' : State} {c : ConnId} (hlog : BroadcastLog s)
    (hlt : ∀ d r, (s.threads d).room = some r → r < s.nextRoom) (h : Elsewhere s s' c) :
    BroadcastLog s' := by
  have hother : ∀ d rest, (s'.threads d).pc.unanswered = some rest →
      s'.threads d = s.threads d := by
    intro d rest hd
    refine h.threads d ?_
    rintro rfl
    simp [h.quiet.unanswered] at hd
  refine ⟨?_, ?_, ?_, ?_, ?_, ?_, ?_⟩
  · intro d rest r hd hroom
    have hsame := hother d rest (Pc.unanswered_of_visiting hd)
    rw [hsame] at hd hroom
    have hlock := hlog.held d rest r hd hroom
    rw [h.locked r (hlt d r hroom) (by simp [hlock]), hlock]
  · intro d rest hd
    have hsame := hother d rest hd
    rw [hsame] at hd ⊢
    rcases hlog.served d rest hd with ⟨b, hlatest, hauthor, hserves⟩
    rw [h.broadcasts]
    exact ⟨b, hlatest, hauthor, hserves.rest, hserves.room,
      hserves.username.trans (h.username d (Pc.loggedIn_of_unanswered hd)).symm,
      hserves.text⟩
  · intro b hb hrest
    rw [h.broadcasts] at hb
    rcases hlog.unfinished b hb hrest with ⟨hvisiting, hroom, hmembers⟩
    have hne : b.author ≠ c := by
      rintro heq
      simp [heq, h.quiet.visiting] at hvisiting
    have hlock := hlog.held _ _ _ hvisiting hroom
    rw [h.threads _ hne, h.locked _ (hlt _ _ hroom) (by simp [hlock])]
    exact ⟨hvisiting, hroom, hmembers⟩
  · intro b hb
    rw [h.broadcasts] at hb
    exact hlog.subset b hb
  · intro b hb
    rw [h.broadcasts] at hb
    rcases hlog.message b hb with ⟨hlt, hmessage⟩
    exact ⟨hlt.trans_le h.nextRoom,
      hmessage.trans (Room.newMessage_congr (h.roomName _ hlt) _ _).symm⟩
  · intro b hb u hu
    rw [h.broadcasts] at hb
    have hin := hlog.loggedIn b hb u hu
    by_cases huc : u = c
    · subst u
      exact h.quiet.loggedIn hin
    · rwa [h.threads u huc]
  · rw [h.broadcasts]
    exact hlog.ordered

/-- The invariant is kept when a broadcast takes the lock. -/
theorem BroadcastLog.locks {s s' : State} {c : ConnId} {r : RoomPtr} (hlog : BroadcastLog s)
    (hmem : Memberships s) (hlt : r < s.nextRoom) (h : Locks s s' c r) :
    BroadcastLog s' := by
  have hidle : ∀ b ∈ s.broadcasts, b.author = c → b.rest = ∅ := by
    intro b hb hauthor
    by_contra hrest
    have hvisiting := (hlog.unfinished b hb hrest).1
    rw [hauthor, h.pc] at hvisiting
    cases hvisiting
  have hname : ∀ q, (s'.rooms q).roomName = (s.rooms q).roomName := by
    rw [h.rooms]
    exact roomName_update rfl
  have hmembers : ∀ q, (s'.rooms q).members = (s.rooms q).members := by
    rw [h.rooms]
    exact members_update rfl
  have hsplit : ∀ {b : Broadcast}, b ∈ s'.broadcasts →
      b ∈ s.broadcasts ∨ b = s.newBroadcast c r := by
    intro b hb
    simpa [h.broadcasts] using hb
  refine ⟨?_, ?_, ?_, ?_, ?_, ?_, ?_⟩
  · intro d rest q hd hroom
    by_cases hdc : d = c
    · subst d
      have hq : r = q := by simpa [h.threads, Thread.goto, h.room] using hroom
      simp [h.rooms, hq]
    · rw [h.threads, update_of_ne hdc] at hd hroom
      have hlock := hlog.held d rest q hd hroom
      rw [h.rooms, room_update h.free (by simp [hlock]), hlock]
  · intro d rest hd
    rw [h.broadcasts, h.users]
    by_cases hdc : d = c
    · subst d
      have hrest : (s.rooms r).members = rest := by
        simpa [h.threads, Thread.goto, Pc.unanswered] using hd
      refine ⟨s.newBroadcast c r, ⟨s.broadcasts, [], rfl, hidle, by simp⟩, rfl, ?_⟩
      exact ⟨hrest, by simp [h.threads, Thread.goto, h.room, State.newBroadcast], rfl,
        by simp [h.threads, Thread.goto, State.newBroadcast]⟩
    · rw [h.threads, update_of_ne hdc] at hd ⊢
      rcases hlog.served d rest hd with ⟨b, hlatest, hauthor, hserves⟩
      refine ⟨b, hlatest.append_other ?_, hauthor, hserves⟩
      rw [hauthor]
      exact Ne.symm hdc
  · intro b hb hrest
    rw [hmembers]
    rcases hsplit hb with hb | rfl
    · rcases hlog.unfinished b hb hrest with ⟨hvisiting, hroom, hmembers'⟩
      have hne : b.author ≠ c := fun hauthor => hrest (hidle b hb hauthor)
      rw [h.threads, update_of_ne hne]
      exact ⟨hvisiting, hroom, hmembers'⟩
    · simp [h.threads, State.newBroadcast, Thread.goto, Pc.visiting, h.room]
  · intro b hb
    rcases hsplit hb with hb | rfl
    · exact hlog.subset b hb
    · exact Finset.Subset.refl _
  · intro b hb
    rw [h.nextRoom]
    rcases hsplit hb with hb | rfl
    · rcases hlog.message b hb with ⟨hlt, hmessage⟩
      exact ⟨hlt, hmessage.trans (Room.newMessage_congr (hname _) _ _).symm⟩
    · exact ⟨hlt, (Room.newMessage_congr (hname _) _ _).symm⟩
  · intro b hb u hu
    have hin : (s.threads u).pc.loggedIn := by
      rcases hsplit hb with hb | rfl
      · exact hlog.loggedIn b hb u hu
      · exact Thread.loggedIn_of_memberOf ((hmem u r).mp hu)
    rw [h.threads]
    by_cases huc : u = c
    · subst u
      simp [Thread.goto, Pc.loggedIn]
    · rwa [update_of_ne huc]
  · rw [h.broadcasts, List.pairwise_append]
    refine ⟨hlog.ordered, List.pairwise_singleton _ _, ?_⟩
    intro b hb b' hb' u hu hu'
    -- the member that `b` has still to visit is in two rooms, one locked and one free
    rw [List.mem_singleton.mp hb'] at hu'
    rcases hlog.unfinished b hb (Finset.ne_empty_of_mem hu) with ⟨hvisiting, hroom, hmembers'⟩
    have hlock := hlog.held _ _ _ hvisiting hroom
    have hin : u ∈ (s.rooms b.room).members := hmembers' ▸ hlog.subset b hb hu
    have heq : b.room = r :=
      Option.some.inj (((hmem u _).mp hin).symm.trans ((hmem u r).mp hu'))
    rw [heq, h.free] at hlock
    cases hlock

/-- The invariant is kept when a member is visited. -/
theorem BroadcastLog.visits {s s' : State} {c : ConnId} {r : RoomPtr} {rest : Finset ConnId}
    {u : ConnId} (hlog : BroadcastLog s) (h : Visits s s' c r rest u) : BroadcastLog s' := by
  have hpc : (s'.threads c).pc = .sender (.visit (rest.erase u)) := by
    simp [h.threads, Thread.goto]
  have hsplit : ∀ {b : Broadcast}, b ∈ s'.broadcasts →
      ∃ b₀ ∈ s.broadcasts, b = b₀.visit c u := by
    intro b hb
    rw [h.broadcasts] at hb
    rcases List.mem_map.mp hb with ⟨b₀, hb₀, rfl⟩
    exact ⟨b₀, hb₀, rfl⟩
  have hroomc : ∀ d, (s'.threads d).room = (s.threads d).room := by
    intro d
    rw [h.threads]
    by_cases hdc : d = c
    · subst d
      simp [Thread.goto]
    · rw [update_of_ne hdc]
  refine ⟨?_, ?_, ?_, ?_, ?_, ?_, ?_⟩
  · intro d rest' q hd hroom
    rw [hroomc] at hroom
    rw [h.rooms]
    by_cases hdc : d = c
    · subst d
      exact hlog.held c rest q (by rw [h.pc]; rfl) hroom
    · rw [h.threads, update_of_ne hdc] at hd
      exact hlog.held d rest' q hd hroom
  · intro d rest' hd
    rw [h.broadcasts]
    by_cases hdc : d = c
    · subst d
      rcases hlog.served c rest (by rw [h.pc]; rfl) with ⟨b, hlatest, hauthor, hserves⟩
      have hrest : rest.erase u = rest' := by simpa [hpc, Pc.unanswered] using hd
      refine ⟨b.visit c u, hlatest.map_visit c u, by simpa using hauthor, ?_⟩
      exact
        { rest := by rw [Broadcast.rest_visit, if_pos hauthor, hserves.rest, hrest]
          room := by rw [hroomc, Broadcast.visit_room, hserves.room]
          username := by rw [h.username, Broadcast.visit_username, hserves.username]
          text := by simp [h.threads, Thread.goto, hserves.text] }
    · rw [h.threads, update_of_ne hdc] at hd ⊢
      rcases hlog.served d rest' hd with ⟨b, hlatest, hauthor, hserves⟩
      have hkeep : b.visit c u = b := Broadcast.visit_of_ne (by rw [hauthor]; exact hdc)
      exact ⟨b, hkeep ▸ hlatest.map_visit c u, hauthor, hserves.rest, hserves.room,
        hserves.username.trans (h.username d).symm, hserves.text⟩
  · intro b hb hrest
    rcases hsplit hb with ⟨b₀, hb₀, rfl⟩
    have hrest₀ : b₀.rest ≠ ∅ := by
      intro hnil
      rw [Broadcast.visit_of_rest hnil] at hrest
      exact hrest hnil
    rcases hlog.unfinished b₀ hb₀ hrest₀ with ⟨hvisiting, hroom, hmembers⟩
    rw [h.rooms, hroomc]
    simp only [Broadcast.visit_author, Broadcast.visit_room, Broadcast.visit_members]
    refine ⟨?_, hroom, hmembers⟩
    rw [Broadcast.rest_visit]
    by_cases hauthor : b₀.author = c
    · rw [hauthor, h.pc] at hvisiting
      have hrest' : rest = b₀.rest := Option.some.inj hvisiting
      rw [if_pos hauthor, hauthor, hpc, ← hrest']
      rfl
    · rw [if_neg hauthor, h.threads, update_of_ne hauthor]
      exact hvisiting
  · intro b hb
    rcases hsplit hb with ⟨b₀, hb₀, rfl⟩
    rw [Broadcast.visit_members]
    exact (Broadcast.rest_visit_subset c u b₀).trans (hlog.subset b₀ hb₀)
  · intro b hb
    rcases hsplit hb with ⟨b₀, hb₀, rfl⟩
    simpa [h.nextRoom, h.rooms] using hlog.message b₀ hb₀
  · intro b hb v hv
    rcases hsplit hb with ⟨b₀, hb₀, rfl⟩
    rw [Broadcast.visit_members] at hv
    have hin := hlog.loggedIn b₀ hb₀ v hv
    by_cases hvc : v = c
    · rw [hvc, hpc]
      rfl
    · rwa [h.threads, update_of_ne hvc]
  · rw [h.broadcasts, List.pairwise_map]
    refine hlog.ordered.imp fun hab v hv => ?_
    rw [Broadcast.visit_members]
    exact hab v (Broadcast.rest_visit_subset c u _ hv)

/-- The invariant is kept when the lock is released. -/
theorem BroadcastLog.unlocks {s s' : State} {c : ConnId} {r : RoomPtr}
    (hlog : BroadcastLog s) (h : Unlocks s s' c r) : BroadcastLog s' := by
  have hpc : (s'.threads c).pc = .sender .sent := by simp [h.threads, Thread.goto]
  have hheld : (s.rooms r).lock = some c := hlog.held c ∅ r (by rw [h.pc]; rfl) h.room
  have hmembers : ∀ q, (s'.rooms q).members = (s.rooms q).members := by
    rw [h.rooms]
    exact members_update rfl
  have hname : ∀ q, (s'.rooms q).roomName = (s.rooms q).roomName := by
    rw [h.rooms]
    exact roomName_update rfl
  refine ⟨?_, ?_, ?_, ?_, ?_, ?_, ?_⟩
  · intro d rest q hd hroom
    have hdc : d ≠ c := by
      rintro rfl
      simp [hpc, Pc.visiting] at hd
    rw [h.threads, update_of_ne hdc] at hd hroom
    have hlock := hlog.held d rest q hd hroom
    have hqr : q ≠ r := by
      rintro rfl
      exact hdc (Option.some.inj (hlock.symm.trans hheld))
    rw [h.rooms, update_of_ne hqr, hlock]
  · intro d rest hd
    rw [h.broadcasts, h.users]
    by_cases hdc : d = c
    · subst d
      rcases hlog.served c ∅ (by rw [h.pc]; rfl) with ⟨b, hlatest, hauthor, hserves⟩
      have hrest : ∅ = rest := by simpa [hpc, Pc.unanswered] using hd
      exact ⟨b, hlatest, hauthor, hserves.rest.trans hrest,
        by simp [h.threads, Thread.goto, hserves.room], hserves.username,
        by simp [h.threads, Thread.goto, hserves.text]⟩
    · rw [h.threads, update_of_ne hdc] at hd ⊢
      exact hlog.served d rest hd
  · intro b hb hrest
    rw [h.broadcasts] at hb
    rcases hlog.unfinished b hb hrest with ⟨hvisiting, hroom, hmembers'⟩
    have hne : b.author ≠ c := by
      intro hauthor
      rw [hauthor, h.pc] at hvisiting
      exact hrest (Option.some.inj hvisiting).symm
    rw [h.threads, update_of_ne hne, hmembers]
    exact ⟨hvisiting, hroom, hmembers'⟩
  · rw [h.broadcasts]
    exact hlog.subset
  · intro b hb
    rw [h.broadcasts] at hb
    rw [h.nextRoom, Room.newMessage_congr (hname _)]
    exact hlog.message b hb
  · intro b hb u hu
    rw [h.broadcasts] at hb
    have hin := hlog.loggedIn b hb u hu
    by_cases huc : u = c
    · rw [huc, hpc]
      rfl
    · rwa [h.threads, update_of_ne huc]
  · rw [h.broadcasts]
    exact hlog.ordered

/-- The invariant of the log holds in every reachable state. -/
theorem reachable_broadcastLog {s : State} (hs : server.Reachable s) : BroadcastLog s := by
  refine TransitionSystem.Reachable.invariant ?_ ?_ hs
  · refine ⟨?_, ?_, ?_, ?_, ?_, ?_, .nil⟩
    · intro c rest r h
      cases h
    · intro c rest h
      cases h
    all_goals
      intro b hb
      cases hb
  · intro s a s' hs hstep hlog
    cases step_kind hstep with
    | elsewhere c h => exact hlog.elsewhere (fun _ _ => reachable_room_lt hs) h
    | locks c r h => exact hlog.locks (reachable_memberships hs) (reachable_room_lt hs h.room) h
    | visits c r rest u h => exact hlog.visits h
    | unlocks c r h => exact hlog.unlocks h

end ChatServer
