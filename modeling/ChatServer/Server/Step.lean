import ChatServer.Lib.TransitionSystem
import ChatServer.Server.Code

/-!
# Server steps

The interleaving semantics of the server.  One step is the arrival of a
connection or one call of one thread, performed on the shared data.  The calls
{lit}`add_member`, {lit}`remove_member` and {lit}`find_or_create_room` hold
their mutex for a single step; a broadcast holds the mutex of its room from its
first step to its last, so that the members join and leave around it.

The environment of a step resolves what the program does not determine: the
results of {lit}`write`, the order in which a broadcast meets the members (the
set is ordered by address), and whether a dequeue times out.

Main results:

- Definition {lit}`perform`: the effect of each call.
- Definition {lit}`server`: the server as a transition system.
- Theorem {lit}`performed_of_perform`: everything that a performed call can do.
- Theorem {lit}`step_cases`: a step is an arrival or a performed call.
- Theorem {lit}`step_mRooms`: entries of the registry of rooms stay.

Current gaps:

- The push and the post of an enqueue, and the wait and the pop of a dequeue,
  are one step here; {lit}`Server.Mutexes` takes them apart.
-/

namespace ChatServer

open Function

/-! ## Effects of calls -/

/-- What the environment decides in one step. -/
structure Env where
  writes : List WriteResult := []
  pick : ConnId := 0
  timeout : Bool := false

/-- Continue a thread after a call and record the call in the history. -/
def State.resume (s : State) (c : ConnId) (t : Thread) (e : Event) : State :=
  { s with
    threads := update s.threads c t
    loginCalls :=
      match (s.threads c).pc with
      | .worker _ => update s.loginCalls c (s.loginCalls c ++ [e])
      | _ => s.loginCalls
    chatCalls :=
      match (s.threads c).pc with
      | .worker _ => s.chatCalls
      | _ => update s.chatCalls c (s.chatCalls c ++ [e]) }

/-- The broadcast of a thread has visited a member; finished broadcasts have
nobody left to visit. -/
def Broadcast.visit (author user : ConnId) (b : Broadcast) : Broadcast :=
  if b.author = author then { b with rest := b.rest.erase user } else b

/-- {lit}`MessageQueue::enqueue`. -/
def User.enqueue (user : User) (msg : Message) : User :=
  { user with mqueue := user.mqueue ++ [msg] }

/-- The state after {lit}`find_or_create_room` has created a room. -/
def State.newRoom (s : State) (roomName : Bytes) : State :=
  { s with
    mRooms := update s.mRooms roomName (some s.nextRoom)
    rooms := update s.rooms s.nextRoom { roomName := roomName }
    nextRoom := s.nextRoom + 1 }

/-- Replace one room. -/
def State.setRoom (s : State) (r : RoomPtr) (room : Room) : State :=
  { s with rooms := update s.rooms r room }

/-- Perform the next call of a thread; {lit}`none` when the call is blocked, or
when there is none. -/
def perform (s : State) (c : ConnId) (env : Env) : Op → Option State
  | .halt => none
  | .receive msg k =>
      let r := (s.conns c).receive msg
      some (({ s with conns := update s.conns c r.2.2 } : State).resume c
        (k r.1 r.2.2.lastResult r.2.1) (.received (s.conns c).nextLine))
  | .send msg k =>
      let r := (s.conns c).send msg env.writes
      some (({ s with conns := update s.conns c r.2.2 } : State).resume c (k r.1)
        (.sent msg r.1))
  | .newUser username k =>
      some (({ s with users := update s.users c { username := username } } : State).resume c
        k (.created username))
  | .findOrCreateRoom roomName k =>
      match s.mRooms roomName with
      | some r => some (s.resume c (k r) (.found roomName r))
      | none =>
          some ((s.newRoom roomName).resume c (k s.nextRoom) (.found roomName s.nextRoom))
  | .addMember r k =>
      if (s.rooms r).lock = none then
        some ((s.setRoom r ((s.rooms r).addMember c)).resume c k (.added r))
      else none
  | .removeMember r k =>
      if (s.rooms r).lock = none then
        some ((s.setRoom r ((s.rooms r).removeMember c)).resume c k (.removed r))
      else none
  | .lockRoom r senderUsername messageText k =>
      if (s.rooms r).lock = none then
        let b : Broadcast :=
          { author := c, room := r, username := senderUsername, text := messageText
            message := (s.rooms r).newMessage senderUsername messageText
            members := (s.rooms r).members, rest := (s.rooms r).members }
        some (({ s.setRoom r { s.rooms r with lock := some c } with
            broadcasts := s.broadcasts ++ [b] } : State).resume c
          (k (s.rooms r).members) (.locked r))
      else none
  | .visitMember r senderUsername messageText rest k =>
      if env.pick ∈ rest then
        let currUser := s.users env.pick
        let currUser' :=
          if currUser.username ≠ senderUsername then
            currUser.enqueue ((s.rooms r).newMessage senderUsername messageText)
          else currUser
        some (({ s with
            users := update s.users env.pick currUser'
            broadcasts := s.broadcasts.map (Broadcast.visit c env.pick) } : State).resume c
          (k env.pick) (.visited env.pick))
      else none
  | .unlockRoom r k =>
      some ((s.setRoom r { s.rooms r with lock := none }).resume c k (.unlocked r))
  | .dequeue k =>
      if env.timeout then some (s.resume c (k none) (.dequeued none))
      else
        match (s.users c).mqueue with
        | [] => none
        | m :: mqueue =>
            some (({ s with
                users := update s.users c { s.users c with mqueue := mqueue } } : State).resume
              c (k (some m)) (.dequeued (some m)))

/-- What a performed call can do, one case for each outcome. -/
inductive Performed (s : State) (c : ConnId) : Op → State → Prop
  | receive (msg : Message) (k : Bool → Result → Message → Thread) :
      Performed s c (.receive msg k)
        (({ s with conns := update s.conns c ((s.conns c).receive msg).2.2 } : State).resume c
          (k ((s.conns c).receive msg).1 ((s.conns c).receive msg).2.2.lastResult
            ((s.conns c).receive msg).2.1)
          (.received (s.conns c).nextLine))
  | send (msg : Message) (k : Bool → Thread) (writes : List WriteResult) :
      Performed s c (.send msg k)
        (({ s with conns := update s.conns c ((s.conns c).send msg writes).2.2 } :
          State).resume c (k ((s.conns c).send msg writes).1)
          (.sent msg ((s.conns c).send msg writes).1))
  | newUser (username : Bytes) (k : Thread) :
      Performed s c (.newUser username k)
        (({ s with users := update s.users c { username := username } } : State).resume c k
          (.created username))
  | found (roomName : Bytes) (k : RoomPtr → Thread) (r : RoomPtr)
      (hroom : s.mRooms roomName = some r) :
      Performed s c (.findOrCreateRoom roomName k) (s.resume c (k r) (.found roomName r))
  | newRoom (roomName : Bytes) (k : RoomPtr → Thread) (hroom : s.mRooms roomName = none) :
      Performed s c (.findOrCreateRoom roomName k)
        ((s.newRoom roomName).resume c (k s.nextRoom) (.found roomName s.nextRoom))
  | added (r : RoomPtr) (k : Thread) (hlock : (s.rooms r).lock = none) :
      Performed s c (.addMember r k)
        ((s.setRoom r ((s.rooms r).addMember c)).resume c k (.added r))
  | removed (r : RoomPtr) (k : Thread) (hlock : (s.rooms r).lock = none) :
      Performed s c (.removeMember r k)
        ((s.setRoom r ((s.rooms r).removeMember c)).resume c k (.removed r))
  | locked (r : RoomPtr) (name text : Bytes) (k : Finset ConnId → Thread)
      (hlock : (s.rooms r).lock = none) :
      Performed s c (.lockRoom r name text k)
        (({ s.setRoom r { s.rooms r with lock := some c } with
            broadcasts := s.broadcasts ++
              [{ author := c, room := r, username := name, text := text
                 message := (s.rooms r).newMessage name text
                 members := (s.rooms r).members, rest := (s.rooms r).members }] } :
          State).resume c (k (s.rooms r).members) (.locked r))
  | visited (r : RoomPtr) (name text : Bytes) (rest : Finset ConnId) (k : ConnId → Thread)
      (u : ConnId) (hu : u ∈ rest) :
      Performed s c (.visitMember r name text rest k)
        (({ s with
            users := update s.users u
              (if (s.users u).username ≠ name then
                (s.users u).enqueue ((s.rooms r).newMessage name text)
              else s.users u)
            broadcasts := s.broadcasts.map (Broadcast.visit c u) } : State).resume c (k u)
          (.visited u))
  | unlocked (r : RoomPtr) (k : Thread) :
      Performed s c (.unlockRoom r k)
        ((s.setRoom r { s.rooms r with lock := none }).resume c k (.unlocked r))
  | timedOut (k : Option Message → Thread) :
      Performed s c (.dequeue k) (s.resume c (k none) (.dequeued none))
  | dequeued (k : Option Message → Thread) (m : Message) (mqueue : List Message)
      (hqueue : (s.users c).mqueue = m :: mqueue) :
      Performed s c (.dequeue k)
        (({ s with users := update s.users c { s.users c with mqueue := mqueue } } :
          State).resume c (k (some m)) (.dequeued (some m)))

/-- A call that can be made is performed in one of these ways. -/
theorem performed_of_perform {s s' : State} {c : ConnId} {env : Env} {op : Op}
    (h : perform s c env op = some s') : Performed s c op s' := by
  cases op with
  | halt => cases h
  | receive msg k =>
      cases h
      exact .receive msg k
  | send msg k =>
      cases h
      exact .send msg k env.writes
  | newUser username k =>
      cases h
      exact .newUser username k
  | findOrCreateRoom roomName k =>
      simp only [perform] at h
      split at h <;> rename_i hroom <;> cases h
      · exact .found roomName k _ hroom
      · exact .newRoom roomName k hroom
  | addMember r k =>
      simp only [perform] at h
      split at h <;> rename_i hlock <;> cases h
      exact .added r k hlock
  | removeMember r k =>
      simp only [perform] at h
      split at h <;> rename_i hlock <;> cases h
      exact .removed r k hlock
  | lockRoom r name text k =>
      simp only [perform] at h
      split at h <;> rename_i hlock <;> cases h
      exact .locked r name text k hlock
  | visitMember r name text rest k =>
      simp only [perform] at h
      split at h <;> rename_i hu <;> cases h
      exact .visited r name text rest k _ hu
  | unlockRoom r k =>
      cases h
      exact .unlocked r k
  | dequeue k =>
      simp only [perform] at h
      split at h
      · cases h
        exact .timedOut k
      · split at h <;> rename_i hqueue <;> cases h
        exact .dequeued k _ _ hqueue

/-- The member that is visited has not been visited before. -/
theorem mem_of_visit {s s' : State} {c : ConnId} {env : Env} {r : RoomPtr} {name text : Bytes}
    {rest : Finset ConnId} {k : ConnId → Thread}
    (h : perform s c env (.visitMember r name text rest k) = some s') : env.pick ∈ rest := by
  simp only [perform] at h
  split at h <;> rename_i hpick
  · exact hpick
  · cases h

/-- A visit adds a message to the queue of the member, unless it has the name of the
sender. -/
theorem mqueue_of_visit {s s' : State} {c : ConnId} {env : Env} {r : RoomPtr}
    {name text : Bytes} {rest : Finset ConnId} {k : ConnId → Thread}
    (h : perform s c env (.visitMember r name text rest k) = some s') (u : ConnId) :
    (s'.users u).mqueue = (s.users u).mqueue ++
      if u = env.pick ∧ (s.users u).username ≠ name then [(s.rooms r).newMessage name text]
      else [] := by
  simp only [perform] at h
  split at h <;> cases h
  by_cases hu : u = env.pick
  · subst u
    simp only [State.resume, update_self, true_and]
    split
    · rfl
    · simp
  · simp [State.resume, hu]

/-! ## The server as a transition system -/

/-- Labels: a connection arrives, or a thread makes its next call. -/
inductive Action where
  | accept (c : ConnId) (reads : List ReadResult) (ending : StreamEnd)
  | run (c : ConnId) (env : Env := {})

/-- The state after the arrival of a connection. -/
def State.accept (s : State) (c : ConnId) (fdbuf : Rio) : State :=
  { s with
    conns := update s.conns c { fdbuf := fdbuf }
    threads := update s.threads c { pc := .worker .receive } }

/-- One step of the server. -/
def step (s : State) : Action → Option State
  | .accept c reads ending =>
      if (s.threads c).pc = .absent then
        some (s.accept c { reads := reads, ending := ending })
      else none
  | .run c env => perform s c env (code s c)

/-- The server, from its start with no connection and no room. -/
def server : TransitionSystem State Action where
  init := {}
  step := step

/-- A connection arrives for a thread that is absent. -/
theorem accept_step {s s' : State} {c : ConnId} {reads : List ReadResult} {ending : StreamEnd}
    (h : server.step s (.accept c reads ending) = some s') :
    (s.threads c).pc = .absent ∧ s' = s.accept c { reads := reads, ending := ending } := by
  simp only [server, step] at h
  split at h <;> rename_i habsent <;> cases h
  exact ⟨habsent, rfl⟩

/-- A step is an arrival or a performed call. -/
theorem step_cases {s s' : State} {a : Action} (h : server.step s a = some s') :
    (∃ c fdbuf, (s.threads c).pc = .absent ∧ s' = s.accept c fdbuf) ∨
      ∃ c env, a = .run c env ∧ Performed s c (code s c) s' := by
  cases a with
  | accept c reads ending =>
      rcases accept_step h with ⟨habsent, rfl⟩
      exact .inl ⟨c, _, habsent, rfl⟩
  | run c env => exact .inr ⟨c, env, rfl, performed_of_perform h⟩

/-- The arrival of a client that sends the bytes at once and then nothing. -/
def connect (c : ConnId) : Bytes → Action
  | [] => .accept c [] .eof
  | first :: rest => .accept c [.data first rest] .eof

/-- The next calls of a thread, while no call fails or times out. -/
def serve (c : ConnId) (n : Nat) : List Action :=
  List.replicate n (.run c)

/-! ## Projections -/

namespace State

variable (s : State) (c : ConnId) (t : Thread) (e : Event) (r : RoomPtr) (room : Room)

/-- Going on with a thread leaves the registry alone. -/
@[simp] theorem resume_mRooms : (s.resume c t e).mRooms = s.mRooms := rfl

/-- Going on with a thread leaves the rooms alone. -/
@[simp] theorem resume_rooms : (s.resume c t e).rooms = s.rooms := rfl

/-- Going on with a thread creates no room. -/
@[simp] theorem resume_nextRoom : (s.resume c t e).nextRoom = s.nextRoom := rfl

/-- Going on with a thread leaves the users and their queues alone. -/
@[simp] theorem resume_users : (s.resume c t e).users = s.users := rfl

/-- Going on with a thread leaves the connections alone. -/
@[simp] theorem resume_conns : (s.resume c t e).conns = s.conns := rfl

/-- Going on with a thread leaves the log of broadcasts alone. -/
@[simp] theorem resume_broadcasts : (s.resume c t e).broadcasts = s.broadcasts := rfl

/-- Going on with a thread replaces this thread only. -/
@[simp] theorem resume_threads : (s.resume c t e).threads = update s.threads c t := rfl

/-- Replacing a room leaves the registry alone. -/
@[simp] theorem setRoom_mRooms : (s.setRoom r room).mRooms = s.mRooms := rfl

/-- Replacing a room leaves the other rooms alone. -/
@[simp] theorem setRoom_rooms : (s.setRoom r room).rooms = update s.rooms r room := rfl

/-- Replacing a room creates none. -/
@[simp] theorem setRoom_nextRoom : (s.setRoom r room).nextRoom = s.nextRoom := rfl

/-- Replacing a room leaves the users and their queues alone. -/
@[simp] theorem setRoom_users : (s.setRoom r room).users = s.users := rfl

/-- Replacing a room leaves the threads alone. -/
@[simp] theorem setRoom_threads : (s.setRoom r room).threads = s.threads := rfl

/-- Replacing a room leaves the log of broadcasts alone. -/
@[simp] theorem setRoom_broadcasts : (s.setRoom r room).broadcasts = s.broadcasts := rfl

/-- Replacing a room records no call of a chat function. -/
@[simp] theorem setRoom_chatCalls : (s.setRoom r room).chatCalls = s.chatCalls := rfl

/-- Replacing a room records no call of a login. -/
@[simp] theorem setRoom_loginCalls : (s.setRoom r room).loginCalls = s.loginCalls := rfl

/-- A new room leaves the users and their queues alone. -/
@[simp] theorem newRoom_users (name : Bytes) : (s.newRoom name).users = s.users := rfl

/-- A new room leaves the threads alone. -/
@[simp] theorem newRoom_threads (name : Bytes) : (s.newRoom name).threads = s.threads := rfl

/-- A new room leaves the log of broadcasts alone. -/
@[simp] theorem newRoom_broadcasts (name : Bytes) :
    (s.newRoom name).broadcasts = s.broadcasts := rfl

/-- A new connection leaves the registry alone. -/
@[simp] theorem accept_mRooms (fdbuf : Rio) : (s.accept c fdbuf).mRooms = s.mRooms := rfl

/-- A new connection leaves the rooms alone. -/
@[simp] theorem accept_rooms (fdbuf : Rio) : (s.accept c fdbuf).rooms = s.rooms := rfl

/-- A new connection leaves the users and their queues alone. -/
@[simp] theorem accept_users (fdbuf : Rio) : (s.accept c fdbuf).users = s.users := rfl

/-- A new connection starts its worker. -/
@[simp] theorem accept_threads (fdbuf : Rio) :
    (s.accept c fdbuf).threads = update s.threads c { pc := .worker .receive } := rfl

/-- The thread of a new connection has not called anything in its login. -/
@[simp] theorem accept_loginCalls (fdbuf : Rio) :
    (s.accept c fdbuf).loginCalls = s.loginCalls := rfl

/-- The thread of a new connection has not called anything in a chat function. -/
@[simp] theorem accept_chatCalls (fdbuf : Rio) :
    (s.accept c fdbuf).chatCalls = s.chatCalls := rfl

/-- A new connection leaves the log of broadcasts alone. -/
@[simp] theorem accept_broadcasts (fdbuf : Rio) :
    (s.accept c fdbuf).broadcasts = s.broadcasts := rfl

variable {s c}

/-- A call of a worker is no call of a chat function. -/
theorem chatCalls_resume_worker {p : WorkerPc} (hpc : (s.threads c).pc = .worker p) :
    (s.resume c t e).chatCalls = s.chatCalls := by
  simp [resume, hpc]

/-- A call outside of {lit}`worker` is recorded behind the calls of the chat function. -/
theorem chatCalls_resume (hpc : ∀ p, (s.threads c).pc ≠ .worker p) :
    (s.resume c t e).chatCalls = update s.chatCalls c (s.chatCalls c ++ [e]) := by
  unfold resume
  cases hp : (s.threads c).pc with
  | worker p => exact absurd hp (hpc p)
  | _ => rfl

/-- A call of a worker is recorded behind the calls of the login. -/
theorem loginCalls_resume_worker {p : WorkerPc} (hpc : (s.threads c).pc = .worker p) :
    (s.resume c t e).loginCalls = update s.loginCalls c (s.loginCalls c ++ [e]) := by
  simp [resume, hpc]

/-- A call outside of {lit}`worker` is no call of the login. -/
theorem loginCalls_resume (hpc : ∀ p, (s.threads c).pc ≠ .worker p) :
    (s.resume c t e).loginCalls = s.loginCalls := by
  unfold resume
  cases hp : (s.threads c).pc with
  | worker p => exact absurd hp (hpc p)
  | _ => rfl

end State

/-! ## The registry of rooms only grows -/

/-- Entries of the map of rooms are never replaced or removed. -/
theorem step_mRooms {s s' : State} {a : Action} (h : server.step s a = some s')
    {name : Bytes} {r : RoomPtr} (hr : s.mRooms name = some r) : s'.mRooms name = some r := by
  rcases step_cases h with ⟨c, fdbuf, -, rfl⟩ | ⟨c, env, -, hperf⟩
  · exact hr
  · generalize code s c = op at hperf
    cases hperf with
    | newRoom name' k hroom =>
        have hne : name ≠ name' := by
          rintro rfl
          rw [hroom] at hr
          cases hr
        simpa [State.newRoom, hne] using hr
    | _ => exact hr

end ChatServer
