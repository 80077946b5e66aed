import Mathlib.Data.Finset.Filter
import ChatServer.Server.Membership

/-!
# Restriction to some of the clients

Two threads that run the same code, one in a server with all clients and one in a
server with some of them, are compared: they are alike if they differ only in the
addresses of rooms and in the members that a broadcast has still to visit, of which
the second has only those that are there.  Threads that are alike make calls that
are alike.

Main results:

- Definition {lit}`State.roomAt`: the rooms of a server by their names; a room that
  is not registered yet is as good as an empty one.
- Theorem {lit}`Thread.Alike.code`: alike threads make alike calls.

Current gaps:

- Only threads are compared here; the shared data are compared where the servers
  are.
-/

namespace ChatServer

open Function

/-! ## Rooms by name -/

/-- The room of a name, which is empty before it is created. -/
def State.roomAt (s : State) (name : Bytes) : Room :=
  match s.mRooms name with
  | some r => s.rooms r
  | none => { roomName := name }

/-- The room of a registered name. -/
theorem State.roomAt_of_registered {s : State} {name : Bytes} {r : RoomPtr}
    (h : s.mRooms name = some r) : s.roomAt name = s.rooms r := by
  rw [roomAt, h]

/-- Creating a room makes no difference by name. -/
theorem State.roomAt_newRoom {s : State} (hreg : Registry s) {name : Bytes}
    (h : s.mRooms name = none) : (s.newRoom name).roomAt = s.roomAt := by
  funext name'
  by_cases hname : name' = name
  · subst name'
    simp [roomAt, newRoom, h]
  · cases hroom : s.mRooms name' with
    | none => simp [roomAt, newRoom, hname, hroom]
    | some r =>
        have hne : r ≠ s.nextRoom := Nat.ne_of_lt (hreg name' r hroom).1
        simp [roomAt, newRoom, hname, hroom, hne]

/-- Replacing a room replaces it under its name. -/
theorem State.roomAt_setRoom {s : State} (hreg : Registry s) {name : Bytes} {r : RoomPtr}
    (h : s.mRooms name = some r) (room : Room) :
    (s.setRoom r room).roomAt = update s.roomAt name room := by
  funext name'
  by_cases hname : name' = name
  · subst name'
    simp [roomAt, h]
  · rw [update_of_ne hname]
    cases hroom : s.mRooms name' with
    | none => simp [roomAt, hroom]
    | some q =>
        have hne : q ≠ r := by
          rintro rfl
          exact hname ((hreg name' q hroom).2.symm.trans (hreg name q h).2)
        simp [roomAt, hroom, hne]

section

variable (J : ConnId → Prop) [DecidablePred J]

/-! ## Rooms with some of their members -/

/-- A room with those of its members, and with the holder of its lock, that are
in {lit}`J`. -/
def Room.restrict (room : Room) : Room :=
  { room with members := room.members.filter J, lock := room.lock.filter (J ·) }

/-- What one call of a thread can do to a room. -/
inductive Room.Acts (c : ConnId) (room : Room) : Room → Prop
  | same : Acts c room room
  | added : Acts c room (room.addMember c)
  | removed : Acts c room (room.removeMember c)
  | locked (h : room.lock = none) : Acts c room { room with lock := some c }
  | unlocked (h : room.lock = some c) : Acts c room { room with lock := none }

variable {J} {c : ConnId} {room room' : Room}

/-- A room is given by its name, its members and its lock. -/
theorem Room.eq_of_fields (hname : room'.roomName = room.roomName)
    (hmembers : room'.members = room.members) (hlock : room'.lock = room.lock) :
    room' = room := by
  cases room
  cases room'
  simp_all

/-- Adding a member of {lit}`J` commutes with the restriction. -/
theorem Room.restrict_addMember (hc : J c) :
    (room.addMember c).restrict J = (room.restrict J).addMember c := by
  apply eq_of_fields
  · simp [restrict]
  · simp [restrict, Finset.filter_insert, hc]
  · simp [restrict]

/-- Removing a member commutes with the restriction. -/
theorem Room.restrict_removeMember :
    (room.removeMember c).restrict J = (room.restrict J).removeMember c := by
  apply eq_of_fields
  · simp [restrict]
  · simp [restrict, Finset.filter_erase]
  · simp [restrict]

/-- The calls of others cannot be noticed among the clients of {lit}`J`. -/
theorem Room.Acts.restrict (h : room.Acts c room') (hc : ¬ J c) :
    room'.restrict J = room.restrict J := by
  cases h with
  | same => rfl
  | added =>
      apply eq_of_fields
      · simp [Room.restrict]
      · simp [Room.restrict, Finset.filter_insert, hc]
      · simp [Room.restrict]
  | removed =>
      apply eq_of_fields
      · simp [Room.restrict]
      · ext u
        have hne : J u → u ≠ c := by
          rintro hu rfl
          exact hc hu
        simp only [Room.restrict, Room.removeMember_members, Finset.mem_filter, Finset.mem_erase]
        tauto
      · simp [Room.restrict]
  | locked hlock => simp [Room.restrict, hlock, hc]
  | unlocked hlock => simp [Room.restrict, hlock, Option.filter, hc]

end

/-! ## Threads that are alike -/

section

variable (J : ConnId → Prop) [DecidablePred J]

/-- A control point where only the members in {lit}`J` are visited. -/
def Pc.restrict : Pc → Pc
  | .sender (.visit rest) => .sender (.visit (rest.filter J))
  | pc => pc

/-- The threads are at the same control point and differ only in the addresses of
their rooms, which are related by {lit}`same`. -/
structure Thread.Alike (same : RoomPtr → RoomPtr → Prop) (t t' : Thread) : Prop where
  pc : t'.pc = t.pc.restrict J
  login : t'.login = t.login
  msg : t'.msg = t.msg
  room : Option.Rel same t.room t'.room

/-- The calls differ only in the addresses of rooms and in the members that are
visited, and lead to threads that are alike.  A lookup makes the addresses that it
finds comparable.  Nothing is said of a broadcast that has no member of {lit}`J` to
visit any more. -/
inductive Op.Alike (same : RoomPtr → RoomPtr → Prop) : Op → Op → Prop
  | halt : Alike same .halt .halt
  | receive (msg : Message) {k k' : Bool → Result → Message → Thread}
      (h : ∀ ok result m, Thread.Alike J same (k ok result m) (k' ok result m)) :
      Alike same (.receive msg k) (.receive msg k')
  | send (msg : Message) {k k' : Bool → Thread}
      (h : ∀ ok, Thread.Alike J same (k ok) (k' ok)) : Alike same (.send msg k) (.send msg k')
  | newUser (username : Bytes) {k k' : Thread} (h : Thread.Alike J same k k') :
      Alike same (.newUser username k) (.newUser username k')
  | findOrCreateRoom (roomName : Bytes) {k k' : RoomPtr → Thread}
      (h : ∀ found : RoomPtr → RoomPtr → Prop, ∀ r r', found r r' →
        Thread.Alike J found (k r) (k' r')) :
      Alike same (.findOrCreateRoom roomName k) (.findOrCreateRoom roomName k')
  | addMember {r r' : RoomPtr} {k k' : Thread} (hroom : same r r')
      (h : Thread.Alike J same k k') : Alike same (.addMember r k) (.addMember r' k')
  | removeMember {r r' : RoomPtr} {k k' : Thread} (hroom : same r r')
      (h : Thread.Alike J same k k') : Alike same (.removeMember r k) (.removeMember r' k')
  | lockRoom {r r' : RoomPtr} (name text : Bytes) {k k' : Finset ConnId → Thread}
      (hroom : same r r')
      (h : ∀ members, Thread.Alike J same (k members) (k' (members.filter J))) :
      Alike same (.lockRoom r name text k) (.lockRoom r' name text k')
  | visitMember {r r' : RoomPtr} (name text : Bytes) (rest : Finset ConnId)
      {k k' : ConnId → Thread} (hroom : same r r')
      (h : ∀ u, Thread.Alike J same (k u) (k' u)) :
      Alike same (.visitMember r name text rest k)
        (.visitMember r' name text (rest.filter J) k')
  | visitNobody {r : RoomPtr} (name text : Bytes) {rest : Finset ConnId}
      {k : ConnId → Thread} {op : Op} (hrest : rest.filter J = ∅) :
      Alike same (.visitMember r name text rest k) op
  | unlockRoom {r r' : RoomPtr} {k k' : Thread} (hroom : same r r')
      (h : Thread.Alike J same k k') : Alike same (.unlockRoom r k) (.unlockRoom r' k')
  | dequeue {k k' : Option Message → Thread}
      (h : ∀ m, Thread.Alike J same (k m) (k' m)) : Alike same (.dequeue k) (.dequeue k')

variable {J} {same : RoomPtr → RoomPtr → Prop} {t t' : Thread}

/-- Alike threads stay alike when they go to the same control point. -/
theorem Thread.Alike.goto (h : Thread.Alike J same t t') (pc : Pc) :
    Thread.Alike J same (t.goto pc) (t'.goto (pc.restrict J)) :=
  ⟨rfl, h.login, h.msg, h.room⟩

/-- Of two threads that are alike both are in no room, or both in related rooms. -/
theorem Thread.Alike.room_cases (h : Thread.Alike J same t t') :
    (t.room = none ∧ t'.room = none) ∨
      ∃ r r', same r r' ∧ t.room = some r ∧ t'.room = some r' := by
  have hroom := h.room
  generalize t.room = room, t'.room = room' at hroom ⊢
  cases hroom with
  | some hr => exact .inr ⟨_, _, hr, rfl, rfl⟩
  | none => exact .inl ⟨rfl, rfl⟩

/-- Of two threads that are alike one is in no room when the other is. -/
theorem Thread.Alike.room_eq_none (h : Thread.Alike J same t t') :
    t'.room = none ↔ t.room = none := by
  rcases h.room_cases with ⟨hr, hr'⟩ | ⟨r, r', -, hr, hr'⟩
  · simp [hr, hr']
  · simp [hr, hr']

/-- Threads stay alike when more addresses are related. -/
theorem Thread.Alike.mono {same' : RoomPtr → RoomPtr → Prop} (h : Thread.Alike J same t t')
    (hsame : ∀ r r', same r r' → same' r r') : Thread.Alike J same' t t' := by
  refine ⟨h.pc, h.login, h.msg, ?_⟩
  rcases h.room_cases with ⟨hr, hr'⟩ | ⟨r, r', hrr, hr, hr'⟩
  · rw [hr, hr']
    exact .none
  · rw [hr, hr']
    exact .some (hsame r r' hrr)

/-- The dispatch looks at the message and at whether there is a room. -/
theorem Thread.Alike.dispatch (h : Thread.Alike J same t t') :
    Thread.Alike J same t.dispatch t'.dispatch := by
  unfold Thread.dispatch
  rw [h.msg]
  simp only [ne_eq, h.room_eq_none]
  split_ifs
  all_goals exact h.goto _

/-- Threads that are alike are alike behind the request loop. -/
theorem Thread.Alike.breakLoop (h : Thread.Alike J same t t') :
    Thread.Alike J same t.breakLoop t'.breakLoop := by
  unfold Thread.breakLoop
  simp only [ne_eq, h.room_eq_none]
  split_ifs
  all_goals exact h.goto _

/-- Rooms that are used are comparable. -/
theorem Thread.Alike.deref (h : Thread.Alike J same t t') {f g : RoomPtr → Op}
    (hfg : ∀ r r', same r r' → Op.Alike J same (f r) (g r')) :
    Op.Alike J same (ChatServer.deref t.room f) (ChatServer.deref t'.room g) := by
  rcases h.room_cases with ⟨hr, hr'⟩ | ⟨r, r', hrr, hr, hr'⟩
  · rw [hr, hr']
    exact .halt
  · rw [hr, hr']
    exact hfg r r' hrr

/-! ## Alike threads make alike calls -/

/-- {lit}`worker` makes alike calls for alike threads. -/
theorem worker_alike (h : Thread.Alike J same t t') (p : WorkerPc) :
    Op.Alike J same (worker t p) (worker t' p) := by
  cases p with
  | receive =>
      simp only [worker, h.login]
      refine .receive _ fun ok result msg => ?_
      split_ifs
      all_goals exact ⟨rfl, rfl, h.msg, h.room⟩
  | refuse why => exact .send _ fun _ => h.goto .done
  | newUser =>
      simp only [worker, h.login]
      exact .newUser _ (h.goto (.worker .welcome))
  | welcome =>
      simp only [worker, h.login]
      refine .send _ fun ok => ?_
      split_ifs
      · exact h.goto .done
      · exact ⟨rfl, rfl, rfl, .none⟩
      · exact ⟨rfl, rfl, rfl, .none⟩
      · exact h.goto .done

/-- {lit}`chat_with_sender` makes alike calls for alike threads whose usernames and room names
agree. -/
theorem chatWithSender_alike {user user' : User} {getRoomName getRoomName' : RoomPtr → Bytes}
    (h : Thread.Alike J same t t') (huser : user'.username = user.username)
    (hname : ∀ r r', same r r' → getRoomName' r' = getRoomName r) (p : SenderPc)
    (hp : ∀ rest, p ≠ .visit rest) :
    Op.Alike J same (chatWithSender user getRoomName t p)
      (chatWithSender user' getRoomName' t' p) := by
  cases p with
  | receive =>
      simp only [chatWithSender, h.msg]
      refine .receive _ fun ok result msg => ?_
      have hmsg : Thread.Alike J same { t with msg := msg } { t' with msg := msg } :=
        ⟨h.pc, h.login, rfl, h.room⟩
      split_ifs
      · exact ⟨rfl, h.login, rfl, h.room⟩
      · exact ⟨rfl, h.login, rfl, h.room⟩
      · exact hmsg.dispatch
      · exact hmsg.dispatch
  | invalid => exact .send _ fun _ => h.dispatch
  | eof => exact .send _ fun _ => h.breakLoop
  | refuse why => exact .send _ fun _ => h.goto (.sender .receive)
  | switch => exact h.deref fun r r' hr => .removeMember hr (h.goto (.sender .find))
  | find =>
      simp only [chatWithSender, h.msg]
      exact .findOrCreateRoom _ fun found r r' hr => ⟨rfl, h.login, rfl, .some hr⟩
  | add => exact h.deref fun r r' hr => .addMember hr (h.goto (.sender .joined))
  | joined =>
      simp only [chatWithSender, h.msg]
      exact .send _ fun _ => h.goto (.sender .receive)
  | leave => exact h.deref fun r r' hr => .removeMember hr (h.goto (.sender .left))
  | left =>
      refine h.deref fun r r' hr => ?_
      rw [huser, hname r r' hr]
      exact .send _ fun _ => ⟨rfl, h.login, h.msg, .none⟩
  | quit => exact .send _ fun _ => h.breakLoop
  | broadcast =>
      refine h.deref fun r r' hr => ?_
      rw [huser, h.msg]
      exact .lockRoom _ _ hr fun members => h.goto (.sender (.visit members))
  | visit rest => exact absurd rfl (hp rest)
  | sent => exact .send _ fun _ => h.goto (.sender .receive)
  | exit => exact h.deref fun r r' hr => .removeMember hr (h.goto .done)

/-- A broadcast visits the members that are there. -/
theorem visit_alike {user user' : User} {getRoomName getRoomName' : RoomPtr → Bytes}
    (h : Thread.Alike J same t t') (huser : user'.username = user.username)
    (rest : Finset ConnId) :
    Op.Alike J same (chatWithSender user getRoomName t (.visit rest))
      (chatWithSender user' getRoomName' t' (.visit (rest.filter J))) := by
  refine h.deref fun r r' hr => ?_
  by_cases hrest : rest = ∅
  · subst rest
    exact .unlockRoom hr (h.goto (.sender .sent))
  · rw [if_neg hrest]
    by_cases hnobody : rest.filter J = ∅
    · exact .visitNobody _ _ hnobody
    · rw [if_neg hnobody, huser, h.msg]
      refine .visitMember _ _ _ hr fun u => ?_
      have hgoto := h.goto (.sender (.visit (rest.erase u)))
      rwa [Pc.restrict, Finset.filter_erase] at hgoto

/-- {lit}`chat_with_receiver` makes alike calls for alike threads. -/
theorem chatWithReceiver_alike (h : Thread.Alike J same t t') (p : ReceiverPc) :
    Op.Alike J same (chatWithReceiver t p) (chatWithReceiver t' p) := by
  cases p with
  | receive =>
      simp only [chatWithReceiver, h.msg]
      refine .receive _ fun ok result msg => ?_
      have hmsg : Thread.Alike J same { t with msg := msg } { t' with msg := msg } :=
        ⟨h.pc, h.login, rfl, h.room⟩
      split_ifs
      all_goals exact hmsg.goto _
  | refuse why => exact .send _ fun _ => h.goto .done
  | find =>
      simp only [chatWithReceiver, h.msg]
      exact .findOrCreateRoom _ fun found r r' hr => ⟨rfl, h.login, rfl, .some hr⟩
  | add => exact h.deref fun r r' hr => .addMember hr (h.goto (.receiver .joined))
  | joined => exact .send _ fun _ => h.goto (.receiver .dequeue)
  | dequeue =>
      refine .dequeue fun newMsg => ?_
      cases newMsg with
      | none => exact h.goto (.receiver .empty)
      | some m => exact h.goto (.receiver (.deliver m))
  | deliver newMsg =>
      refine .send _ fun ok => ?_
      split_ifs
      · exact h.goto (.receiver .remove)
      · exact h.goto (.receiver .dequeue)
  | empty => exact .send _ fun _ => h.goto (.receiver .dequeue)
  | remove => exact h.deref fun r r' hr => .removeMember hr (h.goto .done)

/-- Alike threads make alike calls. -/
theorem Thread.Alike.code {user user' : User} {getRoomName getRoomName' : RoomPtr → Bytes}
    (h : Thread.Alike J same t t') (huser : user'.username = user.username)
    (hname : ∀ r r', same r r' → getRoomName' r' = getRoomName r) :
    Op.Alike J same (t.code user getRoomName) (t'.code user' getRoomName') := by
  have hpc := h.pc
  cases hp : t.pc with
  | absent =>
      rw [hp] at hpc
      simp only [Thread.code, hp, hpc, Pc.restrict]
      exact .halt
  | worker p =>
      rw [hp] at hpc
      rw [code_worker hp, code_worker hpc]
      exact worker_alike h p
  | sender p =>
      rw [hp] at hpc
      cases p with
      | visit rest =>
          rw [code_sender hp, code_sender hpc]
          exact visit_alike h huser rest
      | _ =>
          rw [code_sender hp, code_sender hpc]
          exact chatWithSender_alike h huser hname _ (by simp)
  | receiver p =>
      rw [hp] at hpc
      rw [code_receiver hp, code_receiver hpc]
      exact chatWithReceiver_alike h p
  | done =>
      rw [hp] at hpc
      simp only [Thread.code, hp, hpc, Pc.restrict]
      exact .halt

end

end ChatServer
