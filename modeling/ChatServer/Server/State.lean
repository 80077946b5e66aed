import Mathlib.Data.Finset.Erase
import Mathlib.Data.Finset.Insert
import Mathlib.Logic.Function.Basic
import ChatServer.Connection

/-!
# Server state

The data of the chat server: rooms with their member sets, users with their
message queues, and one thread per accepted connection with its control point
and its local variables.  Every worker allocates at most one user and never
frees it, so a user, its connection and its thread share one number.

The last fields of the state are history variables.  Steps append to them and
never read them; the claims about whole runs are stated with them.

Main results:

- The operations of {lit}`Room` and the message of a broadcast.
- Type {lit}`State`: the shared data, the threads and the history.

Current gaps:

- Sockets, ports and the listening loop are reduced to the arrival of a
  connection; freed memory is not modelled.
-/

namespace ChatServer

/-! ## Users and rooms -/

/-- A connection, its worker thread, and the address of its user. -/
abbrev ConnId := Nat

/-- The address of a room. -/
abbrev RoomPtr := Nat

/-- {lit}`User`; the queue holds the messages that were pushed and not popped. -/
structure User where
  username : Bytes := []
  mqueue : List Message := []
deriving DecidableEq

/-- {lit}`Room`; {lit}`lock` is the thread that holds the mutex across several
steps, which only a broadcast does. -/
structure Room where
  roomName : Bytes := []
  members : Finset ConnId := ∅
  lock : Option ConnId := none
deriving DecidableEq

/-- {lit}`Room::add_member`. -/
def Room.addMember (room : Room) (user : ConnId) : Room :=
  if user ∈ room.members then room
  else { room with members := insert user room.members }

/-- {lit}`Room::remove_member`. -/
def Room.removeMember (room : Room) (user : ConnId) : Room :=
  if user ∈ room.members then { room with members := room.members.erase user }
  else room

/-- The message that {lit}`Room::broadcast_message` allocates for a member. -/
def Room.newMessage (room : Room) (senderUsername messageText : Bytes) : Message :=
  { tag := tagDelivery
    data := room.roomName ++ [colon] ++ senderUsername ++ [colon] ++ messageText }

/-- {lit}`add_member` inserts the user. -/
@[simp]
theorem Room.addMember_members (room : Room) (user : ConnId) :
    (room.addMember user).members = insert user room.members := by
  unfold addMember
  split
  · rename_i h
    exact (Finset.insert_eq_of_mem h).symm
  · rfl

/-- {lit}`add_member` keeps the name. -/
@[simp]
theorem Room.addMember_roomName (room : Room) (user : ConnId) :
    (room.addMember user).roomName = room.roomName := by
  unfold addMember
  split <;> rfl

/-- {lit}`add_member` leaves the lock as it found it. -/
@[simp]
theorem Room.addMember_lock (room : Room) (user : ConnId) :
    (room.addMember user).lock = room.lock := by
  unfold addMember
  split <;> rfl

/-- {lit}`remove_member` erases the user. -/
@[simp]
theorem Room.removeMember_members (room : Room) (user : ConnId) :
    (room.removeMember user).members = room.members.erase user := by
  unfold removeMember
  split
  · rfl
  · rename_i h
    exact (Finset.erase_eq_of_notMem h).symm

/-- {lit}`remove_member` keeps the name. -/
@[simp]
theorem Room.removeMember_roomName (room : Room) (user : ConnId) :
    (room.removeMember user).roomName = room.roomName := by
  unfold removeMember
  split <;> rfl

/-- {lit}`remove_member` leaves the lock as it found it. -/
@[simp]
theorem Room.removeMember_lock (room : Room) (user : ConnId) :
    (room.removeMember user).lock = room.lock := by
  unfold removeMember
  split <;> rfl

/-! ## Replies -/

/-- The reasons for which a request is answered with an err frame. -/
inductive Refusal where
  | invalidMessage
  | loginFirst
  | eofOrError
  | joinFirst
  | invalidRoomName
  | notInAnyRoom
  | invalidMessageTag
deriving DecidableEq

/-- The texts of the err replies, as the source has them. -/
def Refusal.text : Refusal → Bytes
  | .invalidMessage => str "invalid message"
  | .loginFirst => str "1st message has to be slogin or rlogin"
  | .eofOrError => str "EOF or Error"
  | .joinFirst => str "need to send a join message first"
  | .invalidRoomName => str "invalid room name"
  | .notInAnyRoom => str "not in any room"
  | .invalidMessageTag => str "invalid message tag"

/-- The frame that answers a refused request. -/
def Refusal.reply (why : Refusal) : Message :=
  { tag := tagErr, data := why.text }

/-! ## Threads -/

/-- Control points of {lit}`worker`. -/
inductive WorkerPc where
  | receive
  | refuse (why : Refusal)
  | newUser
  | welcome
deriving DecidableEq

/-- Control points of {lit}`chat_with_sender`, each about to make the call it is
named after; {lit}`visit` is inside {lit}`broadcast_message`, with the members
that its iterator has not reached. -/
inductive SenderPc where
  | receive
  | invalid
  | eof
  | refuse (why : Refusal)
  | switch
  | find
  | add
  | joined
  | leave
  | left
  | quit
  | broadcast
  | visit (rest : Finset ConnId)
  | sent
  | exit
deriving DecidableEq

/-- Control points of {lit}`chat_with_receiver`. -/
inductive ReceiverPc where
  | receive
  | refuse (why : Refusal)
  | find
  | add
  | joined
  | dequeue
  | deliver (newMsg : Message)
  | empty
  | remove
deriving DecidableEq

/-- Control points of a thread. -/
inductive Pc where
  | absent
  | worker (p : WorkerPc)
  | sender (p : SenderPc)
  | receiver (p : ReceiverPc)
  | done
deriving DecidableEq

/-- A worker thread with its local variables: the login message of
{lit}`worker`, and the message and the room of the chat function. -/
structure Thread where
  pc : Pc := .absent
  login : Message := {}
  msg : Message := {}
  room : Option RoomPtr := none
deriving DecidableEq

/-! ## History and state -/

/-- One call of a thread with its outcome; {lit}`received` keeps the raw line. -/
inductive Event where
  | received (line : Option Bytes)
  | sent (msg : Message) (ok : Bool)
  | created (username : Bytes)
  | found (roomName : Bytes) (room : RoomPtr)
  | added (room : RoomPtr)
  | removed (room : RoomPtr)
  | locked (room : RoomPtr)
  | visited (user : ConnId)
  | unlocked (room : RoomPtr)
  | dequeued (msg : Option Message)
deriving DecidableEq

/-- A broadcast that took the lock of its room: the thread, the room, the name
of the sender, the text, the message it delivers, the members of the room when
the lock was taken, and those that it has still to visit. -/
structure Broadcast where
  author : ConnId
  room : RoomPtr
  username : Bytes
  text : Bytes
  message : Message
  members : Finset ConnId
  rest : Finset ConnId
deriving DecidableEq

/-- The shared data, the threads, and the history: all broadcasts in the order
in which they took their locks, and the calls of each thread in
{lit}`worker` and in its chat function. -/
structure State where
  mRooms : Bytes → Option RoomPtr := fun _ => none
  rooms : RoomPtr → Room := fun _ => {}
  nextRoom : RoomPtr := 0
  users : ConnId → User := fun _ => {}
  conns : ConnId → Connection := fun _ => {}
  threads : ConnId → Thread := fun _ => {}
  broadcasts : List Broadcast := []
  loginCalls : ConnId → List Event := fun _ => []
  chatCalls : ConnId → List Event := fun _ => []

end ChatServer
