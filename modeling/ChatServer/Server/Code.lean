import ChatServer.Server.State

/-!
# Thread code

The functions {lit}`worker`, {lit}`chat_with_sender` and
{lit}`chat_with_receiver` as resumable programs: at each control point a
function gives the next call of the thread and, for every result of the call,
the thread after it.  Local computation between two calls belongs to the
continuation of the first.

Main results:

- Definitions {lit}`worker`, {lit}`chatWithSender` and {lit}`chatWithReceiver`,
  to be read against {lit}`server.cpp`.
- Definition {lit}`code`: the next call of a thread.

Current gaps:

- Diagnostics on standard error are left out.
-/

namespace ChatServer

/-! ## Calls -/

/-- The next call of a thread and its continuation. -/
inductive Op where
  | halt
  | receive (msg : Message) (k : Bool → Result → Message → Thread)
  | send (msg : Message) (k : Bool → Thread)
  | newUser (username : Bytes) (k : Thread)
  | findOrCreateRoom (roomName : Bytes) (k : RoomPtr → Thread)
  | addMember (room : RoomPtr) (k : Thread)
  | removeMember (room : RoomPtr) (k : Thread)
  | lockRoom (room : RoomPtr) (senderUsername messageText : Bytes)
      (k : Finset ConnId → Thread)
  | visitMember (room : RoomPtr) (senderUsername messageText : Bytes)
      (rest : Finset ConnId) (k : ConnId → Thread)
  | unlockRoom (room : RoomPtr) (k : Thread)
  | dequeue (k : Option Message → Thread)

/-- Use a room pointer; a null pointer leaves the thread without a next call. -/
def deref (room : Option RoomPtr) (f : RoomPtr → Op) : Op :=
  match room with
  | some r => f r
  | none => .halt

/-- The use of a room pointer halts or uses a pointer that is not null. -/
theorem deref_cases {Q : Op → Prop} {room : Option RoomPtr} {f : RoomPtr → Op}
    (hnull : Q .halt) (h : ∀ r, room = some r → Q (f r)) : Q (deref room f) := by
  cases room with
  | none => exact hnull
  | some r => exact h r rfl

/-- The thread at another control point. -/
def Thread.goto (t : Thread) (pc : Pc) : Thread :=
  { t with pc := pc }

/-! ## Room names -/

/-- {lit}`isalnum` in the C locale. -/
def isalnum (c : Byte) : Bool :=
  (48 ≤ c && c ≤ 57) || (65 ≤ c && c ≤ 90) || (97 ≤ c && c ≤ 122)

/-- {lit}`Server::isValidRoomName`; the size of a string is never negative. -/
def isValidRoomName (name : Bytes) : Bool :=
  name.all isalnum

/-! ## Replies -/

/-- The greeting of {lit}`worker`. -/
def welcomeReply (username : Bytes) : Message :=
  { tag := tagOk, data := str "Welcome " ++ username ++ str "!" }

/-- The reply to a join of a sender. -/
def joinedReply (roomName : Bytes) : Message :=
  { tag := tagOk, data := str "succesfully joined " ++ roomName ++ str "!" }

/-- The reply to a leave. -/
def leftReply (username roomName : Bytes) : Message :=
  { tag := tagOk, data := username ++ str " has left the room " ++ roomName }

/-- The reply to a quit. -/
def quitReply : Message :=
  { tag := tagOk, data := str "quit" }

/-- The reply to a text. -/
def sentReply : Message :=
  { tag := tagOk, data := str "message was sent to all users" }

/-- The reply to the join of a receiver. -/
def receiverJoinedReply : Message :=
  { tag := tagOk, data := str "succesfully joined room" }

/-- The frame sent when nothing was dequeued. -/
def emptyReply : Message :=
  { tag := tagErr, data := str "Empty error" }

/-! ## worker -/

/-- {lit}`worker`: the login, then one of the chat functions with fresh local
variables. -/
def worker (t : Thread) : WorkerPc → Op
  | .receive => .receive t.login fun ok result msg =>
      if ok then
        if msg.tag ≠ tagRlogin ∧ msg.tag ≠ tagSlogin then
          { t with login := msg, pc := .worker (.refuse .loginFirst) }
        else { t with login := msg, pc := .worker .newUser }
      else if result = .invalidMsg then
        { t with login := msg, pc := .worker (.refuse .invalidMessage) }
      else { t with login := msg, pc := .done }
  | .refuse why => .send why.reply fun _ => t.goto .done
  | .newUser => .newUser t.login.data (t.goto (.worker .welcome))
  | .welcome =>
      .send (welcomeReply t.login.data) fun ok =>
        if !ok then t.goto .done
        else if t.login.tag = tagRlogin then
          { t with pc := .receiver .receive, msg := {}, room := none }
        else if t.login.tag = tagSlogin then
          { t with pc := .sender .receive, msg := {}, room := none }
        else t.goto .done

/-! ## chat_with_sender -/

/-- The dispatch on the tag in the request loop. -/
def Thread.dispatch (t : Thread) : Thread :=
  if t.msg.tag = tagJoin then
    if !isValidRoomName t.msg.data then t.goto (.sender (.refuse .invalidRoomName))
    else if t.room ≠ none then t.goto (.sender .switch)
    else t.goto (.sender .find)
  else if t.msg.tag = tagLeave then
    if t.room = none then t.goto (.sender (.refuse .notInAnyRoom))
    else t.goto (.sender .leave)
  else if t.msg.tag = tagQuit then t.goto (.sender .quit)
  else if t.msg.tag = tagSendall then
    if t.room = none then t.goto (.sender (.refuse .notInAnyRoom))
    else t.goto (.sender .broadcast)
  else t.goto (.sender (.refuse .invalidMessageTag))

/-- After the request loop: leave the room, if there is one, and return. -/
def Thread.breakLoop (t : Thread) : Thread :=
  if t.room ≠ none then t.goto (.sender .exit) else t.goto .done

/-- {lit}`chat_with_sender`, with {lit}`broadcast_message` unfolded into taking
the lock, visiting the members and releasing the lock. -/
def chatWithSender (user : User) (getRoomName : RoomPtr → Bytes) (t : Thread) :
    SenderPc → Op
  | .receive => .receive t.msg fun ok lastResult msg =>
      if !ok then
        if lastResult = .invalidMsg then { t with msg := msg, pc := .sender .invalid }
        else if lastResult = .eofOrError then { t with msg := msg, pc := .sender .eof }
        else ({ t with msg := msg } : Thread).dispatch
      else ({ t with msg := msg } : Thread).dispatch
  -- a malformed message is reported, and its err tag is dispatched on as well
  | .invalid => .send Refusal.invalidMessage.reply fun _ => t.dispatch
  | .eof => .send Refusal.eofOrError.reply fun _ => t.breakLoop
  | .refuse why => .send why.reply fun _ => t.goto (.sender .receive)
  | .switch => deref t.room fun r => .removeMember r (t.goto (.sender .find))
  | .find => .findOrCreateRoom t.msg.data fun r =>
      { t with room := some r, pc := .sender .add }
  | .add => deref t.room fun r => .addMember r (t.goto (.sender .joined))
  | .joined => .send (joinedReply t.msg.data) fun _ => t.goto (.sender .receive)
  | .leave => deref t.room fun r => .removeMember r (t.goto (.sender .left))
  | .left => deref t.room fun r =>
      .send (leftReply user.username (getRoomName r)) fun _ =>
        { t with room := none, pc := .sender .receive }
  | .quit => .send quitReply fun _ => t.breakLoop
  | .broadcast => deref t.room fun r =>
      .lockRoom r user.username t.msg.data fun members =>
        t.goto (.sender (.visit members))
  | .visit rest => deref t.room fun r =>
      if rest = ∅ then .unlockRoom r (t.goto (.sender .sent))
      else .visitMember r user.username t.msg.data rest fun u =>
        t.goto (.sender (.visit (rest.erase u)))
  | .sent => .send sentReply fun _ => t.goto (.sender .receive)
  | .exit => deref t.room fun r => .removeMember r (t.goto .done)

/-- The control points of {lit}`chat_with_sender` from which a call is made; replies
are sent from several. -/
def Op.CalledFrom (p : SenderPc) : Op → Prop
  | .receive _ _ => p = .receive
  | .findOrCreateRoom _ _ => p = .find
  | .addMember _ _ => p = .add
  | .removeMember _ _ => p = .switch ∨ p = .leave ∨ p = .exit
  | .lockRoom _ _ _ _ => p = .broadcast
  | .visitMember _ _ _ rest _ => p = .visit rest
  | .unlockRoom _ _ => p = .visit ∅
  | .newUser _ _ | .dequeue _ => False
  | .halt | .send _ _ => True

/-- Each call of {lit}`chat_with_sender` is made at its own control point. -/
theorem chatWithSender_calledFrom (user : User) (getRoomName : RoomPtr → Bytes) (t : Thread)
    (p : SenderPc) : (chatWithSender user getRoomName t p).CalledFrom p := by
  cases p with
  | receive | find => exact rfl
  | invalid | eof | refuse | joined | quit | sent => exact trivial
  | switch => exact deref_cases trivial fun r _ => .inl rfl
  | add => exact deref_cases trivial fun r _ => rfl
  | leave => exact deref_cases trivial fun r _ => .inr (.inl rfl)
  | left => exact deref_cases trivial fun r _ => trivial
  | broadcast => exact deref_cases trivial fun r _ => rfl
  | visit rest =>
      refine deref_cases trivial fun r _ => ?_
      split_ifs with hrest
      · exact congrArg SenderPc.visit hrest
      · exact rfl
  | exit => exact deref_cases trivial fun r _ => .inr (.inr rfl)

/-! ## chat_with_receiver -/

/-- {lit}`chat_with_receiver`. -/
def chatWithReceiver (t : Thread) : ReceiverPc → Op
  | .receive => .receive t.msg fun ok lastResult msg =>
      let t := { t with msg := msg }
      if !ok ∧ lastResult = .invalidMsg then
        t.goto (.receiver (.refuse .invalidMessage))
      else if !ok ∧ lastResult = .eofOrError then
        t.goto (.receiver (.refuse .eofOrError))
      else if msg.tag ≠ tagJoin then t.goto (.receiver (.refuse .joinFirst))
      else if !isValidRoomName msg.data then
        t.goto (.receiver (.refuse .invalidRoomName))
      else t.goto (.receiver .find)
  | .refuse why => .send why.reply fun _ => t.goto .done
  | .find => .findOrCreateRoom t.msg.data fun r =>
      { t with room := some r, pc := .receiver .add }
  | .add => deref t.room fun r => .addMember r (t.goto (.receiver .joined))
  | .joined => .send receiverJoinedReply fun _ => t.goto (.receiver .dequeue)
  | .dequeue => .dequeue fun newMsg =>
      match newMsg with
      | some m => t.goto (.receiver (.deliver m))
      | none => t.goto (.receiver .empty)
  | .deliver newMsg => .send newMsg fun ok =>
      if !ok then t.goto (.receiver .remove) else t.goto (.receiver .dequeue)
  | .empty => .send emptyReply fun _ => t.goto (.receiver .dequeue)
  | .remove => deref t.room fun r => .removeMember r (t.goto .done)

/-! ## The next call of a thread -/

/-- The call a thread is about to make. -/
def Thread.code (t : Thread) (user : User) (getRoomName : RoomPtr → Bytes) : Op :=
  match t.pc with
  | .absent => .halt
  | .worker p => worker t p
  | .sender p => chatWithSender user getRoomName t p
  | .receiver p => chatWithReceiver t p
  | .done => .halt

section

variable {t : Thread} {user : User} {getRoomName : RoomPtr → Bytes}

/-- The code of a thread in {lit}`worker`. -/
theorem Thread.code_worker {p : WorkerPc} (hpc : t.pc = .worker p) :
    t.code user getRoomName = worker t p := by
  simp [code, hpc]

/-- The code of a thread in {lit}`chat_with_sender`. -/
theorem Thread.code_sender {p : SenderPc} (hpc : t.pc = .sender p) :
    t.code user getRoomName = chatWithSender user getRoomName t p := by
  simp [code, hpc]

/-- The code of a thread in {lit}`chat_with_receiver`. -/
theorem Thread.code_receiver {p : ReceiverPc} (hpc : t.pc = .receiver p) :
    t.code user getRoomName = chatWithReceiver t p := by
  simp [code, hpc]

/-- A property of calls holds of the next call if it holds for each function. -/
theorem Thread.code_cases {Q : Op → Prop} (hhalt : Q .halt)
    (hworker : ∀ p, t.pc = .worker p → Q (worker t p))
    (hsender : ∀ p, t.pc = .sender p → Q (chatWithSender user getRoomName t p))
    (hreceiver : ∀ p, t.pc = .receiver p → Q (chatWithReceiver t p)) :
    Q (t.code user getRoomName) := by
  cases hpc : t.pc with
  | absent => simpa [code, hpc] using hhalt
  | worker p => simpa [code, hpc] using hworker p hpc
  | sender p => simpa [code, hpc] using hsender p hpc
  | receiver p => simpa [code, hpc] using hreceiver p hpc
  | done => simpa [code, hpc] using hhalt

end

/-- The call that the thread of a connection is about to make in a state. -/
def code (s : State) (c : ConnId) : Op :=
  (s.threads c).code (s.users c) fun r => (s.rooms r).roomName

end ChatServer
