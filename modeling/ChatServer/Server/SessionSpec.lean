import ChatServer.Server.Handshake
import ChatServer.Server.Lockstep

/-!
# What a session does, one request at a time

The server interleaves the calls of its threads.  A sender does not notice: its replies,
its room and its broadcasts are what a sequential program computes from the lines that it
has sent.

Main results:

- Definition {lit}`senderSession`: the sequential program.
- Theorem {lit}`sender_session_sequential`: in every reachable state a sender session is
  in the middle of this program.
- Theorem {lit}`acknowledged_texts_broadcast`: what has been acknowledged has been put
  into the queues.

Current gaps:

- The order in which the broadcasts of different senders take their locks is open.
-/

namespace ChatServer

open Function

/-! ## The sequential program -/

/-- A session of a sender: the name of its room, its replies, the texts that it has
broadcast with the names of their rooms, and whether it is over. -/
structure SenderSession where
  room : Option Bytes := none
  replies : List Message := []
  texts : List (Bytes × Bytes) := []
  ended : Bool := false
deriving DecidableEq

/-- The session after an err reply. -/
def SenderSession.refuse (σ : SenderSession) (why : Refusal) : SenderSession :=
  { σ with replies := σ.replies ++ [why.reply] }

/-- A request with its reply. -/
def SenderSession.request (username : Bytes) (σ : SenderSession) (m : Message) :
    SenderSession :=
  if m.tag = tagJoin then
    if !isValidRoomName m.data then σ.refuse .invalidRoomName
    else { σ with room := some m.data, replies := σ.replies ++ [joinedReply m.data] }
  else if m.tag = tagLeave then
    match σ.room with
    | none => σ.refuse .notInAnyRoom
    | some name =>
        { σ with room := none, replies := σ.replies ++ [leftReply username name] }
  else if m.tag = tagQuit then { σ with replies := σ.replies ++ [quitReply], ended := true }
  else if m.tag = tagSendall then
    match σ.room with
    | none => σ.refuse .notInAnyRoom
    | some name =>
        { σ with replies := σ.replies ++ [sentReply], texts := σ.texts ++ [(name, m.data)] }
  else σ.refuse .invalidMessageTag

/-- A line that was received, or the end of the stream; a line that does not decode is
answered twice. -/
def SenderSession.receive (username : Bytes) (σ : SenderSession) : Option Bytes → SenderSession
  | none => { σ with replies := σ.replies ++ [Refusal.eofOrError.reply], ended := true }
  | some line =>
      match decode line with
      | none => (σ.refuse .invalidMessage).refuse .invalidMessageTag
      | some m => σ.request username m

/-- The session of a sender that receives some lines. -/
def senderSession (username : Bytes) (lines : List (Option Bytes)) : SenderSession :=
  lines.foldl (SenderSession.receive username) {}

/-- One more line goes on with the session. -/
theorem senderSession_append (username : Bytes) (lines : List (Option Bytes))
    (line : Option Bytes) :
    senderSession username (lines ++ [line]) =
      (senderSession username lines).receive username line := by
  simp [senderSession]

/-- The lines that a thread has received. -/
def receivedLines (calls : List Event) : List (Option Bytes) :=
  calls.filterMap fun e =>
    match e with
    | .received line => some line
    | _ => none

/-- The lines of two histories after each other. -/
theorem receivedLines_append (calls calls' : List Event) :
    receivedLines (calls ++ calls') = receivedLines calls ++ receivedLines calls' :=
  List.filterMap_append

/-- Other events send no frame. -/
theorem sentFrames_of_not_exchange {e : Event} (he : e.isExchange = false) :
    sentFrames [e] = [] := by
  cases e with
  | sent m ok => cases he
  | _ => rfl

/-- Other events receive no line. -/
theorem receivedLines_of_not_exchange {e : Event} (he : e.isExchange = false) :
    receivedLines [e] = [] := by
  cases e with
  | received line => cases he
  | _ => rfl

/-! ## In the middle of a request -/

/-- The replies that are due for the request that is being served. -/
def Thread.pendingReplies (t : Thread) (names : RoomPtr → Bytes) (username : Bytes) :
    List Message :=
  match t.pc with
  | .sender .invalid => [Refusal.invalidMessage.reply, Refusal.invalidMessageTag.reply]
  | .sender .eof => [Refusal.eofOrError.reply]
  | .sender (.refuse why) => [why.reply]
  | .sender .switch | .sender .find | .sender .add | .sender .joined =>
      [joinedReply t.msg.data]
  | .sender .leave | .sender .left =>
      match t.room with
      | some r => [leftReply username (names r)]
      | none => []
  | .sender .quit => [quitReply]
  | .sender .broadcast | .sender (.visit _) | .sender .sent => [sentReply]
  | _ => []

/-- The text that is going to be broadcast for the request that is being served. -/
def Thread.pendingTexts (t : Thread) (names : RoomPtr → Bytes) : List (Bytes × Bytes) :=
  match t.pc with
  | .sender .broadcast =>
      match t.room with
      | some r => [(names r, t.msg.data)]
      | none => []
  | _ => []

/-- The name of the room after the request that is being served. -/
def Thread.pendingRoom (t : Thread) (names : RoomPtr → Bytes) : Option Bytes :=
  match t.pc with
  | .sender .switch | .sender .find | .sender .add | .sender .joined => some t.msg.data
  | .sender .leave | .sender .left => none
  | _ => t.room.map names

/-- The session of a thread, with what is pending, is the sequential one. -/
structure SessionAgrees (names : RoomPtr → Bytes) (username : Bytes) (t : Thread)
    (calls : List Event) (texts : List (RoomPtr × Bytes)) : Prop where
  replies : sentFrames calls ++ t.pendingReplies names username =
    (senderSession username (receivedLines calls)).replies
  texts : texts.map (fun p => (names p.1, p.2)) ++ t.pendingTexts names =
    (senderSession username (receivedLines calls)).texts
  room : t.pendingRoom names = (senderSession username (receivedLines calls)).room
  invalid : t.pc = .sender .invalid → t.msg.tag = tagErr

/-- The dispatch on a request leaves pending what the sequential program does. -/
theorem Thread.dispatch_request (t : Thread) (names : RoomPtr → Bytes) (username : Bytes)
    {σ : SenderSession} (hroom : t.room.map names = σ.room) :
    σ.replies ++ t.dispatch.pendingReplies names username =
        (σ.request username t.msg).replies ∧
      σ.texts ++ t.dispatch.pendingTexts names = (σ.request username t.msg).texts ∧
      t.dispatch.pendingRoom names = (σ.request username t.msg).room := by
  rcases σ with ⟨room, replies, texts, ended⟩
  have hsame : t.room.map names = room := hroom
  subst room
  unfold dispatch SenderSession.request
  cases hr : t.room with
  | none =>
      split_ifs <;>
        simp_all [goto, pendingReplies, pendingTexts, pendingRoom, SenderSession.refuse]
  | some r =>
      split_ifs <;>
        simp_all [goto, pendingReplies, pendingTexts, pendingRoom, SenderSession.refuse]

/-- A decoded request is not sent to the branch of malformed ones. -/
theorem Thread.dispatch_ne_invalid (t : Thread) : t.dispatch.pc ≠ .sender .invalid := by
  unfold dispatch
  split_ifs <;> simp [goto]

/-- An err tag is dispatched on as an unknown tag. -/
theorem Thread.dispatch_of_err {t : Thread} (h : t.msg.tag = tagErr) :
    t.dispatch = t.goto (.sender (.refuse .invalidMessageTag)) := by
  have htags : tagErr ≠ tagJoin ∧ tagErr ≠ tagLeave ∧ tagErr ≠ tagQuit ∧ tagErr ≠ tagSendall := by
    decide
  simp [dispatch, h, htags]

/-! ## One step of a session -/

/-- The texts that a call puts into the log. -/
def Op.newTexts : Op → List (RoomPtr × Bytes)
  | .lockRoom r _ text _ => [(r, text)]
  | _ => []

/-- The code of a sender asks for the name of its own room only. -/
theorem chatWithSender_congr {names names' : RoomPtr → Bytes} {t : Thread}
    (h : ∀ r, t.room = some r → names r = names' r) (user : User) (p : SenderPc) :
    chatWithSender user names t p = chatWithSender user names' t p := by
  cases p with
  | left =>
      cases hr : t.room with
      | none => simp [chatWithSender, hr, deref]
      | some r => simp [chatWithSender, hr, deref, h r hr]
  | _ => rfl

section

variable {names : RoomPtr → Bytes} {username : Bytes} {t t' : Thread} {calls : List Event}
  {texts : List (RoomPtr × Bytes)} {e : Event}

/-- A call that is neither a receive nor a send, and that finishes nothing. -/
theorem SessionAgrees.silent (h : SessionAgrees names username t calls texts)
    (he : e.isExchange = false)
    (hreplies : t'.pendingReplies names username = t.pendingReplies names username)
    (htexts : t'.pendingTexts names = t.pendingTexts names)
    (hroom : t'.pendingRoom names = t.pendingRoom names)
    (hinvalid : t'.pc ≠ .sender .invalid) :
    SessionAgrees names username t' (calls ++ [e]) texts := by
  have hsent := sentFrames_of_not_exchange he
  have hreceived := receivedLines_of_not_exchange he
  refine ⟨?_, ?_, ?_, fun hpc => absurd hpc hinvalid⟩
  · rw [sentFrames_append, receivedLines_append, hsent, hreceived, List.append_nil,
      List.append_nil, hreplies, h.replies]
  · rw [receivedLines_append, hreceived, List.append_nil, htexts, h.texts]
  · rw [receivedLines_append, hreceived, List.append_nil, hroom, h.room]

/-- The first of the pending replies is sent. -/
theorem SessionAgrees.sent {reply : Message} {ok : Bool}
    (h : SessionAgrees names username t calls texts)
    (hreplies : t.pendingReplies names username = reply :: t'.pendingReplies names username)
    (htexts : t'.pendingTexts names = t.pendingTexts names)
    (hroom : t'.pendingRoom names = t.pendingRoom names)
    (hinvalid : t'.pc ≠ .sender .invalid) :
    SessionAgrees names username t' (calls ++ [.sent reply ok]) texts := by
  have hreceived : receivedLines [Event.sent reply ok] = [] := rfl
  refine ⟨?_, ?_, ?_, fun hpc => absurd hpc hinvalid⟩
  · rw [sentFrames_append, receivedLines_append, hreceived, List.append_nil, ← h.replies,
      hreplies]
    simp [sentFrames]
  · rw [receivedLines_append, hreceived, List.append_nil, htexts, h.texts]
  · rw [receivedLines_append, hreceived, List.append_nil, hroom, h.room]

/-- A session that waits for its next request. -/
theorem SessionAgrees.waiting (h : SessionAgrees names username t calls texts)
    (hpc : t.pc = .sender .receive) :
    sentFrames calls = (senderSession username (receivedLines calls)).replies ∧
      texts.map (fun p => (names p.1, p.2)) =
        (senderSession username (receivedLines calls)).texts ∧
      t.room.map names = (senderSession username (receivedLines calls)).room := by
  refine ⟨?_, ?_, ?_⟩
  · simpa [Thread.pendingReplies, hpc] using h.replies
  · simpa [Thread.pendingTexts, hpc] using h.texts
  · simpa [Thread.pendingRoom, hpc] using h.room

/-- A request is dispatched on. -/
theorem SessionAgrees.dispatched {m : Message} {line : Bytes}
    (h : SessionAgrees names username t calls texts) (hpc : t.pc = .sender .receive)
    (hdec : decode line = some m) :
    SessionAgrees names username ({ t with msg := m } : Thread).dispatch
      (calls ++ [.received (some line)]) texts := by
  rcases h.waiting hpc with ⟨hreplies, htexts, hroom⟩
  have hlines : receivedLines [Event.received (some line)] = [some line] := rfl
  have hsent : sentFrames [Event.received (some line)] = [] := rfl
  have hreceive : ∀ σ : SenderSession, σ.receive username (some line) = σ.request username m := by
    intro σ
    simp [SenderSession.receive, hdec]
  obtain ⟨hreplies', htexts', hroom'⟩ :=
    ({ t with msg := m } : Thread).dispatch_request names username hroom
  refine ⟨?_, ?_, ?_, fun hinvalid => absurd hinvalid (Thread.dispatch_ne_invalid _)⟩
  · rw [receivedLines_append, hlines, senderSession_append, hreceive, ← hreplies',
      sentFrames_append, hsent, List.append_nil, hreplies]
  · rw [receivedLines_append, hlines, senderSession_append, hreceive, ← htexts', htexts]
  · rw [receivedLines_append, hlines, senderSession_append, hreceive, ← hroom']

/-- After the request loop nothing is pending. -/
theorem SessionAgrees.breakLoop {reply : Message} {ok : Bool}
    (h : SessionAgrees names username t calls texts)
    (hreplies : t.pendingReplies names username = [reply]) (htexts : t.pendingTexts names = [])
    (hroom : t.pendingRoom names = t.room.map names) :
    SessionAgrees names username t.breakLoop (calls ++ [.sent reply ok]) texts := by
  unfold Thread.breakLoop
  split_ifs
  · exact h.sent hreplies htexts.symm hroom.symm (by simp [Thread.goto])
  · exact h.sent hreplies htexts.symm hroom.symm (by simp [Thread.goto])

/-- Every call of a sender keeps its session in the middle of the sequential program. -/
theorem chatWithSender_agrees {user : User} {p : SenderPc} (hpc : t.pc = .sender p)
    (hjoined : t.pc = .sender .joined → t.room.map names = some t.msg.data)
    (h : SessionAgrees names user.username t calls texts) :
    (chatWithSender user names t p).Called fun t' e =>
      SessionAgrees names user.username t' (calls ++ [e])
        (texts ++ (chatWithSender user names t p).newTexts) := by
  let Q (op : Op) : Prop := op.Called fun t' e =>
    SessionAgrees names user.username t' (calls ++ [e]) (texts ++ op.newTexts)
  change Q (chatWithSender user names t p)
  cases p with
  | receive =>
      simp only [Q, chatWithSender, Op.newTexts, List.append_nil]
      rcases h.waiting hpc with ⟨hreplies, htexts, hroom⟩
      refine ⟨?_, fun line _ _ => ⟨fun hdec => ?_, fun m result hdec => ?_⟩⟩
      · have hlines : receivedLines [Event.received none] = [none] := rfl
        constructor
        · rw [receivedLines_append, hlines, senderSession_append, sentFrames_append, hreplies]
          simp [sentFrames, Thread.pendingReplies, SenderSession.receive]
        · rw [receivedLines_append, hlines, senderSession_append, htexts]
          exact List.append_nil _
        · rw [receivedLines_append, hlines, senderSession_append]
          exact hroom
        · exact fun hinvalid => by cases hinvalid
      · have hlines : receivedLines [Event.received (some line)] = [some line] := rfl
        have hreceive : ∀ σ : SenderSession, σ.receive user.username (some line) =
            (σ.refuse .invalidMessage).refuse .invalidMessageTag := by
          intro σ
          simp [SenderSession.receive, hdec]
        constructor
        · rw [receivedLines_append, hlines, senderSession_append, hreceive, sentFrames_append,
            hreplies]
          simp [sentFrames, Thread.pendingReplies, SenderSession.refuse]
        · rw [receivedLines_append, hlines, senderSession_append, hreceive, htexts]
          exact List.append_nil _
        · rw [receivedLines_append, hlines, senderSession_append, hreceive]
          exact hroom
        · exact fun _ => rfl
      · exact h.dispatched hpc hdec
  | invalid =>
      simp only [Q, chatWithSender, Op.newTexts, List.append_nil]
      intro ok
      rw [Thread.dispatch_of_err (h.invalid hpc)]
      apply h.sent <;> simp [Thread.pendingReplies, Thread.pendingTexts, Thread.pendingRoom,
        Thread.goto, hpc]
  | eof =>
      simp only [Q, chatWithSender, Op.newTexts, List.append_nil]
      intro ok
      apply h.breakLoop <;> simp [Thread.pendingReplies, Thread.pendingTexts,
        Thread.pendingRoom, hpc]
  | refuse why =>
      simp only [Q, chatWithSender, Op.newTexts, List.append_nil]
      intro ok
      apply h.sent <;> simp [Thread.pendingReplies, Thread.pendingTexts, Thread.pendingRoom,
        Thread.goto, hpc]
  | switch =>
      refine deref_cases (Q := Q) trivial fun r _ => ?_
      simp only [Q, Op.newTexts, List.append_nil]
      apply h.silent rfl <;> simp [Thread.pendingReplies, Thread.pendingTexts,
        Thread.pendingRoom, Thread.goto, hpc]
  | find =>
      simp only [Q, chatWithSender, Op.newTexts, List.append_nil]
      intro r
      apply h.silent rfl <;> simp [Thread.pendingReplies, Thread.pendingTexts,
        Thread.pendingRoom, hpc]
  | add =>
      refine deref_cases (Q := Q) trivial fun r _ => ?_
      simp only [Q, Op.newTexts, List.append_nil]
      apply h.silent rfl <;> simp [Thread.pendingReplies, Thread.pendingTexts,
        Thread.pendingRoom, Thread.goto, hpc]
  | joined =>
      simp only [Q, chatWithSender, Op.newTexts, List.append_nil]
      intro ok
      have hroom := hjoined hpc
      apply h.sent <;> simp [Thread.pendingReplies, Thread.pendingTexts, Thread.pendingRoom,
        Thread.goto, joinedReply, hroom, hpc]
  | leave =>
      refine deref_cases (Q := Q) trivial fun r _ => ?_
      simp only [Q, Op.newTexts, List.append_nil]
      apply h.silent rfl <;> simp [Thread.pendingReplies, Thread.pendingTexts,
        Thread.pendingRoom, Thread.goto, hpc]
  | left =>
      refine deref_cases (Q := Q) trivial fun r hr => ?_
      simp only [Q, Op.newTexts, List.append_nil]
      intro ok
      apply h.sent <;> simp [Thread.pendingReplies, Thread.pendingTexts, Thread.pendingRoom,
        leftReply, hr, hpc]
  | quit =>
      simp only [Q, chatWithSender, Op.newTexts, List.append_nil]
      intro ok
      apply h.breakLoop <;> simp [Thread.pendingReplies, Thread.pendingTexts,
        Thread.pendingRoom, quitReply, hpc]
  | broadcast =>
      refine deref_cases (Q := Q) trivial fun r hr members => ?_
      have hreceived : receivedLines [Event.locked r] = [] := rfl
      have hsent : sentFrames [Event.locked r] = [] := rfl
      have hreplies := h.replies
      have htexts := h.texts
      have hroom := h.room
      simp only [Thread.pendingReplies, Thread.pendingTexts, Thread.pendingRoom, hpc, hr]
        at hreplies htexts hroom
      constructor
      · rw [receivedLines_append, hreceived, List.append_nil, sentFrames_append, hsent,
          List.append_nil]
        exact hreplies
      · rw [receivedLines_append, hreceived, List.append_nil, ← htexts]
        simp [Thread.pendingTexts, Thread.goto, Op.newTexts]
      · rw [receivedLines_append, hreceived, List.append_nil, ← hroom]
        simp [Thread.pendingRoom, Thread.goto, hr]
      · exact fun hinvalid => by cases hinvalid
  | visit rest =>
      refine deref_cases (Q := Q) trivial fun r _ => ?_
      simp only [Q]
      split_ifs
      · simp only [Op.newTexts, List.append_nil]
        apply h.silent rfl <;> simp [Thread.pendingReplies, Thread.pendingTexts,
          Thread.pendingRoom, Thread.goto, hpc]
      · simp only [Op.newTexts, List.append_nil]
        intro u
        apply h.silent rfl <;> simp [Thread.pendingReplies, Thread.pendingTexts,
          Thread.pendingRoom, Thread.goto, hpc]
  | sent =>
      simp only [Q, chatWithSender, Op.newTexts, List.append_nil]
      intro ok
      apply h.sent <;> simp [Thread.pendingReplies, Thread.pendingTexts, Thread.pendingRoom,
        Thread.goto, sentReply, hpc]
  | exit =>
      refine deref_cases (Q := Q) trivial fun r _ => ?_
      simp only [Q, Op.newTexts, List.append_nil]
      apply h.silent rfl <;> simp [Thread.pendingReplies, Thread.pendingTexts,
        Thread.pendingRoom, Thread.goto, hpc]

end

/-! ## Sessions in the server -/

/-- The texts of the broadcasts of a thread, with their rooms, in log order. -/
def State.ownTexts (s : State) (c : ConnId) : List (RoomPtr × Bytes) :=
  (s.broadcasts.filter fun b => b.author = c).map fun b => (b.room, b.text)

/-- The names of the rooms. -/
def State.names (s : State) : RoomPtr → Bytes :=
  fun r => (s.rooms r).roomName

/-- A call puts its texts into the log. -/
theorem Performed.ownTexts {s s' : State} {c : ConnId} {op : Op} (h : Performed s c op s')
    (d : ConnId) : s'.ownTexts d = s.ownTexts d ++ if d = c then op.newTexts else [] := by
  cases h with
  | locked r name text k hlock =>
      by_cases hdc : d = c
      · subst d
        simp [State.ownTexts, Op.newTexts]
      · simp [State.ownTexts, hdc, Ne.symm hdc]
  | visited r name text rest k u hu =>
      simp [State.ownTexts, Op.newTexts, List.filter_map, Function.comp_def]
  | _ => simp [State.ownTexts, Op.newTexts]

/-- The names of allocated rooms stay. -/
theorem Performed.names {s s' : State} {c : ConnId} {op : Op} (h : Performed s c op s')
    {r : RoomPtr} (hr : r < s.nextRoom) : s'.names r = s.names r := by
  cases h with
  | newRoom name k hroom => simp [State.names, State.newRoom, Nat.ne_of_lt hr]
  | added q k hlock => exact roomName_update (by simp) r
  | removed q k hlock => exact roomName_update (by simp) r
  | locked q name text k hlock =>
      have hname : ({ s.rooms q with lock := some c } : Room).roomName = (s.rooms q).roomName :=
        rfl
      exact roomName_update hname r
  | unlocked q k =>
      have hname : ({ s.rooms q with lock := none } : Room).roomName = (s.rooms q).roomName := rfl
      exact roomName_update hname r
  | _ => rfl

/-- The session of a thread does not depend on rooms that it does not know. -/
theorem SessionAgrees.congr {names names' : RoomPtr → Bytes} {username : Bytes} {t : Thread}
    {calls : List Event} {texts : List (RoomPtr × Bytes)}
    (h : SessionAgrees names username t calls texts)
    (hroom : ∀ r, t.room = some r → names' r = names r)
    (htexts : ∀ p ∈ texts, names' p.1 = names p.1) :
    SessionAgrees names' username t calls texts := by
  have hmap : texts.map (fun p => (names' p.1, p.2)) =
      texts.map (fun p => (names p.1, p.2)) :=
    List.map_congr_left fun p hp => by rw [htexts p hp]
  have hreplies : t.pendingReplies names' username = t.pendingReplies names username := by
    unfold Thread.pendingReplies
    cases hr : t.room with
    | none => rfl
    | some r => simp only [hroom r hr]
  have hpending : t.pendingTexts names' = t.pendingTexts names := by
    unfold Thread.pendingTexts
    cases hr : t.room with
    | none => rfl
    | some r => simp only [hroom r hr]
  have hpendingRoom : t.pendingRoom names' = t.pendingRoom names := by
    unfold Thread.pendingRoom
    cases hr : t.room with
    | none => rfl
    | some r => simp only [Option.map_some, hroom r hr]
  refine ⟨?_, ?_, ?_, h.invalid⟩
  · rw [hreplies, h.replies]
  · rw [hmap, hpending, h.texts]
  · rw [hpendingRoom, h.room]

/-- The session of a thread: workers have none yet, senders are in the middle of the
sequential program, and returned senders have finished it. -/
def State.SessionOf (s : State) (c : ConnId) : Prop :=
  match (s.threads c).pc with
  | .absent | .worker _ =>
      s.chatCalls c = [] ∧ s.ownTexts c = [] ∧ (s.threads c).room = none
  | .sender _ =>
      SessionAgrees s.names (s.threads c).login.data (s.threads c) (s.chatCalls c)
        (s.ownTexts c)
  | .receiver _ => True
  | .done =>
      (s.threads c).login.tag = tagSlogin →
        SessionAgrees s.names (s.threads c).login.data (s.threads c) (s.chatCalls c)
          (s.ownTexts c)

/-- A session that has not received anything. -/
theorem sessionAgrees_nil (names : RoomPtr → Bytes) (username : Bytes) {t : Thread}
    (hpc : t.pc = .sender .receive ∨ t.pc = .done) (hroom : t.room = none) :
    SessionAgrees names username t [] [] := by
  rcases hpc with hpc | hpc
  · constructor <;> simp [sentFrames, receivedLines, senderSession, Thread.pendingReplies,
      Thread.pendingTexts, Thread.pendingRoom, hpc, hroom]
  · constructor <;> simp [sentFrames, receivedLines, senderSession, Thread.pendingReplies,
      Thread.pendingTexts, Thread.pendingRoom, hpc, hroom]

/-- A worker without a room stays without one until its chat function begins. -/
theorem worker_roomless {t : Thread} (hroom : t.room = none) (p : WorkerPc) :
    (worker t p).Called fun t' _ => t'.room = none ∧
      ((∃ q, t'.pc = .worker q) ∨ t'.pc = .sender .receive ∨ t'.pc = .receiver .receive ∨
        t'.pc = .done) := by
  cases p with
  | receive =>
      apply called_receive
      intro ok result m line hnewline
      split_ifs
      · exact ⟨hroom, .inl ⟨_, rfl⟩⟩
      · exact ⟨hroom, .inl ⟨_, rfl⟩⟩
      · exact ⟨hroom, .inl ⟨_, rfl⟩⟩
      · exact ⟨hroom, .inr (.inr (.inr rfl))⟩
  | refuse why => exact fun _ => ⟨hroom, .inr (.inr (.inr rfl))⟩
  | newUser => exact ⟨hroom, .inl ⟨_, rfl⟩⟩
  | welcome =>
      intro ok
      dsimp only
      split_ifs
      · exact ⟨hroom, .inr (.inr (.inr rfl))⟩
      · exact ⟨rfl, .inr (.inr (.inl rfl))⟩
      · exact ⟨rfl, .inr (.inl rfl)⟩
      · exact ⟨hroom, .inr (.inr (.inr rfl))⟩

/-- {lit}`worker` broadcasts nothing. -/
theorem worker_newTexts (t : Thread) (p : WorkerPc) : (worker t p).newTexts = [] := by
  cases p <;> rfl

/-- The rooms that a thread knows are allocated. -/
theorem knownRooms {s : State} (hs : server.Reachable s) (c : ConnId) :
    (∀ r, (s.threads c).room = some r → r < s.nextRoom) ∧
      ∀ p ∈ s.ownTexts c, p.1 < s.nextRoom := by
  refine ⟨fun r => reachable_room_lt hs, ?_⟩
  intro p hp
  rcases List.mem_map.mp hp with ⟨b, hb, rfl⟩
  exact ((reachable_broadcastLog hs).message b (List.mem_of_mem_filter hb)).1

/-- A call of a worker keeps its session. -/
theorem Performed.session_worker {s s' : State} {c : ConnId} {p : WorkerPc}
    (h : Performed s c (code s c) s') (hpc : (s.threads c).pc = .worker p)
    (hsession : s.SessionOf c) : s'.SessionOf c := by
  have hcode : code s c = worker (s.threads c) p := Thread.code_worker hpc
  unfold State.SessionOf at hsession
  rw [hpc] at hsession
  rcases hsession with ⟨hcalls, htexts, hroom⟩
  rw [hcode] at h
  have htexts' : s'.ownTexts c = [] := by
    rw [h.ownTexts, htexts, worker_newTexts]
    simp
  obtain ⟨s₁, t, e, rfl, ⟨hroom', hpc'⟩, hthreads, -, hchat, -⟩ :=
    h.called (worker_roomless hroom p)
  have hcalls' : (s₁.resume c t e).chatCalls c = [] := by
    rw [State.chatCalls_resume_worker t e (by rwa [hthreads]), hchat, hcalls]
  have hthread' : (s₁.resume c t e).threads c = t := by simp
  unfold State.SessionOf
  rw [hthread', hcalls', htexts']
  rcases hpc' with ⟨q, hq⟩ | hq | hq | hq
  · rw [hq]
    exact ⟨rfl, rfl, hroom'⟩
  · rw [hq]
    exact sessionAgrees_nil _ _ (.inl hq) hroom'
  · rw [hq]
    exact trivial
  · rw [hq]
    exact fun _ => sessionAgrees_nil _ _ (.inr hq) hroom'

/-- A call of a sender keeps its session. -/
theorem Performed.session_sender {s s' : State} (hs : server.Reachable s) {c : ConnId}
    {p : SenderPc} (h : Performed s c (code s c) s') (hpc : (s.threads c).pc = .sender p)
    (hsession : s.SessionOf c) : s'.SessionOf c := by
  have hcode : code s c = chatWithSender (s.users c) s.names (s.threads c) p :=
    Thread.code_sender hpc
  have husername := reachable_username hs (.inl (by rw [hpc]; rfl))
  rcases knownRooms hs c with ⟨hroom, htexts⟩
  unfold State.SessionOf at hsession
  rw [hpc] at hsession
  have hagrees := hsession.congr (fun r hr => h.names (hroom r hr))
    fun q hq => h.names (htexts q hq)
  have hjoined : (s.threads c).pc = .sender .joined →
      (s.threads c).room.map s'.names = some (s.threads c).msg.data := by
    intro hpc'
    rcases (reachable_located hs c).requested (by rw [hpc']; rfl) with ⟨r, hr, hname⟩
    rw [hr, Option.map_some, h.names (hroom r hr)]
    exact congrArg some (reachable_registry hs _ r hname).2
  rw [chatWithSender_congr (fun r hr => (h.names (hroom r hr)).symm)] at hcode
  rw [← husername] at hagrees
  have hstep := (chatWithSender_agrees hpc hjoined hagrees).and
    (chatWithSender_stays (s.users c) s'.names (s.threads c) p)
  have htexts' := h.ownTexts c
  rw [hcode] at h htexts'
  rw [if_pos rfl] at htexts'
  obtain ⟨s₁, t, e, heq, ⟨hagrees', hstays⟩, hthreads, -, hchat, -⟩ := h.called hstep
  have hthread' : s'.threads c = t := by simp [heq]
  have hcalls' : s'.chatCalls c = s.chatCalls c ++ [e] := by
    rw [heq, State.chatCalls_resume, hchat, update_self]
    intro q hq
    rw [hthreads, hpc] at hq
    cases hq
  rw [husername, ← hstays.login, ← htexts', ← hcalls', ← hthread'] at hagrees'
  have hpc' := hstays.pc
  rw [← hthread'] at hpc'
  unfold State.SessionOf
  cases hq : (s'.threads c).pc with
  | sender q => exact hagrees'
  | done => exact fun _ => hagrees'
  | _ => simp [hq, Pc.isSender] at hpc'

/-- A call of another thread keeps a session. -/
theorem session_other {s s' : State} (hs : server.Reachable s) {a : Action} {c : ConnId}
    (hstep : server.step s a = some s') (hc : a.conn ≠ c) (hsession : s.SessionOf c) :
    s'.SessionOf c := by
  have hthread := (step_other hstep hc).1
  rcases knownRooms hs c with ⟨hroom, htexts⟩
  rcases step_cases hstep with ⟨d, fdbuf, -, rfl⟩ | ⟨d, env, rfl, hperf⟩
  · have hsame : (s.accept d fdbuf).SessionOf c ↔ s.SessionOf c := by
      unfold State.SessionOf
      rw [hthread]
      rfl
    exact hsame.mpr hsession
  · have hdc : c ≠ d := Ne.symm hc
    have htexts' : s'.ownTexts c = s.ownTexts c := by
      rw [hperf.ownTexts, if_neg hdc, List.append_nil]
    have hchat' : s'.chatCalls c = s.chatCalls c := hperf.chatCalls (.inl hdc)
    have hcongr : ∀ {username : Bytes},
        SessionAgrees s.names username (s.threads c) (s.chatCalls c) (s.ownTexts c) →
        SessionAgrees s'.names username (s.threads c) (s.chatCalls c) (s.ownTexts c) :=
      fun h => h.congr (fun r hr => hperf.names (hroom r hr))
        fun q hq => hperf.names (htexts q hq)
    unfold State.SessionOf at hsession ⊢
    rw [hthread, htexts', hchat']
    split at hsession
    · exact hsession
    · exact hsession
    · exact hcongr hsession
    · exact trivial
    · exact fun hlogin => hcongr (hsession hlogin)

/-- In every reachable state the session of every thread is in order. -/
theorem reachable_sessionOf {s : State} (hs : server.Reachable s) (c : ConnId) :
    s.SessionOf c := by
  refine hs.invariant (P := fun s => s.SessionOf c) ⟨rfl, rfl, rfl⟩ ?_
  intro s a s' hs hstep hsession
  by_cases hc : a.conn = c
  · cases a with
    | accept d reads ending =>
        cases hc
        rcases accept_step hstep with ⟨habsent, rfl⟩
        unfold State.SessionOf at hsession ⊢
        rw [show (s.threads (Action.accept d reads ending).conn).pc = .absent from habsent]
          at hsession
        simp only [State.accept_threads, Action.conn, update_self]
        exact ⟨hsession.1, hsession.2.1, trivial⟩
    | run d env =>
        cases hc
        have hperf := performed_of_perform hstep
        cases hpc : (s.threads d).pc with
        | worker p => exact hperf.session_worker hpc hsession
        | sender p => exact hperf.session_sender hs hpc hsession
        | receiver p =>
            have hrole := (reachable_role hs d).receiver (by rw [hpc]; rfl)
            have hcode : code s d = chatWithReceiver (s.threads d) p := Thread.code_receiver hpc
            rw [hcode] at hperf
            obtain ⟨s₁, t, e, rfl, hstays, -⟩ :=
              hperf.called (chatWithReceiver_stays (s.threads d) p)
            unfold State.SessionOf
            simp only [State.resume_threads, Action.conn, update_self]
            cases hq : t.pc with
            | receiver q => exact trivial
            | done =>
                intro hlogin
                rw [hstays.login, hrole] at hlogin
                exact absurd hlogin (by decide)
            | _ => simpa [hq, Pc.isReceiver] using hstays.pc
        | _ =>
            have hcode : code s d = .halt := by simp [code, Thread.code, hpc]
            rw [hcode] at hperf
            cases hperf
  · exact session_other hs hstep hc hsession

/-- The session of a sender that has left {lit}`worker` agrees with the sequential one. -/
theorem reachable_sessionAgrees {s : State} (hs : server.Reachable s) {c : ConnId}
    (hlogin : (s.threads c).login.tag = tagSlogin) (hworker : ∀ p, (s.threads c).pc ≠ .worker p) :
    SessionAgrees s.names (s.threads c).login.data (s.threads c) (s.chatCalls c)
      (s.ownTexts c) := by
  have hsession := reachable_sessionOf hs c
  unfold State.SessionOf at hsession
  cases hpc : (s.threads c).pc with
  | absent =>
      rw [reachable_absent hs hpc] at hlogin
      exact absurd hlogin (by decide)
  | worker p => exact absurd hpc (hworker p)
  | sender p =>
      rw [hpc] at hsession
      exact hsession
  | receiver p =>
      have hrole := (reachable_role hs c).receiver (by rw [hpc]; rfl)
      rw [hlogin] at hrole
      exact absurd hrole (by decide)
  | done =>
      rw [hpc] at hsession
      exact hsession hlogin

/-- While a sender waits for the next line, and after it has returned, its session is the
whole sequential one. -/
theorem SessionAgrees.complete {names : RoomPtr → Bytes} {username : Bytes} {t : Thread}
    {calls : List Event} {texts : List (RoomPtr × Bytes)}
    (h : SessionAgrees names username t calls texts)
    (hpc : t.pc = .sender .receive ∨ t.pc = .done) :
    sentFrames calls = (senderSession username (receivedLines calls)).replies ∧
      texts.map (fun p => (names p.1, p.2)) =
        (senderSession username (receivedLines calls)).texts ∧
      t.room.map names = (senderSession username (receivedLines calls)).room := by
  have hreplies := h.replies
  have htexts := h.texts
  have hroom := h.room
  rcases hpc with hpc | hpc
  · simp only [Thread.pendingReplies, Thread.pendingTexts, Thread.pendingRoom, hpc,
      List.append_nil] at hreplies htexts hroom
    exact ⟨hreplies, htexts, hroom⟩
  · simp only [Thread.pendingReplies, Thread.pendingTexts, Thread.pendingRoom, hpc,
      List.append_nil] at hreplies htexts hroom
    exact ⟨hreplies, htexts, hroom⟩

/-- In every reachable state, whatever the other threads do, the replies and the
broadcasts of a sender are the first ones of the sequential program on the lines that it
has received.  While it waits for the next line, and after it has returned, they are all
of them, and its room is the one of the program. -/
theorem sender_session_sequential {s : State} (hs : server.Reachable s) {c : ConnId}
    (hlogin : (s.threads c).login.tag = tagSlogin) (hworker : ∀ p, (s.threads c).pc ≠ .worker p) :
    let σ := senderSession (s.threads c).login.data (receivedLines (s.chatCalls c))
    let texts := (s.ownTexts c).map fun p => (s.names p.1, p.2)
    sentFrames (s.chatCalls c) <+: σ.replies ∧ texts <+: σ.texts ∧
      σ.texts.length ≤ texts.length + 1 ∧
      ((s.threads c).pc = .sender .receive ∨ (s.threads c).pc = .done →
        sentFrames (s.chatCalls c) = σ.replies ∧ texts = σ.texts ∧
          (s.threads c).room.map s.names = σ.room) := by
  intro σ texts
  have hagrees := reachable_sessionAgrees hs hlogin hworker
  have hpending : ((s.threads c).pendingTexts s.names).length ≤ 1 := by
    unfold Thread.pendingTexts
    split
    · split <;> simp
    · simp
  refine ⟨⟨_, hagrees.replies⟩, ⟨_, hagrees.texts⟩, ?_, ?_⟩
  · have hlen := congrArg List.length hagrees.texts
    rw [List.length_append] at hlen
    simp only [texts, σ]
    omega
  · exact hagrees.complete

/-- A sender that has joined a room and has sent a text, and is about to be told so. -/
theorem sender_session_sequential_text :
    ∃ s, server.run server.init
        (connect 0 (str "slogin:bob\njoin:hall\nsendall:hi\n") :: serve 0 9 ++
          [.run 0 { pick := 0 }, .run 0]) = some s ∧
      (let σ := senderSession (str "bob") (receivedLines (s.chatCalls 0))
       sentFrames (s.chatCalls 0) <+: σ.replies ∧
        ((s.ownTexts 0).map fun p => (s.names p.1, p.2)) <+: σ.texts) ∧
      sentFrames (s.chatCalls 0) = [joinedReply (str "hall")] := by
  have hrun : (server.run server.init
      (connect 0 (str "slogin:bob\njoin:hall\nsendall:hi\n") :: serve 0 9 ++
        [.run 0 { pick := 0 }, .run 0])).map
      (fun s => ((s.threads 0).login, (s.threads 0).pc, sentFrames (s.chatCalls 0))) =
      some ({ tag := tagSlogin, data := str "bob" }, .sender .sent,
        [joinedReply (str "hall")]) := by
    decide +kernel
  rcases TransitionSystem.exists_reachable_of_run hrun with ⟨s, hs, hobs, hreach⟩
  simp only [Prod.mk.injEq] at hobs
  obtain ⟨hlogin, hpc, hframes⟩ := hobs
  have hsession := sender_session_sequential hreach (c := 0) (by rw [hlogin])
    fun p hp => by rw [hpc] at hp; cases hp
  rw [hlogin] at hsession
  exact ⟨s, hs, ⟨hsession.1, hsession.2.1⟩, hframes⟩

/-! ## Acknowledgements -/

/-- The broadcasts of a thread, in log order. -/
def State.ownBroadcasts (s : State) (c : ConnId) : List Broadcast :=
  s.broadcasts.filter fun b => b.author = c

/-- The letter f occurs in the reply to a leave and not in the reply to a text. -/
theorem leftReply_ne (username roomName : Bytes) : leftReply username roomName ≠ sentReply := by
  intro heq
  have hdata := congrArg Message.data heq
  have hmem : (102 : Byte) ∈ sentReply.data := by
    rw [← hdata]
    simp only [leftReply, List.mem_append]
    exact .inl (.inr (by decide))
  exact absurd hmem (by decide)

/-- The reply to a join ends in an exclamation mark. -/
theorem joinedReply_ne (roomName : Bytes) : joinedReply roomName ≠ sentReply := by
  intro heq
  have hlast := congrArg (fun m => m.data.getLast?) heq
  simp only [joinedReply, str] at hlast
  rw [List.getLast?_append_of_ne_nil _ (by decide)] at hlast
  exact absurd hlast (by decide)

/-- An err reply is never the reply to a broadcast. -/
theorem Refusal.reply_ne (why : Refusal) : why.reply ≠ sentReply := by
  cases why <;> decide

/-- The sequential program acknowledges every text once. -/
theorem count_sentReply (username : Bytes) (lines : List (Option Bytes)) :
    (senderSession username lines).replies.count sentReply =
      (senderSession username lines).texts.length := by
  have hquit : quitReply ≠ sentReply := by decide
  have hrequest : ∀ (σ : SenderSession) (m : Message),
      σ.replies.count sentReply = σ.texts.length →
      (σ.request username m).replies.count sentReply = (σ.request username m).texts.length := by
    intro σ m h
    unfold SenderSession.request
    cases hroom : σ.room with
    | none =>
        split_ifs <;>
          simp [SenderSession.refuse, List.count_append, Refusal.reply_ne, joinedReply_ne,
            hquit, h]
    | some name =>
        split_ifs <;>
          simp [SenderSession.refuse, List.count_append, Refusal.reply_ne, joinedReply_ne,
            leftReply_ne, hquit, h]
  induction lines using List.reverseRecOn with
  | nil => rfl
  | append_singleton lines line ih =>
      rw [senderSession_append]
      cases line with
      | none => simp [SenderSession.receive, List.count_append, Refusal.reply_ne, ih]
      | some line =>
          cases hdec : decode line with
          | none =>
              simp [SenderSession.receive, hdec, SenderSession.refuse, List.count_append,
                Refusal.reply_ne, ih]
          | some m =>
              simp only [SenderSession.receive, hdec]
              exact hrequest _ m ih

/-- A reply to a text is pending from the text to its acknowledgement. -/
theorem count_pendingReplies (t : Thread) (names : RoomPtr → Bytes) (username : Bytes) :
    (t.pendingTexts names).length + (if t.pc.unanswered.isSome then 1 else 0) ≤
      (t.pendingReplies names username).count sentReply := by
  unfold Thread.pendingTexts Thread.pendingReplies Pc.unanswered
  cases hpc : t.pc with
  | sender p =>
      cases p with
      | broadcast =>
          cases t.room <;> simp
      | _ => simp
  | _ => simp

/-- The last broadcast of a thread stands behind its finished ones. -/
theorem Latest.filter {log : List Broadcast} {b : Broadcast} {c : ConnId} (h : Latest log b)
    (hauthor : b.author = c) :
    ∃ finished, log.filter (fun b' => b'.author = c) = finished ++ [b] ∧
      ∀ b' ∈ finished, b'.rest = ∅ := by
  rcases h with ⟨earlier, later, rfl, hearlier, hlater⟩
  subst c
  refine ⟨earlier.filter fun b' => b'.author = b.author, ?_, ?_⟩
  · have hnone : later.filter (fun b' => b'.author = b.author) = [] := by
      rw [List.filter_eq_nil_iff]
      intro b' hb'
      simpa using hlater b' hb'
    rw [List.filter_append, List.filter_cons_of_pos (by simp), hnone]
  · intro b' hb'
    rw [List.mem_filter, decide_eq_true_eq] at hb'
    exact hearlier b' hb'.1 hb'.2

/-- The broadcasts of a thread are finished, except the last one before its reply. -/
theorem finished_of_lt {s : State} (hs : server.Reachable s) {c : ConnId} {i : ℕ} {b : Broadcast}
    (hb : (s.ownBroadcasts c)[i]? = some b)
    (hi : (s.threads c).pc.unanswered.isSome → i + 1 < (s.ownBroadcasts c).length) :
    b.rest = ∅ := by
  have hlog := reachable_broadcastLog hs
  cases hpc : (s.threads c).pc.unanswered with
  | none =>
      have hmem := List.mem_of_getElem? hb
      rw [State.ownBroadcasts, List.mem_filter, decide_eq_true_eq] at hmem
      by_contra hrest
      have hvisiting := (hlog.unfinished b hmem.1 hrest).1
      rw [hmem.2] at hvisiting
      rw [Pc.unanswered_of_visiting hvisiting] at hpc
      cases hpc
  | some rest =>
      rcases hlog.served c rest hpc with ⟨b', hlatest, hauthor, -⟩
      rcases hlatest.filter hauthor with ⟨finished, hown, hfinished⟩
      have hlt := hi (by rw [hpc]; rfl)
      rw [State.ownBroadcasts, hown] at hb hlt
      rw [List.length_append, List.length_singleton] at hlt
      rw [List.getElem?_append_left (by omega)] at hb
      exact hfinished b (List.mem_of_getElem? hb)

/-- When a sender has been told {lit}`k` times that its text was sent to all users, its
first {lit}`k` texts have been put into the queue of every user that was a member of the
room when the broadcast began and that has another name. -/
theorem acknowledged_texts_broadcast {s : State} (hs : server.Reachable s) {c : ConnId}
    (hlogin : (s.threads c).login.tag = tagSlogin) (hworker : ∀ p, (s.threads c).pc ≠ .worker p)
    {i : ℕ} (hi : i < (sentFrames (s.chatCalls c)).count sentReply) :
    ∃ b, (s.ownBroadcasts c)[i]? = some b ∧ b.rest = ∅ ∧
      (senderSession (s.threads c).login.data (receivedLines (s.chatCalls c))).texts[i]? =
        some (s.names b.room, b.text) ∧
      ∀ u ∈ b.members, b.username ≠ (s.users u).username → b.message ∈ s.obtained u := by
  have hagrees := reachable_sessionAgrees hs hlogin hworker
  have hreplies := congrArg (List.count sentReply) hagrees.replies
  have htexts := congrArg List.length hagrees.texts
  have hpending := count_pendingReplies (s.threads c) s.names (s.threads c).login.data
  rw [List.count_append, count_sentReply] at hreplies
  rw [List.length_append, List.length_map, State.ownTexts, List.length_map] at htexts
  have hlen : i + (if (s.threads c).pc.unanswered.isSome then 1 else 0) <
      (s.ownBroadcasts c).length := by
    rw [State.ownBroadcasts]
    omega
  have hlt : i < (s.ownBroadcasts c).length := by omega
  have hb : (s.ownBroadcasts c)[i]? = some (s.ownBroadcasts c)[i] :=
    List.getElem?_eq_getElem hlt
  have hrest : (s.ownBroadcasts c)[i].rest = ∅ := by
    refine finished_of_lt hs hb fun hunanswered => ?_
    rwa [if_pos hunanswered] at hlen
  refine ⟨(s.ownBroadcasts c)[i], hb, hrest, ?_, ?_⟩
  · rw [← hagrees.texts, List.getElem?_append_left, List.getElem?_map, State.ownTexts,
      List.getElem?_map]
    · have hb' : (s.broadcasts.filter fun b => b.author = c)[i]? =
          some (s.ownBroadcasts c)[i] := hb
      rw [hb']
      rfl
    · rw [List.length_map, State.ownTexts, List.length_map]
      exact hlt
  · intro u hu hname
    have hmem := List.mem_of_mem_filter (List.mem_of_getElem? hb)
    exact mem_obtained hs hmem hrest hu hname

/-- A text that was sent to one member and acknowledged. -/
theorem acknowledged_texts_broadcast_one :
    ∃ s, server.run server.init
        (connect 0 (str "rlogin:ann\njoin:hall\n") :: serve 0 7 ++
          connect 1 (str "slogin:bob\njoin:hall\nsendall:hi\n") :: serve 1 9 ++
          [.run 1 { pick := 0 }, .run 1 { pick := 1 }, .run 1, .run 1]) = some s ∧
      ∃ b, (s.ownBroadcasts 1)[0]? = some b ∧ b.rest = ∅ ∧
        ∀ u ∈ b.members, b.username ≠ (s.users u).username → b.message ∈ s.obtained u := by
  have hrun : (server.run server.init
      (connect 0 (str "rlogin:ann\njoin:hall\n") :: serve 0 7 ++
        connect 1 (str "slogin:bob\njoin:hall\nsendall:hi\n") :: serve 1 9 ++
        [.run 1 { pick := 0 }, .run 1 { pick := 1 }, .run 1, .run 1])).map
      (fun s => ((s.threads 1).login.tag, (s.threads 1).pc,
        (sentFrames (s.chatCalls 1)).count sentReply)) =
      some (tagSlogin, .sender .receive, 1) := by
    decide +kernel
  rcases TransitionSystem.exists_reachable_of_run hrun with ⟨s, hs, hobs, hreach⟩
  simp only [Prod.mk.injEq] at hobs
  obtain ⟨hlogin, hpc, hcount⟩ := hobs
  obtain ⟨b, hb, hrest, -, hobtained⟩ := acknowledged_texts_broadcast hreach (c := 1) hlogin
    (fun p hp => by rw [hpc] at hp; cases hp) (i := 0) (by omega)
  exact ⟨s, hs, b, hb, hrest, hobtained⟩

end ChatServer
