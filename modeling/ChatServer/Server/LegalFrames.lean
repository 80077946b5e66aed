import ChatServer.Server.ReceiverSession

/-!
# The length of outgoing frames

The server composes its frames from names and texts that were received in other
frames, and checks no total.  Names and texts never contain a newline, so every
outgoing frame is a single line; whether it fits the limit depends on the
lengths of its parts, and the bounds are exact.

Main results:

- Theorem {lit}`reachable_oneLine`: names and texts are free of newlines.
- Theorem {lit}`send_fitsLine_iff`: the frame of a send is legal iff its parts
  are short enough.
- Theorem {lit}`legal_frames_iff`: a run sends legal frames only iff the parts of
  all its frames are short enough.

Current gaps:

- None for the frames passed to {lit}`send`.
-/

namespace ChatServer

open Function

/-! ## Legal frames -/

/-- The encoding fits the limit and has its only newline at the end. -/
def Message.FitsLine (m : Message) : Prop :=
  m.encoding.length ≤ maxLen ∧ newline ∉ m.encoding.dropLast

/-- A frame is legal when its parts, the colon and the newline fit into 255 characters and no
part holds a newline. -/
theorem Message.fitsLine_iff {m : Message} :
    m.FitsLine ↔
      m.tag.length + m.data.length + 2 ≤ maxLen ∧ newline ∉ m.tag ∧ newline ∉ m.data := by
  have hshape : m.encoding.dropLast = m.tag ++ colon :: m.data := by
    rw [encoding, List.dropLast_concat]
    simp
  have hcolon : newline ≠ colon := by decide
  simp [FitsLine, hshape, length_encoding, hcolon]

/-- A history that passes {lit}`m` to {lit}`send`. -/
def State.Sends (s : State) (m : Message) : Prop :=
  ∃ c ok, .sent m ok ∈ s.loginCalls c ∨ .sent m ok ∈ s.chatCalls c

/-- Every frame passed to {lit}`send` so far is legal. -/
def AllLegal (s : State) : Prop :=
  ∀ m, s.Sends m → m.FitsLine

/-- The parts of the frame that is sent at a control point are short enough; the
frames of the other control points have a fixed text. -/
def FramePartsFit (s : State) (c : ConnId) : Pc → Prop
  | .worker .welcome => (s.threads c).login.data.length ≤ 242
  | .sender .joined => (s.threads c).msg.data.length ≤ 231
  | .sender .left =>
      ∀ r ∈ (s.threads c).room,
        (s.users c).username.length + (s.rooms r).roomName.length ≤ 232
  | .receiver (.deliver newMsg) =>
      ∀ b ∈ s.broadcasts, b.message = newMsg →
        (s.rooms b.room).roomName.length + b.username.length + b.text.length ≤ 243
  | _ => True

/-- If the step sends a frame, the parts of the frame are short enough. -/
def PartsFit (s : State) : Action → Prop
  | .accept _ _ _ => True
  | .run c _ => FramePartsFit s c (s.threads c).pc

instance (s : State) (c : ConnId) (pc : Pc) : Decidable (FramePartsFit s c pc) := by
  unfold FramePartsFit
  split <;> infer_instance

instance (s : State) : (a : Action) → Decidable (PartsFit s a)
  | .accept _ _ _ => isTrue trivial
  | .run c _ => inferInstanceAs (Decidable (FramePartsFit s c (s.threads c).pc))

/-! ## Names and texts without newlines -/

/-- The messages of a thread hold no newline. -/
structure Thread.OneLine (t : Thread) : Prop where
  login : newline ∉ t.login.data
  msg : newline ∉ t.msg.data

/-- The first phase of a connection keeps its messages free of newlines: a decoded message is one
line. -/
theorem worker_oneLine {t : Thread} (p : WorkerPc) (h : t.OneLine) :
    (worker t p).Called fun t' _ => t'.OneLine := by
  cases p with
  | receive =>
      apply called_receive
      intro ok result m _ hm
      split_ifs <;> exact ⟨hm h.login, h.msg⟩
  | refuse why => exact fun _ => ⟨h.login, h.msg⟩
  | newUser => exact ⟨h.login, h.msg⟩
  | welcome =>
      intro ok
      dsimp only
      split_ifs
      · exact ⟨h.login, h.msg⟩
      · exact ⟨h.login, by simp⟩
      · exact ⟨h.login, by simp⟩
      · exact ⟨h.login, h.msg⟩

/-- Every call of a thread keeps its messages free of newlines. -/
theorem Thread.OneLine.code {t : Thread} (h : t.OneLine) (user : User)
    (getRoomName : RoomPtr → Bytes) :
    (t.code user getRoomName).Called fun t' _ => t'.OneLine := by
  apply Thread.code_cases
  · exact trivial
  · exact fun p _ => worker_oneLine p h
  · intro p _
    apply (chatWithSender_stays user getRoomName t p).imp
    exact fun t' _ hstays => ⟨hstays.login ▸ h.login, hstays.oneLine h.msg⟩
  · intro p _
    apply (chatWithReceiver_stays t p).imp
    exact fun t' _ hstays => ⟨hstays.login ▸ h.login, hstays.oneLine h.msg⟩

/-- In every reachable state the messages of the threads hold no newline. -/
theorem reachable_thread_oneLine {s : State} (hs : server.Reachable s) (c : ConnId) :
    (s.threads c).OneLine := by
  have hfresh : ∀ pc : Pc, ({ pc := pc } : Thread).OneLine := fun _ => ⟨by simp, by simp⟩
  exact history_invariant (I := fun t _ => t.OneLine) (hfresh _) (fun _ _ _ _ => hfresh _)
    (fun _ _ user getRoomName _ _ h => h.code user getRoomName)
    (fun _ user getRoomName _ _ h => h.code user getRoomName) hs c

/-- The names and texts that a call stores hold no newline. -/
def Op.StoresOneLine : Op → Prop
  | .newUser username _ => newline ∉ username
  | .findOrCreateRoom roomName _ => newline ∉ roomName
  | .lockRoom _ senderUsername messageText _ =>
      newline ∉ senderUsername ∧ newline ∉ messageText
  | _ => True

/-- What a thread stores comes from its messages or its username, so that it holds no newline. -/
theorem Thread.OneLine.storesOneLine {t : Thread} (h : t.OneLine) {user : User}
    (huser : newline ∉ user.username) (getRoomName : RoomPtr → Bytes) :
    (t.code user getRoomName).StoresOneLine := by
  apply Thread.code_cases
  · exact trivial
  · intro p _
    cases p with
    | newUser => exact h.login
    | _ => exact trivial
  · intro p _
    cases p with
    | find => exact h.msg
    | broadcast => exact deref_cases trivial fun r _ => ⟨huser, h.msg⟩
    | visit rest =>
        apply deref_cases trivial
        intro r _
        split_ifs <;> exact trivial
    | switch | add | leave | left | exit => exact deref_cases trivial fun r _ => trivial
    | _ => exact trivial
  · intro p _
    cases p with
    | find => exact h.msg
    | add | remove => exact deref_cases trivial fun r _ => trivial
    | _ => exact trivial

/-- The stored names and texts hold no newline. -/
structure OneLine (s : State) : Prop where
  users : ∀ c, newline ∉ (s.users c).username
  rooms : ∀ r, newline ∉ (s.rooms r).roomName
  broadcasts : ∀ b ∈ s.broadcasts, newline ∉ b.username ∧ newline ∉ b.text

/-- A call that stores names and texts without newlines keeps the stored ones so. -/
theorem Performed.oneLine {s s' : State} {c : ConnId} {op : Op} (h : Performed s c op s')
    (hop : op.StoresOneLine) (hs : OneLine s) : OneLine s' := by
  have hrooms : ∀ {r : RoomPtr} {room : Room}, room.roomName = (s.rooms r).roomName →
      ∀ q, newline ∉ (update s.rooms r room q).roomName := fun hname q => by
    rw [roomName_update hname]
    exact hs.rooms q
  have husers : ∀ {u : ConnId} {user : User}, newline ∉ user.username →
      ∀ d, newline ∉ (update s.users u user d).username := by
    intro u user huser d
    by_cases hdu : d = u
    · subst d
      simpa using huser
    · simpa [hdu] using hs.users d
  cases h with
  | newUser username k => exact ⟨husers hop, hs.rooms, hs.broadcasts⟩
  | newRoom name k hroom =>
      refine ⟨hs.users, fun r => ?_, hs.broadcasts⟩
      by_cases hr : r = s.nextRoom
      · subst r
        simpa [State.newRoom] using show newline ∉ name from hop
      · simpa [State.newRoom, hr] using hs.rooms r
  | added r k hlock => exact ⟨hs.users, hrooms (by simp), hs.broadcasts⟩
  | removed r k hlock => exact ⟨hs.users, hrooms (by simp), hs.broadcasts⟩
  | locked r name text k hlock =>
      refine ⟨hs.users, hrooms rfl, fun b hb => ?_⟩
      rcases List.mem_append.mp hb with hb | hb
      · exact hs.broadcasts b hb
      · rw [List.mem_singleton.mp hb]
        exact hop
  | visited r name text rest k u hu =>
      refine ⟨husers ?_, hs.rooms, fun b hb => ?_⟩
      · split
        · exact hs.users u
        · exact hs.users u
      · rcases List.mem_map.mp hb with ⟨b₀, hb₀, rfl⟩
        simpa using hs.broadcasts b₀ hb₀
  | unlocked r k => exact ⟨hs.users, hrooms rfl, hs.broadcasts⟩
  | dequeued k m mqueue hqueue => exact ⟨husers (hs.users c), hs.rooms, hs.broadcasts⟩
  | _ => exact ⟨hs.users, hs.rooms, hs.broadcasts⟩

/-- In every reachable state no username, room name or broadcast text holds a newline. -/
theorem reachable_oneLine {s : State} (hs : server.Reachable s) : OneLine s := by
  refine TransitionSystem.Reachable.invariant ?_ ?_ hs
  · exact ⟨fun _ => by simp [server], fun _ => by simp [server], fun _ h => by cases h⟩
  · intro s a s' hs hstep hone
    rcases step_cases hstep with ⟨c, fdbuf, -, rfl⟩ | ⟨c, env, -, hperf⟩
    · exact ⟨hone.users, hone.rooms, hone.broadcasts⟩
    · exact hperf.oneLine
        ((reachable_thread_oneLine hs c).storesOneLine (hone.users c) _) hone

/-! ## The frame of a send -/

/-- A frame with the tag ok is legal when its data is short enough and one line. -/
theorem fitsLine_tagOk {data : Bytes} :
    ({ tag := tagOk, data := data } : Message).FitsLine ↔
      data.length ≤ 251 ∧ newline ∉ data := by
  have htag : tagOk.length = 2 ∧ newline ∉ tagOk := by decide
  rw [Message.fitsLine_iff]
  simp only [htag, maxLen, true_and, not_false_eq_true]
  exact and_congr_left fun _ => by omega

/-- Every err reply is a legal frame. -/
theorem Refusal.fitsLine_reply (why : Refusal) : why.reply.FitsLine := by
  rw [Message.fitsLine_iff]
  cases why <;> decide

/-- The replies without a name always fit. -/
theorem fitsLine_fixedReply : quitReply.FitsLine ∧ sentReply.FitsLine ∧
    receiverJoinedReply.FitsLine ∧ emptyReply.FitsLine := by
  simp only [Message.fitsLine_iff]
  decide

/-- The greeting fits if the name has at most 242 bytes. -/
theorem fitsLine_welcomeReply {name : Bytes} (hname : newline ∉ name) :
    (welcomeReply name).FitsLine ↔ name.length ≤ 242 := by
  have hlen : (str "Welcome ").length = 8 ∧ (str "!").length = 1 := by decide
  have hfixed : newline ∉ str "Welcome " ∧ newline ∉ str "!" := by decide
  rw [welcomeReply, fitsLine_tagOk]
  simp only [List.length_append, List.mem_append, hlen, hfixed, hname, or_self,
    not_false_eq_true, and_true]
  omega

/-- The reply to a join fits if the name of the room has at most 231 bytes. -/
theorem fitsLine_joinedReply {name : Bytes} (hname : newline ∉ name) :
    (joinedReply name).FitsLine ↔ name.length ≤ 231 := by
  have hlen : (str "succesfully joined ").length = 19 ∧ (str "!").length = 1 := by decide
  have hfixed : newline ∉ str "succesfully joined " ∧ newline ∉ str "!" := by decide
  rw [joinedReply, fitsLine_tagOk]
  simp only [List.length_append, List.mem_append, hlen, hfixed, hname, or_self,
    not_false_eq_true, and_true]
  omega

/-- The reply to a leave fits if the two names together have at most 232 bytes. -/
theorem fitsLine_leftReply {username name : Bytes} (husername : newline ∉ username)
    (hname : newline ∉ name) :
    (leftReply username name).FitsLine ↔ username.length + name.length ≤ 232 := by
  have hlen : (str " has left the room ").length = 19 := by decide
  have hfixed : newline ∉ str " has left the room " := by decide
  rw [leftReply, fitsLine_tagOk]
  simp only [List.length_append, List.mem_append, hlen, hfixed, husername, hname, or_self,
    not_false_eq_true, and_true]
  omega

/-- A delivery is legal when room name, username and text have at most 243 characters together.
-/
theorem fitsLine_newMessage {room : Room} {username text : Bytes}
    (hroom : newline ∉ room.roomName) (husername : newline ∉ username)
    (htext : newline ∉ text) :
    (room.newMessage username text).FitsLine ↔
      room.roomName.length + username.length + text.length ≤ 243 := by
  have htag : tagDelivery.length = 8 ∧ newline ∉ tagDelivery := by decide
  have hcolon : newline ∉ [colon] := by decide
  rw [Message.fitsLine_iff]
  simp only [Room.newMessage, List.length_append, List.length_cons, List.length_nil,
    List.mem_append, htag, hcolon, hroom, husername, htext, or_self, not_false_eq_true,
    and_true, maxLen]
  omega

/-- The message that a receiver thread is about to deliver comes from a broadcast. -/
theorem exists_broadcast_of_deliver {s : State} (hs : server.Reachable s) {c : ConnId}
    {m : Message} (hpc : (s.threads c).pc = .receiver (.deliver m)) :
    ∃ b ∈ s.broadcasts, b.message = m := by
  have hsession := reachable_session hs c
  unfold InSession at hsession
  rw [hpc] at hsession
  have hdequeued : m ∈ dequeues (s.chatCalls c) := by
    rw [← reduceOption_dequeueResults, List.reduceOption_mem_iff]
    exact hsession.1
  have hobtained : m ∈ s.obtained c := List.mem_append_left _ hdequeued
  rw [reachable_obtained hs, State.delivered] at hobtained
  rcases List.mem_map.mp hobtained with ⟨b, hb, hmessage⟩
  exact ⟨b, List.mem_of_mem_filter hb, hmessage⟩

/-- The delivery that a receiver is about to send is legal when the parts of its broadcasts are
short enough. -/
theorem deliver_fitsLine_iff {s : State} (hs : server.Reachable s) {c : ConnId}
    {m : Message} (hpc : (s.threads c).pc = .receiver (.deliver m)) :
    m.FitsLine ↔ ∀ b ∈ s.broadcasts, b.message = m →
      (s.rooms b.room).roomName.length + b.username.length + b.text.length ≤ 243 := by
  have hone := reachable_oneLine hs
  have hfits : ∀ b ∈ s.broadcasts, b.message.FitsLine ↔
      (s.rooms b.room).roomName.length + b.username.length + b.text.length ≤ 243 := by
    intro b hb
    rw [((reachable_broadcastLog hs).message b hb).2]
    exact fitsLine_newMessage (hone.rooms _) (hone.broadcasts b hb).1 (hone.broadcasts b hb).2
  constructor
  · rintro hm b hb rfl
    exact (hfits b hb).mp hm
  · intro hparts
    rcases exists_broadcast_of_deliver hs hpc with ⟨b, hb, rfl⟩
    exact (hfits b hb).mpr (hparts b hb rfl)

/-- A frame with a fixed text fits whatever the state. -/
private theorem fitsLine_iff_true {m : Message} (h : m.FitsLine) : m.FitsLine ↔ True := by
  simp [h]

/-- Of the frames of {lit}`worker` only the welcome depends on a length. -/
theorem worker_fitsLine_iff {s : State} (hs : server.Reachable s) {c : ConnId}
    {p : WorkerPc} {m : Message} {k : Bool → Thread}
    (hcode : worker (s.threads c) p = .send m k) :
    m.FitsLine ↔ FramePartsFit s c (.worker p) := by
  cases p with
  | refuse why =>
      cases hcode
      exact fitsLine_iff_true why.fitsLine_reply
  | welcome =>
      cases hcode
      exact fitsLine_welcomeReply (reachable_thread_oneLine hs c).login
  | receive | newUser => cases hcode

/-- Of the frames of {lit}`chat_with_sender` the replies to join and leave depend on lengths. -/
theorem chatWithSender_fitsLine_iff {s : State} (hs : server.Reachable s) {c : ConnId}
    {p : SenderPc} {m : Message} {k : Bool → Thread}
    (hcode : chatWithSender (s.users c) (fun r => (s.rooms r).roomName) (s.threads c) p =
      .send m k) :
    m.FitsLine ↔ FramePartsFit s c (.sender p) := by
  have hone := reachable_oneLine hs
  cases p with
  | invalid =>
      cases hcode
      exact fitsLine_iff_true (Refusal.fitsLine_reply _)
  | eof =>
      cases hcode
      exact fitsLine_iff_true (Refusal.fitsLine_reply _)
  | refuse why =>
      cases hcode
      exact fitsLine_iff_true why.fitsLine_reply
  | joined =>
      cases hcode
      exact fitsLine_joinedReply (reachable_thread_oneLine hs c).msg
  | left =>
      cases hroom : (s.threads c).room with
      | none => simp [chatWithSender, hroom, deref] at hcode
      | some r =>
          rw [chatWithSender, hroom, deref] at hcode
          cases hcode
          rw [fitsLine_leftReply (hone.users c) (hone.rooms r)]
          simp [FramePartsFit, hroom]
  | quit =>
      cases hcode
      exact fitsLine_iff_true fitsLine_fixedReply.1
  | sent =>
      cases hcode
      exact fitsLine_iff_true fitsLine_fixedReply.2.1
  | receive | find => cases hcode
  | switch | add | leave | broadcast | exit =>
      cases hroom : (s.threads c).room <;> simp [chatWithSender, hroom, deref] at hcode
  | visit rest =>
      cases hroom : (s.threads c).room
      · simp [chatWithSender, hroom, deref] at hcode
      · simp only [chatWithSender, hroom, deref] at hcode
        split at hcode <;> cases hcode

/-- Of the frames of {lit}`chat_with_receiver` only the deliveries depend on lengths. -/
theorem chatWithReceiver_fitsLine_iff {s : State} (hs : server.Reachable s) {c : ConnId}
    {p : ReceiverPc} {m : Message} {k : Bool → Thread}
    (hpc : (s.threads c).pc = .receiver p)
    (hcode : chatWithReceiver (s.threads c) p = .send m k) :
    m.FitsLine ↔ FramePartsFit s c (.receiver p) := by
  cases p with
  | refuse why =>
      cases hcode
      exact fitsLine_iff_true why.fitsLine_reply
  | joined =>
      cases hcode
      exact fitsLine_iff_true fitsLine_fixedReply.2.2.1
  | deliver newMsg =>
      cases hcode
      exact deliver_fitsLine_iff hs hpc
  | empty =>
      cases hcode
      exact fitsLine_iff_true fitsLine_fixedReply.2.2.2
  | receive | find | dequeue => cases hcode
  | add | remove =>
      cases hroom : (s.threads c).room <;> simp [chatWithReceiver, hroom, deref] at hcode

/-- The frame of a send is legal iff its parts are short enough. -/
theorem send_fitsLine_iff {s : State} (hs : server.Reachable s) {c : ConnId} {m : Message}
    {k : Bool → Thread} (hcode : code s c = .send m k) :
    m.FitsLine ↔ FramePartsFit s c (s.threads c).pc := by
  cases hpc : (s.threads c).pc with
  | absent => simp [code, Thread.code, hpc] at hcode
  | worker p =>
      rw [code, Thread.code_worker hpc] at hcode
      exact worker_fitsLine_iff hs hcode
  | sender p =>
      rw [code, Thread.code_sender hpc] at hcode
      exact chatWithSender_fitsLine_iff hs hcode
  | receiver p =>
      rw [code, Thread.code_receiver hpc] at hcode
      exact chatWithReceiver_fitsLine_iff hs hpc hcode
  | done => simp [code, Thread.code, hpc] at hcode

/-- The control points whose frames have parts make a send. -/
theorem framePartsFit_of_not_send {s : State} {c : ConnId}
    (h : ∀ m k, code s c ≠ .send m k) : FramePartsFit s c (s.threads c).pc := by
  unfold FramePartsFit
  split
  · rename_i hpc
    rw [code, Thread.code_worker hpc] at h
    exact absurd rfl (h _ _)
  · rename_i hpc
    rw [code, Thread.code_sender hpc] at h
    exact absurd rfl (h _ _)
  · rename_i hpc
    intro r hroom
    rw [code, Thread.code_sender hpc, chatWithSender, hroom] at h
    exact absurd rfl (h _ _)
  · rename_i hpc
    rw [code, Thread.code_receiver hpc] at h
    exact absurd rfl (h _ _)
  · trivial

/-! ## Runs with legal frames -/

/-- A call passes to {lit}`send` the frame of its send, and no other. -/
theorem called_sends (op : Op) :
    op.Called fun _ e =>
      (∀ m ok, e = .sent m ok → ∃ k, op = .send m k) ∧
        ∀ m k, op = .send m k → ∃ ok, e = .sent m ok := by
  cases op with
  | halt => exact trivial
  | receive msg k =>
      exact ⟨by simp, fun line _ _ => ⟨fun _ => by simp, fun m result _ => by simp⟩⟩
  | send msg k => exact fun ok => by simp
  | newUser username k => simp [Op.Called]
  | findOrCreateRoom name k => simp [Op.Called]
  | addMember r k => simp [Op.Called]
  | removeMember r k => simp [Op.Called]
  | lockRoom r name text k => simp [Op.Called]
  | visitMember r name text rest k => simp [Op.Called]
  | unlockRoom r k => simp [Op.Called]
  | dequeue k => simp [Op.Called]

/-- A call adds at most its own frame to the frames passed to {lit}`send`. -/
theorem State.sends_resume {s₁ : State} {c : ConnId} {t : Thread} {e : Event} {m : Message} :
    (s₁.resume c t e).Sends m ↔ s₁.Sends m ∨ ∃ ok, e = .sent m ok := by
  have hupdate : ∀ (calls : ConnId → List Event) (d : ConnId) (ok : Bool),
      .sent m ok ∈ update calls c (calls c ++ [e]) d ↔
        .sent m ok ∈ calls d ∨ (d = c ∧ e = .sent m ok) := by
    intro calls d ok
    by_cases hdc : d = c
    · subst d
      simp [eq_comm]
    · simp [hdc]
  unfold State.Sends
  by_cases hworker : ∃ p, (s₁.threads c).pc = .worker p
  · rcases hworker with ⟨p, hpc⟩
    rw [State.loginCalls_resume_worker t e hpc, State.chatCalls_resume_worker t e hpc]
    simp only [hupdate]
    grind
  · rw [not_exists] at hworker
    rw [State.loginCalls_resume t e hworker, State.chatCalls_resume t e hworker]
    simp only [hupdate]
    grind

/-- After legal frames only, a step keeps all frames legal iff its parts fit. -/
theorem step_allLegal_iff {s s' : State} {a : Action} (hs : server.Reachable s)
    (hlegal : AllLegal s) (hstep : server.step s a = some s') :
    AllLegal s' ↔ PartsFit s a := by
  cases a with
  | accept c reads ending =>
      rcases step_cases hstep with ⟨d, fdbuf, -, rfl⟩ | ⟨d, env, ha, -⟩
      · exact ⟨fun _ => trivial, fun _ => hlegal⟩
      · cases ha
  | run c env =>
      have hperf : Performed s c (code s c) s' := performed_of_perform hstep
      obtain ⟨s₁, t, e, rfl, ⟨hnone, hsome⟩, -, hlogin, hchat, -⟩ :=
        hperf.called (called_sends (code s c))
      have hsends : ∀ m, (s₁.resume c t e).Sends m ↔ s.Sends m ∨ ∃ ok, e = .sent m ok := by
        intro m
        rw [State.sends_resume, State.Sends, State.Sends, hlogin, hchat]
      by_cases hsend : ∃ m k, code s c = .send m k
      · rcases hsend with ⟨m, k, hcode⟩
        rcases hsome m k hcode with ⟨ok, rfl⟩
        rw [PartsFit, ← send_fitsLine_iff hs hcode]
        constructor
        · exact fun h => h m ((hsends m).mpr (.inr ⟨ok, rfl⟩))
        · intro hm m' hm'
          rcases (hsends m').mp hm' with hold | ⟨ok', heq⟩
          · exact hlegal m' hold
          · cases heq
            exact hm
      · have hcode : ∀ m k, code s c ≠ .send m k := fun m k h => hsend ⟨m, k, h⟩
        refine ⟨fun _ => framePartsFit_of_not_send hcode, fun _ m hm => ?_⟩
        rcases (hsends m).mp hm with hold | ⟨ok, heq⟩
        · exact hlegal m hold
        · rcases hnone m ok heq with ⟨k, h⟩
          exact absurd h (hcode m k)

/-- In every run whose frames all have parts that are short enough, all frames
passed to {lit}`send` are legal; and the next step keeps it so exactly if the
parts of its frame are short enough. -/
theorem legal_frames_iff {s : State} (hs : server.ReachableBy PartsFit s) :
    AllLegal s ∧ ∀ a s', server.step s a = some s' → (AllLegal s' ↔ PartsFit s a) := by
  have hlegal : AllLegal s := by
    refine hs.invariant ?_ ?_
    · rintro m ⟨c, ok, h | h⟩ <;> cases h
    · exact fun s a s' hs hfit hstep hlegal =>
        (step_allLegal_iff hs.reachable hlegal hstep).mpr hfit
  exact ⟨hlegal, fun a s' hstep => step_allLegal_iff hs.reachable hlegal hstep⟩

/-- A run with a welcome that fits. -/
theorem legal_frames_iff_welcome :
    ∃ s, server.runBy PartsFit server.init
        (connect 0 (str "slogin:bob\n") :: serve 0 3) = some s ∧
      s.loginCalls 0 = [.received (some (str "slogin:bob\n")), .created (str "bob"),
        .sent { tag := tagOk, data := str "Welcome bob!" } true] ∧ AllLegal s := by
  have hrun : (server.runBy PartsFit server.init
      (connect 0 (str "slogin:bob\n") :: serve 0 3)).map (fun s => s.loginCalls 0) =
      some [.received (some (str "slogin:bob\n")), .created (str "bob"),
        .sent { tag := tagOk, data := str "Welcome bob!" } true] := by
    decide +kernel
  rcases Option.map_eq_some_iff.mp hrun with ⟨s, hs, hcalls⟩
  have hreach : server.ReachableBy PartsFit s := TransitionSystem.ReachableBy.of_runBy .init hs
  exact ⟨s, hs, hcalls, (legal_frames_iff hreach).1⟩

/-- A name of 243 bytes fits the frame of a login. -/
def longName : Bytes :=
  List.replicate 243 97

/-- The login of a name of 243 bytes is a legal frame, and the welcome is not. -/
theorem long_welcome_not_legal :
    ({ tag := tagSlogin, data := longName } : Message).FitsLine ∧
      ∃ s, server.run server.init
          (connect 0 ({ tag := tagSlogin, data := longName } : Message).encoding ::
            serve 0 3) = some s ∧
        s.Sends { tag := tagOk, data := str "Welcome " ++ longName ++ str "!" } ∧
        ¬ AllLegal s := by
  have hrun : (server.run server.init
      (connect 0 ({ tag := tagSlogin, data := longName } : Message).encoding ::
        serve 0 3)).map
      (fun s => (s.loginCalls 0).getLast?) =
      some (some (.sent { tag := tagOk, data := str "Welcome " ++ longName ++ str "!" }
        true)) := by
    decide +kernel
  have hname : newline ∉ longName := fun h => absurd (List.eq_of_mem_replicate h) (by decide)
  have hlength : longName.length = 243 := List.length_replicate
  have hlogin : tagSlogin.length = 6 ∧ newline ∉ tagSlogin := by decide
  rcases Option.map_eq_some_iff.mp hrun with ⟨s, hs, hlast⟩
  have hsends : s.Sends { tag := tagOk, data := str "Welcome " ++ longName ++ str "!" } :=
    ⟨0, true, .inl (List.mem_of_getLast? hlast)⟩
  refine ⟨Message.fitsLine_iff.mpr ?_, s, hs, hsends, fun hlegal => ?_⟩
  · simp [hlogin, hlength, hname, maxLen]
  · have hle := (fitsLine_welcomeReply hname).mp (hlegal _ hsends)
    omega

end ChatServer
