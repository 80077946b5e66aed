import ChatServer.Server.History

/-!
# Requests and replies

The dialogue of {lit}`chat_with_sender` with its client.  A line that decodes is
answered once.  A line that does not decode is answered twice, because the
branch that reports it falls through into the dispatch on the tag, where the err
tag that {lit}`receive` has stored is reported as well.  Hence requests and
replies are in lockstep exactly as long as every line decodes.

Main results:

- Theorem {lit}`reachable_dialogue`: the dialogue at each control point.
- Theorem {lit}`lockstep_iff`: lockstep holds iff every line received so far is
  a frame.

Current gaps:

- Replies are counted as attempted; whether a send failed is recorded in the
  events but plays no part here.
-/

namespace ChatServer

/-! ## Dialogues -/

/-- Receives and sends. -/
def Event.isExchange : Event → Bool
  | .received _ => true
  | .sent _ _ => true
  | _ => false

/-- The receives and sends of a history. -/
def exchanges (calls : List Event) : List Event :=
  calls.filter Event.isExchange

/-- The part of a dialogue before the receive that found the stream exhausted;
the err frame that follows such a receive answers no request. -/
def requests (calls : List Event) : List Event :=
  (exchanges calls).takeWhile (· ≠ .received none)

/-- A frame with the tag ok or err. -/
def Message.isReply (m : Message) : Prop :=
  m.tag = tagOk ∨ m.tag = tagErr

/-- Every received line is followed by exactly one reply before the next one. -/
inductive Lockstep : List Event → Prop
  | nil : Lockstep []
  | cons {line : Bytes} {reply : Message} {ok : Bool} {io : List Event}
      (hreply : reply.isReply) (hio : Lockstep io) :
      Lockstep (.received (some line) :: .sent reply ok :: io)

/-- The dialogues of {lit}`chat_with_sender` between two requests. -/
inductive Dialogue : List Event → Prop
  | nil : Dialogue []
  | frame {line : Bytes} {reply : Message} {ok : Bool} {io : List Event}
      (hline : FrameLine line) (hreply : reply.isReply) (hio : Dialogue io) :
      Dialogue (.received (some line) :: .sent reply ok :: io)
  | malformed {line : Bytes} {reply reply' : Message} {ok ok' : Bool} {io : List Event}
      (hline : ¬ FrameLine line) (hreply : reply.isReply) (hreply' : reply'.isReply)
      (hio : Dialogue io) :
      Dialogue (.received (some line) :: .sent reply ok :: .sent reply' ok' :: io)

/-- Two dialogues after each other are a dialogue. -/
theorem Dialogue.append {io io' : List Event} (h : Dialogue io) (h' : Dialogue io') :
    Dialogue (io ++ io') := by
  induction h with
  | nil => exact h'
  | frame hline hreply _ ih => exact .frame hline hreply ih
  | malformed hline hreply hreply' _ ih => exact .malformed hline hreply hreply' ih

/-- A dialogue contains no failed receive. -/
theorem Dialogue.received_ne_none {io : List Event} (h : Dialogue io) :
    ∀ e ∈ io, e ≠ .received none := by
  induction h with
  | nil => simp
  | frame _ _ _ ih => simpa using ih
  | malformed _ _ _ _ ih => simpa using ih

/-- A dialogue is in lockstep iff all its lines are frames. -/
theorem Dialogue.lockstep_iff_frames {io : List Event} (h : Dialogue io) :
    Lockstep io ↔ ∀ line, Event.received (some line) ∈ io → FrameLine line := by
  induction h with
  | nil => simp [Lockstep.nil]
  | @frame line reply ok io hline hreply _ ih =>
      constructor
      · intro hlock
        cases hlock with
        | cons _ hio => simpa [hline] using ih.mp hio
      · intro hlines
        exact .cons hreply (ih.mpr fun line hmem => hlines line (by simp [hmem]))
  | @malformed line reply reply' ok ok' io hline hreply hreply' _ ih =>
      constructor
      · intro hlock
        cases hlock with
        | cons _ hio => cases hio
      · intro hlines
        exact absurd (hlines line (by simp)) hline

/-! ## The dialogue at each control point -/

/-- The dialogue is complete once {lit}`n` more replies have been attempted. -/
def Owes (io : List Event) : Nat → Prop
  | 0 => Dialogue io
  | n + 1 => ∀ reply ok, reply.isReply → Owes (io ++ [.sent reply ok]) n

/-- A dialogue that was ended by an exhausted stream, up to the failed receive. -/
def Exhausted (io : List Event) : Prop :=
  ∃ before, Dialogue before ∧ io = before ++ [.received none]

/-- A dialogue after the request loop. -/
def Ended (io : List Event) : Prop :=
  Dialogue io ∨
    ∃ before ok, Dialogue before ∧
      io = before ++ [.received none, .sent Refusal.eofOrError.reply ok]

/-- The dialogue of a thread at its control point. -/
def InDialogue (t : Thread) (calls : List Event) : Prop :=
  match t.pc with
  | .absent | .worker _ => exchanges calls = []
  | .sender .receive => Owes (exchanges calls) 0
  | .sender .invalid => t.msg.tag = tagErr ∧ Owes (exchanges calls) 2
  | .sender .eof => Exhausted (exchanges calls)
  | .sender .exit => Ended (exchanges calls)
  | .sender _ => Owes (exchanges calls) 1
  | .receiver _ => t.login.tag = tagRlogin
  | .done => t.login.tag = tagSlogin → Ended (exchanges calls)

/-- A call that is no exchange leaves the dialogue as it is. -/
theorem InDialogue.other {t : Thread} {calls : List Event} {e : Event}
    (he : e.isExchange = false) (h : InDialogue t calls) : InDialogue t (calls ++ [e]) := by
  have hsame : exchanges (calls ++ [e]) = exchanges calls := by simp [exchanges, he]
  unfold InDialogue
  rw [hsame]
  exact h

/-- A send is an exchange. -/
@[simp]
theorem exchanges_append_sent (calls : List Event) (m : Message) (ok : Bool) :
    exchanges (calls ++ [.sent m ok]) = exchanges calls ++ [.sent m ok] := by
  simp [exchanges, Event.isExchange]

/-- A receive is an exchange. -/
@[simp]
theorem exchanges_append_received (calls : List Event) (line : Option Bytes) :
    exchanges (calls ++ [.received line]) = exchanges calls ++ [.received line] := by
  simp [exchanges, Event.isExchange]

/-- A frame leaves one reply to be made. -/
theorem owes_frame {io : List Event} {line : Bytes} (h : Dialogue io)
    (hline : FrameLine line) : Owes (io ++ [.received (some line)]) 1 := by
  intro reply ok hreply
  simpa [Owes] using h.append (.frame hline hreply .nil)

/-- A malformed line leaves two replies to be made. -/
theorem owes_malformed {io : List Event} {line : Bytes} (h : Dialogue io)
    (hline : ¬ FrameLine line) : Owes (io ++ [.received (some line)]) 2 := by
  intro reply ok hreply reply' ok' hreply'
  simpa [Owes] using h.append (.malformed hline hreply hreply' .nil)

/-- A reply pays off one of the replies owed. -/
theorem owes_sent {calls : List Event} {n : Nat} {reply : Message}
    (h : Owes (exchanges calls) (n + 1)) (hreply : reply.isReply) (ok : Bool) :
    Owes (exchanges (calls ++ [.sent reply ok])) n := by
  rw [exchanges_append_sent]
  exact h reply ok hreply

/-- The frame of a refusal is a reply. -/
theorem Refusal.isReply_reply (why : Refusal) : why.reply.isReply :=
  .inr rfl

/-- The dispatch leads to a control point with one reply to make. -/
theorem InDialogue.dispatch {t : Thread} {calls : List Event}
    (h : Owes (exchanges calls) 1) : InDialogue t.dispatch calls := by
  unfold Thread.dispatch
  split_ifs <;> exact h

/-- A dialogue that has ended stays so behind the request loop. -/
theorem InDialogue.breakLoop {t : Thread} {calls : List Event}
    (h : Ended (exchanges calls)) : InDialogue t.breakLoop calls := by
  unfold Thread.breakLoop
  split_ifs
  · exact h
  · exact fun _ => h

/-- Every call of {lit}`chat_with_sender` goes on with the dialogue. -/
theorem chatWithSender_dialogue {t : Thread} {p : SenderPc} {calls : List Event}
    (user : User) (getRoomName : RoomPtr → Bytes)
    (h : InDialogue (t.goto (.sender p)) calls) :
    (chatWithSender user getRoomName t p).Called fun t' e => InDialogue t' (calls ++ [e]) := by
  cases p with
  | receive =>
      refine ⟨⟨_, h, by simp⟩, fun line _ _ => ⟨fun hdec => ?_, fun m result hdec => ?_⟩⟩
      · have hline : ¬ FrameLine line := by
          rw [← decode_isSome_iff, hdec]
          simp
        exact ⟨rfl, by simpa using owes_malformed h hline⟩
      · have hline : FrameLine line := by
          rw [← decode_isSome_iff, hdec]
          rfl
        exact InDialogue.dispatch (by simpa using owes_frame h hline)
  | invalid => exact fun ok => InDialogue.dispatch (owes_sent h.2 (Refusal.isReply_reply _) ok)
  | eof =>
      intro ok
      rcases h with ⟨before, hbefore, hio⟩
      refine InDialogue.breakLoop (.inr ⟨before, ok, hbefore, ?_⟩)
      simp [hio]
  | refuse why => exact fun ok => owes_sent h (Refusal.isReply_reply why) ok
  | switch => exact deref_cases trivial fun r _ => InDialogue.other rfl h
  | find => exact fun r => InDialogue.other rfl h
  | add => exact deref_cases trivial fun r _ => InDialogue.other rfl h
  | joined => exact fun ok => owes_sent h (.inl rfl) ok
  | leave => exact deref_cases trivial fun r _ => InDialogue.other rfl h
  | left => exact deref_cases trivial fun r _ ok => owes_sent h (.inl rfl) ok
  | quit => exact fun ok => InDialogue.breakLoop (.inl (owes_sent h (.inl rfl) ok))
  | broadcast => exact deref_cases trivial fun r _ _ => InDialogue.other rfl h
  | visit rest =>
      refine deref_cases trivial fun r _ => ?_
      split_ifs
      · exact InDialogue.other rfl h
      · exact fun u => InDialogue.other rfl h
  | sent => exact fun ok => owes_sent h (.inl rfl) ok
  | exit =>
      refine deref_cases trivial fun r _ => ?_
      have hdone : InDialogue (t.goto .done) calls := fun _ => h
      exact hdone.other rfl

/-- A receiver thread takes part in no dialogue. -/
theorem InDialogue.of_staysReceiver {t t' : Thread} {calls : List Event}
    (h : t.login.tag = tagRlogin) (hstays : t.StaysReceiver t') : InDialogue t' calls := by
  unfold InDialogue
  rw [hstays.login, h]
  rcases hstays.pc with hpc | hpc
  · cases hp : t'.pc with
    | receiver p => rfl
    | _ => simp [hp, Pc.isReceiver] at hpc
  · rw [hpc]
    intro hslogin
    exact absurd hslogin (by decide)

/-- The chat function starts with an empty dialogue. -/
theorem worker_dialogue {t : Thread} {calls : List Event} (p : WorkerPc)
    (h : exchanges calls = []) :
    (worker t p).Called fun t' _ => InDialogue t' calls := by
  have hnil : Dialogue (exchanges calls) := by
    rw [h]
    exact .nil
  cases p with
  | receive =>
      apply called_receive
      intro ok result msg _ _
      split_ifs
      · exact h
      · exact h
      · exact h
      · exact fun _ => .inl hnil
  | refuse why => exact fun ok _ => .inl hnil
  | newUser => exact h
  | welcome =>
      intro ok
      dsimp only
      split_ifs with hok hrlogin hslogin
      · exact fun _ => .inl hnil
      · exact hrlogin
      · exact hnil
      · exact fun _ => .inl hnil

/-- In every reachable state the dialogue of every thread fits its control point. -/
theorem reachable_dialogue {s : State} (hs : server.Reachable s) (c : ConnId) :
    InDialogue (s.threads c) (s.chatCalls c) := by
  refine history_invariant rfl ?_ ?_ ?_ hs c
  · intro t calls hpc h
    simpa [InDialogue, hpc] using h
  · intro t p user getRoomName calls hpc h
    rw [Thread.code_worker hpc]
    exact worker_dialogue p (by simpa [InDialogue, hpc] using h)
  · intro t user getRoomName calls hworker h
    apply Thread.code_cases
    · exact trivial
    · exact fun p hpc => absurd hpc (hworker p)
    · intro p hpc
      have hgoto : t.goto (.sender p) = t := by simp [Thread.goto, ← hpc]
      exact chatWithSender_dialogue user getRoomName (hgoto ▸ h)
    · intro p hpc
      have hlogin : t.login.tag = tagRlogin := by simpa [InDialogue, hpc] using h
      apply (chatWithReceiver_stays t p).imp
      exact fun t' _ => InDialogue.of_staysReceiver hlogin

/-! ## Lockstep -/

/-- The received lines of a history are among its exchanges. -/
theorem mem_exchanges {calls : List Event} {line : Option Bytes} :
    .received line ∈ exchanges calls ↔ .received line ∈ calls := by
  simp [exchanges, Event.isExchange]

/-- In a dialogue no receive has found the stream exhausted. -/
theorem Dialogue.requests_eq {calls : List Event} (h : Dialogue (exchanges calls)) :
    requests calls = exchanges calls := by
  rw [requests, List.takeWhile_eq_self_iff]
  intro e he
  simpa using h.received_ne_none e he

/-- After the request loop at most the farewell follows the requests. -/
theorem Ended.requests {calls : List Event} (h : Ended (exchanges calls)) :
    Dialogue (requests calls) ∧
      (exchanges calls = ChatServer.requests calls ∨
        ∃ ok, exchanges calls =
          ChatServer.requests calls ++ [.received none, .sent Refusal.eofOrError.reply ok]) := by
  rcases h with hdialogue | ⟨before, ok, hbefore, hio⟩
  · rw [hdialogue.requests_eq]
    exact ⟨hdialogue, .inl rfl⟩
  · have hreq : ChatServer.requests calls = before := by
      rw [ChatServer.requests, hio, List.takeWhile_append_of_pos]
      · simp
      · intro e he
        simpa using hbefore.received_ne_none e he
    rw [hreq]
    exact ⟨hbefore, .inr ⟨ok, hio⟩⟩

/-- A sender that has processed all it has received has a dialogue of complete
answers, followed by the farewell if its stream was exhausted. -/
theorem requests_of_processed {s : State} (hs : server.Reachable s) {c : ConnId}
    (hlogin : (s.threads c).login.tag = tagSlogin)
    (hpc : (s.threads c).pc = .sender .receive ∨ (s.threads c).pc = .sender .exit ∨
      (s.threads c).pc = .done) :
    Dialogue (requests (s.chatCalls c)) ∧
      (exchanges (s.chatCalls c) = requests (s.chatCalls c) ∨
        ∃ ok, exchanges (s.chatCalls c) = requests (s.chatCalls c) ++
          [.received none, .sent Refusal.eofOrError.reply ok]) := by
  have hdialogue := reachable_dialogue hs c
  unfold InDialogue at hdialogue
  rcases hpc with hpc | hpc | hpc <;> rw [hpc] at hdialogue
  · exact Ended.requests (.inl hdialogue)
  · exact Ended.requests hdialogue
  · exact Ended.requests (hdialogue hlogin)

/-- A sender that has processed all it has received has answered every request
exactly once iff every line it has received is a frame. -/
theorem lockstep_iff {s : State} (hs : server.Reachable s) {c : ConnId}
    (hlogin : (s.threads c).login.tag = tagSlogin)
    (hpc : (s.threads c).pc = .sender .receive ∨ (s.threads c).pc = .sender .exit ∨
      (s.threads c).pc = .done) :
    Lockstep (requests (s.chatCalls c)) ↔
      ∀ line, Event.received (some line) ∈ s.chatCalls c → FrameLine line := by
  rcases requests_of_processed hs hlogin hpc with ⟨hdialogue, hend⟩
  rw [hdialogue.lockstep_iff_frames]
  have hlines : ∀ line, Event.received (some line) ∈ requests (s.chatCalls c) ↔
      Event.received (some line) ∈ s.chatCalls c := by
    intro line
    rw [← @mem_exchanges (s.chatCalls c) (some line)]
    rcases hend with hend | ⟨ok, hend⟩
    · rw [hend]
    · simp [hend]
  exact forall_congr' fun line => by rw [hlines]

/-- A session with one frame and one reply. -/
theorem lockstep_iff_join :
    ∃ s, server.run server.init (connect 0 (str "slogin:bob\njoin:hall\n") :: serve 0 7) =
        some s ∧ (s.threads 0).pc = .sender .receive ∧ Lockstep (requests (s.chatCalls 0)) := by
  have hrun : (server.run server.init
      (connect 0 (str "slogin:bob\njoin:hall\n") :: serve 0 7)).map
      (fun s => ((s.threads 0).login.tag, (s.threads 0).pc, s.chatCalls 0)) =
      some (tagSlogin, .sender .receive,
        [.received (some (str "join:hall\n")), .found (str "hall") 0, .added 0,
          .sent { tag := tagOk, data := str "succesfully joined hall!" } true]) := by
    decide +kernel
  rcases TransitionSystem.exists_reachable_of_run hrun with ⟨s, hs, hend, hreach⟩
  rw [Prod.mk.injEq, Prod.mk.injEq] at hend
  rcases hend with ⟨hlogin, hpc, hcalls⟩
  refine ⟨s, hs, hpc, (lockstep_iff hreach hlogin (.inl hpc)).mpr fun line hline => ?_⟩
  have hjoin : line = str "join:hall\n" := by simpa [hcalls] using hline
  rw [hjoin, ← decode_isSome_iff]
  decide

/-- A line without a colon is answered twice. -/
theorem malformed_line_answered_twice :
    ∃ s, server.run server.init (connect 0 (str "slogin:bob\nbad\n") :: serve 0 6) = some s ∧
      (s.threads 0).login.tag = tagSlogin ∧ (s.threads 0).pc = .sender .receive ∧
      s.chatCalls 0 = [.received (some (str "bad\n")), .sent Refusal.invalidMessage.reply true,
        .sent Refusal.invalidMessageTag.reply true] ∧
      ¬ Lockstep (requests (s.chatCalls 0)) := by
  have hrun : (server.run server.init
      (connect 0 (str "slogin:bob\nbad\n") :: serve 0 6)).map
      (fun s => ((s.threads 0).login.tag, (s.threads 0).pc, s.chatCalls 0)) =
      some (tagSlogin, .sender .receive,
        [.received (some (str "bad\n")), .sent Refusal.invalidMessage.reply true,
          .sent Refusal.invalidMessageTag.reply true]) := by
    decide +kernel
  rcases Option.map_eq_some_iff.mp hrun with ⟨s, hs, hend⟩
  rw [Prod.mk.injEq, Prod.mk.injEq] at hend
  rcases hend with ⟨hlogin, hpc, hcalls⟩
  refine ⟨s, hs, hlogin, hpc, hcalls, fun hlock => ?_⟩
  have hreq : requests (s.chatCalls 0) =
      [.received (some (str "bad\n")), .sent Refusal.invalidMessage.reply true,
        .sent Refusal.invalidMessageTag.reply true] := by
    rw [hcalls]
    decide
  rw [hreq] at hlock
  cases hlock with
  | cons _ hio => cases hio

end ChatServer
