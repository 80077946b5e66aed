import Mathlib.Data.List.ReduceOption
import ChatServer.Server.Delivery
import ChatServer.Server.History

/-!
# The frames of a receiver connection

After the join of a receiver the server writes one frame for the join and one
frame for the result of each dequeue: the message, or an err frame when the
dequeue has timed out.

Main results:

- Theorem {lit}`reachable_frames`: the frames written after a join, at every
  control point.
- Theorem {lit}`receiver_frames_iff`: the frames are the ok frame and the
  dequeued messages iff no dequeue has timed out.

Current gaps:

- Frames are recorded as they are passed to {lit}`send`; a send that fails may
  have written only a part of its frame.
-/

namespace ChatServer

/-! ## Frames and dequeue results -/

/-- The frames that a history has passed to {lit}`send`. -/
def sentFrames (calls : List Event) : List Message :=
  calls.filterMap fun e =>
    match e with
    | .sent m _ => some m
    | _ => none

/-- The results of the dequeues of a history. -/
def dequeueResults (calls : List Event) : List (Option Message) :=
  calls.filterMap fun e =>
    match e with
    | .dequeued m => some m
    | _ => none

/-- The frame that a control point is about to send for the join or for the last
dequeue. -/
def Pc.dueFrames : Pc → List Message
  | .receiver .joined => [receiverJoinedReply]
  | .receiver (.deliver newMsg) => [newMsg]
  | .receiver .empty => [emptyReply]
  | _ => []

/-- The frame that reports the result of a dequeue. -/
def resultFrame (result : Option Message) : Message :=
  result.getD emptyReply

/-- The frames of two histories after each other. -/
theorem sentFrames_append (calls calls' : List Event) :
    sentFrames (calls ++ calls') = sentFrames calls ++ sentFrames calls' :=
  List.filterMap_append

/-- The results of two histories after each other. -/
theorem dequeueResults_append (calls calls' : List Event) :
    dequeueResults (calls ++ calls') = dequeueResults calls ++ dequeueResults calls' :=
  List.filterMap_append

/-- The messages among the results are the dequeued ones. -/
theorem reduceOption_dequeueResults (calls : List Event) :
    (dequeueResults calls).reduceOption = dequeues calls := by
  simp only [dequeueResults, List.reduceOption, dequeues, List.filterMap_filterMap]
  congr 1
  funext e
  cases e <;> rfl

/-- A result without message is a dequeue that timed out. -/
theorem none_mem_dequeueResults {calls : List Event} :
    none ∈ dequeueResults calls ↔ .dequeued none ∈ calls := by
  simp only [dequeueResults, List.mem_filterMap]
  constructor
  · rintro ⟨e, he, heq⟩
    cases e <;> simp_all
  · exact fun h => ⟨_, h, rfl⟩

/-- Reporting every result is reporting the messages iff there are no other
results. -/
theorem map_resultFrame_eq_iff (results : List (Option Message)) :
    results.map resultFrame = results.reduceOption ↔ none ∉ results := by
  induction results with
  | nil => simp
  | cons result results ih =>
      cases result with
      | some m => simpa [resultFrame, List.reduceOption_cons_of_some] using ih
      | none =>
          have hlen : results.reduceOption.length ≤ results.length :=
            List.reduceOption_length_le results
          have hne : resultFrame none :: results.map resultFrame ≠ results.reduceOption := by
            intro heq
            have hlen' := congrArg List.length heq
            simp only [List.length_cons, List.length_map] at hlen'
            omega
          simpa [List.reduceOption_cons_of_none] using hne

/-! ## The session at each control point -/

/-- What a receiver thread has done before it is added to a room. -/
structure Unjoined (calls : List Event) : Prop where
  frames : sentFrames calls = []
  results : dequeueResults calls = []
  added : ∀ r, .added r ∉ calls

/-- The frames written after a join, with the frame about to be written. -/
def Session (pc : Pc) (calls : List Event) : Prop :=
  sentFrames calls ++ pc.dueFrames =
    receiverJoinedReply :: (dequeueResults calls).map resultFrame

/-- The session of a thread at its control point. -/
def InSession (t : Thread) (calls : List Event) : Prop :=
  match t.pc with
  | .absent | .worker _ => calls = []
  | .receiver .receive | .receiver (.refuse _) | .receiver .find | .receiver .add =>
      Unjoined calls ∧ t.login.tag = tagRlogin
  | .receiver (.deliver m) => some m ∈ dequeueResults calls ∧ Session t.pc calls
  | .receiver _ => Session t.pc calls
  | .sender _ => t.login.tag = tagSlogin
  | .done => t.login.tag = tagRlogin → (∃ r, .added r ∈ calls) → Session t.pc calls

/-- A receiver without calls has not joined. -/
theorem Unjoined.nil : Unjoined [] :=
  ⟨rfl, rfl, by simp⟩

/-- Receives and lookups come before the join. -/
theorem Unjoined.append {calls : List Event} {e : Event} (h : Unjoined calls)
    (hframe : sentFrames [e] = []) (hresult : dequeueResults [e] = [])
    (hadded : ∀ r, e ≠ .added r) : Unjoined (calls ++ [e]) where
  frames := by rw [sentFrames_append, h.frames, hframe, List.append_nil]
  results := by rw [dequeueResults_append, h.results, hresult, List.append_nil]
  added r := by simpa [h.added r] using (hadded r).symm

/-- Sending the frame that is due. -/
theorem Session.sent {pc pc' : Pc} {calls : List Event} {m : Message} (h : Session pc calls)
    (hdue : pc.dueFrames = [m]) (hdue' : pc'.dueFrames = []) (ok : Bool) :
    Session pc' (calls ++ [.sent m ok]) := by
  unfold Session at h ⊢
  rw [hdue] at h
  rw [sentFrames_append, dequeueResults_append, hdue']
  simpa [sentFrames, dequeueResults] using h

/-- A dequeue makes the frame of its result due. -/
theorem Session.dequeued {pc pc' : Pc} {calls : List Event} {result : Option Message}
    (h : Session pc calls) (hdue : pc.dueFrames = [])
    (hdue' : pc'.dueFrames = [resultFrame result]) :
    Session pc' (calls ++ [.dequeued result]) := by
  unfold Session at h ⊢
  rw [hdue, List.append_nil] at h
  rw [sentFrames_append, dequeueResults_append, hdue', List.map_append,
    ← List.cons_append, ← h]
  simp [sentFrames, dequeueResults]

/-- Other calls leave the session as it is. -/
theorem Session.other {pc pc' : Pc} {calls : List Event} {e : Event} (h : Session pc calls)
    (hdue : pc'.dueFrames = pc.dueFrames) (hframe : sentFrames [e] = [])
    (hresult : dequeueResults [e] = []) : Session pc' (calls ++ [e]) := by
  unfold Session at h ⊢
  rw [sentFrames_append, dequeueResults_append, hdue, hframe, hresult, List.append_nil,
    List.append_nil, h]

/-- The join makes the ok frame due. -/
theorem Unjoined.joined {calls : List Event} (h : Unjoined calls) (r : RoomPtr) :
    Session (.receiver .joined) (calls ++ [.added r]) := by
  unfold Session
  rw [sentFrames_append, dequeueResults_append, h.frames, h.results]
  rfl

/-- Every call of {lit}`chat_with_receiver` goes on with the session. -/
theorem chatWithReceiver_session {t : Thread} {p : ReceiverPc} {calls : List Event}
    (h : InSession (t.goto (.receiver p)) calls) :
    (chatWithReceiver t p).Called fun t' e => InSession t' (calls ++ [e]) := by
  cases p with
  | receive =>
      have hkeep : ∀ line, Unjoined (calls ++ [.received line]) := fun line =>
        h.1.append rfl rfl (by simp)
      apply called_receive
      intro ok result m line _
      dsimp only
      split_ifs <;> exact ⟨hkeep _, h.2⟩
  | refuse why =>
      intro ok _ hadded
      rcases hadded with ⟨r, hr⟩
      simp [h.1.added r] at hr
  | find => exact fun r => ⟨h.1.append rfl rfl (by simp), h.2⟩
  | add => exact deref_cases trivial fun r _ => h.1.joined r
  | joined => exact fun ok => Session.sent h rfl rfl ok
  | dequeue =>
      intro result
      cases result with
      | none => exact Session.dequeued h rfl rfl
      | some m =>
          refine ⟨?_, Session.dequeued h rfl rfl⟩
          rw [dequeueResults_append]
          simp [dequeueResults]
  | deliver newMsg =>
      intro ok
      dsimp only
      split_ifs
      · exact Session.sent h.2 rfl rfl ok
      · exact Session.sent h.2 rfl rfl ok
  | empty => exact fun ok => Session.sent h rfl rfl ok
  | remove => exact deref_cases trivial fun r _ _ _ => Session.other h rfl rfl rfl

/-- In every reachable state the session of every thread fits its control point. -/
theorem reachable_session {s : State} (hs : server.Reachable s) (c : ConnId) :
    InSession (s.threads c) (s.chatCalls c) := by
  have hhistory : ReceiverHistory InSession (s.threads c) (s.chatCalls c) := by
    refine receiver_invariant ?_ ?_ hs c
    · intro t hpc hlogin
      simpa [InSession, hpc] using ⟨Unjoined.nil, hlogin⟩
    · intro t p calls hpc h
      have hgoto : t.goto (.receiver p) = t := by simp [Thread.goto, ← hpc]
      exact chatWithReceiver_session (hgoto ▸ h)
  cases hpc : (s.threads c).pc with
  | receiver p => simpa [ReceiverHistory, hpc] using hhistory
  | done =>
      simp only [ReceiverHistory, hpc] at hhistory
      unfold InSession
      rw [hpc]
      rintro hlogin ⟨r, hr⟩
      rcases hhistory hlogin with hnil | h
      · simp [hnil] at hr
      · unfold InSession at h
        rw [hpc] at h
        exact h hlogin ⟨r, hr⟩
  | _ => simpa [ReceiverHistory, InSession, hpc] using hhistory

/-! ## The frames after a join -/

/-- After a join the frames are the ok frame and one frame for each dequeue; the
last of them may still be due. -/
theorem reachable_frames {s : State} (hs : server.Reachable s) {c : ConnId} {r : RoomPtr}
    (hlogin : (s.threads c).login.tag = tagRlogin) (hjoined : .added r ∈ s.chatCalls c) :
    sentFrames (s.chatCalls c) ++ (s.threads c).pc.dueFrames =
      receiverJoinedReply :: (dequeueResults (s.chatCalls c)).map resultFrame := by
  have hsession := reachable_session hs c
  have hunjoined : ¬ Unjoined (s.chatCalls c) := fun h => h.added r hjoined
  have hworker : s.chatCalls c ≠ [] := List.ne_nil_of_mem hjoined
  unfold InSession at hsession
  split at hsession
  · exact absurd hsession hworker
  · exact absurd hsession hworker
  · exact absurd hsession.1 hunjoined
  · exact absurd hsession.1 hunjoined
  · exact absurd hsession.1 hunjoined
  · exact absurd hsession.1 hunjoined
  · exact hsession.2
  · exact hsession
  · rw [hlogin] at hsession
    exact absurd hsession (by decide)
  · exact hsession hlogin ⟨r, hjoined⟩

/-- Every dequeued message is a delivery. -/
theorem tag_of_mem_dequeues {s : State} (hs : server.Reachable s) {c : ConnId} {m : Message}
    (hm : m ∈ dequeues (s.chatCalls c)) : m.tag = tagDelivery := by
  have hobtained : m ∈ s.obtained c := List.mem_append_left _ hm
  rw [reachable_obtained hs, State.delivered] at hobtained
  rcases List.mem_map.mp hobtained with ⟨b, hb, rfl⟩
  rw [((reachable_broadcastLog hs).message b (List.mem_of_mem_filter hb)).2]
  rfl

/-- The frames on a connection, with the one about to be sent, are one ok frame
and the dequeued messages, each with tag delivery. -/
def FramesAreDeliveries (s : State) (c : ConnId) : Prop :=
  sentFrames (s.chatCalls c) ++ (s.threads c).pc.dueFrames =
      receiverJoinedReply :: dequeues (s.chatCalls c) ∧
    ∀ m ∈ dequeues (s.chatCalls c), m.tag = tagDelivery

/-- After the join of a receiver its frames are deliveries iff no dequeue has timed
out. -/
theorem receiver_frames_iff {s : State} (hs : server.Reachable s) {c : ConnId} {r : RoomPtr}
    (hlogin : (s.threads c).login.tag = tagRlogin) (hjoined : .added r ∈ s.chatCalls c) :
    FramesAreDeliveries s c ↔ .dequeued none ∉ s.chatCalls c := by
  unfold FramesAreDeliveries
  rw [reachable_frames hs hlogin hjoined, ← none_mem_dequeueResults,
    ← map_resultFrame_eq_iff, reduceOption_dequeueResults, List.cons.injEq]
  constructor
  · rintro ⟨⟨-, hframes⟩, -⟩
    exact hframes
  · exact fun hframes => ⟨⟨rfl, hframes⟩, fun m hm => tag_of_mem_dequeues hs hm⟩

/-- A session with one delivery. -/
theorem receiver_frames_iff_delivery :
    ∃ s, server.run server.init
        (connect 0 (str "rlogin:ann\njoin:hall\n") :: serve 0 7 ++
          connect 1 (str "slogin:bob\njoin:hall\nsendall:hi\n") :: serve 1 9 ++
          [.run 1 { pick := 0 }, .run 0, .run 0]) = some s ∧
      FramesAreDeliveries s 0 ∧
      dequeues (s.chatCalls 0) = [{ tag := tagDelivery, data := str "hall:bob:hi" }] := by
  have hrun : (server.run server.init
      (connect 0 (str "rlogin:ann\njoin:hall\n") :: serve 0 7 ++
        connect 1 (str "slogin:bob\njoin:hall\nsendall:hi\n") :: serve 1 9 ++
        [.run 1 { pick := 0 }, .run 0, .run 0])).map
      (fun s => ((s.threads 0).login.tag, s.chatCalls 0)) =
      some (tagRlogin,
        [.received (some (str "join:hall\n")), .found (str "hall") 0, .added 0,
          .sent receiverJoinedReply true,
          .dequeued (some { tag := tagDelivery, data := str "hall:bob:hi" }),
          .sent { tag := tagDelivery, data := str "hall:bob:hi" } true]) := by
    decide +kernel
  rcases TransitionSystem.exists_reachable_of_run hrun with ⟨s, hs, hend, hreach⟩
  rw [Prod.mk.injEq] at hend
  rcases hend with ⟨hlogin, hcalls⟩
  have hjoined : Event.added 0 ∈ s.chatCalls 0 := by simp [hcalls]
  have htimeout : Event.dequeued none ∉ s.chatCalls 0 := by simp [hcalls]
  refine ⟨s, hs, (receiver_frames_iff hreach hlogin hjoined).mpr htimeout, ?_⟩
  rw [hcalls]
  rfl

/-- A dequeue that times out is answered with a frame of its own. -/
theorem timeout_sends_err_frame :
    ∃ s, server.run server.init
        (connect 0 (str "rlogin:ann\njoin:hall\n") :: serve 0 7 ++
          [.run 0 { timeout := true }, .run 0]) = some s ∧
      (s.threads 0).login.tag = tagRlogin ∧ .added 0 ∈ s.chatCalls 0 ∧
      sentFrames (s.chatCalls 0) = [receiverJoinedReply, emptyReply] ∧
      ¬ FramesAreDeliveries s 0 := by
  have hrun : (server.run server.init
      (connect 0 (str "rlogin:ann\njoin:hall\n") :: serve 0 7 ++
        [.run 0 { timeout := true }, .run 0])).map
      (fun s => ((s.threads 0).login.tag, (s.threads 0).pc, s.chatCalls 0)) =
      some (tagRlogin, .receiver .dequeue,
        [.received (some (str "join:hall\n")), .found (str "hall") 0, .added 0,
          .sent receiverJoinedReply true, .dequeued none, .sent emptyReply true]) := by
    decide +kernel
  rcases Option.map_eq_some_iff.mp hrun with ⟨s, hs, hend⟩
  rw [Prod.mk.injEq, Prod.mk.injEq] at hend
  rcases hend with ⟨hlogin, hpc, hcalls⟩
  refine ⟨s, hs, hlogin, by simp [hcalls], by rw [hcalls]; rfl, ?_⟩
  rintro ⟨hframes, -⟩
  rw [hcalls, hpc] at hframes
  exact absurd hframes (by decide)

end ChatServer
