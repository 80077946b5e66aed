import ChatServer.Connection

/-!
# The contract of send and receive

What {lit}`connection.h` promises: {lit}`send` and {lit}`receive` report whether
they were successful, and the last result tells the outcome of the most recent
call.  The code keeps neither promise to the letter.  {lit}`send` measures its
frame as a C string, so a frame with a NUL is cut in front of the NUL and reported
as sent; and a successful call leaves the last result as it was, so it still tells
of an earlier failure.

Main results:

- Theorem {lit}`Connection.send_eq_writtenLoop`: a send writes the C string of the
  encoding.
- Theorem {lit}`Connection.send_complete_iff`: when the result of a send tells
  whether the whole frame was written.
- Theorem {lit}`Connection.call_outcome`: what the three kinds of outcomes of a call
  return and record.
- Theorem {lit}`Connection.lastResult_describes_iff`: the last result describes every
  call of a sequence exactly when no call succeeds after one that has failed.

Current gaps:

- None for calls on an open connection.
-/

namespace ChatServer

namespace Connection

/-! ## Complete frames -/

/-- {lit}`rio_writen` goes through: all bytes of the C string of the frame are
written. -/
def Written (m : Message) (writes : List WriteResult) : Prop :=
  (rioWritenLoop writes (cStr m.encoding)).1 = true

instance (m : Message) (writes : List WriteResult) : Decidable (Written m writes) :=
  inferInstanceAs (Decidable (_ = true))

/-- A send writes the C string of the encoding, and fails if this does not go
through. -/
theorem send_eq_writtenLoop (conn : Connection) (m : Message) (writes : List WriteResult) :
    conn.send m writes =
      (decide (Written m writes), (rioWritenLoop writes (cStr m.encoding)).2,
        if Written m writes then conn else { conn with lastResult := .eofOrError }) := by
  unfold send rioWriten Written
  dsimp only
  rw [take_strlen]
  by_cases hdone : (rioWritenLoop writes (cStr m.encoding)).1 = true
  · simp [hdone]
  · simp [hdone]

theorem send_fst (conn : Connection) (m : Message) (writes : List WriteResult) :
    (conn.send m writes).1 = true ↔ Written m writes := by
  rw [send_eq_writtenLoop, decide_eq_true_iff]

/-- A send returns true exactly when the whole frame was written, unless there is a
NUL in the tag or the data and everything in front of it is written. -/
theorem send_complete_iff (conn : Connection) (m : Message) (writes : List WriteResult) :
    ((conn.send m writes).1 = true ↔ (conn.send m writes).2.1 = m.encoding) ↔
      (nul ∉ m.tag ∧ nul ∉ m.data) ∨ ¬ Written m writes := by
  have hnul : (nul ∉ m.tag ∧ nul ∉ m.data) ↔ cStr m.encoding = m.encoding := by
    have hcolon : nul ≠ colon := by decide
    have hnewline : nul ≠ newline := by decide
    rw [cStr_eq_self_iff]
    simp [Message.encoding, hcolon, hnewline]
  rw [send_fst, hnul, send_eq_writtenLoop]
  dsimp only
  by_cases hwritten : Written m writes
  · rw [rioWritenLoop_complete hwritten]
    simp [hwritten]
  · have hpart : (rioWritenLoop writes (cStr m.encoding)).2 ≠ m.encoding := by
      intro hall
      have hbegins := rioWritenLoop_prefix_of_left writes (cStr m.encoding)
      rw [hall] at hbegins
      have hsame : m.encoding = cStr m.encoding := hbegins.eq_of_length_le (strlen_le_length _)
      exact hwritten (rioWritenLoop_complete_iff.mpr (hall.trans hsame))
    simp [hwritten, hpart]

/-- A line of the sender client with a NUL: the send reports success, and the peer
waits for the rest of the frame. -/
theorem send_nul_incomplete :
    let m : Message := { tag := tagSendall, data := [104, nul, 105] }
    (({} : Connection).send m []).1 = true ∧
      (({} : Connection).send m []).2.1 = str "sendall:h" ∧
      ¬ ((({} : Connection).send m []).1 = true ↔
        (({} : Connection).send m []).2.1 = m.encoding) := by
  decide

/-! ## The outcome of a call -/

/-- The calls that set the last result. -/
inductive Call where
  | send (msg : Message) (writes : List WriteResult)
  | receive (msg : Message)

/-- What a call returns, and the connection after it. -/
def call (conn : Connection) : Call → Bool × Connection
  | .send msg writes => ((conn.send msg writes).1, (conn.send msg writes).2.2)
  | .receive msg => ((conn.receive msg).1, (conn.receive msg).2.2)

/-- The frame of a send is written, or the next line of a receive is a frame. -/
def Succeeds (conn : Connection) : Call → Prop
  | .send msg writes => Written msg writes
  | .receive _ => ∃ line, conn.nextLine = some line ∧ FrameLine line

/-- The call is a receive, and the next line is malformed. -/
def GetsMalformed (conn : Connection) : Call → Prop
  | .send _ _ => False
  | .receive _ => ∃ line, conn.nextLine = some line ∧ ¬ FrameLine line

/-- The call meets the end of the stream or an error of the socket. -/
def MeetsEnd (conn : Connection) : Call → Prop
  | .send msg writes => ¬ Written msg writes
  | .receive _ => conn.nextLine = none

/-- A call succeeds, gets a malformed frame, or meets the end or an error; only the
latter two record something. -/
inductive Outcome (conn : Connection) (c : Call) : Prop
  | succeeds (h : conn.Succeeds c) (hm : ¬ conn.GetsMalformed c) (he : ¬ conn.MeetsEnd c)
      (hok : (conn.call c).1 = true) (hlast : (conn.call c).2.lastResult = conn.lastResult)
  | malformed (h : ¬ conn.Succeeds c) (hm : conn.GetsMalformed c) (he : ¬ conn.MeetsEnd c)
      (hok : (conn.call c).1 = false) (hlast : (conn.call c).2.lastResult = .invalidMsg)
  | ends (h : ¬ conn.Succeeds c) (hm : ¬ conn.GetsMalformed c) (he : conn.MeetsEnd c)
      (hok : (conn.call c).1 = false) (hlast : (conn.call c).2.lastResult = .eofOrError)

/-- Every call has one of the three outcomes. -/
theorem call_outcome (conn : Connection) (c : Call) : conn.Outcome c := by
  cases c with
  | send msg writes =>
      by_cases hwritten : Written msg writes
      · refine .succeeds hwritten id (not_not.mpr hwritten) ?_ ?_
        · simpa [call, send_fst] using hwritten
        · simp [call, send_eq_writtenLoop, hwritten]
      · refine .ends hwritten id hwritten ?_ ?_
        · simp [call, send_eq_writtenLoop, hwritten]
        · simp [call, send_eq_writtenLoop, hwritten]
  | receive msg =>
      have hreceive := conn.receive_eq msg
      cases hnext : conn.nextLine with
      | none =>
          rw [hnext] at hreceive
          refine .ends ?_ ?_ hnext ?_ ?_
          · simp [Succeeds, hnext]
          · simp [GetsMalformed, hnext]
          · simp [call, hreceive]
          · simp [call, hreceive]
      | some line =>
          rw [hnext] at hreceive
          have hframe : (decode line).isSome ↔ FrameLine line := decode_isSome_iff
          cases hdec : decode line with
          | none =>
              have hnot : ¬ FrameLine line := by simp [← hframe, hdec]
              simp only [hdec] at hreceive
              refine .malformed ?_ ⟨line, hnext, hnot⟩ ?_ ?_ ?_
              · simp [Succeeds, hnext, hnot]
              · simp [MeetsEnd, hnext]
              · simp [call, hreceive]
              · simp [call, hreceive]
          | some m =>
              have hyes : FrameLine line := by simp [← hframe, hdec]
              simp only [hdec] at hreceive
              refine .succeeds ⟨line, hnext, hyes⟩ ?_ ?_ ?_ ?_
              · simp [GetsMalformed, hnext, hyes]
              · simp [MeetsEnd, hnext]
              · simp [call, hreceive]
              · simp [call, hreceive]

/-! ## The last result -/

/-- The last result after a call tells what has become of it. -/
structure Describes (conn : Connection) (c : Call) : Prop where
  success : (conn.call c).2.lastResult = .success ↔ (conn.call c).1 = true
  invalidMsg : (conn.call c).2.lastResult = .invalidMsg ↔ conn.GetsMalformed c
  eofOrError : (conn.call c).2.lastResult = .eofOrError ↔ conn.MeetsEnd c

/-- The last result describes a call that fails, and one that succeeds if it has been
{lit}`SUCCESS` before. -/
theorem describes_iff (conn : Connection) (c : Call) :
    conn.Describes c ↔ (conn.Succeeds c → conn.lastResult = .success) := by
  cases conn.call_outcome c with
  | succeeds h hm he hok hlast =>
      constructor
      · intro hdescribes _
        rw [← hlast]
        exact hdescribes.success.mpr hok
      · intro hbefore
        have hafter : (conn.call c).2.lastResult = .success := hlast.trans (hbefore h)
        constructor <;> simp [hafter, hok, hm, he]
  | malformed h hm he hok hlast =>
      refine iff_of_true ?_ fun hsucceeds => absurd hsucceeds h
      constructor <;> simp [hlast, hok, hm, he]
  | ends h hm he hok hlast =>
      refine iff_of_true ?_ fun hsucceeds => absurd hsucceeds h
      constructor <;> simp [hlast, hok, hm, he]

/-- The last result after a call is {lit}`SUCCESS` if it was before and the call
succeeds. -/
theorem lastResult_call (conn : Connection) (c : Call) :
    (conn.call c).2.lastResult = .success ↔ conn.Succeeds c ∧ conn.lastResult = .success := by
  cases conn.call_outcome c with
  | succeeds h _ _ _ hlast => simp [hlast, h]
  | malformed h _ _ _ hlast => simp [hlast, h]
  | ends h _ _ _ hlast => simp [hlast, h]

/-- The calls of a sequence, each with the connection that it finds. -/
def steps (conn : Connection) : List Call → List (Connection × Call)
  | [] => []
  | c :: cs => (conn, c) :: steps (conn.call c).2 cs

/-- The last result describes every call of a sequence exactly when no call succeeds
after one that has failed; if the last result tells of a failure before the first call,
none may succeed at all. -/
theorem lastResult_describes_iff (conn : Connection) (calls : List Call) :
    (∀ p ∈ conn.steps calls, p.1.Describes p.2) ↔
      (conn.lastResult ≠ .success → ∀ p ∈ conn.steps calls, ¬ p.1.Succeeds p.2) ∧
        (conn.steps calls).Pairwise fun p q => q.1.Succeeds q.2 → p.1.Succeeds p.2 := by
  induction calls generalizing conn with
  | nil => simp [steps]
  | cons c cs ih =>
      have hlast := conn.lastResult_call c
      rw [steps, List.forall_mem_cons, List.forall_mem_cons, List.pairwise_cons, ih,
        describes_iff]
      dsimp only
      by_cases hbefore : conn.lastResult = .success
      · by_cases hsucceeds : conn.Succeeds c
        · simp [hlast, hbefore, hsucceeds]
        · simp [hlast, hbefore, hsucceeds]
      · by_cases hsucceeds : conn.Succeeds c
        · simp [hbefore, hsucceeds]
        · simp [hlast, hbefore, hsucceeds]

/-- A stream with a malformed line and a frame. -/
def malformedThenFrame : Connection :=
  { fdbuf := { rioBuf := str "bad\nok:fine\n" } }

/-- The receive of the frame is successful, and the last result still tells of the
malformed line. -/
theorem lastResult_after_malformed :
    let second := (malformedThenFrame.call (.receive {})).2.call (.receive {})
    second.1 = true ∧ second.2.lastResult = .invalidMsg ∧
      ¬ ∀ p ∈ malformedThenFrame.steps [.receive {}, .receive {}], p.1.Describes p.2 := by
  have hsecond : ((malformedThenFrame.call (.receive {})).2.call (.receive {})).1 = true ∧
      ((malformedThenFrame.call (.receive {})).2.call (.receive {})).2.lastResult =
        .invalidMsg := by
    decide
  refine ⟨hsecond.1, hsecond.2, fun h => ?_⟩
  have hdescribes := h ((malformedThenFrame.call (.receive {})).2, .receive {}) (by simp [steps])
  have hsuccess := hdescribes.success.mpr hsecond.1
  rw [hsecond.2] at hsuccess
  cases hsuccess

end Connection

end ChatServer
