import ChatServer.Server.SessionSpec

/-!
# Why sender threads return

A thread leaves the request loop of {lit}`chat_with_sender` after a quit request or when
its stream is exhausted; no refused request, malformed line or failed reply makes it leave.

Main results:

- Theorem {lit}`calls_invariant`: the invariance rule for a thread and all its calls.
- Theorem {lit}`sender_returns`: what is behind the end of a sender session.

Current gaps:

- None for the steps of {lit}`Server.Step`.
-/

namespace ChatServer

open Function

/-! ## The invariance rule -/

/-- A property of a thread and its calls in {lit}`worker` and in its chat function that the
thread code preserves holds in every reachable state. -/
theorem calls_invariant {I : Thread → List Event → Prop} (habsent : I {} [])
    (haccept : ∀ t calls, t.pc = .absent → I t calls → I { pc := .worker .receive } calls)
    (hcode : ∀ t user getRoomName calls, I t calls →
      (t.code user getRoomName).Called fun t' e => I t' (calls ++ [e]))
    {s : State} (hs : server.Reachable s) (c : ConnId) : I (s.threads c) (s.calls c) := by
  refine hs.invariant (P := fun s => I (s.threads c) (s.calls c)) habsent ?_
  intro s a s' hs hstep ih
  by_cases hc : a.conn = c
  · cases a with
    | accept d reads ending =>
        have hdc : d = c := hc
        subst d
        rcases accept_step hstep with ⟨hpc, rfl⟩
        rw [State.accept_threads, update_self]
        exact haccept _ _ hpc ih
    | run d env =>
        have hdc : d = c := hc
        subst d
        obtain ⟨t, e, hI, hthreads, hcalls⟩ := run_called hs hstep (hcode _ _ _ _ ih)
        rw [hthreads, hcalls, update_self, update_self]
        exact hI
  · rw [(step_other hstep hc).1, (step_other hstep hc).2]
    exact ih

/-! ## The last line of a session -/

/-- The last receive has failed, or it has read a quit request. -/
def LastLine (calls : List Event) : Prop :=
  ∃ line, (receivedLines calls).getLast? = some line ∧
    ∀ l, line = some l → ∃ m, decode l = some m ∧ m.tag = tagQuit

/-- What is behind the control points after the request loop. -/
def Departing (t : Thread) (calls : List Event) : Prop :=
  match t.pc with
  | .worker (.refuse _) | .receiver _ => t.login.tag ≠ tagSlogin
  | .sender .invalid => t.msg.tag = tagErr
  | .sender .quit | .sender .eof | .sender .exit => LastLine calls
  | .done => t.login.tag = tagSlogin → (∃ m, .sent m false ∈ calls) ∨ LastLine calls
  | _ => True

/-- A failed receive is the last line. -/
theorem lastLine_none (calls : List Event) : LastLine (calls ++ [.received none]) := by
  refine ⟨none, ?_, fun l hl => by cases hl⟩
  simp [receivedLines]

/-- A quit request is the last line. -/
theorem lastLine_quit (calls : List Event) {line : Bytes} {m : Message}
    (hdec : decode line = some m) (hm : m.tag = tagQuit) :
    LastLine (calls ++ [.received (some line)]) := by
  refine ⟨some line, ?_, fun l hl => ?_⟩
  · simp [receivedLines]
  · cases hl
    exact ⟨m, hdec, hm⟩

/-- Calls that are no receives leave the last line as it is. -/
theorem LastLine.append {calls : List Event} {e : Event} (h : LastLine calls)
    (he : receivedLines [e] = []) : LastLine (calls ++ [e]) := by
  rcases h with ⟨line, hlast, hline⟩
  exact ⟨line, by rwa [receivedLines_append, he, List.append_nil], hline⟩

/-- The branch of a request leaves the loop for a quit request only. -/
theorem Departing.dispatch {t : Thread} {calls : List Event}
    (h : t.msg.tag = tagQuit → LastLine calls) : Departing t.dispatch calls := by
  unfold Thread.dispatch
  split_ifs with hjoin hvalid hroom hleave hroom' hquit <;> first | exact trivial | exact h hquit

/-- The end of the loop follows the last line. -/
theorem Departing.breakLoop {t : Thread} {calls : List Event} (h : LastLine calls) :
    Departing t.breakLoop calls := by
  unfold Thread.breakLoop
  split_ifs
  · exact h
  · exact fun _ => .inr h

/-- A sender login whose thread returns from {lit}`worker` could not be welcomed. -/
theorem worker_departing {t : Thread} {p : WorkerPc} {calls : List Event}
    (h : Departing (t.goto (.worker p)) calls) :
    (worker t p).Called fun t' e => Departing t' (calls ++ [e]) := by
  cases p with
  | receive =>
      have herr : tagErr ≠ tagSlogin := by decide
      refine ⟨fun htag => absurd htag herr, fun line _ _ => ⟨fun _ => herr, ?_⟩⟩
      intro m result _
      dsimp only
      rw [if_pos rfl]
      split_ifs with htag
      · exact htag.2
      · exact trivial
  | refuse why => exact fun ok hslogin => absurd hslogin h
  | newUser => exact trivial
  | welcome =>
      intro ok
      dsimp only
      split_ifs with hok hrlogin hslogin
      · have hfailed : ok = false := by simpa using hok
        exact fun _ => .inl ⟨welcomeReply t.login.data, by simp [hfailed]⟩
      · have hne : tagRlogin ≠ tagSlogin := by decide
        change t.login.tag ≠ tagSlogin
        rwa [hrlogin]
      · exact trivial
      · exact fun h' => absurd h' hslogin

/-- {lit}`chat_with_sender` leaves the loop after its last line or after a failed send. -/
theorem chatWithSender_departing (user : User) (getRoomName : RoomPtr → Bytes) {t : Thread}
    {p : SenderPc} {calls : List Event} (h : Departing (t.goto (.sender p)) calls) :
    (chatWithSender user getRoomName t p).Called fun t' e => Departing t' (calls ++ [e]) := by
  cases p with
  | receive =>
      refine ⟨lastLine_none calls, fun line _ _ => ⟨fun _ => rfl, fun m result hdec => ?_⟩⟩
      exact Departing.dispatch fun hquit => lastLine_quit calls hdec hquit
  | invalid =>
      intro ok
      refine Departing.dispatch fun hquit => ?_
      have herr : t.msg.tag = tagErr := h
      rw [herr] at hquit
      exact absurd hquit (by decide)
  | eof => exact fun ok => Departing.breakLoop (LastLine.append h rfl)
  | quit => exact fun ok => Departing.breakLoop (LastLine.append h rfl)
  | refuse | joined | sent => exact fun ok => trivial
  | find => exact fun r => trivial
  | switch | add | leave => exact deref_cases trivial fun r _ => trivial
  | left => exact deref_cases trivial fun r _ ok => trivial
  | broadcast => exact deref_cases trivial fun r _ members => trivial
  | visit rest =>
      refine deref_cases trivial fun r _ => ?_
      split_ifs
      · exact trivial
      · exact fun u => trivial
  | exit => exact deref_cases trivial fun r _ _ => .inr (LastLine.append h rfl)

/-- The thread of a receiver has no request loop. -/
theorem chatWithReceiver_departing {t : Thread} {p : ReceiverPc} {calls : List Event}
    (h : t.login.tag ≠ tagSlogin) :
    (chatWithReceiver t p).Called fun t' e => Departing t' (calls ++ [e]) := by
  refine (chatWithReceiver_stays t p).imp fun t' e hstays => ?_
  unfold Departing
  rw [hstays.login]
  rcases hstays.pc with hpc | hpc
  · cases hp : t'.pc with
    | receiver p => exact h
    | _ => simp [hp, Pc.isReceiver] at hpc
  · rw [hpc]
    exact fun hslogin => absurd hslogin h

/-- In every reachable state every thread departs as it should. -/
theorem reachable_departing {s : State} (hs : server.Reachable s) (c : ConnId) :
    Departing (s.threads c) (s.calls c) := by
  refine calls_invariant trivial (fun _ _ _ _ => trivial) ?_ hs c
  intro t user getRoomName calls h
  apply Thread.code_cases
  · exact trivial
  · intro p hpc
    have hgoto : t.goto (.worker p) = t := by simp [Thread.goto, ← hpc]
    exact worker_departing (hgoto ▸ h)
  · intro p hpc
    have hgoto : t.goto (.sender p) = t := by simp [Thread.goto, ← hpc]
    exact chatWithSender_departing user getRoomName (hgoto ▸ h)
  · intro p hpc
    refine chatWithReceiver_departing ?_
    unfold Departing at h
    rwa [hpc] at h

/-- A sender thread that has returned has failed to send something, or its last receive has
failed or read a quit request. -/
theorem sender_returns {s : State} (hs : server.Reachable s) {c : ConnId}
    (hlogin : (s.threads c).login.tag = tagSlogin) (hpc : (s.threads c).pc = .done) :
    (∃ m, .sent m false ∈ s.calls c) ∨ LastLine (s.calls c) := by
  have h := reachable_departing hs c
  unfold Departing at h
  rw [hpc] at h
  exact h hlogin

end ChatServer
