import ChatServer.Server.Farewell
import ChatServer.Server.Liveness

/-!
# The answers to login and join

The handshake as a function of the lines received: the reply to the first line of a
connection, and the reply to the second line of a receiver.  Both replies depend on these
lines only, and a thread that waits again has sent them.

Main results:

- Definitions {lit}`loginAnswer` and {lit}`joinAnswer`: the handshake as functions.
- Theorem {lit}`reachable_admitted`: the first frames of a connection are these answers.
- Theorem {lit}`login_answered` and theorem {lit}`join_answered`: a thread that waits has
  answered.

Current gaps:

- The requests of senders after the login are left to {lit}`Server.SessionSpec`.
-/

namespace ChatServer

open Function

/-! ## The handshake as a function -/

/-- The reply to the first line of a connection. -/
def loginAnswer (line : Bytes) : Message :=
  match decode line with
  | none => Refusal.invalidMessage.reply
  | some m =>
      if m.tag ≠ tagRlogin ∧ m.tag ≠ tagSlogin then Refusal.loginFirst.reply
      else welcomeReply m.data

/-- The reply to the second line of a receiver, or to the end of the stream. -/
def joinAnswer : Option Bytes → Message
  | none => Refusal.eofOrError.reply
  | some line =>
      match decode line with
      | none => Refusal.invalidMessage.reply
      | some m =>
          if m.tag ≠ tagJoin then Refusal.joinFirst.reply
          else if !isValidRoomName m.data then Refusal.invalidRoomName.reply
          else receiverJoinedReply

/-! ## The lines and frames of a handshake -/

/-- The lines that have been received and the frames that have been sent. -/
structure Exchanged (calls : List Event) (lines : List (Option Bytes)) (frames : List Message) :
    Prop where
  lines : receivedLines calls = lines
  frames : sentFrames calls = frames

/-- The first lines that have been received and the first frames that have been sent. -/
structure Begins (calls : List Event) (lines : List (Option Bytes)) (frames : List Message) :
    Prop where
  lines : lines <+: receivedLines calls
  frames : frames <+: sentFrames calls

/-- A receive adds its line. -/
theorem Exchanged.received {calls : List Event} {lines : List (Option Bytes)}
    {frames : List Message} (h : Exchanged calls lines frames) (line : Option Bytes) :
    Exchanged (calls ++ [.received line]) (lines ++ [line]) frames :=
  ⟨by rw [receivedLines_append, h.lines]; rfl,
    by rw [sentFrames_append, h.frames]; simp [sentFrames]⟩

/-- A send adds its frame. -/
theorem Exchanged.sent {calls : List Event} {lines : List (Option Bytes)} {frames : List Message}
    (h : Exchanged calls lines frames) (m : Message) (ok : Bool) :
    Exchanged (calls ++ [.sent m ok]) lines (frames ++ [m]) :=
  ⟨by rw [receivedLines_append, h.lines]; simp [receivedLines],
    by rw [sentFrames_append, h.frames]; rfl⟩

/-- A call that neither receives nor sends. -/
theorem Exchanged.other {calls : List Event} {lines : List (Option Bytes)} {frames : List Message}
    (h : Exchanged calls lines frames) {e : Event} (hlines : receivedLines [e] = [])
    (hframes : sentFrames [e] = []) : Exchanged (calls ++ [e]) lines frames :=
  ⟨by rw [receivedLines_append, h.lines, hlines, List.append_nil],
    by rw [sentFrames_append, h.frames, hframes, List.append_nil]⟩

/-- All lines and frames are the first ones. -/
theorem Exchanged.begins {calls : List Event} {lines : List (Option Bytes)} {frames : List Message}
    (h : Exchanged calls lines frames) : Begins calls lines frames :=
  ⟨h.lines ▸ List.prefix_refl _, h.frames ▸ List.prefix_refl _⟩

/-- The first lines and frames stay the first ones. -/
theorem Begins.append {calls : List Event} {lines : List (Option Bytes)} {frames : List Message}
    (h : Begins calls lines frames) (e : Event) : Begins (calls ++ [e]) lines frames :=
  ⟨h.lines.trans (by rw [receivedLines_append]; exact List.prefix_append _ _),
    h.frames.trans (by rw [sentFrames_append]; exact List.prefix_append _ _)⟩

/-- A receiver whose second line has been answered. -/
def JoinAnswered (calls : List Event) : Prop :=
  ∃ line second, Begins calls [some line, second] [loginAnswer line, joinAnswer second]

/-- What has been received and sent at the control points. -/
def Admitted (t : Thread) (calls : List Event) : Prop :=
  match t.pc with
  | .absent | .worker .receive => Exchanged calls [] []
  | .worker (.refuse why) =>
      ∃ line, Exchanged calls [some line] [] ∧ why.reply = loginAnswer line ∧
        t.login.tag ≠ tagRlogin
  | .worker .newUser | .worker .welcome =>
      ∃ line, Exchanged calls [some line] [] ∧ welcomeReply t.login.data = loginAnswer line
  | .sender _ => t.login.tag ≠ tagRlogin ∧ ∃ line, Begins calls [some line] [loginAnswer line]
  | .receiver .receive => ∃ line, Exchanged calls [some line] [loginAnswer line]
  | .receiver (.refuse why) =>
      ∃ line second, Exchanged calls [some line, second] [loginAnswer line] ∧
        why.reply = joinAnswer second
  | .receiver .find | .receiver .add | .receiver .joined =>
      ∃ line second, Exchanged calls [some line, second] [loginAnswer line] ∧
        receiverJoinedReply = joinAnswer second
  | .receiver _ => JoinAnswered calls
  | .done =>
      receivedLines calls = [none] ∨
        (∃ line, Begins calls [some line] [loginAnswer line]) ∧
          (t.login.tag = tagRlogin → (∃ m, .sent m false ∈ calls) ∨ JoinAnswered calls)

/-- The calls of {lit}`worker` keep what has been exchanged in step with the control point. -/
theorem worker_admitted {t : Thread} {p : WorkerPc} {calls : List Event}
    (hpc : t.pc = .worker p) (h : Admitted t calls) :
    (worker t p).Called fun t' e => Admitted t' (calls ++ [e]) := by
  unfold Admitted at h
  rw [hpc] at h
  cases p with
  | receive =>
      have herr : tagErr ≠ tagRlogin := by decide
      refine ⟨.inl (h.received none).lines, fun line _ _ => ⟨fun hdec => ?_, ?_⟩⟩
      · exact ⟨line, h.received _, by simp [loginAnswer, hdec], herr⟩
      · intro m result hdec
        dsimp only
        rw [if_pos rfl]
        split_ifs with htag
        · exact ⟨line, h.received _, by simp [loginAnswer, hdec, htag], htag.1⟩
        · exact ⟨line, h.received _, by simp only [loginAnswer, hdec, if_neg htag]⟩
  | refuse why =>
      rcases h with ⟨line, hcalls, hwhy, htag⟩
      intro ok
      have hsent := (hcalls.sent why.reply ok).begins
      rw [hwhy] at hsent
      rw [hwhy]
      exact .inr ⟨⟨line, hsent⟩, fun hrlogin => absurd hrlogin htag⟩
  | newUser =>
      rcases h with ⟨line, hcalls, hwelcome⟩
      exact ⟨line, hcalls.other rfl rfl, hwelcome⟩
  | welcome =>
      rcases h with ⟨line, hcalls, hwelcome⟩
      intro ok
      have hsent := hcalls.sent (welcomeReply t.login.data) ok
      rw [hwelcome, List.nil_append] at hsent
      rw [hwelcome]
      dsimp only
      split_ifs with hok hrlogin hslogin
      · have hfailed : ok = false := by simpa using hok
        subst ok
        exact .inr ⟨⟨line, hsent.begins⟩, fun _ => .inl ⟨loginAnswer line, by simp⟩⟩
      · exact ⟨line, hsent⟩
      · have hne : tagSlogin ≠ tagRlogin := by decide
        exact ⟨by rw [← hslogin] at hne; exact hne, line, hsent.begins⟩
      · exact .inr ⟨⟨line, hsent.begins⟩, fun h' => absurd h' hrlogin⟩

/-- The calls of {lit}`chat_with_receiver` keep what has been exchanged in step with the control
point. -/
theorem chatWithReceiver_admitted {t : Thread} {p : ReceiverPc} {calls : List Event}
    (hpc : t.pc = .receiver p) (h : Admitted t calls) :
    (chatWithReceiver t p).Called fun t' e => Admitted t' (calls ++ [e]) := by
  unfold Admitted at h
  rw [hpc] at h
  have hdone : ∀ {t' : Thread} {calls' : List Event}, t'.pc = .done → JoinAnswered calls' →
      Admitted t' calls' := by
    rintro t' calls' hpc' ⟨line, second, hanswered⟩
    unfold Admitted
    rw [hpc']
    refine .inr ⟨⟨line, ?_, ?_⟩, fun _ => .inr ⟨line, second, hanswered⟩⟩
    · exact List.IsPrefix.trans ⟨[second], rfl⟩ hanswered.lines
    · exact List.IsPrefix.trans ⟨[joinAnswer second], rfl⟩ hanswered.frames
  have happend : JoinAnswered calls → ∀ e, JoinAnswered (calls ++ [e]) := by
    rintro ⟨line, second, hanswered⟩ e
    exact ⟨line, second, hanswered.append e⟩
  cases p with
  | receive =>
      rcases h with ⟨line, hcalls⟩
      refine ⟨⟨line, none, hcalls.received none, rfl⟩, fun second _ _ => ⟨fun hdec => ?_, ?_⟩⟩
      · exact ⟨line, some second, hcalls.received _, by simp [joinAnswer, hdec]⟩
      · intro m result hdec
        dsimp only
        have hjoin : joinAnswer (some second) =
            if m.tag ≠ tagJoin then Refusal.joinFirst.reply
            else if !isValidRoomName m.data then Refusal.invalidRoomName.reply
            else receiverJoinedReply := by
          simp only [joinAnswer, hdec]
        split_ifs with hinvalid heof htag hvalid
        · exact absurd hinvalid.1 (by simp)
        · exact absurd heof.1 (by simp)
        · exact ⟨line, some second, hcalls.received _, by rw [hjoin, if_pos htag]⟩
        · exact ⟨line, some second, hcalls.received _, by rw [hjoin, if_neg htag, if_pos hvalid]⟩
        · exact ⟨line, some second, hcalls.received _, by rw [hjoin, if_neg htag, if_neg hvalid]⟩
  | refuse why =>
      rcases h with ⟨line, second, hcalls, hwhy⟩
      intro ok
      refine hdone rfl ⟨line, second, ?_⟩
      rw [hwhy]
      exact (hcalls.sent _ ok).begins
  | find =>
      rcases h with ⟨line, second, hcalls, hjoin⟩
      exact fun r => ⟨line, second, hcalls.other rfl rfl, hjoin⟩
  | add =>
      rcases h with ⟨line, second, hcalls, hjoin⟩
      exact deref_cases trivial fun r _ => ⟨line, second, hcalls.other rfl rfl, hjoin⟩
  | joined =>
      rcases h with ⟨line, second, hcalls, hjoin⟩
      intro ok
      refine ⟨line, second, ?_⟩
      rw [hjoin]
      exact (hcalls.sent _ ok).begins
  | dequeue =>
      intro newMsg
      cases newMsg <;> exact happend h _
  | deliver newMsg =>
      intro ok
      dsimp only
      split_ifs <;> exact happend h _
  | empty => exact fun ok => happend h _
  | remove =>
      refine deref_cases trivial fun r _ => ?_
      have hend : Admitted (t.goto .done) (calls ++ [.removed r]) := hdone rfl (happend h _)
      exact hend

/-- In every reachable state the first frames sent on a connection are the answers to its
first lines. -/
theorem reachable_admitted {s : State} (hs : server.Reachable s) (c : ConnId) :
    Admitted (s.threads c) (s.calls c) := by
  refine calls_invariant ⟨rfl, rfl⟩ (fun t calls hpc h => ?_) ?_ hs c
  · unfold Admitted at h
    rw [hpc] at h
    exact h
  · intro t user getRoomName calls h
    apply Thread.code_cases
    · exact trivial
    · exact fun p hpc => worker_admitted hpc h
    · intro p hpc
      unfold Admitted at h
      rw [hpc] at h
      rcases h with ⟨htag, line, hcalls⟩
      refine (chatWithSender_stays user getRoomName t p).imp fun t' e hstays => ?_
      unfold Admitted
      rw [hstays.login]
      rcases hstays.pc with hpc' | hpc'
      · cases hp : t'.pc with
        | sender p => exact ⟨htag, line, hcalls.append e⟩
        | _ => simp [hp, Pc.isSender] at hpc'
      · rw [hpc']
        exact .inr ⟨⟨line, hcalls.append e⟩, fun hrlogin => absurd hrlogin htag⟩
    · exact fun p hpc => chatWithReceiver_admitted hpc h

/-! ## Threads that wait -/

/-- The control points that wait. -/
theorem Pc.cases_of_waiting {pc : Pc} (h : pc.waiting) :
    pc = .worker .receive ∨ pc = .sender .receive ∨ pc = .receiver .receive ∨
      pc = .receiver .dequeue ∨ pc = .absent ∨ pc = .done := by
  unfold waiting at h
  split at h
  · exact .inl rfl
  · exact .inr (.inl rfl)
  · exact .inr (.inr (.inl rfl))
  · exact .inr (.inr (.inr (.inl rfl)))
  · exact .inr (.inr (.inr (.inr (.inl rfl))))
  · exact .inr (.inr (.inr (.inr (.inr rfl))))
  · cases h

section

variable {s : State} (hs : server.Reachable s) {c : ConnId} (hwaiting : (s.threads c).pc.waiting)
include hs hwaiting

/-- A thread that waits and has received nothing waits for the login. -/
theorem waits_for_login (habsent : (s.threads c).pc ≠ .absent)
    (hlines : receivedLines (s.calls c) = []) : (s.threads c).pc = .worker .receive := by
  have h := reachable_admitted hs c
  unfold Admitted at h
  rcases Pc.cases_of_waiting hwaiting with hpc | hpc | hpc | hpc | hpc | hpc <;>
    rw [hpc] at h
  · exact hpc
  · rcases h with ⟨-, line, hcalls⟩
    exact absurd (hlines ▸ hcalls.lines) (by simp)
  · rcases h with ⟨line, hcalls⟩
    rw [hcalls.lines] at hlines
    cases hlines
  · rcases h with ⟨line, second, hcalls⟩
    exact absurd (hlines ▸ hcalls.lines) (by simp)
  · exact absurd hpc habsent
  · rcases h with hnone | ⟨⟨line, hcalls⟩, -⟩
    · rw [hlines] at hnone
      cases hnone
    · exact absurd (hlines ▸ hcalls.lines) (by simp)

/-- A thread that waits has answered its first line. -/
theorem login_answered {line : Bytes} {lines : List (Option Bytes)}
    (hlines : receivedLines (s.calls c) = some line :: lines) :
    [loginAnswer line] <+: sentFrames (s.calls c) := by
  have h := reachable_admitted hs c
  unfold Admitted at h
  have hbegins : ∀ {line' : Bytes}, Begins (s.calls c) [some line'] [loginAnswer line'] →
      [loginAnswer line] <+: sentFrames (s.calls c) := by
    intro line' hcalls
    have hfirst := hcalls.lines
    rw [hlines, List.cons_prefix_cons, Option.some.injEq] at hfirst
    rw [← hfirst.1]
    exact hcalls.frames
  rcases Pc.cases_of_waiting hwaiting with hpc | hpc | hpc | hpc | hpc | hpc <;>
    rw [hpc] at h
  · rw [h.lines] at hlines
    cases hlines
  · rcases h with ⟨-, line', hcalls⟩
    exact hbegins hcalls
  · rcases h with ⟨line', hcalls⟩
    exact hbegins hcalls.begins
  · rcases h with ⟨line', second, hcalls⟩
    exact hbegins ⟨List.IsPrefix.trans ⟨[second], rfl⟩ hcalls.lines,
      List.IsPrefix.trans ⟨[joinAnswer second], rfl⟩ hcalls.frames⟩
  · rw [h.lines] at hlines
    cases hlines
  · rcases h with hnone | ⟨⟨line', hcalls⟩, -⟩
    · rw [hlines] at hnone
      cases hnone
    · exact hbegins hcalls

variable (hrlogin : (s.threads c).login.tag = tagRlogin) (hsent : ∀ m, .sent m false ∉ s.calls c)
include hrlogin hsent

/-- A receiver that waits has received its login only or has answered its second line. -/
theorem receiver_waits {line : Bytes} {lines : List (Option Bytes)}
    (hlines : receivedLines (s.calls c) = some line :: lines) :
    (s.threads c).pc = .receiver .receive ∧ lines = [] ∨
      JoinAnswered (s.calls c) := by
  have h := reachable_admitted hs c
  unfold Admitted at h
  rcases Pc.cases_of_waiting hwaiting with hpc | hpc | hpc | hpc | hpc | hpc <;>
    rw [hpc] at h
  · rw [h.lines] at hlines
    cases hlines
  · exact absurd hrlogin h.1
  · rcases h with ⟨line', hcalls⟩
    rw [hcalls.lines, List.cons.injEq] at hlines
    exact .inl ⟨hpc, hlines.2.symm⟩
  · exact .inr h
  · rw [h.lines] at hlines
    cases hlines
  · rcases h with hnone | ⟨-, hdone⟩
    · rw [hlines] at hnone
      cases hnone
    · rcases hdone hrlogin with ⟨m, hm⟩ | hanswered
      · exact absurd hm (hsent m)
      · exact .inr hanswered

/-- A receiver that waits and has received its login only waits for the join. -/
theorem waits_for_join {line : Bytes} (hlines : receivedLines (s.calls c) = [some line]) :
    (s.threads c).pc = .receiver .receive := by
  rcases receiver_waits hs hwaiting hrlogin hsent hlines with ⟨hpc, -⟩ | ⟨line', second, hcalls⟩
  · exact hpc
  · have hlength := hcalls.lines.length_le
    rw [hlines] at hlength
    simp at hlength

/-- A receiver that waits has answered its second line. -/
theorem join_answered {line : Bytes} {second : Option Bytes} {lines : List (Option Bytes)}
    (hlines : receivedLines (s.calls c) = some line :: second :: lines) :
    [loginAnswer line, joinAnswer second] <+: sentFrames (s.calls c) := by
  rcases receiver_waits hs hwaiting hrlogin hsent hlines with
    ⟨-, hnil⟩ | ⟨line', second', hcalls⟩
  · cases hnil
  · have hfirst := hcalls.lines
    simp only [hlines, List.cons_prefix_cons, Option.some.injEq, List.nil_prefix,
      and_true] at hfirst
    rw [← hfirst.1, ← hfirst.2]
    exact hcalls.frames

end

end ChatServer
