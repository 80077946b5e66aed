import Mathlib.Data.Prod.Lex
import ChatServer.Server.Locks

/-!
# The end of a sender session

The request loop of a sender ends because the stream of its client is finite.
Every receive consumes a byte or is the last one, so the number of receives that
can still be made is bounded by the unread bytes; between two receives the loop
only goes forward, and a broadcast visits each member once.  These make up a
well-founded measure that every step of the thread decreases and that no step of
another thread touches.

Main results:

- Theorem {lit}`sender_step`: what a step of a sender thread costs.
- Theorem {lit}`sender_session_ends`: the session of a sender makes at most one
  receive more than it has bytes to read, comes to an end, and leaves only its own
  membership changed.

Current gaps:

- That a thread which waits for the lock of a room gets it is left to {lit}`Server.Liveness`.
-/

namespace ChatServer

open Function LineFraming

/-! ## The work that is left -/

/-- Control points after the last receive of a sender. -/
def Pc.closed : Pc → Bool
  | .sender .eof | .sender .exit | .done => true
  | _ => false

/-- The distance of a control point from the next receive. -/
def Pc.rank : Pc → ℕ
  | .sender .receive => 0
  | .sender (.refuse _) | .sender .joined | .sender .left | .sender .quit => 1
  | .sender .sent | .sender .exit => 1
  | .sender (.visit _) | .sender .add | .sender .leave | .sender .eof => 2
  | .sender .broadcast | .sender .find => 3
  | .sender .switch => 4
  | .sender .invalid => 5
  | _ => 0

/-- The number of members that a broadcast has still to visit. -/
def Pc.unvisited : Pc → ℕ
  | .sender (.visit rest) => rest.card
  | _ => 0

/-- The number of receives that a sender thread can still make. -/
def State.receivesLeft (s : State) (c : ConnId) : ℕ :=
  if (s.threads c).pc.closed then 0 else (s.conns c).stream.length + 1

/-- The measure of a sender session. -/
def State.workLeft (s : State) (c : ConnId) : ℕ ×ₗ ℕ ×ₗ ℕ :=
  toLex (s.receivesLeft c, toLex ((s.threads c).pc.rank, (s.threads c).pc.unvisited))

/-- One control point is nearer to the end of the session than another one, without
a receive between them. -/
structure Pc.Nearer (pc' pc : Pc) : Prop where
  closed : pc.closed → pc'.closed
  less : pc'.closed = pc.closed →
    pc'.rank < pc.rank ∨ pc'.rank = pc.rank ∧ pc'.unvisited < pc.unvisited

theorem Thread.dispatch_open (t : Thread) :
    t.dispatch.pc.closed = false ∧ t.dispatch.pc.rank < 5 ∧ t.dispatch.pc.isSender := by
  unfold dispatch
  split_ifs <;> exact ⟨rfl, by simp [goto, Pc.rank], rfl⟩

theorem Thread.breakLoop_closed (t : Thread) :
    t.breakLoop.pc.closed ∧ t.breakLoop.pc.rank < 2 := by
  unfold breakLoop
  split_ifs <;> exact ⟨rfl, by simp [goto, Pc.rank]⟩

/-- Between two receives a sender thread comes nearer to the end of its session. -/
theorem chatWithSender_nearer {user : User} {getRoomName : RoomPtr → Bytes} {t : Thread}
    {p : SenderPc} (hpc : t.pc = .sender p) (hp : p ≠ .receive) :
    (chatWithSender user getRoomName t p).Called fun t' e =>
      (∀ u rest, p = .visit rest → e = .visited u → u ∈ rest) → t'.pc.Nearer t.pc := by
  have hrank : ∀ {pc' : Pc}, pc'.closed = (Pc.sender p).closed →
      pc'.rank < (Pc.sender p).rank → pc'.Nearer t.pc := by
    intro pc' hclosed hless
    rw [hpc]
    exact ⟨fun h => hclosed.trans h, fun _ => .inl hless⟩
  have hnext : ∀ {pc' : Pc}, pc'.closed = (Pc.sender p).closed →
      (Pc.sender p).rank = pc'.rank + 1 → pc'.Nearer t.pc := fun hclosed heq =>
    hrank hclosed (by omega)
  cases p with
  | receive => exact absurd rfl hp
  | invalid =>
      rcases t.dispatch_open with ⟨hopen, hless, -⟩
      exact fun _ _ => hrank hopen hless
  | eof =>
      rcases t.breakLoop_closed with ⟨hclosed, hless⟩
      exact fun _ _ => hrank hclosed hless
  | refuse why => exact fun _ _ => hnext rfl rfl
  | switch => exact deref_cases trivial fun r _ _ => hnext rfl rfl
  | find => exact fun _ _ => hnext rfl rfl
  | add => exact deref_cases trivial fun r _ _ => hnext rfl rfl
  | joined => exact fun _ _ => hnext rfl rfl
  | leave => exact deref_cases trivial fun r _ _ => hnext rfl rfl
  | left => exact deref_cases trivial fun r _ _ _ => hnext rfl rfl
  | quit =>
      rcases t.breakLoop_closed with ⟨hclosed, -⟩
      intro _ _
      rw [hpc]
      refine ⟨fun _ => hclosed, fun h => ?_⟩
      rw [hclosed] at h
      cases h
  | broadcast => exact deref_cases trivial fun r _ _ _ => hnext rfl rfl
  | visit rest =>
      apply deref_cases trivial
      intro r _
      split_ifs
      · exact fun _ => hnext rfl rfl
      · intro u hu
        rw [hpc]
        refine ⟨fun h => h, fun _ => .inr ⟨rfl, ?_⟩⟩
        exact Finset.card_erase_lt_of_mem (hu u rest rfl rfl)
  | sent => exact fun _ _ => hnext rfl rfl
  | exit => exact deref_cases trivial fun r _ _ => hnext rfl rfl

/-! ## The cost of a step -/

def Event.isReceive : Event → Bool
  | .received _ => true
  | _ => false

/-- What a step of a sender thread costs: a receive is paid for by the receives
that are left, and every step lowers the measure. -/
structure SenderStep (s s' : State) (c : ConnId) (e : Event) : Prop where
  calls : s'.calls c = s.calls c ++ [e]
  stays : (s'.threads c).pc.isSender ∨ (s'.threads c).pc = .done
  receives : [e].countP Event.isReceive + s'.receivesLeft c ≤ s.receivesLeft c
  less : s'.workLeft c < s.workLeft c

/-- A line that is read shortens the stream. -/
theorem Connection.length_stream_receive {conn : Connection} {line : Bytes}
    (h : conn.nextLine = some line) (msg : Message) :
    (conn.receive msg).2.2.stream.length < conn.stream.length := by
  rw [Connection.nextLine_eq] at h
  split at h
  · cases h
  · rename_i hread
    rw [Connection.stream_receive]
    have happend := congrArg List.length (takeLine_append newline maxLen conn.stream)
    have hpos : 0 < (takeLine newline maxLen conn.stream).1.length := by
      rw [List.length_pos_iff]
      exact fun hnil => hread (.inl hnil)
    rw [List.length_append] at happend
    omega

/-- Calls other than a receive leave the streams as they are. -/
theorem Performed.stream {s s' : State} {c : ConnId} {op : Op} (h : Performed s c op s')
    (hop : ∀ msg k, op ≠ .receive msg k) (d : ConnId) :
    (s'.conns d).stream = (s.conns d).stream := by
  cases h with
  | receive msg k => exact absurd rfl (hop msg k)
  | send msg k writes =>
      by_cases hdc : d = c
      · subst d
        simp only [State.resume_conns, update_self, Connection.stream, Connection.send]
        split <;> rfl
      · simp [hdc]
  | _ => rfl

/-- In {lit}`chat_with_sender` one control point receives. -/
theorem chatWithSender_ne_receive {user : User} {getRoomName : RoomPtr → Bytes}
    {t : Thread} {p : SenderPc} (hp : p ≠ .receive) (msg : Message)
    (k : Bool → Result → Message → Thread) :
    chatWithSender user getRoomName t p ≠ .receive msg k := by
  intro hreceive
  have hfrom := chatWithSender_calledFrom user getRoomName t p
  rw [hreceive] at hfrom
  exact hp hfrom

/-- A receive reads the next line of the connection. -/
theorem run_received {s s' : State} {c : ConnId} {env : Env} {msg : Message}
    {k : Bool → Result → Message → Thread} (hs : server.Reachable s)
    (hstep : server.step s (.run c env) = some s') (hcode : code s c = .receive msg k) :
    s'.calls c = s.calls c ++ [.received (s.conns c).nextLine] ∧
      s'.conns c = ((s.conns c).receive msg).2.2 := by
  have hworker : ∀ p, (s.threads c).pc = .worker p → s.chatCalls c = [] := fun p hpc =>
    chatCalls_of_worker hs hpc
  have hperf := performed_of_perform hstep
  rw [hcode] at hperf
  cases hperf with
  | receive =>
      rw [State.calls_resume (by exact hworker)]
      exact ⟨update_self _ _ _, update_self _ _ _⟩

/-- A visit goes to a member that has not been visited. -/
theorem run_visited {s s' : State} {c u : ConnId} {env : Env} {rest : Finset ConnId}
    (hs : server.Reachable s) (hstep : server.step s (.run c env) = some s')
    (hpc : (s.threads c).pc = .sender (.visit rest))
    (hcalls : s'.calls c = s.calls c ++ [.visited u]) : u ∈ rest := by
  have hworker : ∀ p, (s.threads c).pc = .worker p → s.chatCalls c = [] := fun p hpc =>
    chatCalls_of_worker hs hpc
  have hperf := performed_of_perform hstep
  rw [code, Thread.code_sender hpc, chatWithSender] at hperf
  cases hroom : (s.threads c).room with
  | none =>
      rw [hroom] at hperf
      cases hperf
  | some r =>
      rw [hroom, deref] at hperf
      split_ifs at hperf
      · cases hperf
        rw [State.calls_resume (by exact hworker), update_self] at hcalls
        have hlast := List.append_cancel_left hcalls
        cases hlast
      · cases hperf with
        | visited _ _ _ _ _ v hv =>
            rw [State.calls_resume (by exact hworker), update_self] at hcalls
            have hlast := List.append_cancel_left hcalls
            rw [List.cons.injEq, Event.visited.injEq] at hlast
            rwa [← hlast.1]

/-- Fewer receives are left, or as many and the control point is nearer. -/
theorem workLeft_lt {s s' : State} {c : ConnId}
    (h : s'.receivesLeft c < s.receivesLeft c ∨
      s'.receivesLeft c = s.receivesLeft c ∧
        ((s'.threads c).pc.rank < (s.threads c).pc.rank ∨
          (s'.threads c).pc.rank = (s.threads c).pc.rank ∧
            (s'.threads c).pc.unvisited < (s.threads c).pc.unvisited)) :
    s'.workLeft c < s.workLeft c := by
  simpa [State.workLeft, Prod.Lex.toLex_lt_toLex] using h

/-- Between two receives no receive is used up. -/
theorem receivesLeft_of_nearer {s s' : State} {c : ConnId}
    (hnearer : (s'.threads c).pc.Nearer (s.threads c).pc)
    (hstream : (s'.conns c).stream = (s.conns c).stream) :
    s'.receivesLeft c < s.receivesLeft c ∨
      s'.receivesLeft c = s.receivesLeft c ∧
        (s'.threads c).pc.closed = (s.threads c).pc.closed := by
  unfold State.receivesLeft
  rw [hstream]
  cases hclosed : (s.threads c).pc.closed with
  | true =>
      rw [hnearer.closed hclosed]
      exact .inr ⟨rfl, rfl⟩
  | false =>
      cases (s'.threads c).pc.closed with
      | true => exact .inl (Nat.succ_pos _)
      | false => exact .inr ⟨rfl, rfl⟩

/-- The receive of a sender thread uses up one of the receives that are left. -/
theorem sender_receives {s s' : State} {c : ConnId} {env : Env} (hs : server.Reachable s)
    (hpc : (s.threads c).pc = .sender .receive)
    (hstep : server.step s (.run c env) = some s') :
    s'.calls c = s.calls c ++ [.received (s.conns c).nextLine] ∧
      s'.receivesLeft c < s.receivesLeft c := by
  have hcode : code s c = chatWithSender (s.users c) (fun r => (s.rooms r).roomName)
      (s.threads c) .receive := Thread.code_sender hpc
  have heof : (code s c).Called fun t' e => e = .received none → t'.pc.closed := by
    rw [hcode]
    refine ⟨fun _ => rfl, fun line _ _ => ⟨fun _ h => ?_, fun m result _ h => ?_⟩⟩
    · cases h
    · cases h
  rcases run_received hs hstep hcode with ⟨hcalls, hconn⟩
  rcases run_called hs hstep heof with ⟨t, e, ht, hthreads, hadd⟩
  refine ⟨hcalls, ?_⟩
  have hclosed : (s.threads c).pc.closed = false := by rw [hpc]; rfl
  have hthread : s'.threads c = t := by rw [hthreads, update_self]
  rw [hadd, update_self] at hcalls
  have hevent := (List.cons.inj (List.append_cancel_left hcalls)).1
  unfold State.receivesLeft
  rw [hclosed, hthread]
  cases hline : (s.conns c).nextLine with
  | none =>
      rw [hline] at hevent
      rw [ht hevent]
      exact Nat.succ_pos _
  | some line =>
      have hshort := Connection.length_stream_receive hline (s.threads c).msg
      rw [← hconn] at hshort
      split
      · exact Nat.succ_pos _
      · simp only [Bool.false_eq_true, if_false]
        omega

/-- A step of a sender thread is paid for. -/
theorem sender_step {s s' : State} {c : ConnId} {env : Env} (hs : server.Reachable s)
    (hpc : (s.threads c).pc.isSender) (hstep : server.step s (.run c env) = some s') :
    ∃ e, SenderStep s s' c e := by
  cases hp : (s.threads c).pc with
  | sender p =>
      have hcode : code s c = chatWithSender (s.users c) (fun r => (s.rooms r).roomName)
          (s.threads c) p := Thread.code_sender hp
      have hstays := chatWithSender_stays (s.users c) (fun r => (s.rooms r).roomName)
        (s.threads c) p
      rw [← hcode] at hstays
      by_cases hreceive : p = .receive
      · subst p
        rcases run_called hs hstep hstays with ⟨t, e, ht, hthreads, -⟩
        rcases sender_receives hs hp hstep with ⟨hcalls, hless⟩
        refine ⟨_, hcalls, ?_, ?_, workLeft_lt (.inl hless)⟩
        · rw [hthreads, update_self]
          exact ht.pc
        · simp only [List.countP_singleton, Event.isReceive, if_true]
          omega
      · have hnearer : (code s c).Called fun t' e =>
            (∀ u rest, p = .visit rest → e = .visited u → u ∈ rest) →
              t'.pc.Nearer (s.threads c).pc := by
          rw [hcode]
          exact chatWithSender_nearer hp hreceive
        obtain ⟨t, e, ⟨⟨ht, hnear⟩, hmatches⟩, hthreads, hadd⟩ :=
          run_called hs hstep ((hstays.and hnearer).and (code s c).called_matches)
        have hcalls : s'.calls c = s.calls c ++ [e] := by rw [hadd, update_self]
        have hthread : s'.threads c = t := by rw [hthreads, update_self]
        have hother : ∀ msg k, code s c ≠ .receive msg k := by
          intro msg k
          rw [hcode]
          exact chatWithSender_ne_receive hreceive msg k
        have hnear' : (s'.threads c).pc.Nearer (s.threads c).pc := by
          rw [hthread]
          refine hnear fun u rest hvisit he => ?_
          subst hvisit he
          exact run_visited hs hstep hp hcalls
        have hstream := (performed_of_perform hstep).stream hother c
        have hleft := receivesLeft_of_nearer hnear' hstream
        refine ⟨e, hcalls, hthread ▸ ht.pc, ?_, workLeft_lt ?_⟩
        · have hno : e.isReceive = false := by
            cases e with
            | received line =>
                rcases hmatches with ⟨msg, k, hk⟩
                exact absurd hk (hother msg k)
            | _ => rfl
          simp only [List.countP_singleton, hno]
          rcases hleft with hless | ⟨heq, -⟩ <;> simp <;> omega
        · exact hleft.imp_right fun h => ⟨h.1, hnear'.less h.2⟩
  | _ => simp [hp, Pc.isSender] at hpc

/-! ## The session -/

/-- A step either is a step of the sender thread or leaves its session alone. -/
theorem sender_session_step {s s' : State} {a : Action} {c : ConnId}
    (hs : server.Reachable s) (hpc : (s.threads c).pc.isSender ∨ (s.threads c).pc = .done)
    (hstep : server.step s a = some s') :
    (a.conn = c ∧ ∃ e, SenderStep s s' c e) ∨
      (a.conn ≠ c ∧ s'.threads c = s.threads c ∧ s'.calls c = s.calls c ∧
        s'.receivesLeft c = s.receivesLeft c ∧ s'.workLeft c = s.workLeft c) := by
  by_cases hc : a.conn = c
  · cases a with
    | accept d reads ending =>
        have habsent := (accept_step hstep).1
        rw [show d = c from hc] at habsent
        simp [habsent, Pc.isSender] at hpc
    | run d env =>
        rw [show d = c from hc] at hstep
        rcases hpc with hsender | hdone
        · exact .inl ⟨hc, sender_step hs hsender hstep⟩
        · have hperf := performed_of_perform hstep
          rw [code, Thread.code, hdone] at hperf
          cases hperf
  · rcases step_other hstep hc with ⟨hthread, hcalls⟩
    have hconn := step_other_conns hstep hc
    refine .inr ⟨hc, hthread, hcalls, ?_, ?_⟩
    · rw [State.receivesLeft, State.receivesLeft, hthread, hconn]
    · rw [State.workLeft, State.workLeft, State.receivesLeft, State.receivesLeft, hthread, hconn]

/-- The thread stays in the request loop of its session until it returns. -/
theorem sender_session_stays {s s' : State} {a : Action} {c : ConnId}
    (hs : server.Reachable s) (hstep : server.step s a = some s')
    (hpc : (s.threads c).pc.isSender ∨ (s.threads c).pc = .done) :
    (s'.threads c).pc.isSender ∨ (s'.threads c).pc = .done := by
  rcases sender_session_step hs hpc hstep with ⟨-, e, he⟩ | ⟨-, hthread, -⟩
  · exact he.stays
  · rwa [hthread]

/-- The receives made and the receives left never exceed the receives that were left
at the beginning. -/
theorem sender_session_receives {s s' : State} {as : List Action} {c : ConnId}
    (hs : server.Reachable s) (hpc : (s.threads c).pc.isSender ∨ (s.threads c).pc = .done)
    (hrun : server.run s as = some s') :
    ∃ events, s'.calls c = s.calls c ++ events ∧
      events.countP Event.isReceive + s'.receivesLeft c ≤ s.receivesLeft c := by
  induction as generalizing s with
  | nil =>
      cases hrun
      exact ⟨[], by simp⟩
  | cons a as ih =>
      rw [TransitionSystem.run_cons, Option.bind_eq_some_iff] at hrun
      rcases hrun with ⟨t, hstep, hrest⟩
      have hstays := sender_session_stays hs hstep hpc
      rcases ih (.step hs trivial hstep) hstays hrest with ⟨events, hcalls, hcount⟩
      rcases sender_session_step hs hpc hstep with ⟨-, e, he⟩ | ⟨-, -, hsame, hleft, -⟩
      · refine ⟨e :: events, by rw [hcalls, he.calls, List.append_assoc]; rfl, ?_⟩
        have hpaid := he.receives
        rw [← List.singleton_append, List.countP_append]
        omega
      · exact ⟨events, by rw [hcalls, hsame], hleft ▸ hcount⟩

/-- A step changes the membership of no user but its own. -/
theorem members_other {s s' : State} {a : Action} (hs : server.Reachable s)
    (hstep : server.step s a = some s') {d : ConnId} (hd : d ≠ a.conn) (r : RoomPtr) :
    d ∈ (s'.rooms r).members ↔ d ∈ (s.rooms r).members := by
  rw [reachable_memberships hs, reachable_memberships (.step hs trivial hstep),
    (step_other hstep (Ne.symm hd)).1]

/-- The session of a sender ends cleanly.  In every run from its start it makes at
most one receive more than there are bytes to read, until the thread has returned
it can go on or waits for the lock of a room whose holder can go on, and after it
has returned its user is in no room; no infinite run has infinitely many of its
steps; and its steps change no other membership. -/
structure SenderSessionEnds (s : State) (c : ConnId) : Prop where
  receives : ∀ as s' events, server.run s as = some s' → s'.calls c = s.calls c ++ events →
    events.countP Event.isReceive ≤ (s.conns c).stream.length + 1
  progress : ∀ as s', server.run s as = some s' → (s'.threads c).pc ≠ .done →
    s'.Enabled c ∨ ∃ r d, s'.WaitsFor c r d ∧ s'.Enabled d
  returned : ∀ as s', server.run s as = some s' → (s'.threads c).pc = .done →
    ∀ r, c ∉ (s'.rooms r).members
  finite : ∀ ρ : server.InfiniteRun s, ∃ n, ∀ m, n ≤ m → (ρ.labels m).conn ≠ c
  others : ∀ as, server.Along
    (fun t a t' => a.conn = c → ∀ d, d ≠ c → ∀ r,
      d ∈ (t'.rooms r).members ↔ d ∈ (t.rooms r).members) s as

/-- The session of a sender whose thread is about to receive ends cleanly, whatever
its client has sent and whatever becomes of the replies. -/
theorem sender_session_ends {s : State} (hs : server.Reachable s) {c : ConnId}
    (hpc : (s.threads c).pc = .sender .receive) : SenderSessionEnds s c := by
  have hsender : (s.threads c).pc.isSender ∨ (s.threads c).pc = .done := by
    rw [hpc]
    exact .inl rfl
  have hstays : ∀ {as : List Action} {s' : State}, server.run s as = some s' →
      (s'.threads c).pc.isSender ∨ (s'.threads c).pc = .done := fun hrun =>
    hs.run_invariant (P := fun s => (s.threads c).pc.isSender ∨ (s.threads c).pc = .done)
      hsender (fun s a s' hs hstep => sender_session_stays hs hstep) hrun
  refine ⟨?_, ?_, ?_, ?_, ?_⟩
  · intro as s' events hrun hcalls
    rcases sender_session_receives hs hsender hrun with ⟨events', hcalls', hcount⟩
    rw [hcalls, List.append_cancel_left_eq] at hcalls'
    subst events'
    have hleft : s.receivesLeft c = (s.conns c).stream.length + 1 := by
      simp [State.receivesLeft, hpc, Pc.closed]
    omega
  · intro as s' hrun hdone
    have habsent : (s'.threads c).pc ≠ .absent := by
      intro habsent
      simpa [habsent, Pc.isSender] using hstays hrun
    exact thread_progress (hs.of_run hrun) habsent hdone
  · exact fun as s' hrun => (membership_invariant (hs.of_run hrun)).1.returned c
  · intro ρ
    have hstep : ∀ n, (ρ.labels n).conn = c ∧
          (∃ e, SenderStep (ρ.states n) (ρ.states (n + 1)) c e) ∨
        (ρ.labels n).conn ≠ c ∧
          (ρ.states (n + 1)).workLeft c = (ρ.states n).workLeft c := by
      intro n
      have hn := ρ.invariant hs
        (P := fun s => (s.threads c).pc.isSender ∨ (s.threads c).pc = .done) hsender
        (fun s a s' hs hstep => sender_session_stays hs hstep) n
      rcases sender_session_step (ρ.reachable hs n) hn (ρ.step n) with hown | hother
      · exact .inl hown
      · exact .inr ⟨hother.1, hother.2.2.2.2⟩
    apply ρ.finitely_many (fun s => s.workLeft c) (fun a => a.conn = c)
    · intro n
      rcases hstep n with ⟨-, e, he⟩ | ⟨-, hsame⟩
      · exact he.less.le
      · exact hsame.le
    · intro n hn
      rcases hstep n with ⟨-, e, he⟩ | ⟨hne, -⟩
      · exact he.less
      · exact absurd hn hne
  · apply hs.along
    intro t a t' ht hstep hc d hd r
    exact members_other ht hstep (hc ▸ hd) r

/-- The session of a sender whose client sends a join, an over-long line without a
newline, and then nothing. -/
theorem sender_session_ends_cut :
    ∃ s, server.run server.init
        (connect 1 (str "slogin:bob\njoin:hall\n" ++ List.replicate 300 (97 : Byte)) ::
          serve 1 3) = some s ∧
      (s.conns 1).stream.length = 310 ∧ SenderSessionEnds s 1 := by
  have hrun : (server.run server.init
      (connect 1 (str "slogin:bob\njoin:hall\n" ++ List.replicate 300 (97 : Byte)) ::
        serve 1 3)).map
      (fun s => ((s.threads 1).pc, (s.conns 1).stream.length)) =
      some (.sender .receive, 310) := by
    decide +kernel
  rcases TransitionSystem.exists_reachable_of_run hrun with ⟨s, hs, hend, hreach⟩
  rw [Prod.mk.injEq] at hend
  exact ⟨s, hs, hend.2, sender_session_ends hreach hend.1⟩

end ChatServer
