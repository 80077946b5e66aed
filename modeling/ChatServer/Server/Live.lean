import ChatServer.Server.Locks

/-!
# Live connections

In {lit}`Server.Step` a connection arrives together with everything that its client
will ever send.  Here the bytes arrive while the server runs, the connection may be
closed or lost at any time, and a receive blocks while its line is incomplete.  The
server of {lit}`Server.Step` can do whatever this server does: it only has to be given
in advance what is going to arrive.

Main results:

- Theorem {lit}`Connection.receive_extend`: a receive that does not block is not
  affected by what arrives later.
- Theorem {lit}`live_refines`: a run is one of the server of {lit}`Server.Step` with the
  same calls, so that all invariants of that server hold of live connections.
- Theorem {lit}`live_progress`: if every write returns, a thread that has not returned can
  go on, or waits for its client, or for the lock of a room whose holder can go on.

Current gaps:

- Bytes that a lost connection had delivered to the kernel can still be read.
- Writes may fail, but always return.  A write to a client that does not read may block for
  ever, since the sockets are blocking and have no timeout; this is left out, so only
  receives and locks keep a thread waiting here.
-/

namespace ChatServer

open Function LineFraming

/-! ## Reading while bytes arrive -/

/-- The same reader when more has arrived and the end of the stream is known. -/
def Rio.extend (rp : Rio) (more : List ReadResult) (ending : StreamEnd) : Rio :=
  { rp with reads := rp.reads ++ more, ending := ending }

/-- A refill that finds data does not depend on what arrives later. -/
theorem rioRefill_extend {ending : StreamEnd} {reads : List ReadResult} {c : Byte}
    {rest : Bytes} (h : reads.flatMap ReadResult.bytes = c :: rest) (more : List ReadResult)
    (ending' : StreamEnd) :
    rioRefill ending' (reads ++ more) =
      ((rioRefill ending reads).1, (rioRefill ending reads).2.extend more ending') := by
  induction reads with
  | nil => cases h
  | cons r reads ih =>
      cases r with
      | data first buf => rfl
      | eintr => exact ih (by simpa [ReadResult.bytes] using h)

/-- While there is something to read, a byte read does not look further. -/
theorem rioRead_extend {rp : Rio} {c : Byte} {rest : Bytes} (h : rp.stream = c :: rest)
    (more : List ReadResult) (ending : StreamEnd) :
    rioRead (rp.extend more ending) =
      ((rioRead rp).1, (rioRead rp).2.extend more ending) := by
  unfold Rio.stream at h
  unfold rioRead
  cases hbuf : rp.rioBuf with
  | nil =>
      rw [hbuf] at h
      simp only [Rio.extend, hbuf]
      exact rioRefill_extend h more ending
  | cons d buf => simp [Rio.extend, hbuf]

/-- The line reader does not look beyond a line that is complete. -/
theorem rioReadlinebLoop_extend {left : Nat} {rp : Rio}
    (h : ¬ Unfinished newline left (takeLine newline left rp.stream).1) (buf : Bytes)
    (more : List ReadResult) (ending : StreamEnd) :
    rioReadlinebLoop left (rp.extend more ending) buf =
      ((rioReadlinebLoop left rp buf).1,
        (rioReadlinebLoop left rp buf).2.extend more ending) := by
  induction left generalizing rp buf with
  | zero => rfl
  | succ left ih =>
      cases hstream : rp.stream with
      | nil =>
          rw [hstream] at h
          exact absurd (by simp [Unfinished]) h
      | cons c rest =>
          rcases rioRead_cons hstream with ⟨rp', hread, hrest, -⟩
          have hextend := rioRead_extend hstream more ending
          rw [hread] at hextend
          simp only [rioReadlinebLoop, hread, hextend]
          by_cases hc : c = newline
          · simp [hc]
          · rw [if_neg hc, if_neg hc]
            apply ih
            rwa [hstream, takeLine_cons_of_ne hc, unfinished_cons hc, ← hrest] at h

/-- The line that the next receive is going to read is incomplete. -/
def Connection.Starved (conn : Connection) : Prop :=
  Unfinished newline maxLen (takeLine newline maxLen conn.stream).1

instance (conn : Connection) : Decidable conn.Starved :=
  inferInstanceAs (Decidable (Unfinished _ _ _))

/-- The same connection when more has arrived and the end of the stream is known. -/
def Connection.extend (conn : Connection) (more : List ReadResult) (ending : StreamEnd) :
    Connection :=
  { conn with fdbuf := conn.fdbuf.extend more ending }

/-- A receive that does not block is not affected by what arrives later. -/
theorem Connection.receive_extend {conn : Connection} (h : ¬ conn.Starved)
    (more : List ReadResult) (ending : StreamEnd) (msg : Message) :
    (conn.extend more ending).nextLine = conn.nextLine ∧
      (conn.extend more ending).receive msg =
        ((conn.receive msg).1, (conn.receive msg).2.1,
          (conn.receive msg).2.2.extend more ending) := by
  have hread : rioReadlineb (conn.extend more ending).fdbuf (maxLen + 1) =
      ((rioReadlineb conn.fdbuf (maxLen + 1)).1,
        (rioReadlineb conn.fdbuf (maxLen + 1)).2.extend more ending) :=
    rioReadlinebLoop_extend h [] more ending
  have hline : (conn.extend more ending).nextLine = conn.nextLine := by
    simp only [nextLine, hread]
  refine ⟨hline, ?_⟩
  rw [receive_eq, receive_eq, hline, hread]
  cases conn.nextLine with
  | none => rfl
  | some line => cases hdec : decode line <;> simp [hdec, extend]

/-! ## The live server -/

/-- The receiving side of a connection: it has not been accepted, more may arrive, or
the end of the stream has been met. -/
inductive Link where
  | idle
  | linked
  | closed
deriving DecidableEq

/-- The server and its connections. -/
structure LiveState where
  base : State := {}
  link : ConnId → Link := fun _ => .idle

/-- A connection arrives; the next {lit}`read` on it has a result; no more will arrive;
or a thread makes its next call. -/
inductive LiveAction where
  | accept (c : ConnId)
  | arrive (c : ConnId) (r : ReadResult)
  | hangUp (c : ConnId) (ending : StreamEnd)
  | run (c : ConnId) (env : Env := {})

/-- The call is a receive. -/
def Op.isReceive : Op → Bool
  | .receive _ _ => true
  | _ => false

/-- The next call of a thread is a receive that has to wait for its client.  A send is never
blocked here: the model assumes that every write returns. -/
def LiveState.Blocked (s : LiveState) (c : ConnId) : Prop :=
  (code s.base c).isReceive ∧ s.link c = .linked ∧ (s.base.conns c).Starved

instance (s : LiveState) (c : ConnId) : Decidable (s.Blocked c) :=
  inferInstanceAs (Decidable (_ ∧ _))

/-- Replace one connection. -/
def State.setConn (s : State) (c : ConnId) (conn : Connection) : State :=
  { s with conns := update s.conns c conn }

/-- One step of the live server. -/
def liveStep (s : LiveState) : LiveAction → Option LiveState
  | .accept c =>
      if (s.base.threads c).pc = .absent then
        some { base := s.base.accept c {}, link := update s.link c .linked }
      else none
  | .arrive c r =>
      if s.link c = .linked then
        some { s with base := s.base.setConn c ((s.base.conns c).extend [r] .eof) }
      else none
  | .hangUp c ending =>
      if s.link c = .linked then
        some
          { base := s.base.setConn c ((s.base.conns c).extend [] ending)
            link := update s.link c .closed }
      else none
  | .run c env =>
      if s.Blocked c then none
      else (server.step s.base (.run c env)).map fun base => { s with base := base }

/-- The server whose bytes arrive while its threads run. -/
def liveServer : TransitionSystem LiveState LiveAction where
  init := {}
  step := liveStep

/-! ## What is going to arrive -/

/-- What will still arrive on a connection, and how its stream will end. -/
def expected (c : ConnId) : List LiveAction → List ReadResult × StreamEnd
  | [] => ([], .eof)
  | .arrive d r :: as =>
      if d = c then (r :: (expected c as).1, (expected c as).2) else expected c as
  | .hangUp d ending :: as => if d = c then ([], ending) else expected c as
  | .accept _ :: as => expected c as
  | .run _ _ :: as => expected c as

/-- The connections as they look to somebody who knows what is going to arrive. -/
def LiveState.foresee (s : LiveState) (as : List LiveAction) (c : ConnId) (conn : Connection) :
    Connection :=
  match s.link c with
  | .linked => conn.extend (expected c as).1 (expected c as).2
  | _ => conn

/-- Look at every connection of a state in some way. -/
def State.mapConns (s : State) (g : ConnId → Connection → Connection) : State :=
  { s with conns := fun c => g c (s.conns c) }

/-- The end of the stream of an open connection has not been met. -/
def LiveState.Pending (s : LiveState) : Prop :=
  ∀ c, s.link c = .linked → (s.base.conns c).fdbuf.ending = .eof

/-- No bytes and the same ending change nothing. -/
theorem Connection.extend_nil (conn : Connection) :
    conn.extend [] conn.fdbuf.ending = conn := by
  simp [extend, Rio.extend]

/-- Bytes that arrive in two parts arrive. -/
theorem Connection.extend_extend (conn : Connection) (more more' : List ReadResult)
    (ending ending' : StreamEnd) :
    (conn.extend more ending).extend more' ending' = conn.extend (more ++ more') ending' := by
  simp [extend, Rio.extend]

/-- A send does not depend on what arrives later. -/
theorem Connection.send_extend (conn : Connection) (more : List ReadResult)
    (ending : StreamEnd) (msg : Message) (writes : List WriteResult) :
    (conn.extend more ending).send msg writes =
      ((conn.send msg writes).1, (conn.send msg writes).2.1,
        (conn.send msg writes).2.2.extend more ending) := by
  unfold send
  dsimp only
  split <;> rfl

/-- A send does not read. -/
theorem Connection.fdbuf_send (conn : Connection) (msg : Message) (writes : List WriteResult) :
    (conn.send msg writes).2.2.fdbuf = conn.fdbuf := by
  unfold send
  dsimp only
  split <;> rfl

/-- With nothing left to come, nothing is added. -/
theorem LiveState.foresee_nil {s : LiveState} (h : s.Pending) :
    s.base.mapConns (s.foresee []) = s.base := by
  have hconns : (fun c => s.foresee [] c (s.base.conns c)) = s.base.conns := by
    funext c
    simp only [foresee, expected]
    cases hlink : s.link c with
    | linked => rw [← h c hlink, Connection.extend_nil]
    | _ => rfl
  rw [State.mapConns, hconns]

/-- A change of all connections takes in the one that was set. -/
theorem State.mapConns_setConn (s : State) (g : ConnId → Connection → Connection)
    (c : ConnId) (conn : Connection) :
    (s.setConn c conn).mapConns g = (s.mapConns g).setConn c (g c conn) := by
  have hconns : (fun d => g d (update s.conns c conn d)) =
      update (fun d => g d (s.conns d)) c (g c conn) := by
    funext d
    by_cases hdc : d = c
    · subst d
      simp
    · simp [hdc]
  rw [setConn, mapConns, hconns]
  rfl

/-- Calls do not depend on how connections are looked at, if the connection of the call
does not. -/
theorem perform_mapConns {s : State} {c : ConnId} {op : Op}
    {g : ConnId → Connection → Connection}
    (hresult : ∀ conn, (g c conn).lastResult = conn.lastResult)
    (hsend : ∀ msg writes, (g c (s.conns c)).send msg writes =
      (((s.conns c).send msg writes).1, ((s.conns c).send msg writes).2.1,
        g c ((s.conns c).send msg writes).2.2))
    (hreceive : op.isReceive → (g c (s.conns c)).nextLine = (s.conns c).nextLine ∧
      ∀ msg, (g c (s.conns c)).receive msg =
        (((s.conns c).receive msg).1, ((s.conns c).receive msg).2.1,
          g c ((s.conns c).receive msg).2.2))
    (env : Env) :
    perform (s.mapConns g) c env op = (perform s c env op).map fun s' => s'.mapConns g := by
  cases op with
  | halt => rfl
  | receive msg k =>
      rcases hreceive rfl with ⟨hline, hmsg⟩
      have hconns := s.mapConns_setConn g c ((s.conns c).receive msg).2.2
      have hstep : perform (s.mapConns g) c env (.receive msg k) =
          some (State.resume ((s.mapConns g).setConn c (g c ((s.conns c).receive msg).2.2)) c
            (k ((s.conns c).receive msg).1 ((s.conns c).receive msg).2.2.lastResult
              ((s.conns c).receive msg).2.1) (.received (s.conns c).nextLine)) := by
        rw [← hline]
        simp only [perform, State.mapConns, hmsg, hresult]
        rfl
      rw [hstep, ← hconns]
      rfl
  | send msg k =>
      have hconns := s.mapConns_setConn g c ((s.conns c).send msg env.writes).2.2
      have hstep : perform (s.mapConns g) c env (.send msg k) =
          some (State.resume
            ((s.mapConns g).setConn c (g c ((s.conns c).send msg env.writes).2.2)) c
            (k ((s.conns c).send msg env.writes).1)
            (.sent msg ((s.conns c).send msg env.writes).1)) := by
        simp only [perform, State.mapConns, hsend]
        rfl
      rw [hstep, ← hconns]
      rfl
  | newUser username k => rfl
  | findOrCreateRoom name k =>
      simp only [perform, State.mapConns]
      cases s.mRooms name <;> rfl
  | addMember r k =>
      by_cases hlock : (s.rooms r).lock = none
      · simp only [perform, State.mapConns, hlock, if_true]
        rfl
      · simp only [perform, State.mapConns, hlock, if_false]
        rfl
  | removeMember r k =>
      by_cases hlock : (s.rooms r).lock = none
      · simp only [perform, State.mapConns, hlock, if_true]
        rfl
      · simp only [perform, State.mapConns, hlock, if_false]
        rfl
  | lockRoom r name text k =>
      by_cases hlock : (s.rooms r).lock = none
      · simp only [perform, State.mapConns, hlock, if_true]
        rfl
      · simp only [perform, State.mapConns, hlock, if_false]
        rfl
  | visitMember r name text rest k =>
      by_cases hpick : env.pick ∈ rest
      · simp only [perform, State.mapConns, hpick, if_true]
        rfl
      · simp only [perform, State.mapConns, hpick, if_false]
        rfl
  | unlockRoom r k => rfl
  | dequeue k =>
      by_cases htimeout : env.timeout
      · simp only [perform, State.mapConns, htimeout, if_true]
        rfl
      · simp only [perform, State.mapConns, htimeout]
        cases (s.users c).mqueue <;> rfl

/-! ## Refinement -/

/-- Replacing a connection is invisible to an observer who compensates for it. -/
theorem State.mapConns_eq {s : State} {g g' : ConnId → Connection → Connection} {c : ConnId}
    {conn : Connection} (hc : g c conn = g' c (s.conns c)) (h : ∀ d, d ≠ c → g d = g' d) :
    (s.setConn c conn).mapConns g = s.mapConns g' := by
  have hconns : (fun d => g d (update s.conns c conn d)) = fun d => g' d (s.conns d) := by
    funext d
    by_cases hdc : d = c
    · subst d
      simpa using hc
    · rw [update_of_ne hdc, h d hdc]
  rw [setConn, mapConns, hconns]
  rfl

/-- No call changes how a stream ends. -/
theorem Performed.ending {s s' : State} {c : ConnId} {op : Op} (h : Performed s c op s')
    (d : ConnId) : (s'.conns d).fdbuf.ending = (s.conns d).fdbuf.ending := by
  cases h with
  | receive msg k =>
      by_cases hdc : d = c
      · subst d
        simp [Connection.ending_receive]
      · simp [hdc]
  | send msg k writes =>
      by_cases hdc : d = c
      · subst d
        simp [Connection.fdbuf_send]
      · simp [hdc]
  | _ => rfl

/-- A call that does not block does the same to connections on which more is going to
arrive. -/
theorem perform_foresee {s : LiveState} {c : ConnId} (hblocked : ¬ s.Blocked c)
    (as : List LiveAction) (env : Env) :
    server.step (s.base.mapConns (s.foresee as)) (.run c env) =
      (server.step s.base (.run c env)).map fun base => base.mapConns (s.foresee as) := by
  change perform (s.base.mapConns (s.foresee as)) c env (code s.base c) =
    (perform s.base c env (code s.base c)).map fun base => base.mapConns (s.foresee as)
  refine perform_mapConns ?_ ?_ ?_ env
  · intro conn
    unfold LiveState.foresee
    cases s.link c <;> rfl
  · intro msg writes
    unfold LiveState.foresee
    cases s.link c with
    | linked => exact Connection.send_extend _ _ _ msg writes
    | _ => rfl
  · intro hop
    cases hlink : s.link c with
    | linked =>
        have hready : ¬ (s.base.conns c).Starved := fun h => hblocked ⟨hop, hlink, h⟩
        simp only [LiveState.foresee, hlink]
        exact ⟨(Connection.receive_extend hready _ _ {}).1,
          fun msg => (Connection.receive_extend hready _ _ msg).2⟩
    | _ => simp [LiveState.foresee, hlink]

/-- What has not arrived yet is known, and no stream has ended before its time. -/
def Foreseen (as : List LiveAction) (s : LiveState) (t : State) : Prop :=
  s.Pending ∧ t = s.base.mapConns (s.foresee as)

/-- The step of the server that knows what is going to arrive; the arrival of what it
knows already is none. -/
def LiveAction.foretold (as : List LiveAction) : LiveAction → List Action
  | .accept c => [.accept c (expected c as).1 (expected c as).2]
  | .run c env => [.run c env]
  | .arrive _ _ | .hangUp _ _ => []

/-- The steps of the server that knows what is going to arrive. -/
def foretell : List LiveAction → List Action :=
  TransitionSystem.translate fun a as => a.foretold as

/-- One step of the live server is a step of the server that knows what is going to
arrive, or it is the arrival of what that server knows already. -/
theorem liveStep_foreseen {a : LiveAction} {as : List LiveAction} {s s' : LiveState} {t : State}
    (h : Foreseen (a :: as) s t) (hstep : liveServer.step s a = some s') :
    ∃ t', server.run t (a.foretold as) = some t' ∧ Foreseen as s' t' := by
  rcases h with ⟨hpending, rfl⟩
  simp only [liveServer] at hstep
  cases a with
  | accept c =>
      simp only [liveStep] at hstep
      split at hstep <;> rename_i habsent <;> cases hstep
      have haccept : server.step (s.base.mapConns (s.foresee (.accept c :: as)))
          (.accept c (expected c as).1 (expected c as).2) =
          some ((s.base.mapConns (s.foresee (.accept c :: as))).accept c
            { reads := (expected c as).1, ending := (expected c as).2 }) :=
        if_pos habsent
      refine ⟨_, by rw [LiveAction.foretold, TransitionSystem.run_cons, haccept]; rfl, ?_, ?_⟩
      · intro d hlink
        by_cases hdc : d = c
        · subst d
          simp [State.accept]
        · simpa [State.accept, hdc] using hpending d (by simpa [hdc] using hlink)
      · have hconns :
            update (fun d => s.foresee (.accept c :: as) d (s.base.conns d)) c
                { fdbuf := { reads := (expected c as).1, ending := (expected c as).2 } } =
              fun d => ({ base := s.base.accept c {}, link := update s.link c .linked } :
                LiveState).foresee as d (update s.base.conns c {} d) := by
          funext d
          by_cases hdc : d = c
          · subst d
            simp [LiveState.foresee, Connection.extend, Rio.extend]
          · simp [LiveState.foresee, hdc, expected]
        simp only [State.accept, State.mapConns, hconns]
  | arrive c r =>
      simp only [liveStep] at hstep
      split at hstep <;> rename_i hlink <;> cases hstep
      refine ⟨_, rfl, ?_, ?_⟩
      · intro d hd
        by_cases hdc : d = c
        · subst d
          simp [State.setConn, Connection.extend, Rio.extend]
        · simpa [State.setConn, hdc] using hpending d hd
      · refine (State.mapConns_eq ?_ ?_).symm
        · simp [LiveState.foresee, hlink, expected, Connection.extend_extend]
        · intro d hdc
          funext conn
          simp [LiveState.foresee, expected, Ne.symm hdc]
  | hangUp c ending =>
      simp only [liveStep] at hstep
      split at hstep <;> rename_i hlink <;> cases hstep
      refine ⟨_, rfl, ?_, ?_⟩
      · intro d hd
        have hdc : d ≠ c := by
          rintro rfl
          simp at hd
        simpa [State.setConn, hdc] using hpending d (by simpa [hdc] using hd)
      · refine (State.mapConns_eq ?_ ?_).symm
        · simp [LiveState.foresee, hlink, expected]
        · intro d hdc
          funext conn
          simp [LiveState.foresee, expected, hdc, Ne.symm hdc]
  | run c env =>
      simp only [liveStep] at hstep
      split at hstep <;> rename_i hblocked
      · cases hstep
      · rcases Option.map_eq_some_iff.mp hstep with ⟨base, hbase, rfl⟩
        refine ⟨base.mapConns (s.foresee as), ?_, ?_, rfl⟩
        · have hrun := perform_foresee hblocked as env
          rw [hbase] at hrun
          rw [LiveAction.foretold, TransitionSystem.run_cons]
          exact congrArg (Option.bind · some) hrun
        · intro d hlink
          rw [(performed_of_perform hbase).ending d]
          exact hpending d hlink

/-- A run of the live server is a run of the server that knows what is going to arrive. -/
theorem run_foretell {as : List LiveAction} {s : LiveState}
    (hrun : liveServer.run liveServer.init as = some s) :
    server.run server.init (foretell as) = some s.base := by
  have hinit : Foreseen as liveServer.init server.init := by
    refine ⟨?_, rfl⟩
    intro c hlink
    cases hlink
  rcases TransitionSystem.run_translate (R := Foreseen)
    (fun a as s s' t => liveStep_foreseen) hinit hrun with ⟨t, ht, hpending, rfl⟩
  rwa [LiveState.foresee_nil hpending] at ht

/-- The data of every reachable state of the live server are reachable in the server of
{lit}`Server.Step`. -/
theorem live_reachable {s : LiveState} (hs : liveServer.Reachable s) :
    server.Reachable s.base := by
  rcases TransitionSystem.reachable_iff_exists_run.mp hs with ⟨as, has⟩
  exact TransitionSystem.reachable_iff_exists_run.mpr ⟨foretell as, run_foretell has⟩

/-- The thread that makes a call in a step, with its environment. -/
def Action.call : Action → Option (ConnId × Env)
  | .run c env => some (c, env)
  | .accept _ _ _ => none

/-- The call of a thread, if the action is one. -/
def LiveAction.call : LiveAction → Option (ConnId × Env)
  | .run c env => some (c, env)
  | .accept _ | .arrive _ _ | .hangUp _ _ => none

/-- The live server refines the server of {lit}`Server.Step`: whatever the order in which
bytes arrive, connections end and threads run, the same calls in the same order lead the
server that is given all bytes in advance to the same data. -/
theorem live_refines {as : List LiveAction} {s : LiveState}
    (hrun : liveServer.run liveServer.init as = some s) :
    server.run server.init (foretell as) = some s.base ∧
      (foretell as).filterMap Action.call = as.filterMap LiveAction.call := by
  refine ⟨run_foretell hrun, ?_⟩
  clear hrun
  induction as with
  | nil => rfl
  | cons a as ih =>
      have hcons : foretell (a :: as) = a.foretold as ++ foretell as := rfl
      rw [hcons, List.filterMap_append, ih]
      cases a <;> rfl

/-- A login that arrives in two pieces. -/
def loginInPieces : List LiveAction :=
  [.accept 0, .arrive 0 (.data 115 (str "login:")), .arrive 0 (.data 98 (str "ob\n")),
    .run 0, .run 0, .run 0, .hangUp 0 .error]

/-- The state after a login in pieces is the one after a login that arrives at once. -/
theorem live_refines_login :
    ∃ s, liveServer.run liveServer.init loginInPieces = some s ∧
      server.run server.init (foretell loginInPieces) = some s.base ∧
      (s.base.threads 0).pc = .sender .receive := by
  have hrun : (liveServer.run liveServer.init loginInPieces).map
      (fun s => (s.base.threads 0).pc) = some (.sender .receive) := by
    decide +kernel
  rcases Option.map_eq_some_iff.mp hrun with ⟨s, hs, hpc⟩
  exact ⟨s, hs, (live_refines hs).1, hpc⟩

/-! ## The steps of one connection -/

/-- The connection whose step it is. -/
def LiveAction.conn : LiveAction → ConnId
  | .accept c | .arrive c _ | .hangUp c _ | .run c _ => c

/-- The steps of others leave a connection and its thread alone. -/
theorem liveStep_other {s s' : LiveState} {a : LiveAction} (hstep : liveStep s a = some s')
    {c : ConnId} (hc : a.conn ≠ c) :
    s'.base.conns c = s.base.conns c ∧ s'.base.threads c = s.base.threads c ∧
      s'.base.calls c = s.base.calls c ∧ s'.link c = s.link c := by
  have hne := Ne.symm hc
  cases a with
  | accept d =>
      simp only [liveStep] at hstep
      split at hstep <;> cases hstep
      exact ⟨update_of_ne hne _ _, update_of_ne hne _ _, rfl, update_of_ne hne _ _⟩
  | arrive d r =>
      simp only [liveStep] at hstep
      split at hstep <;> cases hstep
      exact ⟨update_of_ne hne _ _, rfl, rfl, rfl⟩
  | hangUp d ending =>
      simp only [liveStep] at hstep
      split at hstep <;> cases hstep
      exact ⟨update_of_ne hne _ _, rfl, rfl, update_of_ne hne _ _⟩
  | run d env =>
      simp only [liveStep] at hstep
      split at hstep
      · cases hstep
      · rcases Option.map_eq_some_iff.mp hstep with ⟨base, hbase, rfl⟩
        have hother := step_other hbase (a := .run d env) hc
        exact ⟨step_other_conns hbase hc, hother.1, hother.2, rfl⟩

/-! ## Progress -/

/-- The thread can make its next call. -/
def LiveState.Enabled (s : LiveState) (c : ConnId) : Prop :=
  ∃ env s', liveServer.step s (.run c env) = some s'

/-- A thread that is enabled in the base server and not blocked is enabled. -/
theorem LiveState.enabled_of_base {s : LiveState} {c : ConnId} (h : s.base.Enabled c)
    (hblocked : ¬ s.Blocked c) : s.Enabled c := by
  rcases h with ⟨env, base, hbase⟩
  refine ⟨env, { s with base := base }, ?_⟩
  simp [liveServer, liveStep, hblocked, hbase]

/-- A thread that visits the members of a room does not wait for its client. -/
theorem not_blocked_of_broadcasting {s : LiveState} {d : ConnId} {r : RoomPtr}
    (h : (s.base.threads d).Broadcasting r) : ¬ s.Blocked d := by
  rcases h with ⟨-, rest, hpc⟩
  rintro ⟨hreceive, -⟩
  have hfrom : (code s.base d).CalledFrom (.visit rest) := by
    rw [code, Thread.code_sender hpc]
    exact chatWithSender_calledFrom _ _ _ _
  cases hop : code s.base d with
  | receive msg k =>
      rw [hop] at hfrom
      cases hfrom
  | _ => simp [hop, Op.isReceive] at hreceive

/-- A thread that has not returned can make its next call, or waits for its client, or
waits for the lock of a room whose holder can make its next call, provided that every write
returns. -/
theorem live_progress {s : LiveState} (hs : liveServer.Reachable s) {c : ConnId}
    (habsent : (s.base.threads c).pc ≠ .absent) (hdone : (s.base.threads c).pc ≠ .done) :
    s.Enabled c ∨ s.Blocked c ∨ ∃ r d, s.base.WaitsFor c r d ∧ s.Enabled d := by
  have hbase := live_reachable hs
  by_cases hblocked : s.Blocked c
  · exact .inr (.inl hblocked)
  · rcases thread_progress hbase habsent hdone with henabled | ⟨r, d, hwaits, henabled⟩
    · exact .inl (LiveState.enabled_of_base henabled hblocked)
    · have hin := reachable_lock hbase hwaits.locked
      exact .inr (.inr ⟨r, d, hwaits,
        LiveState.enabled_of_base henabled (not_blocked_of_broadcasting hin)⟩)

/-- A worker whose client has sent half a line. -/
theorem live_progress_half_line :
    ∃ s, liveServer.run liveServer.init [.accept 0, .arrive 0 (.data 115 (str "login:"))] =
        some s ∧
      (s.Enabled 0 ∨ s.Blocked 0 ∨ ∃ r d, s.base.WaitsFor 0 r d ∧ s.Enabled d) ∧
      s.Blocked 0 := by
  have hrun : (liveServer.run liveServer.init
      [.accept 0, .arrive 0 (.data 115 (str "login:"))]).map
      (fun s => ((s.base.threads 0).pc, decide (s.Blocked 0))) =
      some (.worker .receive, true) := by
    decide +kernel
  rcases TransitionSystem.exists_reachable_of_run hrun with ⟨s, hs, hobs, hreach⟩
  rw [Prod.mk.injEq, decide_eq_true_eq] at hobs
  exact ⟨s, hs, live_progress hreach (by simp [hobs.1]) (by simp [hobs.1]), hobs.2⟩

end ChatServer
