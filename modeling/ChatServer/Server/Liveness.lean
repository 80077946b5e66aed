import ChatServer.Lib.Fairness
import ChatServer.Server.Isolation
import ChatServer.Server.Live
import ChatServer.Server.SenderSession
import ChatServer.Server.SessionSpec

/-!
# What the server does in the end

The behaviors of the live server under fair scheduling.  Weak fairness to the threads is
enough for broadcasts, since nobody stands in the way of a thread that holds a lock.  A
thread that waits for a lock needs strong fairness, since others may take it first.

Main results:

- Theorem {lit}`broadcast_completes`: a broadcast that has begun visits all members.
- Theorem {lit}`lock_released`: no lock is held forever.
- Theorem {lit}`thread_waits`: a thread makes calls until it waits for its client, or for a
  message, or has returned.
- Theorem {lit}`requests_answered`: all requests that a sender thread has received are
  answered, and their texts are broadcast completely.

Current gaps:

- How long anything takes is not considered.
- Every write returns.  A write to a client that does not read may block for ever; then its
  thread makes no further call.  No write is made under a lock.
-/

namespace ChatServer

open Function Filter TransitionSystem

/-! ## The next call of a thread -/

/-- The calls of a thread. -/
def LiveAction.By (c : ConnId) : LiveAction → Prop
  | .run d _ => d = c
  | .accept _ | .arrive _ _ | .hangUp _ _ => False

/-- Calls of a thread are steps of the server. -/
theorem liveStep_run {s s' : LiveState} {c : ConnId} {env : Env}
    (hstep : liveServer.step s (.run c env) = some s') :
    ¬ s.Blocked c ∧ server.step s.base (.run c env) = some s'.base ∧ s'.link = s.link := by
  simp only [liveServer, liveStep] at hstep
  split at hstep <;> rename_i hblocked
  · cases hstep
  · rcases Option.map_eq_some_iff.mp hstep with ⟨base, hbase, rfl⟩
    exact ⟨hblocked, hbase, rfl⟩

/-- A step of the live server is a step of the server, or it replaces a connection. -/
theorem liveStep_base {s s' : LiveState} {a : LiveAction}
    (hstep : liveServer.step s a = some s') :
    (∃ c conn, s'.base = s.base.setConn c conn) ∨ ∃ b, server.step s.base b = some s'.base := by
  cases a with
  | accept c =>
      simp only [liveServer, liveStep] at hstep
      split at hstep <;> rename_i habsent <;> cases hstep
      exact .inr ⟨.accept c [] .eof, if_pos habsent⟩
  | arrive c r =>
      simp only [liveServer, liveStep] at hstep
      split at hstep <;> cases hstep
      exact .inl ⟨c, _, rfl⟩
  | hangUp c ending =>
      simp only [liveServer, liveStep] at hstep
      split at hstep <;> cases hstep
      exact .inl ⟨c, _, rfl⟩
  | run c env => exact .inr ⟨.run c env, (liveStep_run hstep).2.1⟩

/-- A thread that has arrived and its calls are changed by its own calls only. -/
theorem liveStep_keeps {s s' : LiveState} {a : LiveAction} {c : ConnId}
    (hpresent : (s.base.threads c).pc ≠ .absent) (hstep : liveServer.step s a = some s')
    (ha : ¬ a.By c) :
    s'.base.threads c = s.base.threads c ∧ s'.base.loginCalls c = s.base.loginCalls c ∧
      s'.base.chatCalls c = s.base.chatCalls c := by
  cases a with
  | accept d =>
      simp only [liveServer, liveStep] at hstep
      split at hstep <;> rename_i habsent <;> cases hstep
      have hcd : c ≠ d := by
        rintro rfl
        exact hpresent habsent
      exact ⟨update_of_ne hcd _ _, rfl, rfl⟩
  | arrive d r =>
      simp only [liveServer, liveStep] at hstep
      split at hstep <;> cases hstep
      exact ⟨rfl, rfl, rfl⟩
  | hangUp d ending =>
      simp only [liveServer, liveStep] at hstep
      split at hstep <;> cases hstep
      exact ⟨rfl, rfl, rfl⟩
  | run d env =>
      have hbase := (liveStep_run hstep).2.1
      have hcd : c ≠ d := Ne.symm ha
      exact ⟨(step_other hbase (c := c) ha).1,
        (performed_of_perform hbase).loginCalls (.inl hcd),
        (performed_of_perform hbase).chatCalls (.inl hcd)⟩

/-- A thread with its calls in {lit}`worker` and in its chat function. -/
def LiveState.own (s : LiveState) (c : ConnId) : Thread × List Event × List Event :=
  (s.base.threads c, s.base.loginCalls c, s.base.chatCalls c)

/-- A thread that is there and takes no step keeps what is its own. -/
theorem liveStep_own {s s' : LiveState} {a : LiveAction} {c : ConnId}
    {own : Thread × List Event × List Event} (hpresent : own.1.pc ≠ .absent)
    (hstep : liveServer.step s a = some s') (ha : ¬ a.By c) (h : s.own c = own) :
    s'.own c = own := by
  subst own
  rcases liveStep_keeps hpresent hstep ha with ⟨hthread, hlogin, hchat⟩
  rw [LiveState.own, LiveState.own, hthread, hlogin, hchat]

section

variable {ρ : liveServer.Behavior} {n : ℕ} {c : ConnId}

/-- Until its next call a thread stays as it is. -/
theorem own_stays (hpresent : ((ρ.states n).base.threads c).pc ≠ .absent)
    (hno : ∀ m, n ≤ m → ¬ ρ.Occurs (LiveAction.By c) m) {m : ℕ} (hm : n ≤ m) :
    (ρ.states m).own c = (ρ.states n).own c :=
  Behavior.stays ρ (P := fun s => s.own c = (ρ.states n).own c)
    (fun _ _ _ _ hstep ha h => liveStep_own hpresent hstep ha h) hm (fun k hk _ => hno k hk) rfl

/-- In a behavior a thread that takes no more step stays as it is. -/
theorem thread_stays (hpresent : ((ρ.states n).base.threads c).pc ≠ .absent)
    (hno : ∀ m, n ≤ m → ¬ ρ.Occurs (LiveAction.By c) m) {m : ℕ} (hm : n ≤ m) :
    (ρ.states m).base.threads c = (ρ.states n).base.threads c :=
  congrArg Prod.fst (own_stays hpresent hno hm)

/-- In a behavior a thread that takes no more step makes no call. -/
theorem calls_stay (hpresent : ((ρ.states n).base.threads c).pc ≠ .absent)
    (hno : ∀ m, n ≤ m → ¬ ρ.Occurs (LiveAction.By c) m) {m : ℕ} (hm : n ≤ m) :
    (ρ.states m).base.calls c = (ρ.states n).base.calls c :=
  congrArg (fun own => own.2.1 ++ own.2.2) (own_stays hpresent hno hm)

/-- The next call of a thread. -/
theorem next_call (hpresent : ((ρ.states n).base.threads c).pc ≠ .absent)
    (h : ∃ m, n ≤ m ∧ ρ.Occurs (LiveAction.By c) m) :
    ∃ m env, n ≤ m ∧ ρ.labels m = some (.run c env) ∧
      server.step (ρ.states m).base (.run c env) = some (ρ.states (m + 1)).base ∧
      (ρ.states m).base.threads c = (ρ.states n).base.threads c ∧
      (ρ.states m).base.loginCalls c = (ρ.states n).base.loginCalls c ∧
      (ρ.states m).base.chatCalls c = (ρ.states n).base.chatCalls c := by
  obtain ⟨m, a, hm, hA, hlabel, hstep, hsame⟩ :=
    Behavior.next_of_kind ρ (P := fun s => s.own c = (ρ.states n).own c)
      (fun _ _ _ _ hstep ha h => liveStep_own hpresent hstep ha h) rfl h
  simp only [LiveState.own, Prod.mk.injEq] at hsame
  cases a with
  | run d env =>
      cases hA
      exact ⟨m, env, hm, hlabel, (liveStep_run hstep).2.1, hsame⟩
  | _ => exact absurd hA id

end

/-! ## Runs that come to an end -/

/-- The thread cannot make another call: it has not arrived, waits for its client, or has
returned. -/
def LiveState.Stuck (s : LiveState) (c : ConnId) : Prop :=
  (s.base.threads c).pc = .absent ∨ s.Blocked c ∨ (s.base.threads c).pc = .done

instance (s : LiveState) (c : ConnId) : Decidable (s.Stuck c) :=
  inferInstanceAs (Decidable (_ ∨ _ ∨ _))

/-- A stuck thread has no step. -/
theorem not_enabledIn_of_stuck {s : LiveState} {c : ConnId} (h : s.Stuck c) :
    ¬ liveServer.EnabledIn (LiveAction.By c) s := by
  rintro ⟨a, s', ha, hstep⟩
  cases a with
  | run d env =>
      cases ha
      rcases liveStep_run hstep with ⟨hready, hbase, -⟩
      rcases h with habsent | hblocked | hdone
      · have hperf := performed_of_perform hbase
        rw [code, Thread.code, habsent] at hperf
        cases hperf
      · exact hready hblocked
      · exact not_done_of_run hbase hdone
  | _ => exact absurd ha id

/-- A thread without a step in a run has not arrived at its end. -/
theorem absent_of_run {as : List LiveAction} {s : LiveState} {c : ConnId}
    (hrun : liveServer.run liveServer.init as = some s) (h : ∀ a ∈ as, a.conn ≠ c) :
    (s.base.threads c).pc = .absent := by
  refine TransitionSystem.run_keeps (P := fun s => (s.base.threads c).pc = .absent)
    (fun a ha s s' hstep habsent => ?_) rfl hrun
  rwa [(liveStep_other hstep (h a ha)).2.1]

/-- A run at whose end the threads that have arrived are stuck is fair to all threads. -/
theorem fair_of_run {as : List LiveAction} {s : LiveState}
    (hrun : liveServer.run liveServer.init as = some s)
    (hstuck : ∀ a ∈ as, s.Stuck a.conn) (c : ConnId) :
    StronglyFair (Behavior.ofRun hrun) (LiveAction.By c) := by
  refine stronglyFair_ofRun hrun (not_enabledIn_of_stuck ?_)
  by_cases hc : ∃ a ∈ as, a.conn = c
  · rcases hc with ⟨a, ha, rfl⟩
    exact hstuck a ha
  · exact .inl (absent_of_run hrun fun a ha hac => hc ⟨a, ha, hac⟩)

/-- A client that joins a room, sends a text, and waits. -/
def bobSends : List LiveAction :=
  [.accept 0, .arrive 0 (.data 115 (str "login:bob\njoin:hall\nsendall:hi\n"))] ++
    List.replicate 12 (.run 0)

/-- After its text the client waits for its reply, and nothing else happens. -/
theorem bobSends_fair :
    ∃ (s : LiveState) (hrun : liveServer.run liveServer.init bobSends = some s),
      ∀ c, StronglyFair (Behavior.ofRun hrun) (LiveAction.By c) := by
  have hrun : (liveServer.run liveServer.init bobSends).map
      (fun s => decide (∀ a ∈ bobSends, s.Stuck a.conn)) = some true := by
    decide +kernel
  rcases Option.map_eq_some_iff.mp hrun with ⟨s, hs, hstuck⟩
  rw [decide_eq_true_eq] at hstuck
  exact ⟨s, hs, fair_of_run hs hstuck⟩

/-! ## Broadcasts come to their end -/

/-- An enabled thread has a step in the live server. -/
theorem LiveState.Enabled.enabledIn {s : LiveState} {c : ConnId} (h : s.Enabled c) :
    liveServer.EnabledIn (LiveAction.By c) s := by
  rcases h with ⟨env, s', hstep⟩
  exact ⟨.run c env, s', rfl, hstep⟩

/-- A thread that broadcasts is there. -/
theorem Thread.Broadcasting.present {t : Thread} {r : RoomPtr} (h : t.Broadcasting r) :
    t.pc ≠ .absent := by
  rcases h with ⟨-, rest, hpc⟩
  rw [hpc]
  exact Pc.noConfusion

/-- A control point with members to visit is inside a broadcast. -/
theorem Pc.eq_of_visiting {pc : Pc} {rest : Finset ConnId} (h : pc.visiting = some rest) :
    pc = .sender (.visit rest) := by
  unfold visiting at h
  split at h
  · cases h
    rfl
  · cases h

/-- The next call of a thread inside a broadcast visits somebody. -/
theorem run_visits {s s' : State} {c : ConnId} {env : Env} {r : RoomPtr}
    {rest : Finset ConnId} (hpc : (s.threads c).pc = .sender (.visit rest))
    (hroom : (s.threads c).room = some r) (hrest : rest ≠ ∅)
    (hstep : server.step s (.run c env) = some s') :
    ∃ u ∈ rest, s'.threads c = (s.threads c).goto (.sender (.visit (rest.erase u))) := by
  have hperf := performed_of_perform hstep
  rw [code, Thread.code_sender hpc, chatWithSender, hroom, deref, if_neg hrest] at hperf
  cases hperf with
  | visited _ _ _ _ _ u hu => exact ⟨u, hu, update_self _ _ _⟩

/-- The last call of a broadcast releases the lock. -/
theorem run_unlocks {s s' : State} {c : ConnId} {env : Env} {r : RoomPtr}
    (hpc : (s.threads c).pc = .sender (.visit ∅)) (hroom : (s.threads c).room = some r)
    (hstep : server.step s (.run c env) = some s') : (s'.rooms r).lock = none := by
  have hperf := performed_of_perform hstep
  rw [code, Thread.code_sender hpc, chatWithSender, hroom, deref, if_pos rfl] at hperf
  cases hperf with
  | unlocked _ _ => simp

section

variable {ρ : liveServer.Behavior} {c : ConnId}
  (hfair : WeaklyFair ρ (LiveAction.By c))
include hfair

/-- A thread inside a broadcast makes its next call. -/
theorem broadcasting_runs {n : ℕ} {r : RoomPtr}
    (hin : ((ρ.states n).base.threads c).Broadcasting r) :
    ∃ m, n ≤ m ∧ ρ.Occurs (LiveAction.By c) m := by
  refine hfair.occurs fun hno => eventually_atTop.mpr ⟨n, fun m hm => ?_⟩
  have hin' : ((ρ.states m).base.threads c).Broadcasting r := by
    rwa [thread_stays hin.present hno hm]
  exact (LiveState.enabled_of_base (enabled_of_broadcasting hin')
    (not_blocked_of_broadcasting hin')).enabledIn

/-- A broadcast comes to the point where nobody is left to visit. -/
theorem visits_everybody {n : ℕ} {r : RoomPtr}
    (hin : ((ρ.states n).base.threads c).Broadcasting r) :
    ∃ m, n ≤ m ∧ ((ρ.states m).base.threads c).pc = .sender (.visit ∅) ∧
      ((ρ.states m).base.threads c).room = some r := by
  refine exists_of_measure (P := fun m => ((ρ.states m).base.threads c).Broadcasting r)
    (fun m => ((ρ.states m).base.threads c).pc.unvisited) (fun m hm hin => ?_) hin
  obtain ⟨hroom, rest, hpc⟩ := id hin
  by_cases hrest : rest = ∅
  · exact ⟨m, le_rfl, .inl ⟨hrest ▸ hpc, hroom⟩⟩
  · obtain ⟨k, env, hk, -, hstep, hthread, -⟩ :=
      next_call hin.present (broadcasting_runs hfair hin)
    rw [← hthread] at hpc hroom
    obtain ⟨u, hu, hnext⟩ := run_visits hpc hroom hrest hstep
    refine ⟨k + 1, by omega, .inr ⟨⟨?_, rest.erase u, ?_⟩, ?_⟩⟩
    · rw [hnext]
      exact hroom
    · rw [hnext]
      rfl
    · rw [hnext, ← hthread, hpc]
      exact Finset.card_erase_lt_of_mem hu

/-- No thread holds the lock of a room forever. -/
theorem lock_released {n : ℕ} {r : RoomPtr}
    (hlock : ((ρ.states n).base.rooms r).lock = some c) :
    ∃ m, n ≤ m ∧ ((ρ.states m).base.rooms r).lock = none := by
  have hin := reachable_lock (live_reachable (Behavior.reachable ρ n)) hlock
  obtain ⟨m, hm, hpc, hroom⟩ := visits_everybody hfair hin
  have hin' : ((ρ.states m).base.threads c).Broadcasting r := ⟨hroom, ∅, hpc⟩
  obtain ⟨k, env, hk, -, hstep, hthread, -⟩ :=
    next_call hin'.present (broadcasting_runs hfair hin')
  rw [← hthread] at hpc hroom
  exact ⟨k + 1, by omega, run_unlocks hpc hroom hstep⟩

end

/-- The log keeps its entries in the steps of the live server. -/
theorem liveStep_logGrows {s s' : LiveState} {a : LiveAction}
    (hstep : liveServer.step s a = some s') : LogGrows s.base s'.base := by
  rcases liveStep_base hstep with ⟨c, conn, hsame⟩ | ⟨b, hb⟩
  · rw [hsame]
    exact fun i b hb => ⟨b, hb, .refl b⟩
  · exact step_logGrows hb

/-- A log that has grown twice has grown. -/
theorem LogGrows.trans {s s' s'' : State} (h : LogGrows s s') (h' : LogGrows s' s'') :
    LogGrows s s'' := by
  intro i b hb
  rcases h i b hb with ⟨b', hb', hprogress⟩
  rcases h' i b' hb' with ⟨b'', hb'', hprogress'⟩
  exact ⟨b'', hb'', hprogress.trans hprogress'⟩

/-- Along a behavior the log keeps its entries. -/
theorem behavior_logGrows (ρ : liveServer.Behavior) {n m : ℕ} (hnm : n ≤ m) :
    LogGrows (ρ.states n).base (ρ.states m).base :=
  Behavior.persists ρ (P := fun s => LogGrows (ρ.states n).base s.base)
    (fun _ _ _ _ hstep h => h.trans (liveStep_logGrows hstep)) hnm fun _ b hb => ⟨b, hb, .refl b⟩

/-- A broadcast that has begun comes to its end. -/
theorem broadcast_finishes {ρ : liveServer.Behavior}
    (hfair : ∀ c, WeaklyFair ρ (LiveAction.By c)) {n i : ℕ} {b : Broadcast}
    (hb : (ρ.states n).base.broadcasts[i]? = some b) :
    ∃ m b', n ≤ m ∧ (ρ.states m).base.broadcasts[i]? = some b' ∧ b.Progress b' ∧
      b'.rest = ∅ := by
  have hlog : ∀ m, BroadcastLog (ρ.states m).base := fun m =>
    reachable_broadcastLog (live_reachable (Behavior.reachable ρ m))
  by_cases hrest : b.rest = ∅
  · exact ⟨n, b, le_rfl, hb, .refl b, hrest⟩
  · obtain ⟨hvisiting, hroom, -⟩ := (hlog n).unfinished b (List.mem_of_getElem? hb) hrest
    have hin : ((ρ.states n).base.threads b.author).Broadcasting b.room :=
      ⟨hroom, b.rest, Pc.eq_of_visiting hvisiting⟩
    obtain ⟨m, hm, hpc, -⟩ := visits_everybody (hfair b.author) hin
    rcases behavior_logGrows ρ hm i b hb with ⟨b', hb', hprogress⟩
    refine ⟨m, b', hm, hb', hprogress, ?_⟩
    by_contra hrest'
    have hleft := ((hlog m).unfinished b' (List.mem_of_getElem? hb') hrest').1
    rw [hprogress.author, hpc] at hleft
    exact hrest' (Option.some.inj hleft).symm

/-- A broadcast that has begun is completed: under weak fairness it visits all its members,
every member with another name is given its message, and the lock of its room is released. -/
theorem broadcast_completes {ρ : liveServer.Behavior}
    (hfair : ∀ c, WeaklyFair ρ (LiveAction.By c)) {n i : ℕ} {b : Broadcast}
    (hb : (ρ.states n).base.broadcasts[i]? = some b) :
    (∃ m b', n ≤ m ∧ (ρ.states m).base.broadcasts[i]? = some b' ∧ b.Progress b' ∧ b'.rest = ∅ ∧
      ∀ u ∈ b.members, b.username ≠ ((ρ.states m).base.users u).username →
        b.message ∈ (ρ.states m).base.obtained u) ∧
      ∃ m, n ≤ m ∧ ((ρ.states m).base.rooms b.room).lock = none := by
  constructor
  · obtain ⟨m, b', hm, hb', hprogress, hrest⟩ := broadcast_finishes hfair hb
    refine ⟨m, b', hm, hb', hprogress, hrest, fun u hu hname => ?_⟩
    rw [← hprogress.message]
    rw [← hprogress.members] at hu
    rw [← hprogress.username] at hname
    exact mem_obtained (live_reachable (Behavior.reachable ρ m)) (List.mem_of_getElem? hb')
      hrest hu hname
  · cases hlock : ((ρ.states n).base.rooms b.room).lock with
    | none => exact ⟨n, le_rfl, hlock⟩
    | some d => exact lock_released (hfair d) hlock

/-- A broadcast that has still to visit its sender. -/
theorem broadcast_completes_alone :
    ∃ (ρ : liveServer.Behavior) (b : Broadcast),
      (ρ.states 11).base.broadcasts[0]? = some b ∧ b.rest = {0} ∧
      ∃ m b', 11 ≤ m ∧ (ρ.states m).base.broadcasts[0]? = some b' ∧ b'.rest = ∅ := by
  rcases bobSends_fair with ⟨s, hrun, hfair⟩
  have hrest := Behavior.observe_ofRun hrun (k := 11)
    (f := fun s => (s.base.broadcasts[0]?).map Broadcast.rest) (b := some {0}) (by decide +kernel)
  rcases Option.map_eq_some_iff.mp hrest with ⟨b, hb, hrest⟩
  obtain ⟨⟨m, b', hm, hb', -, hdone, -⟩, -⟩ :=
    broadcast_completes (fun c => (hfair c).weaklyFair) hb
  exact ⟨Behavior.ofRun hrun, b, hb, hrest, m, b', hm, hb', hdone⟩

/-! ## Threads that wait for a lock -/

/-- Control points of a receive. -/
def Pc.receives : Pc → Bool
  | .worker .receive | .sender .receive | .receiver .receive => true
  | _ => false

/-- The next call is a receive at the control points of one. -/
theorem Thread.code_isReceive (t : Thread) (user : User) (getRoomName : RoomPtr → Bytes) :
    (t.code user getRoomName).isReceive = t.pc.receives := by
  unfold code
  cases hpc : t.pc with
  | absent => rfl
  | worker p => cases p <;> rfl
  | sender p =>
      cases p with
      | visit rest =>
          refine deref_cases (Q := fun op => op.isReceive = _) rfl fun r _ => ?_
          split_ifs <;> rfl
      | switch | add | leave | left | broadcast | exit =>
          exact deref_cases (Q := fun op => op.isReceive = _) rfl fun r _ => rfl
      | _ => rfl
  | receiver p =>
      cases p with
      | add | remove => exact deref_cases (Q := fun op => op.isReceive = _) rfl fun r _ => rfl
      | _ => rfl
  | done => rfl

/-- A thread waits for the lock of its own room, and never with a receive. -/
theorem State.WaitsFor.room {s : State} {c d : ConnId} {r : RoomPtr} (h : s.WaitsFor c r d) :
    (s.threads c).room = some r ∧ (s.threads c).pc.receives = false := by
  have huses : (code s c).Uses (s.threads c).room := Thread.code_uses _ _ _
  have hreceive : (code s c).isReceive = (s.threads c).pc.receives := Thread.code_isReceive _ _ _
  rcases h.call with ⟨k, hk⟩ | ⟨k, hk⟩ | ⟨name, text, k, hk⟩
  · rw [hk] at huses hreceive
    exact ⟨huses, hreceive.symm⟩
  · rw [hk] at huses hreceive
    exact ⟨huses, hreceive.symm⟩
  · rw [hk] at huses hreceive
    exact ⟨huses, hreceive.symm⟩

/-- A thread that receives nothing does not wait for its client. -/
theorem not_blocked_of_receives {s : LiveState} {c : ConnId}
    (h : (s.base.threads c).pc.receives = false) : ¬ s.Blocked c := by
  rintro ⟨hreceive, -⟩
  have hcode : (code s.base c).isReceive = _ := Thread.code_isReceive _ _ _
  rw [hcode, h] at hreceive
  cases hreceive

section

variable {ρ : liveServer.Behavior} (hweak : ∀ d, WeaklyFair ρ (LiveAction.By d)) {c : ConnId}
  (hstrong : StronglyFair ρ (LiveAction.By c))
include hweak hstrong

/-- A thread that has not returned makes its next call, unless it waits for its client
forever: the locks that it waits for are released again and again. -/
theorem thread_runs {n : ℕ} (habsent : ((ρ.states n).base.threads c).pc ≠ .absent)
    (hdone : ((ρ.states n).base.threads c).pc ≠ .done)
    (hready : ∃ᶠ m in atTop, ¬ (ρ.states m).Blocked c) :
    ∃ m, n ≤ m ∧ ρ.Occurs (LiveAction.By c) m := by
  refine hstrong.occurs fun hno => frequently_atTop.mpr fun a => ?_
  have hreach : ∀ m, server.Reachable (ρ.states m).base := fun m =>
    live_reachable (Behavior.reachable ρ m)
  have hthread : ∀ m, n ≤ m → (ρ.states m).base.threads c = (ρ.states n).base.threads c :=
    fun m hm => thread_stays habsent hno hm
  have hprogress : ∀ m, n ≤ m → (ρ.states m).base.Enabled c ∨
      ∃ r d, (ρ.states m).base.WaitsFor c r d ∧ (ρ.states m).base.Enabled d := fun m hm =>
    thread_progress (hreach m) (by rwa [hthread m hm]) (by rwa [hthread m hm])
  obtain ⟨k, hk, hfree⟩ := frequently_atTop.mp hready (max a n)
  rcases hprogress k (by omega) with henabled | ⟨r, d, hwaits, -⟩
  · exact ⟨k, by omega, (LiveState.enabled_of_base henabled hfree).enabledIn⟩
  · obtain ⟨l, hl, hlock⟩ := lock_released (hweak d) hwaits.locked
    obtain ⟨hroom, hreceives⟩ := hwaits.room
    rw [hthread k (by omega), ← hthread l (by omega)] at hroom hreceives
    refine ⟨l, by omega, LiveState.Enabled.enabledIn ?_⟩
    refine LiveState.enabled_of_base ?_ (not_blocked_of_receives hreceives)
    rcases hprogress l (by omega) with henabled | ⟨r', d', hwaits', -⟩
    · exact henabled
    · have hsame : r = r' := by
        rw [hwaits'.room.1] at hroom
        exact (Option.some.inj hroom).symm
      have hlocked := hwaits'.locked
      rw [← hsame, hlock] at hlocked
      cases hlocked

end

/-! ## Threads come to wait for their clients -/

/-- Control points at which a thread waits for its client or for a message, and those of
threads that are not there. -/
def Pc.waiting : Pc → Bool
  | .worker .receive | .sender .receive | .receiver .receive | .receiver .dequeue => true
  | .absent | .done => true
  | _ => false

/-- A bound on the calls until a thread waits, apart from those of the request loop of a
sender. -/
def Pc.stage : Pc → ℕ
  | .worker .newUser => 3
  | .worker .welcome => 2
  | .worker (.refuse _) => 1
  | .sender p => if (Pc.sender p).closed then 0 else 1
  | .receiver .find => 3
  | .receiver .add | .receiver (.deliver _) => 2
  | .receiver .joined | .receiver .empty | .receiver .remove | .receiver (.refuse _) => 1
  | _ => 0

/-- The distance of a control point from the next one that waits. -/
def Pc.distance (pc : Pc) : ℕ ×ₗ ℕ ×ₗ ℕ :=
  toLex (pc.stage, toLex (pc.rank, pc.unvisited))

/-- The distance is compared stage by stage. -/
theorem Pc.distance_lt {pc' pc : Pc}
    (h : pc'.stage < pc.stage ∨ pc'.stage = pc.stage ∧
      (pc'.rank < pc.rank ∨ pc'.rank = pc.rank ∧ pc'.unvisited < pc.unvisited)) :
    pc'.distance < pc.distance := by
  simpa [distance, Prod.Lex.toLex_lt_toLex] using h

/-- A control point of the request loop that is nearer to the end of the session is nearer to the
next receive. -/
theorem Pc.Nearer.distance {p : SenderPc} {pc' : Pc} (h : pc'.Nearer (.sender p))
    (hstays : pc'.isSender ∨ pc' = .done) : pc'.distance < (Pc.sender p).distance := by
  have hstage : pc'.stage = if pc'.closed then 0 else 1 := by
    rcases hstays with hsender | rfl
    · cases pc' with
      | sender p' => rfl
      | _ => cases hsender
    · rfl
  refine Pc.distance_lt ?_
  rw [hstage, Pc.stage]
  cases hclosed : (Pc.sender p).closed with
  | true => exact .inr ⟨by rw [h.closed hclosed], h.less (by rw [h.closed hclosed, hclosed])⟩
  | false =>
      cases hclosed' : pc'.closed with
      | true => exact .inl Nat.one_pos
      | false => exact .inr ⟨rfl, h.less (by rw [hclosed, hclosed'])⟩

/-- A call of a thread that does not wait brings it nearer to the next wait. -/
theorem code_nearer (t : Thread) (user : User) (getRoomName : RoomPtr → Bytes)
    (hwaiting : t.pc.waiting = false) :
    (t.code user getRoomName).Called fun t' e =>
      (∀ u rest, t.pc = .sender (.visit rest) → e = .visited u → u ∈ rest) →
        t'.pc.distance < t.pc.distance := by
  have hstage : ∀ {pc' : Pc} {e : Event}, pc'.stage < t.pc.stage →
      (∀ u rest, t.pc = .sender (.visit rest) → e = .visited u → u ∈ rest) →
        pc'.distance < t.pc.distance := fun h _ => Pc.distance_lt (.inl h)
  refine Thread.code_cases trivial ?_ ?_ ?_
  · intro p hpc
    rw [hpc] at hwaiting hstage
    rw [hpc]
    cases p with
    | receive => cases hwaiting
    | refuse why => exact fun _ => hstage (by simp [Thread.goto, Pc.stage])
    | newUser => exact hstage (by simp [Thread.goto, Pc.stage])
    | welcome =>
        intro ok _
        dsimp only
        split_ifs <;> exact Pc.distance_lt (.inl (by simp [Thread.goto, Pc.stage, Pc.closed]))
  · intro p hpc
    have hp : p ≠ .receive := by
      rintro rfl
      rw [hpc] at hwaiting
      cases hwaiting
    have hnear : (chatWithSender user getRoomName t p).Called fun t' e =>
        (∀ u rest, p = .visit rest → e = .visited u → u ∈ rest) → t'.pc.Nearer t.pc :=
      chatWithSender_nearer hpc hp
    refine (hnear.and (chatWithSender_stays user getRoomName t p)).imp fun t' e h hvisit => ?_
    rw [hpc]
    have hnearer := h.1 fun u rest hrest => hvisit u rest (by rw [hpc, hrest])
    rw [hpc] at hnearer
    exact hnearer.distance h.2.pc
  · intro p hpc
    rw [hpc] at hwaiting hstage
    rw [hpc]
    cases p with
    | receive | dequeue => cases hwaiting
    | refuse why => exact fun _ => hstage (by simp [Thread.goto, Pc.stage])
    | find => exact fun _ => hstage (by simp [Pc.stage])
    | add => exact deref_cases trivial fun r _ => hstage (by simp [Thread.goto, Pc.stage])
    | joined | empty => exact fun _ => hstage (by simp [Thread.goto, Pc.stage])
    | deliver m =>
        intro ok _
        dsimp only
        split_ifs <;> exact Pc.distance_lt (.inl (by simp [Thread.goto, Pc.stage]))
    | remove => exact deref_cases trivial fun r _ => hstage (by simp [Thread.goto, Pc.stage])

/-- A receive waits. -/
theorem Pc.waiting_of_receives {pc : Pc} (h : pc.receives) : pc.waiting := by
  unfold receives at h
  split at h <;> first | rfl | cases h

/-- A sender waits at its receive only. -/
theorem Pc.receive_of_waiting {pc : Pc} (hsender : pc.isSender) (h : pc.waiting) :
    pc = .sender .receive := by
  unfold waiting at h
  split at h <;> first | rfl | cases hsender | cases h

/-- A call of a thread that does not wait reads nothing. -/
theorem run_nearer {s s' : State} {c : ConnId} {env : Env} (hs : server.Reachable s)
    (hpc : (s.threads c).pc.waiting = false) (hstep : server.step s (.run c env) = some s') :
    (s'.threads c).pc.distance < (s.threads c).pc.distance ∧
      receivedLines (s'.calls c) = receivedLines (s.calls c) := by
  have hnearer := code_nearer (s.threads c) (s.users c) (fun r => (s.rooms r).roomName) hpc
  obtain ⟨t, e, ⟨hnear, hmatches⟩, hthreads, hadd⟩ :=
    run_called hs hstep (hnearer.and (code s c).called_matches)
  have hcalls : s'.calls c = s.calls c ++ [e] := by rw [hadd, update_self]
  constructor
  · rw [hthreads, update_self]
    refine hnear fun u rest hvisit he => ?_
    subst he
    exact run_visited hs hstep hvisit hcalls
  · have hsilent : receivedLines [e] = [] := by
      cases e with
      | received line =>
          rcases hmatches with ⟨msg, k, hop⟩
          have hreceives : (code s c).isReceive = (s.threads c).pc.receives :=
            Thread.code_isReceive _ _ _
          rw [hop] at hreceives
          rw [Pc.waiting_of_receives hreceives.symm] at hpc
          cases hpc
      | _ => rfl
    rw [hcalls, receivedLines_append, hsilent, List.append_nil]

section

variable {ρ : liveServer.Behavior} {c : ConnId}

/-- A thread that is not at a receive makes its next call. -/
theorem busy_runs (hweak : ∀ d, WeaklyFair ρ (LiveAction.By d))
    (hstrong : StronglyFair ρ (LiveAction.By c)) {n : ℕ}
    (habsent : ((ρ.states n).base.threads c).pc ≠ .absent)
    (hdone : ((ρ.states n).base.threads c).pc ≠ .done)
    (hbusy : ((ρ.states n).base.threads c).pc.receives = false) :
    ∃ m, n ≤ m ∧ ρ.Occurs (LiveAction.By c) m := by
  by_contra hnone
  have hno : ∀ m, n ≤ m → ¬ ρ.Occurs (LiveAction.By c) m :=
    fun m hm hoccurs => hnone ⟨m, hm, hoccurs⟩
  have hready : ∀ᶠ m in atTop, ¬ (ρ.states m).Blocked c := by
    refine eventually_atTop.mpr ⟨n, fun m hm => not_blocked_of_receives ?_⟩
    rwa [thread_stays habsent hno hm]
  exact hnone (thread_runs hweak hstrong habsent hdone hready.frequently)

/-- A thread that has begun something finishes it: without reading more it comes to wait
for its client or for a message, or it returns. -/
theorem thread_waits (hweak : ∀ d, WeaklyFair ρ (LiveAction.By d))
    (hstrong : StronglyFair ρ (LiveAction.By c)) (n : ℕ) :
    ∃ m, n ≤ m ∧ ((ρ.states m).base.threads c).pc.waiting ∧
      receivedLines ((ρ.states m).base.calls c) = receivedLines ((ρ.states n).base.calls c) := by
  refine exists_of_measure
    (P := fun m => receivedLines ((ρ.states m).base.calls c) =
      receivedLines ((ρ.states n).base.calls c))
    (fun m => ((ρ.states m).base.threads c).pc.distance) (fun m hm hlines => ?_) rfl
  cases hwaiting : ((ρ.states m).base.threads c).pc.waiting with
  | true => exact ⟨m, le_rfl, .inl ⟨hwaiting, hlines⟩⟩
  | false =>
      have habsent : ((ρ.states m).base.threads c).pc ≠ .absent := by
        intro h
        rw [h] at hwaiting
        cases hwaiting
      have hdone : ((ρ.states m).base.threads c).pc ≠ .done := by
        intro h
        rw [h] at hwaiting
        cases hwaiting
      have hbusy : ((ρ.states m).base.threads c).pc.receives = false := by
        by_contra h
        rw [Bool.not_eq_false] at h
        rw [Pc.waiting_of_receives h] at hwaiting
        cases hwaiting
      obtain ⟨k, env, hk, -, hstep, hthread, hlogin, hchat⟩ :=
        next_call habsent (busy_runs hweak hstrong habsent hdone hbusy)
      have hreach := live_reachable (Behavior.reachable ρ k)
      obtain ⟨hless, hsame⟩ := run_nearer hreach (by rwa [hthread]) hstep
      refine ⟨k + 1, by omega, .inr ⟨?_, ?_⟩⟩
      · rw [hsame, State.calls, hlogin, hchat]
        exact hlines
      · rwa [hthread] at hless

/-- A thread that has logged in as a sender and has left {lit}`worker`. -/
theorem sender_of_login {s : State} (hs : server.Reachable s) {c : ConnId}
    (hlogin : (s.threads c).login.tag = tagSlogin) (hworker : ∀ p, (s.threads c).pc ≠ .worker p) :
    (s.threads c).pc.isSender ∨ (s.threads c).pc = .done := by
  cases hpc : (s.threads c).pc with
  | absent =>
      rw [reachable_absent hs hpc] at hlogin
      exact absurd hlogin (by decide)
  | worker p => exact absurd hpc (hworker p)
  | sender p => exact .inl rfl
  | receiver p =>
      have hrole := (reachable_role hs c).receiver (by rw [hpc]; rfl)
      rw [hlogin] at hrole
      exact absurd hrole (by decide)
  | done => exact .inr rfl

/-- The session of a sender stays one, with the same login. -/
theorem sender_stays (ρ : liveServer.Behavior) {n m : ℕ} (hnm : n ≤ m)
    (hsender : ((ρ.states n).base.threads c).pc.isSender ∨
      ((ρ.states n).base.threads c).pc = .done) :
    (((ρ.states m).base.threads c).pc.isSender ∨ ((ρ.states m).base.threads c).pc = .done) ∧
      ((ρ.states m).base.threads c).login = ((ρ.states n).base.threads c).login ∧
      (ρ.states m).base.loginCalls c = (ρ.states n).base.loginCalls c := by
  refine Behavior.persists ρ
    (P := fun s => ((s.base.threads c).pc.isSender ∨ (s.base.threads c).pc = .done) ∧
      (s.base.threads c).login = ((ρ.states n).base.threads c).login ∧
      s.base.loginCalls c = (ρ.states n).base.loginCalls c) ?_ hnm ⟨hsender, rfl, rfl⟩
  rintro s a s' hs hstep ⟨hpc, hlogin, hcalls⟩
  have hpresent : (s.base.threads c).pc ≠ .absent := by
    rintro h
    simp [h, Pc.isSender] at hpc
  by_cases ha : a.By c
  · cases a with
    | run d env =>
        cases ha
        have hbase := (liveStep_run hstep).2.1
        have hperf := performed_of_perform hbase
        have hsender : (s.base.threads c).pc.isSender :=
          hpc.resolve_right (not_done_of_run hbase)
        obtain ⟨hsame, hlogins⟩ := hperf.login (.inl hsender)
        exact ⟨hperf.stays_sender hsender, hsame.trans hlogin, hlogins.trans hcalls⟩
    | _ => exact absurd ha id
  · obtain ⟨hthread, hlogins, -⟩ := liveStep_keeps hpresent hstep ha
    rw [hthread, hlogins]
    exact ⟨hpc, hlogin, hcalls⟩

end

/-- Under fair scheduling, whatever the other threads do, a sender thread answers every
line that it has received: there comes a time at which it has received no further line and
waits for the next one or has returned, its replies and its broadcasts are those of the
sequential program on the lines that it had received, and all its broadcasts have ended. -/
theorem requests_answered {ρ : liveServer.Behavior}
    (hfair : ∀ c, StronglyFair ρ (LiveAction.By c)) {n : ℕ} {c : ConnId}
    (hlogin : ((ρ.states n).base.threads c).login.tag = tagSlogin)
    (hworker : ∀ p, ((ρ.states n).base.threads c).pc ≠ .worker p) :
    let σ := senderSession ((ρ.states n).base.threads c).login.data
      (receivedLines ((ρ.states n).base.chatCalls c))
    ∃ m, n ≤ m ∧
      (((ρ.states m).base.threads c).pc = .sender .receive ∨
        ((ρ.states m).base.threads c).pc = .done) ∧
      receivedLines ((ρ.states m).base.chatCalls c) =
        receivedLines ((ρ.states n).base.chatCalls c) ∧
      sentFrames ((ρ.states m).base.chatCalls c) = σ.replies ∧
      ((ρ.states m).base.ownTexts c).map (fun p => ((ρ.states m).base.names p.1, p.2)) =
        σ.texts ∧
      ∀ b ∈ (ρ.states m).base.ownBroadcasts c, b.rest = ∅ := by
  intro σ
  have hreach : ∀ m, server.Reachable (ρ.states m).base := fun m =>
    live_reachable (Behavior.reachable ρ m)
  have hsender := sender_of_login (hreach n) hlogin hworker
  obtain ⟨m, hm, hwaiting, hlines⟩ :=
    thread_waits (fun d => (hfair d).weaklyFair) (hfair c) n
  obtain ⟨hpc, hsame, hlogins⟩ := sender_stays ρ hm hsender
  have hchat : receivedLines ((ρ.states m).base.chatCalls c) =
      receivedLines ((ρ.states n).base.chatCalls c) := by
    rw [State.calls, State.calls, receivedLines_append, receivedLines_append, hlogins] at hlines
    exact List.append_cancel_left hlines
  have hend : ((ρ.states m).base.threads c).pc = .sender .receive ∨
      ((ρ.states m).base.threads c).pc = .done := by
    rcases hpc with hpc | hpc
    · exact .inl (Pc.receive_of_waiting hpc hwaiting)
    · exact .inr hpc
  have hagrees := reachable_sessionAgrees (hreach m) (c := c) (by rwa [hsame]) (by
    intro p hp
    rcases hend with h | h
    · rw [h] at hp
      cases hp
    · rw [h] at hp
      cases hp)
  rw [hsame] at hagrees
  obtain ⟨hreplies, htexts, -⟩ := hagrees.complete hend
  rw [hchat] at hreplies htexts
  refine ⟨m, hm, hend, hchat, hreplies, htexts, fun b hb => ?_⟩
  rcases List.mem_iff_getElem?.mp hb with ⟨i, hi⟩
  refine finished_of_lt (hreach m) hi fun hunanswered => ?_
  rcases hend with h | h
  · rw [h] at hunanswered
    cases hunanswered
  · rw [h] at hunanswered
    cases hunanswered

/-- A sender whose text has been received and has not been broadcast. -/
theorem requests_answered_text :
    ∃ ρ : liveServer.Behavior, ((ρ.states 10).base.threads 0).pc = .sender .broadcast ∧
      ∃ m, 10 ≤ m ∧ sentFrames ((ρ.states m).base.chatCalls 0) =
        (senderSession (str "bob") (receivedLines ((ρ.states 10).base.chatCalls 0))).replies := by
  rcases bobSends_fair with ⟨s, hrun, hfair⟩
  have hobs := Behavior.observe_ofRun hrun (k := 10)
    (f := fun s => ((s.base.threads 0).login, (s.base.threads 0).pc))
    (b := ({ tag := tagSlogin, data := str "bob" }, .sender .broadcast)) (by decide +kernel)
  rw [Prod.mk.injEq] at hobs
  obtain ⟨m, hm, -, -, hreplies, -, -⟩ := requests_answered hfair (n := 10) (c := 0)
    (by rw [hobs.1]) fun p hp => by rw [hobs.2] at hp; cases hp
  rw [hobs.1] at hreplies
  exact ⟨Behavior.ofRun hrun, hobs.2, m, hm, hreplies⟩

end ChatServer
