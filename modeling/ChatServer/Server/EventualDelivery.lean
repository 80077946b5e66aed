import Mathlib.Order.Filter.Finite
import ChatServer.Server.Liveness
import ChatServer.Server.ReceiverSession

/-!
# Every message is delivered in the end

The way of a broadcast to the connection of a receiver under fair scheduling.  The queue of
a receiver may grow all the time, but what is in it now is dequeued and sent as long as no
send to the receiver fails.

Main results:

- Theorem {lit}`queue_drained`: what a receiver has been given is dequeued and sent.
- Theorem {lit}`log_finishes`: the broadcasts that have begun come to their ends.
- Theorem {lit}`broadcasts_delivered`: the broadcasts for a receiver reach its connection.

Current gaps:

- A dequeue from a queue that holds a message is assumed not to time out, as is promised
  for {lit}`sem_timedwait`.
- Every write returns.  A write to a client that does not read may block for ever; then the
  later messages are never sent, although no send has failed.
-/

namespace ChatServer

open Function Filter TransitionSystem

/-! ## The loop of a receiver -/

/-- Control points of a receiver between its join and the end of its session. -/
def Pc.looping : Pc → Bool
  | .receiver .joined | .receiver .dequeue | .receiver (.deliver _) | .receiver .empty => true
  | _ => false

/-- A receiver in its delivery loop is logged in. -/
theorem Pc.loggedIn_of_looping {pc : Pc} (h : pc.looping) : pc.loggedIn := by
  unfold looping at h
  split at h <;> first | rfl | cases h

/-- A thread that is there and past {lit}`worker` is logged in. -/
theorem Pc.loggedIn_of_present {pc : Pc} (habsent : pc ≠ .absent) (hworker : ∀ p, pc ≠ .worker p) :
    pc.loggedIn := by
  cases pc with
  | absent => exact absurd rfl habsent
  | worker p => exact absurd rfl (hworker p)
  | _ => rfl

/-- Some send to the client of the thread has failed. -/
def State.SendFailed (s : State) (u : ConnId) : Prop :=
  ∃ m, .sent m false ∈ s.calls u

/-- A dequeue from a queue that holds a message does not time out. -/
def Patient (ρ : liveServer.Behavior) (u : ConnId) : Prop :=
  ∀ n env, ρ.labels n = some (.run u env) → env.timeout = true →
    ((ρ.states n).base.users u).mqueue = []

/-- A call of a thread in its chat function is added to its calls there. -/
theorem Performed.chatCalls_self {s s' : State} {c : ConnId} {op : Op}
    (h : Performed s c op s') (hpc : ∀ p, (s.threads c).pc ≠ .worker p)
    {P : Thread → Event → Prop} (hop : op.Called P) :
    ∃ e, P (s'.threads c) e ∧ s'.chatCalls c = s.chatCalls c ++ [e] := by
  obtain ⟨s₁, t, e, rfl, hP, hthreads, -, hchat, -⟩ := h.called hop
  refine ⟨e, by simpa using hP, ?_⟩
  rw [State.chatCalls_resume t e (by rwa [hthreads]), hchat, update_self]

/-- A dequeue takes the first message, if there is one and it does not time out. -/
theorem run_dequeues {s s' : State} {u : ConnId} {env : Env}
    (hpc : (s.threads u).pc = .receiver .dequeue) (hqueue : (s.users u).mqueue ≠ [])
    (htimeout : env.timeout = true → (s.users u).mqueue = [])
    (hstep : server.step s (.run u env) = some s') :
    ∃ m, s'.chatCalls u = s.chatCalls u ++ [.dequeued (some m)] ∧
      (s'.threads u).pc = .receiver (.deliver m) := by
  have hperf : perform s u env (code s u) = some s' := hstep
  have hpatient : env.timeout = false := by
    by_contra h
    rw [Bool.not_eq_false] at h
    exact hqueue (htimeout h)
  rw [code, Thread.code_receiver hpc, chatWithReceiver] at hperf
  simp only [perform, hpatient] at hperf
  cases hfirst : (s.users u).mqueue with
  | nil => exact absurd hfirst hqueue
  | cons m mqueue =>
      simp only [hfirst] at hperf
      cases hperf
      refine ⟨m, ?_, by simp [Thread.goto]⟩
      rw [State.chatCalls_resume _ _ (by simp [hpc]), update_self]

/-- A call in the loop leads to another one in the loop, unless it is a send that fails. -/
theorem run_loops {s s' : State} {u : ConnId} {env : Env}
    (hpc : (s.threads u).pc.looping) (hstep : server.step s (.run u env) = some s') :
    ∃ e, s'.chatCalls u = s.chatCalls u ++ [e] ∧
      ((s'.threads u).pc.looping ∨ ∃ m, e = .sent m false) ∧
      ((s.threads u).pc ≠ .receiver .dequeue →
        (∃ m, e = .sent m false) ∨ (s'.threads u).pc = .receiver .dequeue ∧ dequeues [e] = []) := by
  cases hp : (s.threads u).pc with
  | receiver p =>
      have hworker : ∀ p, (s.threads u).pc ≠ .worker p := by simp [hp]
      have hperf := performed_of_perform hstep
      rw [code, Thread.code_receiver hp] at hperf
      have hcalled : (chatWithReceiver (s.threads u) p).Called fun t e =>
          (t.pc.looping ∨ ∃ m, e = .sent m false) ∧
            (p ≠ .dequeue → (∃ m, e = .sent m false) ∨
              t.pc = .receiver .dequeue ∧ dequeues [e] = []) := by
        rw [hp] at hpc
        cases p with
        | joined | empty => exact fun ok => ⟨.inl rfl, fun _ => .inr ⟨rfl, rfl⟩⟩
        | dequeue =>
            intro m
            cases m <;> exact ⟨.inl rfl, fun h => absurd rfl h⟩
        | deliver m =>
            intro ok
            dsimp only
            cases ok with
            | true => exact ⟨.inl rfl, fun _ => .inr ⟨rfl, rfl⟩⟩
            | false => exact ⟨.inr ⟨m, rfl⟩, fun _ => .inl ⟨m, rfl⟩⟩
        | _ => cases hpc
      obtain ⟨e, ⟨hloop, hnext⟩, hcalls⟩ := hperf.chatCalls_self hworker hcalled
      refine ⟨e, hcalls, hloop, fun hne => hnext fun h => hne ?_⟩
      rw [h]
  | _ => simp [hp, Pc.looping] at hpc

/-! ## What stays along a behavior -/

/-- What a user has been given only grows, and its name stays. -/
theorem step_obtained {s s' : State} {a : Action} (hstep : server.step s a = some s')
    {u : ConnId} (hin : (s.threads u).pc.loggedIn) :
    (s'.threads u).pc.loggedIn ∧ (s'.users u).username = (s.users u).username ∧
      s.obtained u <+: s'.obtained u := by
  have hgoto : ∀ {t : Thread} {c : ConnId} {p : SenderPc},
      (update s.threads c (t.goto (.sender p)) u).pc.loggedIn := by
    intro t c p
    by_cases huc : u = c
    · subst u
      simp [Thread.goto, Pc.loggedIn]
    · rwa [update_of_ne huc]
  cases step_kind hstep with
  | elsewhere c h =>
      refine ⟨?_, h.username u hin, by rw [h.obtained u hin]⟩
      by_cases huc : u = c
      · subst u
        exact h.quiet.loggedIn hin
      · rwa [h.threads u huc]
  | locks c r h =>
      exact ⟨by rw [h.threads]; exact hgoto, by rw [h.users], by rw [h.obtained]⟩
  | visits c r rest v h =>
      refine ⟨by rw [h.threads]; exact hgoto, h.username u, ?_⟩
      by_cases huv : u = v
      · subst u
        exact ⟨_, h.obtained.symm⟩
      · rw [h.others u huv]
  | unlocks c r h =>
      exact ⟨by rw [h.threads]; exact hgoto, by rw [h.users], by rw [h.obtained]⟩

/-- A step keeps the calls of a thread, or adds one of them. -/
theorem liveStep_calls {s s' : LiveState} {a : LiveAction} (hs : liveServer.Reachable s)
    (hstep : liveServer.step s a = some s') (c : ConnId) : s.base.calls c <+: s'.base.calls c := by
  rcases liveStep_base hstep with ⟨d, conn, hsame⟩ | ⟨b, hb⟩
  · rw [hsame]
    exact List.prefix_refl _
  · rcases step_calls (live_reachable hs) hb c with ⟨events, hevents⟩
    rw [hevents]
    exact List.prefix_append _ _

/-- The calls in the chat functions are only added to. -/
theorem liveStep_chatCalls {s s' : LiveState} {a : LiveAction}
    (hstep : liveServer.step s a = some s') (c : ConnId) :
    s.base.chatCalls c <+: s'.base.chatCalls c := by
  rcases liveStep_base hstep with ⟨d, conn, hsame⟩ | ⟨b, hb⟩
  · rw [hsame]
    exact List.prefix_refl _
  · cases b with
    | accept d reads ending =>
        rcases accept_step hb with ⟨-, hsame⟩
        rw [hsame]
        exact List.prefix_refl _
    | run d env =>
        obtain ⟨s₁, t, e, hresume, -, -, -, hchat, -⟩ :=
          (performed_of_perform hb).called (code s.base d).called_matches
        rw [hresume, ← hchat]
        by_cases hworker : ∃ p, (s₁.threads d).pc = .worker p
        · rcases hworker with ⟨p, hp⟩
          rw [State.chatCalls_resume_worker t e hp]
        · rw [not_exists] at hworker
          rw [State.chatCalls_resume t e hworker]
          by_cases hcd : c = d
          · subst c
            rw [update_self]
            exact List.prefix_append _ _
          · rw [update_of_ne hcd]

section

variable (ρ : liveServer.Behavior) {u : ConnId} {n m : ℕ} (hnm : n ≤ m)
include hnm

/-- In a behavior a user that is logged in keeps its name, and what it has obtained only grows.
-/
theorem behavior_obtained (hin : ((ρ.states n).base.threads u).pc.loggedIn) :
    ((ρ.states m).base.threads u).pc.loggedIn ∧
      ((ρ.states m).base.users u).username = ((ρ.states n).base.users u).username ∧
      (ρ.states n).base.obtained u <+: (ρ.states m).base.obtained u := by
  refine Behavior.persists ρ
    (P := fun s => (s.base.threads u).pc.loggedIn ∧
      (s.base.users u).username = ((ρ.states n).base.users u).username ∧
      (ρ.states n).base.obtained u <+: s.base.obtained u) ?_ hnm
    ⟨hin, rfl, List.prefix_refl _⟩
  rintro s a s' - hstep ⟨hin, hname, hgrows⟩
  rcases liveStep_base hstep with ⟨c, conn, hsame⟩ | ⟨b, hb⟩
  · rw [hsame]
    exact ⟨hin, hname, hgrows⟩
  · rcases step_obtained hb hin with ⟨hin', hname', hgrows'⟩
    exact ⟨hin', hname'.trans hname, hgrows.trans hgrows'⟩

/-- The calls of a thread only grow. -/
theorem behavior_calls (c : ConnId) :
    (ρ.states n).base.calls c <+: (ρ.states m).base.calls c :=
  Behavior.persists ρ (P := fun s => (ρ.states n).base.calls c <+: s.base.calls c)
    (fun _ _ _ hs hstep h => h.trans (liveStep_calls hs hstep c)) hnm (List.prefix_refl _)

/-- In a behavior the calls of a thread only grow. -/
theorem behavior_chatCalls (c : ConnId) :
    (ρ.states n).base.chatCalls c <+: (ρ.states m).base.chatCalls c :=
  Behavior.persists ρ (P := fun s => (ρ.states n).base.chatCalls c <+: s.base.chatCalls c)
    (fun _ _ _ _ hstep h => h.trans (liveStep_chatCalls hstep c)) hnm (List.prefix_refl _)

/-- A receiver stays in its loop until a send to it fails. -/
theorem behavior_loops (hloop : ((ρ.states n).base.threads u).pc.looping) :
    ((ρ.states m).base.threads u).pc.looping ∨ (ρ.states m).base.SendFailed u := by
  refine Behavior.persists ρ (P := fun s => (s.base.threads u).pc.looping ∨ s.base.SendFailed u)
    ?_ hnm (.inl hloop)
  rintro s a s' hs hstep (hloop | ⟨msg, hmsg⟩)
  · by_cases ha : a.By u
    · cases a with
      | run d env =>
          cases ha
          obtain ⟨e, hcalls, hnext, -⟩ := run_loops hloop (liveStep_run hstep).2.1
          refine hnext.imp_right ?_
          rintro ⟨msg, rfl⟩
          exact ⟨msg, by simp [State.calls, hcalls]⟩
      | _ => exact absurd ha id
    · left
      have hpresent : (s.base.threads u).pc ≠ .absent := by
        intro habsent
        simp [habsent, Pc.looping] at hloop
      rwa [(liveStep_keeps hpresent hstep ha).1]
  · exact .inr ⟨msg, (liveStep_calls hs hstep u).subset hmsg⟩

end

/-! ## The queue of a receiver -/

section

variable {ρ : liveServer.Behavior} (hfair : ∀ c, StronglyFair ρ (LiveAction.By c)) {u : ConnId}
  (hpatient : Patient ρ u) {n : ℕ} (hloop : ((ρ.states n).base.threads u).pc.looping)
include hfair hpatient hloop

/-- What a receiver has been given by now will have been dequeued when it comes to its next
dequeue, unless a send to it fails. -/
theorem queue_drained :
    ∃ m, n ≤ m ∧ ((ρ.states m).base.SendFailed u ∨
      ((ρ.states m).base.threads u).pc = .receiver .dequeue ∧
        (ρ.states n).base.obtained u <+: dequeues ((ρ.states m).base.chatCalls u)) := by
  have hreach : ∀ m, server.Reachable (ρ.states m).base := fun m =>
    live_reachable (Behavior.reachable ρ m)
  -- first the messages that are left, then the calls until the next dequeue
  refine exists_of_measure (P := fun m => ((ρ.states m).base.threads u).pc.looping)
    (fun m => toLex
      (((ρ.states n).base.obtained u).length - (dequeues ((ρ.states m).base.chatCalls u)).length,
        if ((ρ.states m).base.threads u).pc = .receiver .dequeue then 0 else 1))
    (fun m hm hloop' => ?_) hloop
  have hin := Pc.loggedIn_of_looping hloop
  have hpc : ((ρ.states m).base.threads u).pc ≠ .absent ∧
      ((ρ.states m).base.threads u).pc ≠ .done ∧
      ((ρ.states m).base.threads u).pc.receives = false := by
    unfold Pc.looping at hloop'
    split at hloop' <;> simp_all [Pc.receives]
  obtain ⟨k, env, hk, hlabel, hstep, hthread, -, hchat⟩ := next_call hpc.1
    (busy_runs (fun d => (hfair d).weaklyFair) (hfair u) hpc.1 hpc.2.1 hpc.2.2)
  rw [← hthread] at hloop'
  rw [← hthread, ← hchat]
  obtain ⟨e, hcalls, hnext, hreplied⟩ := run_loops hloop' hstep
  by_cases hdequeue : ((ρ.states k).base.threads u).pc = .receiver .dequeue
  · have hgrows : (ρ.states n).base.obtained u <+: dequeues ((ρ.states k).base.chatCalls u) ++
        ((ρ.states k).base.users u).mqueue :=
      (behavior_obtained ρ (hm.trans hk) hin).2.2
    by_cases hdone : ((ρ.states n).base.obtained u).length ≤
        (dequeues ((ρ.states k).base.chatCalls u)).length
    · refine ⟨k, hk, .inl (.inr ⟨hdequeue, ?_⟩)⟩
      exact List.prefix_of_prefix_length_le hgrows (List.prefix_append _ _) hdone
    · have hqueue : ((ρ.states k).base.users u).mqueue ≠ [] := by
        intro hnil
        rw [hnil, List.append_nil] at hgrows
        exact hdone hgrows.length_le
      obtain ⟨msg, hadd, hdeliver⟩ := run_dequeues hdequeue hqueue (hpatient k env hlabel) hstep
      refine ⟨k + 1, by omega, .inr ⟨by rw [hdeliver]; rfl, ?_⟩⟩
      rw [hadd, dequeues_append, List.length_append, Prod.Lex.toLex_lt_toLex]
      left
      have hone : (dequeues [.dequeued (some msg)]).length = 1 := rfl
      omega
  · rcases hreplied hdequeue with ⟨msg, rfl⟩ | ⟨hback, hnothing⟩
    · exact ⟨k + 1, by omega, .inl (.inl ⟨msg, by simp [State.calls, hcalls]⟩)⟩
    · refine ⟨k + 1, by omega, .inr ⟨by rw [hback]; rfl, ?_⟩⟩
      rw [hback, hcalls, dequeues_append, hnothing, List.append_nil, if_neg hdequeue,
        Prod.Lex.toLex_lt_toLex]
      exact .inr ⟨rfl, by simp⟩

end

/-! ## The broadcasts for a user -/

/-- The broadcast is one for the user: a member of its room who has another name. -/
def Broadcast.Addresses (b : Broadcast) (u : ConnId) (username : Bytes) : Prop :=
  u ∈ b.members ∧ b.username ≠ username

instance (b : Broadcast) (u : ConnId) (username : Bytes) : Decidable (b.Addresses u username) :=
  inferInstanceAs (Decidable (_ ∧ _))

/-- The broadcasts for a user that have begun, in log order. -/
def State.addressed (s : State) (u : ConnId) : List Broadcast :=
  s.broadcasts.filter fun b => b.Addresses u (s.users u).username

/-- The later log starts with the same broadcasts, and all of them have ended. -/
def LogFinishes (s s' : State) : Prop :=
  ∃ finished later, s'.broadcasts = finished ++ later ∧
    List.Forall₂ (fun b b' => b.Progress b' ∧ b'.rest = ∅) s.broadcasts finished

/-- A relation of the entries in all places of a list to those of a longer list. -/
theorem exists_forall₂_of_getElem? {α β : Type*} {R : α → β → Prop} {xs : List α} {ys : List β}
    (h : ∀ (i : ℕ) (x : α), xs[i]? = some x → ∃ y, ys[i]? = some y ∧ R x y) :
    ∃ ys₁ ys₂, ys = ys₁ ++ ys₂ ∧ List.Forall₂ R xs ys₁ := by
  induction xs generalizing ys with
  | nil => exact ⟨[], ys, rfl, .nil⟩
  | cons x xs ih =>
      rcases h 0 x rfl with ⟨y, hy, hxy⟩
      cases ys with
      | nil => cases hy
      | cons y' ys =>
          cases hy
          obtain ⟨ys₁, ys₂, rfl, hys₁⟩ := @ih ys fun i x' hx' => h (i + 1) x' hx'
          exact ⟨y :: ys₁, ys₂, rfl, .cons hxy hys₁⟩

/-- The broadcasts that have begun by now come to their ends. -/
theorem log_finishes {ρ : liveServer.Behavior} (hfair : ∀ c, WeaklyFair ρ (LiveAction.By c))
    (n : ℕ) : ∃ m, n ≤ m ∧ LogFinishes (ρ.states n).base (ρ.states m).base := by
  have hone : ∀ (i : ℕ) (b : Broadcast), (ρ.states n).base.broadcasts[i]? = some b →
      ∀ᶠ m in atTop,
      ∃ b', (ρ.states m).base.broadcasts[i]? = some b' ∧ b.Progress b' ∧ b'.rest = ∅ := by
    intro i b hb
    obtain ⟨m, b', -, hb'⟩ := broadcast_finishes hfair hb
    refine Behavior.eventually ρ (P := fun s =>
      ∃ b', s.base.broadcasts[i]? = some b' ∧ b.Progress b' ∧ b'.rest = ∅) ?_ ⟨m, b', hb'⟩
    rintro s a s' - hstep ⟨b', hb', hprogress, hrest⟩
    rcases liveStep_logGrows hstep i b' hb' with ⟨b'', hb'', hprogress'⟩
    refine ⟨b'', hb'', hprogress.trans hprogress', Finset.subset_empty.mp ?_⟩
    rw [← hrest]
    exact hprogress'.rest
  have hall : ∀ᶠ m in atTop, ∀ i ∈ Finset.range (ρ.states n).base.broadcasts.length,
      ∀ b : Broadcast, (ρ.states n).base.broadcasts[i]? = some b →
        ∃ b', (ρ.states m).base.broadcasts[i]? = some b' ∧ b.Progress b' ∧ b'.rest = ∅ := by
    refine (eventually_all_finset _).mpr fun i hi => ?_
    rw [Finset.mem_range] at hi
    refine (hone i _ (List.getElem?_eq_getElem hi)).mono fun m hm b hb => ?_
    rwa [← Option.some.inj ((List.getElem?_eq_getElem hi).symm.trans hb)]
  obtain ⟨m, hm, hnm⟩ := (hall.and (eventually_ge_atTop n)).exists
  obtain ⟨finished, later, hlog, hforall⟩ := exists_forall₂_of_getElem? fun i b hb =>
    hm i (Finset.mem_range.mpr (List.getElem?_eq_some_iff.mp hb).1) b hb
  exact ⟨m, hnm, finished, later, hlog, hforall⟩

/-- Broadcasts that have ended have reached the users that they are for. -/
theorem map_message_finished {bs bs' : List Broadcast}
    (h : List.Forall₂ (fun b b' => b.Progress b' ∧ b'.rest = ∅) bs bs') (u : ConnId)
    (username : Bytes) :
    (bs.filter fun b => b.Addresses u username).map Broadcast.message =
      (bs'.filter fun b => b.Reaches u username).map Broadcast.message := by
  rw [← List.forall₂_eq_eq_eq]
  refine List.rel_map (fun b b' hb => hb.1.message.symm) (List.rel_filter (fun b b' hb => ?_) h)
  simp only [decide_eq_true_eq]
  simp [Broadcast.Reaches, Broadcast.Addresses, hb.1.members, hb.1.username, hb.2]

/-- When all broadcasts have ended, those for a user have reached the user first. -/
theorem LogFinishes.delivered {s s' : State} (h : LogFinishes s s') {u : ConnId}
    (hname : (s'.users u).username = (s.users u).username) :
    (s.addressed u).map Broadcast.message <+: s'.delivered u := by
  rcases h with ⟨finished, later, hlog, hforall⟩
  rw [State.delivered, hname, hlog, List.filter_append, List.map_append, State.addressed,
    map_message_finished hforall]
  exact List.prefix_append _ _

/-! ## The broadcasts that begin -/

/-- The user of a receiver in its loop is a member of the room that it has joined. -/
theorem member_of_looping {s : State} (hs : server.Reachable s) {u : ConnId} {r : RoomPtr}
    (hlogin : (s.threads u).login.tag = tagRlogin) (hloop : (s.threads u).pc.looping)
    (hjoined : s.Joined r u) : u ∈ (s.rooms r).members := by
  have hat : (s.threads u).pc.atRequestedRoom ∧ (s.threads u).memberOf = (s.threads u).room := by
    unfold Pc.looping at hloop
    split at hloop <;> rename_i hpc <;> simp [Thread.memberOf, Pc.atRequestedRoom, hpc] at hloop ⊢
  rcases (reachable_located hs u).requested hat.1 with ⟨q, hroom, -⟩
  have hq : u ∈ (s.rooms q).members := by
    rw [reachable_memberships hs u q, hat.2, hroom]
  rwa [joined_unique hs hlogin hjoined (joined_of_mem hs hq)]

/-- The broadcasts with these places or later ones in the log that are in the room are ones
for the user. -/
def State.Begun (s : State) (first : ℕ) (r : RoomPtr) (u : ConnId) : Prop :=
  ∀ b ∈ s.broadcasts.drop first, b.room = r → u ∈ b.members

/-- A further broadcast to the user keeps the log as it has begun. -/
theorem State.Begun.append {s s' : State} {first : ℕ} {r : RoomPtr} {u : ConnId}
    (h : s.Begun first r u) {b : Broadcast} (hb : b.room = r → u ∈ b.members)
    (hlog : s'.broadcasts = s.broadcasts ++ [b]) : s'.Begun first r u := by
  intro b' hb' hroom
  rw [hlog, List.drop_append, List.mem_append] at hb'
  rcases hb' with hb' | hb'
  · exact h b' hb' hroom
  · rw [List.mem_singleton.mp (List.mem_of_mem_drop hb')] at hroom ⊢
    exact hb hroom

/-- A broadcast that begins takes the members of its room. -/
theorem step_begun {s s' : State} {a : Action} (hstep : server.step s a = some s') {first : ℕ}
    {r : RoomPtr} {u : ConnId} (hmember : u ∈ (s.rooms r).members) (h : s.Begun first r u) :
    s'.Begun first r u := by
  cases step_kind hstep with
  | elsewhere c hkind => rwa [State.Begun, hkind.broadcasts]
  | locks c q hkind =>
      refine h.append (fun hroom => ?_) hkind.broadcasts
      have hq : q = r := hroom
      rwa [← hq] at hmember
  | visits c q rest v hkind =>
      intro b hb hroom
      rw [hkind.broadcasts, ← List.map_drop] at hb
      rcases List.mem_map.mp hb with ⟨b', hb', rfl⟩
      rw [Broadcast.visit_room] at hroom
      rw [Broadcast.visit_members]
      exact h b' hb' hroom
  | unlocks c q hkind => rwa [State.Begun, hkind.broadcasts]

/-- As long as a user is a member of a room, the broadcasts that begin in the room are ones for
the user. -/
theorem behavior_begun (ρ : liveServer.Behavior) {n m : ℕ} (hnm : n ≤ m) {r : RoomPtr} {u : ConnId}
    (hmember : ∀ k, n ≤ k → u ∈ ((ρ.states k).base.rooms r).members) :
    (ρ.states m).base.Begun (ρ.states n).base.broadcasts.length r u := by
  induction m, hnm using Nat.le_induction with
  | base =>
      intro b hb
      simp at hb
  | succ k hk ih =>
      rcases ρ.step_cases k with ⟨-, hstutter⟩ | ⟨a, -, hstep⟩
      · rwa [hstutter]
      · rcases liveStep_base hstep with ⟨c, conn, hsame⟩ | ⟨b, hb⟩
        · rw [hsame]
          exact ih
        · exact step_begun hb (hmember k hk) ih

/-- Along a behavior the log keeps its broadcasts and gets later ones. -/
theorem behavior_log (ρ : liveServer.Behavior) {n m : ℕ} (hnm : n ≤ m) :
    ∃ old, (ρ.states m).base.broadcasts =
        old ++ (ρ.states m).base.broadcasts.drop (ρ.states n).base.broadcasts.length ∧
      List.Forall₂ Broadcast.Progress (ρ.states n).base.broadcasts old := by
  obtain ⟨old, later, hlog, hforall⟩ := exists_forall₂_of_getElem? (behavior_logGrows ρ hnm)
  refine ⟨old, ?_, hforall⟩
  rw [hlog, hforall.length_eq, List.drop_left]

/-- Progress keeps the numbers of broadcasts of the authors. -/
theorem own_of_progress {bs bs' : List Broadcast} (h : List.Forall₂ Broadcast.Progress bs bs')
    (c : ConnId) : (bs.filter fun b => b.author = c).length =
      (bs'.filter fun b => b.author = c).length :=
  (List.rel_filter (fun b b' hb => by simp [hb.author]) h).length_eq

/-! ## Everything is delivered -/

/-- The broadcasts for a receiver that have begun by now are dequeued. -/
theorem addressed_dequeued {ρ : liveServer.Behavior}
    (hfair : ∀ c, StronglyFair ρ (LiveAction.By c)) {u : ConnId} (hpatient : Patient ρ u) {n : ℕ}
    (hloop : ((ρ.states n).base.threads u).pc.looping) :
    ∃ m, n ≤ m ∧ ((ρ.states m).base.SendFailed u ∨
      ((ρ.states m).base.threads u).pc = .receiver .dequeue ∧
        ((ρ.states n).base.addressed u).map Broadcast.message <+:
          dequeues ((ρ.states m).base.chatCalls u)) := by
  obtain ⟨k, hk, hfinishes⟩ := log_finishes (fun c => (hfair c).weaklyFair) n
  have hname := (behavior_obtained ρ hk (Pc.loggedIn_of_looping hloop)).2.1
  rcases behavior_loops ρ hk hloop with hloop' | hfailed
  · obtain ⟨m, hm, hdrained⟩ := queue_drained hfair hpatient hloop'
    refine ⟨m, hk.trans hm, hdrained.imp_right fun h => ⟨h.1, ?_⟩⟩
    have hgiven := hfinishes.delivered hname
    rw [← reachable_obtained (live_reachable (Behavior.reachable ρ k))] at hgiven
    exact hgiven.trans h.2
  · exact ⟨k, hk, .inl hfailed⟩

/-- The deliveries among the frames of a history. -/
def deliveryFrames (calls : List Event) : List Message :=
  (sentFrames calls).filter fun m => m.tag = tagDelivery

/-- Among the frames for some results the deliveries are the messages. -/
theorem filter_resultFrame {results : List (Option Message)}
    (htag : ∀ m ∈ results.reduceOption, m.tag = tagDelivery) :
    ((results.map resultFrame).filter fun m => m.tag = tagDelivery) = results.reduceOption := by
  have hempty : (resultFrame none).tag ≠ tagDelivery := by decide
  induction results with
  | nil => rfl
  | cons result results ih =>
      cases result with
      | none =>
          rw [List.reduceOption_cons_of_none] at htag ⊢
          simp [hempty, ih htag]
      | some m =>
          rw [List.reduceOption_cons_of_some] at htag ⊢
          have hm : (resultFrame (some m)).tag = tagDelivery := htag m List.mem_cons_self
          rw [List.map_cons, List.filter_cons_of_pos (by simpa using hm),
            ih fun m' hm' => htag m' (List.mem_cons_of_mem _ hm')]
          rfl

/-- At its next dequeue a receiver has reported the results of all others. -/
theorem sentFrames_of_dequeue {s : State} (hs : server.Reachable s) {u : ConnId}
    (hpc : (s.threads u).pc = .receiver .dequeue) :
    sentFrames (s.chatCalls u) =
      receiverJoinedReply :: (dequeueResults (s.chatCalls u)).map resultFrame := by
  have hsession : Session (s.threads u).pc (s.chatCalls u) := by
    have h := reachable_session hs u
    unfold InSession at h
    simpa only [hpc] using h
  have hdue : (Pc.receiver .dequeue).dueFrames = [] := rfl
  rwa [Session, hpc, hdue, List.append_nil] at hsession

/-- At its next dequeue a receiver has sent all that it has dequeued. -/
theorem deliveryFrames_of_dequeue {s : State} (hs : server.Reachable s) {u : ConnId}
    (hpc : (s.threads u).pc = .receiver .dequeue) :
    deliveryFrames (s.chatCalls u) = dequeues (s.chatCalls u) := by
  have htags : ∀ m ∈ (dequeueResults (s.chatCalls u)).reduceOption, m.tag = tagDelivery := by
    rw [reduceOption_dequeueResults]
    exact fun m hm => tag_of_mem_dequeues hs hm
  have hjoined : receiverJoinedReply.tag ≠ tagDelivery := by decide
  rw [deliveryFrames, sentFrames_of_dequeue hs hpc,
    List.filter_cons_of_neg (by simpa using hjoined), filter_resultFrame htags,
    reduceOption_dequeueResults]

/-- Under fair scheduling everything is delivered, provided that every write returns.  The
broadcasts for a receiver that have begun by now are in the end the first deliveries that
have been sent to it, in log order and each of them once, unless a send to this receiver
fails. -/
theorem broadcasts_delivered {ρ : liveServer.Behavior}
    (hfair : ∀ c, StronglyFair ρ (LiveAction.By c)) {u : ConnId} (hpatient : Patient ρ u) {n : ℕ}
    (hloop : ((ρ.states n).base.threads u).pc.looping) :
    ∃ m, n ≤ m ∧ ((ρ.states m).base.SendFailed u ∨
      ((ρ.states n).base.addressed u).map Broadcast.message <+:
        deliveryFrames ((ρ.states m).base.chatCalls u)) := by
  obtain ⟨m, hm, hdequeued⟩ := addressed_dequeued hfair hpatient hloop
  refine ⟨m, hm, hdequeued.imp_right fun h => ?_⟩
  rw [deliveryFrames_of_dequeue (live_reachable (Behavior.reachable ρ m)) h.1]
  exact h.2

/-- The step is no dequeue that times out. -/
def LiveAction.waits : LiveAction → Bool
  | .run _ env => !env.timeout
  | .accept _ | .arrive _ _ | .hangUp _ _ => true

/-- A run without timeouts is patient. -/
theorem patient_ofRun {as : List LiveAction} {s : LiveState}
    (hrun : liveServer.run liveServer.init as = some s) (h : ∀ a ∈ as, a.waits) (u : ConnId) :
    Patient (Behavior.ofRun hrun) u := by
  intro n env hlabel htimeout
  have hwaits := h (.run u env) (List.mem_of_getElem? hlabel)
  simp [LiveAction.waits, htimeout] at hwaits

/-- A receiver joins a room and a sender sends two texts; the second one cannot be delivered
any more, and the session of the receiver ends. -/
def annLeaves : List LiveAction :=
  [.accept 1, .arrive 1 (.data 114 (str "login:ann\njoin:hall\n"))] ++
    List.replicate 7 (.run 1) ++
    [.accept 0,
      .arrive 0 (.data 115 (str "login:bob\njoin:hall\nsendall:hi\nsendall:ho\n"))] ++
    List.replicate 9 (.run 0) ++
    [.run 0 { pick := 1 }, .run 0, .run 0, .run 0, .run 1, .run 1] ++
    [.run 0, .run 0, .run 0 { pick := 1 }, .run 0, .run 0, .run 0, .run 1,
      .run 1 { writes := [.error] }, .run 1]

/-- The first text is delivered. -/
theorem broadcasts_delivered_ann :
    ∃ ρ : liveServer.Behavior,
      ((ρ.states 20).base.addressed 1).map Broadcast.message =
        [{ tag := tagDelivery, data := str "hall:bob:hi" }] ∧
      ∃ m, 20 ≤ m ∧ ((ρ.states m).base.SendFailed 1 ∨
        [{ tag := tagDelivery, data := str "hall:bob:hi" }] <+:
          deliveryFrames ((ρ.states m).base.chatCalls 1)) := by
  have hrun : (liveServer.run liveServer.init annLeaves).map
      (fun s => decide (s.Stuck 0 ∧ s.Stuck 1)) = some true := by
    decide +kernel
  rcases Option.map_eq_some_iff.mp hrun with ⟨s, hs, hstuck⟩
  rw [decide_eq_true_eq] at hstuck
  have hconn : ∀ a ∈ annLeaves, a.conn = 0 ∨ a.conn = 1 := by decide
  have hfair : ∀ c, StronglyFair (Behavior.ofRun hs) (LiveAction.By c) := by
    refine fair_of_run hs fun a ha => ?_
    rcases hconn a ha with h | h
    · rw [h]
      exact hstuck.1
    · rw [h]
      exact hstuck.2
  have hpatient : Patient (Behavior.ofRun hs) 1 := patient_ofRun hs (by decide) 1
  have hobs := Behavior.observe_ofRun hs (k := 20)
    (f := fun s => ((s.base.addressed 1).map Broadcast.message, (s.base.threads 1).pc))
    (b := ([{ tag := tagDelivery, data := str "hall:bob:hi" }], .receiver .dequeue))
    (by decide +kernel)
  rw [Prod.mk.injEq] at hobs
  obtain ⟨m, hm, hend⟩ := broadcasts_delivered hfair hpatient (n := 20) (by rw [hobs.2]; rfl)
  rw [hobs.1] at hend
  exact ⟨Behavior.ofRun hs, hobs.1, m, hm, hend⟩

end ChatServer
