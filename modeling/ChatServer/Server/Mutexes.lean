import Mathlib.Data.Fintype.Order
import ChatServer.Lib.LockOrder
import ChatServer.MessageQueue
import ChatServer.Server.Locks

/-!
# Mutexes and semaphores

The server at the grain of its synchronization.  The calls that one step of
{lit}`Server.Step` performs at once are taken apart here: the lock and the unlock
of {lit}`Server::m_lock`, of {lit}`Room::lock` and of {lit}`MessageQueue::m_lock`
are steps of their own, and so are the wait and the post of the semaphore of a
queue.  The effect of a call on the data takes place in its critical section, and
there the call of {lit}`Server.Step` is performed.

Main results:

- Definition {lit}`fineServer`: the server with its mutexes and semaphores.
- Theorem {lit}`fine_refines`: what it does to the data, the server of
  {lit}`Server.Step` can do.
- Theorems {lit}`FineState.run_of_owned` and {lit}`FineState.run_of_free`: the next
  step of a thread that wants a mutex is to take it, once it has no owner.
- Theorem {lit}`no_deadlock`: no set of threads is deadlocked, and threads outside
  of the six operations with mutexes hold none.

Current gaps:

- Mutexes and semaphores are taken to be initialized; {lit}`sem_post` does not fail.
-/

namespace ChatServer

open Function LockOrder

/-! ## The fine-grained server -/

/-- {lit}`Server::m_lock`, {lit}`Room::lock` and {lit}`MessageQueue::m_lock`. -/
inductive Mutex where
  | server
  | room (r : RoomPtr)
  | queue (user : ConnId)
deriving DecidableEq

/-- How far a thread is inside the call that it is about to perform, or has just
performed.  It is in the critical section of a mutex, before or after the effect
of the call; in {lit}`enqueue` for a member that it visits, before the lock, before
the push, before the unlock or before the post; or in {lit}`dequeue`, at the wait
or between the wait and the lock. -/
inductive Inside where
  | outside
  | critical (m : Mutex)
  | unlock (m : Mutex)
  | enqueue (user : ConnId)
  | push (user : ConnId)
  | pushed (user : ConnId)
  | post (user : ConnId)
  | wait
  | lockQueue
deriving DecidableEq

/-- The server, how far its threads are inside their calls, the owners of the
mutexes, and the values of the semaphores of the queues. -/
structure FineState where
  base : State := {}
  inside : ConnId → Inside := fun _ => .outside
  owner : Mutex → Option ConnId := fun _ => none
  avail : ConnId → Nat := fun _ => 0

namespace FineState

/-- The thread comes to another place inside of its call. -/
def move (s : FineState) (c : ConnId) (next : Inside) : FineState :=
  { s with inside := update s.inside c next }

/-- {lit}`pthread_mutex_lock`; {lit}`none` while the mutex has an owner. -/
def lock (s : FineState) (c : ConnId) (m : Mutex) (next : Inside) : Option FineState :=
  if s.owner m = none then
    some { s.move c next with owner := update s.owner m (some c) }
  else none

/-- {lit}`pthread_mutex_unlock`. -/
def unlock (s : FineState) (c : ConnId) (m : Mutex) (next : Inside) : FineState :=
  { s.move c next with owner := update s.owner m none }

/-- The effect of the call on the data. -/
def perform (s : FineState) (c : ConnId) (env : Env) (next : Inside) : Option FineState :=
  (server.step s.base (.run c env)).map fun base => { s.move c next with base := base }

/-- The next step of a thread that is not inside of a call yet. -/
def begin (s : FineState) (c : ConnId) (env : Env) : Op → Option FineState
  | .findOrCreateRoom _ _ => s.lock c .server (.critical .server)
  | .addMember r _ => s.lock c (.room r) (.critical (.room r))
  | .removeMember r _ => s.lock c (.room r) (.critical (.room r))
  -- the mutex of a broadcast is held while its members are visited
  | .lockRoom r _ _ _ => (s.lock c (.room r) .outside).bind fun t => t.perform c env .outside
  | .visitMember _ senderUsername _ rest _ =>
      if env.pick ∈ rest ∧ (s.base.users env.pick).username ≠ senderUsername then
        some (s.move c (.enqueue env.pick))
      else s.perform c env .outside
  | .unlockRoom r _ => (s.perform c env .outside).map fun t => t.unlock c (.room r) .outside
  -- a dequeue returns when the clock cannot be read
  | .dequeue _ => if env.timeout then s.perform c env .outside else some (s.move c .wait)
  | .newUser _ _ =>
      (s.perform c env .outside).map fun t => { t with avail := update t.avail c 0 }
  | _ => s.perform c env .outside

/-- The next step of a thread. -/
def run (s : FineState) (c : ConnId) (env : Env) : Option FineState :=
  match s.inside c with
  | .outside => s.begin c env (code s.base c)
  | .critical m => s.perform c {} (.unlock m)
  | .unlock m => some (s.unlock c m .outside)
  | .enqueue user => s.lock c (.queue user) (.push user)
  | .push user => s.perform c { pick := user } (.pushed user)
  | .pushed user => some (s.unlock c (.queue user) (.post user))
  | .post user =>
      some { s.move c .outside with avail := update s.avail user (s.avail user + 1) }
  | .wait =>
      if env.timeout then s.perform c env .outside
      else if s.avail c = 0 then none
      else some { s.move c .lockQueue with avail := update s.avail c (s.avail c - 1) }
  | .lockQueue => s.lock c (.queue c) (.critical (.queue c))

end FineState

/-- One step of the fine-grained server. -/
def fineStep (s : FineState) : Action → Option FineState
  | .accept c reads ending =>
      (server.step s.base (.accept c reads ending)).map fun base => { s with base := base }
  | .run c env => s.run c env

/-- The server with the locks and unlocks of its mutexes as steps of their own. -/
def fineServer : TransitionSystem FineState Action where
  init := {}
  step := fineStep

/-! ## Refinement -/

/-- The effect of a call is the step of the base server. -/
theorem FineState.base_of_perform {s s' : FineState} {c : ConnId} {env : Env} {next : Inside}
    (h : s.perform c env next = some s') :
    server.step s.base (.run c env) = some s'.base := by
  rcases Option.map_eq_some_iff.mp h with ⟨base, hbase, rfl⟩
  exact hbase

/-- What a performed call does to the data, what the thread asked for, and that the
other threads stay where they are. -/
theorem FineState.performed_of_perform {s s' : FineState} {c : ConnId} {env : Env}
    {next : Inside} {op : Op} (hcode : code s.base c = op) (h : s.perform c env next = some s') :
    Performed s.base c op s'.base ∧ op.Role (s.base.threads c) (s.base.users c) ∧
      ∀ d, d ≠ c → s'.base.threads d = s.base.threads d := by
  have hstep := base_of_perform h
  subst op
  exact ⟨ChatServer.performed_of_perform hstep, code_role s.base c,
    fun d hdc => (step_other hstep (Ne.symm hdc)).1⟩

/-- Taking a lock changes nothing of the base server. -/
theorem FineState.base_of_lock {s s' : FineState} {c : ConnId} {m : Mutex} {next : Inside}
    (h : s.lock c m next = some s') : s'.base = s.base := by
  unfold lock at h
  split at h <;> cases h
  rfl

/-- A step of a thread that is not inside of a call performs the call or does nothing
to the data. -/
theorem FineState.base_of_begin {s s' : FineState} {c : ConnId} {env : Env} {op : Op}
    (h : s.begin c env op = some s') :
    s'.base = s.base ∨ server.step s.base (.run c env) = some s'.base := by
  cases op with
  | findOrCreateRoom name k => exact .inl (base_of_lock h)
  | addMember r k => exact .inl (base_of_lock h)
  | removeMember r k => exact .inl (base_of_lock h)
  | lockRoom r name text k =>
      rcases Option.bind_eq_some_iff.mp h with ⟨t, hlock, hperform⟩
      rw [← base_of_lock hlock]
      exact .inr (base_of_perform hperform)
  | visitMember r name text rest k =>
      simp only [begin] at h
      split at h
      · cases h
        exact .inl rfl
      · exact .inr (base_of_perform h)
  | unlockRoom r k =>
      rcases Option.map_eq_some_iff.mp h with ⟨t, hperform, rfl⟩
      have hbase := base_of_perform hperform
      exact .inr hbase
  | dequeue k =>
      simp only [begin] at h
      split at h
      · exact .inr (base_of_perform h)
      · cases h
        exact .inl rfl
  | newUser username k =>
      rcases Option.map_eq_some_iff.mp h with ⟨t, hperform, rfl⟩
      have hbase := base_of_perform hperform
      exact .inr hbase
  | halt => exact .inr (base_of_perform h)
  | receive msg k => exact .inr (base_of_perform h)
  | send msg k => exact .inr (base_of_perform h)

/-- A fine-grained step is a step of the server, or does nothing to the data. -/
theorem fineStep_base {s s' : FineState} {a : Action} (h : fineServer.step s a = some s') :
    s'.base = s.base ∨ ∃ b, server.step s.base b = some s'.base := by
  cases a with
  | accept c reads ending =>
      rcases Option.map_eq_some_iff.mp h with ⟨base, hbase, rfl⟩
      exact .inr ⟨_, hbase⟩
  | run c env =>
      simp only [fineServer, fineStep, FineState.run] at h
      split at h
      · exact (FineState.base_of_begin h).imp_right fun hstep => ⟨_, hstep⟩
      · exact .inr ⟨_, FineState.base_of_perform h⟩
      · cases h
        exact .inl rfl
      · exact .inl (FineState.base_of_lock h)
      · exact .inr ⟨_, FineState.base_of_perform h⟩
      · cases h
        exact .inl rfl
      · cases h
        exact .inl rfl
      · split at h
        · exact .inr ⟨_, FineState.base_of_perform h⟩
        · split at h <;> cases h
          exact .inl rfl
      · exact .inl (FineState.base_of_lock h)

/-- The data of a reachable fine-grained state is a reachable state of the server. -/
theorem fine_refines {s : FineState} (hs : fineServer.Reachable s) :
    server.Reachable s.base :=
  hs.refines (f := FineState.base) rfl fun _ _ _ _ hstep => fineStep_base hstep

/-! ## What a thread holds -/

/-- The mutex of the critical section that a thread is in. -/
def Inside.mutex : Inside → Option Mutex
  | .critical m | .unlock m => some m
  | .push user | .pushed user => some (.queue user)
  | _ => none

/-- A thread holds the mutex of the critical section that it is in, and the one of
the room that it is broadcasting in. -/
def FineState.Holds (s : FineState) (c : ConnId) (m : Mutex) : Prop :=
  (s.inside c).mutex = some m ∨ ∃ r, m = .room r ∧ (s.base.threads c).Broadcasting r

/-- The mutex that the next step of a thread takes. -/
def FineState.wants (s : FineState) (c : ConnId) : Option Mutex :=
  match s.inside c with
  | .outside =>
      match code s.base c with
      | .findOrCreateRoom _ _ => some .server
      | .addMember r _ | .removeMember r _ | .lockRoom r _ _ _ => some (.room r)
      | _ => none
  | .enqueue user => some (.queue user)
  | .lockQueue => some (.queue c)
  | _ => none

/-- The thread is in none of {lit}`find_or_create_room`, {lit}`add_member`,
{lit}`remove_member`, {lit}`broadcast_message`, {lit}`enqueue` and
{lit}`dequeue`. -/
def FineState.Outside (s : FineState) (c : ConnId) : Prop :=
  s.inside c = .outside ∧ (s.base.threads c).pc.visiting = none

/-- A control point from which no part of a broadcast is performed. -/
def Pc.Silent (pc : Pc) : Prop :=
  pc.visiting = none ∧ pc ≠ .sender .broadcast

/-- The control points at which a thread can be inside of a call. -/
def Inside.Fits (pc : Pc) : Inside → Prop
  | .outside => True
  | .critical _ | .wait | .lockQueue => pc.Silent
  | .unlock _ => pc.visiting = none
  | .enqueue user | .push user => ∃ rest, pc.visiting = some rest ∧ user ∈ rest
  | .pushed _ | .post _ => pc.visiting ≠ none

/-- A thread with nobody to visit does not broadcast. -/
theorem Thread.not_broadcasting {t : Thread} (h : t.pc.visiting = none) (r : RoomPtr) :
    ¬ t.Broadcasting r := by
  rintro ⟨-, rest, hpc⟩
  rw [hpc] at h
  cases h

/-- At the start of a broadcast nothing else is called. -/
theorem Thread.code_broadcast {t : Thread} (hpc : t.pc = .sender .broadcast) (user : User)
    (getRoomName : RoomPtr → Bytes) :
    t.code user getRoomName = .halt ∨
      ∃ r name text k, t.code user getRoomName = .lockRoom r name text k := by
  rw [code_sender hpc, chatWithSender]
  cases t.room with
  | none => exact .inl rfl
  | some r => exact .inr ⟨r, _, _, _, rfl⟩

/-- A thread that takes a step has not returned. -/
theorem code_ne_halt {s s' : State} {c : ConnId} {env : Env}
    (hstep : server.step s (.run c env) = some s') : code s c ≠ .halt := by
  intro hhalt
  have hperf := performed_of_perform hstep
  rw [hhalt] at hperf
  cases hperf

/-- A thread that has members to visit visits one of them. -/
theorem code_visit {s : State} {c u : ConnId} {rest : Finset ConnId}
    (hvisiting : (s.threads c).pc.visiting = some rest) (hu : u ∈ rest)
    (hhalt : code s c ≠ .halt) :
    ∃ r name text k, code s c = .visitMember r name text rest k := by
  have hpc : (s.threads c).pc = .sender (.visit rest) := by
    unfold Pc.visiting at hvisiting
    split at hvisiting
    · rename_i hpc
      rw [hpc, Option.some.inj hvisiting]
    · cases hvisiting
  rw [code, Thread.code_sender hpc, chatWithSender] at hhalt ⊢
  cases hroom : (s.threads c).room with
  | none =>
      rw [hroom] at hhalt
      exact absurd rfl hhalt
  | some r =>
      rw [deref, if_neg (Finset.ne_empty_of_mem hu)]
      exact ⟨r, _, _, _, rfl⟩

/-- Calls that are no part of a broadcast. -/
def Op.Silent : Op → Prop
  | .lockRoom _ _ _ _ | .visitMember _ _ _ _ _ | .unlockRoom _ _ => False
  | _ => True

/-- The calls at the silent control points are silent. -/
theorem Op.Role.silent {t : Thread} {user : User} {op : Op} (h : op.Role t user)
    (hpc : t.pc.Silent) : op.Silent := by
  cases op with
  | lockRoom r name text k => exact hpc.2 h.1
  | visitMember r name text rest k =>
      have hvisiting := hpc.1
      rw [h.1] at hvisiting
      cases hvisiting
  | unlockRoom r k =>
      have hvisiting := hpc.1
      rw [h.1] at hvisiting
      cases hvisiting
  | _ => exact trivial

/-- A silent call is quiet. -/
theorem Performed.quiet {s s' : State} {c : ConnId} {op : Op} (h : Performed s c op s')
    (hop : op.Role (s.threads c) (s.users c)) (hsilent : op.Silent) :
    (s.threads c).Quiet (s'.threads c) := by
  have hthread : ∀ {s₁ : State} {t : Thread} {e : Event},
      (s.threads c).Quiet t → (s.threads c).Quiet ((s₁.resume c t e).threads c) := by
    intro s₁ t e ht
    rwa [State.resume_threads, update_self]
  cases h with
  | receive msg k => exact hthread (hop _ _ _)
  | send msg k writes => exact hthread (hop _)
  | newUser username k => exact hthread hop.2
  | found name k r hroom => exact hthread (hop r)
  | newRoom name k hroom => exact hthread (hop _)
  | added r k hlock => exact hthread hop
  | removed r k hlock => exact hthread hop
  | locked r name text k hlock => exact absurd hsilent id
  | visited r name text rest k u hu => exact absurd hsilent id
  | unlocked r k => exact absurd hsilent id
  | timedOut k => exact hthread (hop.2 _)
  | dequeued k m mqueue hqueue => exact hthread (hop.2 _)

/-- A thread that broadcasts has an answer pending. -/
theorem Pc.visiting_of_unanswered {pc : Pc} (h : pc.unanswered = none) : pc.visiting = none := by
  cases hvisiting : pc.visiting with
  | none => rfl
  | some rest =>
      rw [Pc.unanswered_of_visiting hvisiting] at h
      cases h

/-! ## The owners of the mutexes -/

/-- Threads are where they can be inside of their calls, and the owner of a mutex is
the thread that holds it. -/
structure FineInvariant (s : FineState) : Prop where
  fits : ∀ c, (s.inside c).Fits (s.base.threads c).pc
  owned : Owned s.owner s.Holds

namespace FineInvariant

variable {s s' : FineState} {c : ConnId} {m : Mutex} {next : Inside} {env : Env}

/-- The other threads fit and hold what they did before. -/
private theorem fits_update (h : FineInvariant s) (hinside : s'.inside = update s.inside c next)
    (hthreads : ∀ d, d ≠ c → s'.base.threads d = s.base.threads d)
    (hnext : next.Fits (s'.base.threads c).pc) (d : ConnId) :
    (s'.inside d).Fits (s'.base.threads d).pc := by
  rw [hinside]
  by_cases hdc : d = c
  · subst d
    rwa [update_self]
  · rw [update_of_ne hdc, hthreads d hdc]
    exact h.fits d

/-- A thread that is at the same place holds the same mutex. -/
private theorem holds_of_same {d : ConnId} (hinside : s'.inside d = s.inside d)
    (hthread : s'.base.threads d = s.base.threads d) : s'.Holds d m ↔ s.Holds d m := by
  rw [FineState.Holds, FineState.Holds, hinside, hthread]

/-- A thread moves inside of its call without a mutex. -/
theorem move (h : FineInvariant s) (hmutex : next.mutex = (s.inside c).mutex)
    (hnext : next.Fits (s.base.threads c).pc) : FineInvariant (s.move c next) where
  fits := h.fits_update rfl (fun _ _ => rfl) hnext
  owned := by
    refine h.owned.congr fun d m => ?_
    by_cases hdc : d = c
    · subst d
      simp [FineState.Holds, FineState.move, hmutex]
    · exact holds_of_same (update_of_ne hdc _ _) rfl

/-- A thread takes the mutex of a critical section. -/
theorem lock (h : FineInvariant s) (hlock : s.lock c m next = some s')
    (hbefore : (s.inside c).mutex = none) (hafter : next.mutex = some m)
    (hnext : next.Fits (s.base.threads c).pc) : FineInvariant s' := by
  unfold FineState.lock at hlock
  split at hlock <;> rename_i hfree <;> cases hlock
  refine ⟨h.fits_update rfl (fun _ _ => rfl) hnext, h.owned.acquire hfree (fun m' => ?_) ?_⟩
  · simp [FineState.Holds, FineState.move, hbefore, hafter, or_comm, eq_comm]
  · exact fun d hdc m' => holds_of_same (update_of_ne hdc _ _) rfl

/-- A thread releases the mutex of its critical section. -/
theorem unlock (h : FineInvariant s) (hbefore : (s.inside c).mutex = some m)
    (hafter : next.mutex = none) (hnext : next.Fits (s.base.threads c).pc)
    (hroom : ∀ r, (s.base.threads c).Broadcasting r → m ≠ .room r) :
    FineInvariant (s.unlock c m next) := by
  refine ⟨h.fits_update rfl (fun _ _ => rfl) hnext, ?_⟩
  refine h.owned.release (.inl hbefore) (fun m' => ?_) ?_
  · simp only [FineState.Holds, FineState.unlock, FineState.move, update_self, hbefore, hafter,
      reduceCtorEq, false_or, Option.some.injEq]
    constructor
    · rintro ⟨r, rfl, hin⟩
      exact ⟨.inr ⟨r, rfl, hin⟩, Ne.symm (hroom r hin)⟩
    · rintro ⟨heq | hin, hne⟩
      · exact absurd heq.symm hne
      · exact hin
  · exact fun d hdc m' => holds_of_same (update_of_ne hdc _ _) rfl

/-- A thread performs a call without effect on broadcasts. -/
theorem perform (h : FineInvariant s) (hs : (code s.base c).Silent)
    (hperform : s.perform c env next = some s')
    (hmutex : next.mutex = (s.inside c).mutex)
    (hnext : ∀ pc : Pc, pc.visiting = none → next.Fits pc) : FineInvariant s' := by
  rcases FineState.performed_of_perform rfl hperform with ⟨hperf, hrole, hthreads⟩
  have hquiet := hperf.quiet hrole hs
  have hafter := Pc.visiting_of_unanswered hquiet.unanswered
  rcases Option.map_eq_some_iff.mp hperform with ⟨base, -, rfl⟩
  refine ⟨h.fits_update rfl hthreads (hnext _ hafter), h.owned.congr fun d m => ?_⟩
  by_cases hdc : d = c
  · subst d
    simp [FineState.Holds, FineState.move, hmutex, Thread.not_broadcasting hquiet.visiting,
      Thread.not_broadcasting hafter]
  · exact holds_of_same (update_of_ne hdc _ _) (hthreads d hdc)

/-- A thread visits a member. -/
theorem visit (h : FineInvariant s) {r : RoomPtr} {name text : Bytes} {rest : Finset ConnId}
    {k : ConnId → Thread} (hcode : code s.base c = .visitMember r name text rest k)
    (hperform : s.perform c env next = some s')
    (hmutex : next.mutex = (s.inside c).mutex)
    (hnext : ∀ pc : Pc, pc.visiting ≠ none → next.Fits pc) : FineInvariant s' := by
  rcases FineState.performed_of_perform hcode hperform with
    ⟨hperf, ⟨hpc, hroom, -, -, hk⟩, hthreads⟩
  have hthread : ∃ u, s'.base.threads c =
      (s.base.threads c).goto (.sender (.visit (rest.erase u))) := by
    generalize s'.base = base at hperf
    cases hperf with
    | visited _ _ _ _ _ u _ => exact ⟨u, by simp [hk]⟩
  rcases hthread with ⟨u, hthread⟩
  have hsame : ∀ q, (s'.base.threads c).Broadcasting q ↔ (s.base.threads c).Broadcasting q := by
    intro q
    simp [hthread, Thread.Broadcasting, Thread.goto, hpc]
  have hvisiting : (s'.base.threads c).pc.visiting ≠ none := by
    simp [hthread, Thread.goto, Pc.visiting]
  rcases Option.map_eq_some_iff.mp hperform with ⟨base, -, rfl⟩
  refine ⟨h.fits_update rfl hthreads (hnext _ hvisiting), h.owned.congr fun d m => ?_⟩
  by_cases hdc : d = c
  · subst d
    simp only [FineState.Holds, hsame]
    simp [FineState.move, hmutex]
  · exact holds_of_same (update_of_ne hdc _ _) (hthreads d hdc)

/-- A thread starts a broadcast. -/
theorem startBroadcast (h : FineInvariant s) {t : FineState} {r : RoomPtr} {name text : Bytes}
    {k : Finset ConnId → Thread} (hcode : code s.base c = .lockRoom r name text k)
    (hinside : s.inside c = .outside) (hlock : s.lock c (.room r) .outside = some t)
    (hperform : t.perform c env .outside = some s') : FineInvariant s' := by
  have hbase := FineState.base_of_lock hlock
  rcases FineState.performed_of_perform (hbase ▸ hcode) hperform with ⟨hperf, hrole, hthreads⟩
  rw [hbase] at hperf hrole hthreads
  rcases hrole with ⟨hpc, hroom, -, -, hk⟩
  have hthread : ∃ members, s'.base.threads c =
      (s.base.threads c).goto (.sender (.visit members)) := by
    generalize s'.base = base at hperf
    cases hperf with
    | locked _ _ _ _ _ => exact ⟨(s.base.rooms r).members, by simp [hk]⟩
  rcases hthread with ⟨members, hthread⟩
  have hnot : ∀ q, ¬ (s.base.threads c).Broadcasting q :=
    Thread.not_broadcasting (by rw [hpc]; rfl)
  have hnow : ∀ q, (s'.base.threads c).Broadcasting q ↔ r = q := by
    intro q
    simp [hthread, Thread.Broadcasting, Thread.goto, hroom]
  unfold FineState.lock at hlock
  split at hlock <;> rename_i hfree <;> cases hlock
  rcases Option.map_eq_some_iff.mp hperform with ⟨base, -, rfl⟩
  have hmove : update (update s.inside c .outside) c .outside = s.inside := by
    rw [update_idem, ← hinside, update_eq_self]
  refine ⟨fun d => ?_, h.owned.acquire hfree (fun m' => ?_) fun d hdc m' => ?_⟩
  · simp only [FineState.move, hmove]
    by_cases hdc : d = c
    · subst d
      rw [hinside]
      exact trivial
    · rw [hthreads d hdc]
      exact h.fits d
  · simp only [FineState.Holds, hnow, hnot]
    simp [FineState.move, hinside, Inside.mutex]
  · exact holds_of_same (by simp only [FineState.move, hmove]) (hthreads d hdc)

/-- A thread ends a broadcast. -/
theorem endBroadcast (h : FineInvariant s) {t : FineState} {r : RoomPtr} {k : Thread}
    (hcode : code s.base c = .unlockRoom r k) (hinside : s.inside c = .outside)
    (hperform : s.perform c env .outside = some t) :
    FineInvariant (t.unlock c (.room r) .outside) := by
  rcases FineState.performed_of_perform hcode hperform with ⟨hperf, ⟨hpc, hroom, hk⟩, hthreads⟩
  have hthread : t.base.threads c = (s.base.threads c).goto (.sender .sent) := by
    generalize t.base = base at hperf
    cases hperf with
    | unlocked _ _ => simp [hk]
  have hbefore : (s.base.threads c).Broadcasting r := ⟨hroom, ∅, hpc⟩
  have hnot : ∀ q, ¬ (t.base.threads c).Broadcasting q :=
    Thread.not_broadcasting (by rw [hthread]; rfl)
  rcases Option.map_eq_some_iff.mp hperform with ⟨base, -, rfl⟩
  have hmove : update (update s.inside c .outside) c .outside = s.inside := by
    rw [update_idem, ← hinside, update_eq_self]
  refine ⟨fun d => ?_, h.owned.release (.inr ⟨r, rfl, hbefore⟩) (fun m' => ?_) fun d hdc m' => ?_⟩
  · simp only [FineState.unlock, FineState.move, hmove]
    by_cases hdc : d = c
    · subst d
      rw [hinside]
      exact trivial
    · have hd := h.fits d
      rwa [← hthreads d hdc] at hd
  · have hroomeq : ∀ q, (s.base.threads c).Broadcasting q → q = r := by
      rintro q ⟨hq, -⟩
      rw [hroom, Option.some.injEq] at hq
      exact hq.symm
    simp only [FineState.Holds, FineState.unlock, FineState.move, hmove, hinside, Inside.mutex,
      reduceCtorEq, false_or]
    constructor
    · rintro ⟨q, -, hq⟩
      exact absurd hq (hnot q)
    · rintro ⟨⟨q, rfl, hq⟩, hne⟩
      exact absurd (congrArg Mutex.room (hroomeq q hq)) hne
  · exact holds_of_same (by simp only [FineState.unlock, FineState.move, hmove]) (hthreads d hdc)

/-- The semaphores do not matter to the invariant. -/
theorem avail (h : FineInvariant s) (avail : ConnId → ℕ) :
    FineInvariant { s with avail := avail } :=
  ⟨h.fits, h.owned⟩

/-- Away from broadcasts the control point of a silent call is silent. -/
private theorem silent_of_code (hsilent : (code s.base c).Silent)
    (hhalt : code s.base c ≠ .halt)
    (hquiet : (s.base.threads c).pc.visiting = none) : (s.base.threads c).pc.Silent := by
  refine ⟨hquiet, fun hpc => ?_⟩
  rcases Thread.code_broadcast hpc (s.base.users c) (fun r => (s.base.rooms r).roomName) with
    hcode | ⟨r, name, text, k, hcode⟩
  · exact hhalt hcode
  · rw [code, hcode] at hsilent
    exact hsilent

/-- The first step of a call. -/
theorem begin (h : FineInvariant s) (hinside : s.inside c = .outside)
    (hstep : s.begin c env (code s.base c) = some s') : FineInvariant s' := by
  have hmutex : (s.inside c).mutex = none := by rw [hinside]; rfl
  have hrole := code_role s.base c
  have hother : (code s.base c).Silent → s.perform c env .outside = some s' →
      FineInvariant s' := fun hsilent hperform =>
    h.perform hsilent hperform hmutex.symm fun _ _ => trivial
  cases hcode : code s.base c with
  | halt => exact hother (by rw [hcode]; exact trivial) (by rwa [hcode] at hstep)
  | receive msg k => exact hother (by rw [hcode]; exact trivial) (by rwa [hcode] at hstep)
  | send msg k => exact hother (by rw [hcode]; exact trivial) (by rwa [hcode] at hstep)
  | newUser username k =>
      rw [hcode] at hstep
      rcases Option.map_eq_some_iff.mp hstep with ⟨t, hperform, rfl⟩
      refine FineInvariant.avail (s := t) ?_ _
      exact h.perform (by rw [hcode]; exact trivial) hperform hmutex.symm fun _ _ => trivial
  | findOrCreateRoom name k =>
      rw [hcode] at hstep hrole
      refine h.lock hstep hmutex rfl ?_
      exact silent_of_code (by rw [hcode]; exact trivial) (by simp [hcode]) (hrole 0).visiting
  | addMember r k =>
      rw [hcode] at hstep hrole
      refine h.lock hstep hmutex rfl ?_
      exact silent_of_code (by rw [hcode]; exact trivial) (by simp [hcode]) hrole.visiting
  | removeMember r k =>
      rw [hcode] at hstep hrole
      refine h.lock hstep hmutex rfl ?_
      exact silent_of_code (by rw [hcode]; exact trivial) (by simp [hcode]) hrole.visiting
  | lockRoom r name text k =>
      rw [hcode] at hstep
      rcases Option.bind_eq_some_iff.mp hstep with ⟨t, hlock, hperform⟩
      exact h.startBroadcast hcode hinside hlock hperform
  | visitMember r name text rest k =>
      rw [hcode] at hstep hrole
      simp only [FineState.begin] at hstep
      split at hstep
      · rename_i hpick
        cases hstep
        refine h.move hmutex.symm ⟨rest, ?_, hpick.1⟩
        rw [hrole.1]
        rfl
      · exact h.visit hcode hstep hmutex.symm fun _ _ => trivial
  | unlockRoom r k =>
      rw [hcode] at hstep
      rcases Option.map_eq_some_iff.mp hstep with ⟨t, hperform, rfl⟩
      exact h.endBroadcast hcode hinside hperform
  | dequeue k =>
      rw [hcode] at hstep hrole
      simp only [FineState.begin] at hstep
      split at hstep
      · exact hother (by rw [hcode]; exact trivial) hstep
      · cases hstep
        refine h.move hmutex.symm ?_
        exact silent_of_code (by rw [hcode]; exact trivial) (by simp [hcode])
          (hrole.2 none).visiting

/-- A step of a thread. -/
theorem run (h : FineInvariant s) (hstep : s.run c env = some s') : FineInvariant s' := by
  have hfits := h.fits c
  have hrole := code_role s.base c
  unfold FineState.run at hstep
  cases hinside : s.inside c with
  | outside =>
      simp only [hinside] at hstep
      exact h.begin hinside hstep
  | critical m =>
      simp only [hinside] at hstep
      rw [hinside] at hfits
      exact h.perform (hrole.silent hfits) hstep (by rw [hinside]; rfl) fun _ hpc => hpc
  | unlock m =>
      simp only [hinside] at hstep
      rw [hinside] at hfits
      cases hstep
      refine h.unlock (by rw [hinside]; rfl) rfl trivial fun r hin => ?_
      exact absurd hin (Thread.not_broadcasting hfits r)
  | enqueue user =>
      simp only [hinside] at hstep
      rw [hinside] at hfits
      exact h.lock hstep (by rw [hinside]; rfl) rfl hfits
  | push user =>
      simp only [hinside] at hstep
      rw [hinside] at hfits
      rcases hfits with ⟨rest, hrest, huser⟩
      have hhalt := code_ne_halt (FineState.base_of_perform hstep)
      rcases code_visit (s := s.base) hrest huser hhalt with ⟨r, name, text, k, hcode⟩
      exact h.visit hcode hstep (by rw [hinside]; rfl) fun _ hpc => hpc
  | pushed user =>
      simp only [hinside] at hstep
      rw [hinside] at hfits
      cases hstep
      exact h.unlock (by rw [hinside]; rfl) rfl hfits fun r _ => by simp
  | post user =>
      simp only [hinside] at hstep
      cases hstep
      have hmove : FineInvariant (s.move c .outside) := h.move (by rw [hinside]; rfl) trivial
      exact hmove.avail _
  | wait =>
      simp only [hinside] at hstep
      rw [hinside] at hfits
      split at hstep
      · exact h.perform (hrole.silent hfits) hstep (by rw [hinside]; rfl) fun _ _ => trivial
      · split at hstep <;> cases hstep
        have hmove : FineInvariant (s.move c .lockQueue) :=
          h.move (by rw [hinside]; rfl) hfits
        exact hmove.avail _
  | lockQueue =>
      simp only [hinside] at hstep
      rw [hinside] at hfits
      exact h.lock hstep (by rw [hinside]; rfl) rfl hfits

/-- The arrival of a connection. -/
theorem accept (h : FineInvariant s) {reads : List ReadResult} {ending : StreamEnd} {base : State}
    (hstep : server.step s.base (.accept c reads ending) = some base) :
    FineInvariant { s with base := base } := by
  rcases accept_step hstep with ⟨habsent, rfl⟩
  have hnot : ∀ q, ¬ (s.base.threads c).Broadcasting q :=
    Thread.not_broadcasting (by rw [habsent]; rfl)
  refine ⟨fun d => ?_, h.owned.congr fun d m => ?_⟩
  · by_cases hdc : d = c
    · subst d
      have hfits := h.fits c
      rw [habsent] at hfits
      simp only [State.accept_threads, update_self]
      cases hinside : s.inside c with
      | outside => exact trivial
      | critical m => exact ⟨rfl, by simp⟩
      | unlock m => exact rfl
      | enqueue user =>
          rw [hinside] at hfits
          rcases hfits with ⟨rest, hrest, -⟩
          cases hrest
      | push user =>
          rw [hinside] at hfits
          rcases hfits with ⟨rest, hrest, -⟩
          cases hrest
      | pushed user =>
          rw [hinside] at hfits
          exact absurd rfl hfits
      | post user =>
          rw [hinside] at hfits
          exact absurd rfl hfits
      | wait => exact ⟨rfl, by simp⟩
      | lockQueue => exact ⟨rfl, by simp⟩
    · simpa only [State.accept_threads, update_of_ne hdc] using h.fits d
  · by_cases hdc : d = c
    · subst d
      have hnow : ∀ q, ¬ ({ pc := .worker .receive } : Thread).Broadcasting q :=
        Thread.not_broadcasting rfl
      simp only [FineState.Holds, hnot, State.accept_threads, update_self, hnow]
    · exact holds_of_same rfl (by simp [hdc])

end FineInvariant

/-- The invariant holds in every reachable state. -/
theorem reachable_fineInvariant {s : FineState} (hs : fineServer.Reachable s) :
    FineInvariant s := by
  refine hs.invariant ?_ fun s a s' _ hstep h => ?_
  · refine ⟨fun c => trivial, fun c m => ?_⟩
    constructor
    · rintro ⟨⟩
    · rintro (hmutex | ⟨r, -, -, rest, hpc⟩)
      · cases hmutex
      · cases hpc
  · cases a with
    | accept c reads ending =>
        rcases Option.map_eq_some_iff.mp hstep with ⟨base, hbase, rfl⟩
        exact h.accept hbase
    | run c env => exact h.run hstep

/-! ## Freedom from deadlock -/

/-- The order of the mutexes: those of queues are taken last. -/
def Mutex.rank : Mutex → Fin 2
  | .server => 0
  | .room _ => 0
  | .queue _ => 1

/-- Away from broadcasts, a thread outside of critical sections holds no mutex. -/
theorem FineState.not_holds {s : FineState} {c : ConnId} {m : Mutex}
    (hmutex : (s.inside c).mutex = none) (hvisiting : (s.base.threads c).pc.visiting = none) :
    ¬ s.Holds c m := by
  rintro (hheld | ⟨r, -, hin⟩)
  · rw [hmutex] at hheld
    cases hheld
  · exact Thread.not_broadcasting hvisiting r hin

/-- No call at which a mutex is taken is a step of a broadcast, but the first. -/
theorem FineState.visiting_of_wants {s : FineState} {c : ConnId} {m : Mutex}
    (hinside : s.inside c = .outside) (hwants : s.wants c = some m) :
    (s.base.threads c).pc.visiting = none := by
  have hrole := code_role s.base c
  simp only [wants, hinside] at hwants
  cases hcode : code s.base c <;> rw [hcode] at hwants hrole <;> cases hwants
  case findOrCreateRoom => exact (hrole 0).visiting
  case addMember => exact hrole.visiting
  case removeMember => exact hrole.visiting
  case lockRoom =>
    rw [hrole.1]
    rfl

/-- A thread takes only mutexes that are above those it has. -/
theorem FineInvariant.rank_lt {s : FineState} (h : FineInvariant s) {c : ConnId} {m m' : Mutex}
    (hwants : s.wants c = some m) (howner : s.owner m' = some c) : m'.rank < m.rank := by
  have hholds := (h.owned c m').mp howner
  have hfits := h.fits c
  cases hinside : s.inside c with
  | outside =>
      have hvisiting := FineState.visiting_of_wants hinside hwants
      exact absurd hholds (FineState.not_holds (by rw [hinside]; rfl) hvisiting)
  | enqueue user =>
      simp only [FineState.wants, hinside] at hwants
      cases hwants
      rcases hholds with hmutex | ⟨r, rfl, -⟩
      · rw [hinside] at hmutex
        cases hmutex
      · exact Nat.zero_lt_one
  | lockQueue =>
      rw [hinside] at hfits
      exact absurd hholds (FineState.not_holds (by rw [hinside]; rfl) hfits.1)
  | _ =>
      simp only [FineState.wants, hinside] at hwants
      cases hwants

/-- The next step of a thread that wants a mutex takes it; at the start of a broadcast
the members are read in the same step. -/
theorem FineState.run_of_wants {s : FineState} {c : ConnId} {m : Mutex}
    (hwants : s.wants c = some m) (env : Env) :
    (∃ next, s.run c env = s.lock c m next) ∨
      ∃ r name text k, m = .room r ∧ code s.base c = .lockRoom r name text k ∧
        s.run c env = (s.lock c m .outside).bind fun t => t.perform c env .outside := by
  cases hinside : s.inside c with
  | outside =>
      simp only [wants, hinside] at hwants
      simp only [run, hinside]
      cases hcode : code s.base c with
      | findOrCreateRoom name k =>
          rw [hcode] at hwants
          cases hwants
          exact .inl ⟨_, rfl⟩
      | addMember r k =>
          rw [hcode] at hwants
          cases hwants
          exact .inl ⟨_, rfl⟩
      | removeMember r k =>
          rw [hcode] at hwants
          cases hwants
          exact .inl ⟨_, rfl⟩
      | lockRoom r name text k =>
          rw [hcode] at hwants
          cases hwants
          exact .inr ⟨r, name, text, k, rfl, rfl, rfl⟩
      | _ =>
          rw [hcode] at hwants
          cases hwants
  | enqueue user =>
      simp only [wants, hinside] at hwants
      cases hwants
      exact .inl ⟨_, by simp only [run, hinside]; rfl⟩
  | lockQueue =>
      simp only [wants, hinside] at hwants
      cases hwants
      exact .inl ⟨_, by simp only [run, hinside]; rfl⟩
  | _ =>
      simp only [wants, hinside] at hwants
      cases hwants

/-- A thread that wants a mutex with an owner is blocked. -/
theorem FineState.run_of_owned {s : FineState} {c : ConnId} {m : Mutex}
    (hwants : s.wants c = some m) (howner : s.owner m ≠ none) (env : Env) :
    s.run c env = none := by
  have hlock : ∀ next, s.lock c m next = none := fun next => if_neg howner
  rcases run_of_wants hwants env with ⟨next, hrun⟩ | ⟨r, name, text, k, -, -, hrun⟩
  · rw [hrun, hlock]
  · rw [hrun, hlock, Option.bind_none]

/-- A thread that wants a mutex without an owner takes it. -/
theorem FineState.run_of_free {s : FineState} (hs : fineServer.Reachable s) {c : ConnId}
    {m : Mutex} (hwants : s.wants c = some m) (howner : s.owner m = none) (env : Env) :
    ∃ s', s.run c env = some s' ∧ s'.owner m = some c := by
  have hlock : ∀ next, ∃ t, s.lock c m next = some t ∧ t.owner m = some c := fun next =>
    ⟨_, if_pos howner, update_self _ _ _⟩
  rcases run_of_wants hwants env with ⟨next, hrun⟩ | ⟨r, name, text, k, rfl, hcode, hrun⟩
  · rw [hrun]
    exact hlock next
  · have hfree : (s.base.rooms r).lock = none := by
      cases hroom : (s.base.rooms r).lock with
      | none => rfl
      | some d =>
          have hin := reachable_lock (fine_refines hs) hroom
          have hheld := ((reachable_fineInvariant hs).owned d _).mpr (.inr ⟨r, rfl, hin⟩)
          rw [howner] at hheld
          cases hheld
    rcases hlock .outside with ⟨t, ht, hown⟩
    have hbase : ∃ base, server.step t.base (.run c env) = some base := by
      rw [base_of_lock ht]
      simp only [server, step, hcode]
      exact ⟨_, if_pos hfree⟩
    rcases hbase with ⟨base, hbase⟩
    refine ⟨{ t.move c .outside with base := base }, ?_, hown⟩
    rw [hrun, ht, Option.bind_some, perform, hbase, Option.map_some]

/-- No set of threads is deadlocked, and a thread that is in none of the operations
with mutexes holds none. -/
theorem no_deadlock {s : FineState} (hs : fineServer.Reachable s) :
    (∀ threads : Set ConnId, ¬ Deadlocked s.owner s.wants threads) ∧
      ∀ c, s.Outside c → ∀ m, s.owner m ≠ some c := by
  have h := reachable_fineInvariant hs
  refine ⟨not_deadlocked_of_rank Mutex.rank fun c m m' => h.rank_lt, ?_⟩
  intro c houtside m howner
  have hmutex : (s.inside c).mutex = none := by rw [houtside.1]; rfl
  exact FineState.not_holds hmutex houtside.2 ((h.owned c m).mp howner)

/-- A second broadcast holds the room and waits for the queue of its receiver, which
is dequeuing the first message. -/
theorem no_deadlock_enqueue :
    ∃ s, fineServer.run fineServer.init
        (connect 0 (str "rlogin:alice\njoin:hall\n") :: serve 0 12 ++
          connect 1 (str "slogin:bob\njoin:hall\nsendall:hi\nsendall:hi\n") :: serve 1 18 ++
          .run 1 { pick := 1 } :: serve 1 5 ++ serve 0 2) = some s ∧
      (s.owner (.room 0) = some 1 ∧ s.wants 1 = some (.queue 0) ∧
        s.owner (.queue 0) = some 0) ∧
      (∀ threads : Set ConnId, ¬ Deadlocked s.owner s.wants threads) ∧
      ∀ c, s.Outside c → ∀ m, s.owner m ≠ some c := by
  have hrun : (fineServer.run fineServer.init
      (connect 0 (str "rlogin:alice\njoin:hall\n") :: serve 0 12 ++
        connect 1 (str "slogin:bob\njoin:hall\nsendall:hi\nsendall:hi\n") :: serve 1 18 ++
        .run 1 { pick := 1 } :: serve 1 5 ++ serve 0 2)).map
      (fun s => (s.owner (.room 0), s.wants 1, s.owner (.queue 0))) =
      some (some 1, some (.queue 0), some 0) := by
    decide +kernel
  rcases TransitionSystem.exists_reachable_of_run hrun with ⟨s, hs, hend, hreach⟩
  simp only [Prod.mk.injEq] at hend
  exact ⟨s, hs, hend, no_deadlock hreach⟩

end ChatServer
