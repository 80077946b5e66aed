import ChatServer.Server.Mutexes

/-!
# The semaphores of the queues

Between its enqueues and dequeues the fine-grained server uses the queue of each user
as {lit}`MessageQueue` says, so the counting invariant holds of every queue.  With it
nothing can block a thread but a mutex of somebody else.

Main results:

- Theorem {lit}`reachable_fineQueues`: the semaphore of every queue is accounted for.
- Theorem {lit}`mqueue_ne_nil`: {lit}`dequeue` never takes the front of an empty queue.
- Theorem {lit}`fine_progress`: a thread that has not returned can take its next step,
  or waits, through others, for one that can.

Current gaps:

- That a thread which waits for a mutex gets it needs fair scheduling.
-/

namespace ChatServer

open Function ThreadCount LockOrder

/-! ## Users that have logged in -/

/-- Users that have logged in stay so, under the same name. -/
theorem step_loggedIn {s s' : State} {a : Action} (hstep : server.step s a = some s')
    {u : ConnId} (h : (s.threads u).pc.loggedIn) :
    (s'.threads u).pc.loggedIn ∧ (s'.users u).username = (s.users u).username := by
  have hupdate : ∀ {c : ConnId} {t : Thread}, t.pc.loggedIn →
      (update s.threads c t u).pc.loggedIn := by
    intro c t ht
    by_cases huc : u = c
    · subst u
      rwa [update_self]
    · rwa [update_of_ne huc]
  cases step_kind hstep with
  | elsewhere c hc =>
      refine ⟨?_, hc.username u h⟩
      by_cases huc : u = c
      · subst u
        exact hc.quiet.loggedIn h
      · rwa [hc.threads u huc]
  | locks c r hc =>
      rw [hc.threads, hc.users]
      exact ⟨hupdate rfl, rfl⟩
  | visits c r rest v hc =>
      rw [hc.threads, hc.username]
      exact ⟨hupdate rfl, rfl⟩
  | unlocks c r hc =>
      rw [hc.threads, hc.users]
      exact ⟨hupdate rfl, rfl⟩

/-- Members that are being visited have logged in. -/
theorem loggedIn_of_visiting {s : State} (hs : server.Reachable s) {c u : ConnId}
    {rest : Finset ConnId} (h : (s.threads c).pc.visiting = some rest) (hu : u ∈ rest) :
    (s.threads u).pc.loggedIn := by
  have hlog := reachable_broadcastLog hs
  obtain ⟨b, hlatest, -, hserves⟩ := hlog.served c rest (Pc.unanswered_of_visiting h)
  exact hlog.loggedIn b hlatest.mem u (hlog.subset b hlatest.mem (hserves.rest ▸ hu))

/-! ## The mutex of a call -/

/-- The mutex of the critical section of a call. -/
def Op.mutex (c : ConnId) : Op → Option Mutex
  | .findOrCreateRoom _ _ => some .server
  | .addMember r _ | .removeMember r _ => some (.room r)
  | .dequeue _ => some (.queue c)
  | _ => none

/-- Which mutex it is depends only on the thread. -/
theorem Thread.mutex_code (t : Thread) (c : ConnId) (user user' : User)
    (getRoomName getRoomName' : RoomPtr → Bytes) :
    (t.code user getRoomName).mutex c = (t.code user' getRoomName').mutex c := by
  cases hpc : t.pc with
  | sender p =>
      rw [code_sender hpc, code_sender hpc]
      cases p with
      | switch | add | leave | left | broadcast | exit =>
          cases hroom : t.room <;> simp [chatWithSender, hroom, deref, Op.mutex]
      | visit rest =>
          cases hroom : t.room with
          | none => simp [chatWithSender, hroom, deref]
          | some r =>
              by_cases hrest : rest = ∅ <;>
                simp [chatWithSender, hroom, deref, hrest, Op.mutex]
      | _ => rfl
  | _ => simp [code, hpc]

/-- The mutex of a queue is taken by its own user's dequeue. -/
theorem Op.mutex_eq_queue {c u : ConnId} {op : Op} (h : op.mutex c = some (.queue u)) :
    c = u ∧ ∃ k, op = .dequeue k := by
  cases op with
  | dequeue k =>
      cases h
      exact ⟨rfl, k, rfl⟩
  | _ => cases h

/-- The mutex of the next call depends on the thread only. -/
theorem mutex_code {s s' : State} {c : ConnId} (h : s'.threads c = s.threads c) :
    (code s' c).mutex c = (code s c).mutex c := by
  rw [code, code, h]
  exact Thread.mutex_code _ _ _ _ _ _

/-! ## The queue of a user -/

/-- The queue of a user, with its semaphore. -/
def FineState.queue (s : FineState) (u : ConnId) : MessageQueue :=
  { mMessages := (s.base.users u).mqueue, mAvail := s.avail u }

/-- Where a thread is in the operations on the queue of {lit}`u`, as far as the
semaphore is concerned. -/
def Inside.queuePc (u c : ConnId) : Inside → QueuePc
  | .pushed v | .post v => if v = u then .post else .idle
  | .lockQueue => if c = u then .pop else .idle
  | .critical m => if m = .queue u then .pop else .idle
  | _ => .idle

/-- Where each thread is inside the queue of a user. -/
def FineState.queuePcs (s : FineState) (u : ConnId) : ConnId → QueuePc :=
  fun c => (s.inside c).queuePc u c

/-- What is known of the call that a thread is inside of. -/
def FineState.AtCall (s : FineState) (c : ConnId) : Inside → Prop
  | .critical m => (code s.base c).mutex c = some m
  | .wait | .lockQueue => (code s.base c).mutex c = some (.queue c)
  | .enqueue u | .push u =>
      (s.base.threads u).pc.loggedIn ∧
        (s.base.users u).username ≠ (s.base.users c).username
  | .pushed u | .post u => (s.base.threads u).pc.loggedIn
  | .outside | .unlock _ => True

/-- Threads are inside of the calls that they are about to make, and the semaphores
of the queues are accounted for. -/
structure FineQueues (s : FineState) : Prop where
  atCall : ∀ c, s.AtCall c (s.inside c)
  counted : ∀ u, Counted (s.queue u) (s.queuePcs u)

/-- Calls without effect on the queues. -/
def Op.queueless : Op → Bool
  | .newUser _ _ | .visitMember _ _ _ _ _ | .dequeue _ => false
  | _ => true

/-- A call outside of the queues keeps them. -/
theorem Performed.mqueue {s s' : State} {c : ConnId} {op : Op} (h : Performed s c op s')
    (hop : op.queueless) (u : ConnId) : (s'.users u).mqueue = (s.users u).mqueue := by
  cases h with
  | newUser name k => cases hop
  | visited r name text rest k v hv => cases hop
  | timedOut k => cases hop
  | dequeued k m mqueue hqueue => cases hop
  | _ => rfl

/-- The effect of a call moves its thread and no semaphore. -/
theorem FineState.inside_of_perform {s s' : FineState} {c : ConnId} {env : Env} {next : Inside}
    (h : s.perform c env next = some s') :
    s'.inside = update s.inside c next ∧ s'.avail = s.avail := by
  rcases Option.map_eq_some_iff.mp h with ⟨base, -, rfl⟩
  exact ⟨rfl, rfl⟩

namespace FineQueues

variable {s s' : FineState} {c : ConnId} {next : Inside} {env : Env}

/-- The steps of others keep what is known of a call. -/
theorem atCall_other (h : FineQueues s) (hfine : FineInvariant s)
    (hbase : s'.base = s.base ∨ ∃ a, server.step s.base a = some s'.base) {d : ConnId}
    (hd : s'.base.threads d = s.base.threads d) : s'.AtCall d (s.inside d) := by
  have hcall := h.atCall d
  have hfits := hfine.fits d
  have hlogged : ∀ u, (s.base.threads u).pc.loggedIn → (s'.base.threads u).pc.loggedIn ∧
      (s'.base.users u).username = (s.base.users u).username := by
    intro u hu
    rcases hbase with heq | ⟨a, hstep⟩
    · rw [heq]
      exact ⟨hu, rfl⟩
    · exact step_loggedIn hstep hu
  have hnamed : ∀ {u : ConnId}, (∃ rest, (s.base.threads d).pc.visiting = some rest ∧ u ∈ rest) →
      (s.base.threads u).pc.loggedIn ∧
        (s.base.users u).username ≠ (s.base.users d).username →
      (s'.base.threads u).pc.loggedIn ∧
        (s'.base.users u).username ≠ (s'.base.users d).username := by
    rintro u ⟨rest, hrest, -⟩ ⟨hu, hname⟩
    have hdlogged := Pc.loggedIn_of_unanswered (Pc.unanswered_of_visiting hrest)
    rw [(hlogged u hu).2, (hlogged d hdlogged).2]
    exact ⟨(hlogged u hu).1, hname⟩
  cases hinside : s.inside d with
  | outside => exact trivial
  | unlock m => exact trivial
  | critical m =>
      rw [hinside] at hcall
      exact (mutex_code hd).trans hcall
  | wait =>
      rw [hinside] at hcall
      exact (mutex_code hd).trans hcall
  | lockQueue =>
      rw [hinside] at hcall
      exact (mutex_code hd).trans hcall
  | enqueue u =>
      rw [hinside] at hcall hfits
      exact hnamed hfits hcall
  | push u =>
      rw [hinside] at hcall hfits
      exact hnamed hfits hcall
  | pushed u =>
      rw [hinside] at hcall
      exact (hlogged u hcall).1
  | post u =>
      rw [hinside] at hcall
      exact (hlogged u hcall).1

/-- A step of a thread, by what it does to the call and to the queues. -/
theorem of_step (h : FineQueues s) (hfine : FineInvariant s)
    (hbase : s'.base = s.base ∨ ∃ env, server.step s.base (.run c env) = some s'.base)
    (hinside : s'.inside = update s.inside c next) (hcall : s'.AtCall c next)
    (hcounted : ∀ u, Counted (s'.queue u) (update (s.queuePcs u) c (next.queuePc u c))) :
    FineQueues s' where
  atCall d := by
    rw [hinside]
    by_cases hdc : d = c
    · subst d
      rwa [update_self]
    · rw [update_of_ne hdc]
      refine h.atCall_other hfine (hbase.imp_right fun ⟨_, hstep⟩ => ⟨_, hstep⟩) ?_
      rcases hbase with heq | ⟨env, hstep⟩
      · rw [heq]
      · exact (step_other hstep (Ne.symm hdc)).1
  counted u := by
    have hpcs : s'.queuePcs u = update (s.queuePcs u) c (next.queuePc u c) := by
      funext d
      by_cases hdc : d = c
      · subst d
        simp [FineState.queuePcs, hinside]
      · simp [FineState.queuePcs, hinside, hdc]
    rw [hpcs]
    exact hcounted u

/-- A step without effect on the queues. -/
theorem of_quiet (h : FineQueues s) (hfine : FineInvariant s)
    (hbase : s'.base = s.base ∨ ∃ env, server.step s.base (.run c env) = some s'.base)
    (hinside : s'.inside = update s.inside c next) (hcall : s'.AtCall c next)
    (havail : s'.avail = s.avail)
    (hqueue : ∀ u, (s'.base.users u).mqueue = (s.base.users u).mqueue)
    (hpc : ∀ u, next.queuePc u c = (s.inside c).queuePc u c) : FineQueues s' := by
  refine h.of_step hfine hbase hinside hcall fun u => ?_
  have hsame : update (s.queuePcs u) c (next.queuePc u c) = s.queuePcs u := by
    rw [hpc]
    exact update_eq_self _ _
  rw [hsame, FineState.queue, havail, hqueue]
  exact h.counted u

/-- A thread moves inside of its call. -/
theorem move (h : FineQueues s) (hfine : FineInvariant s) (hcall : s.AtCall c next)
    (hpc : ∀ u, next.queuePc u c = (s.inside c).queuePc u c) : FineQueues (s.move c next) :=
  h.of_quiet hfine (.inl rfl) rfl hcall rfl (fun _ => rfl) hpc

/-- A thread takes a mutex. -/
theorem lock (h : FineQueues s) (hfine : FineInvariant s) {m : Mutex}
    (hlock : s.lock c m next = some s') (hcall : s.AtCall c next)
    (hpc : ∀ u, next.queuePc u c = (s.inside c).queuePc u c) : FineQueues s' := by
  unfold FineState.lock at hlock
  split at hlock <;> cases hlock
  have hmove := h.move hfine hcall hpc
  exact ⟨hmove.atCall, hmove.counted⟩

/-- The owners of the mutexes do not matter. -/
theorem owner (h : FineQueues s) (owner : Mutex → Option ConnId) :
    FineQueues { s with owner := owner } :=
  ⟨h.atCall, h.counted⟩

/-- A thread performs a call without effect on the queues. -/
theorem perform (h : FineQueues s) (hfine : FineInvariant s)
    (hop : (code s.base c).queueless) (hperform : s.perform c env next = some s')
    (hcall : s'.AtCall c next)
    (hpc : ∀ u, next.queuePc u c = (s.inside c).queuePc u c) : FineQueues s' := by
  have hstep := FineState.base_of_perform hperform
  have hqueue := (performed_of_perform hstep).mqueue hop
  rcases FineState.inside_of_perform hperform with ⟨hinside, havail⟩
  exact h.of_quiet hfine (.inr ⟨_, hstep⟩) hinside hcall havail hqueue hpc

/-- A dequeue times out. -/
theorem timeout (h : FineQueues s) (hfine : FineInvariant s) {k : Option Message → Thread}
    (hcode : code s.base c = .dequeue k) (htimeout : env.timeout)
    (hperform : s.perform c env .outside = some s')
    (hpc : ∀ u, (s.inside c).queuePc u c = .idle) : FineQueues s' := by
  have hstep := FineState.base_of_perform hperform
  have hqueue : ∀ u, (s'.base.users u).mqueue = (s.base.users u).mqueue := by
    intro u
    simp only [server, step, hcode, ChatServer.perform, htimeout, if_true] at hstep
    rw [← Option.some.inj hstep]
    rfl
  rcases FineState.inside_of_perform hperform with ⟨hinside, havail⟩
  exact h.of_quiet hfine (.inr ⟨_, hstep⟩) hinside trivial havail hqueue fun u => (hpc u).symm

/-- Nobody uses the queue of a user that has not logged in. -/
theorem queuePc_of_absent (h : FineQueues s) (hinside : s.inside c = .outside)
    (hpc : (s.base.threads c).pc.loggedIn = false) (d : ConnId) :
    s.queuePcs c d ≠ .pop ∧ s.queuePcs c d ≠ .post := by
  have hcall := h.atCall d
  have hlogged : ∀ v, (s.base.threads v).pc.loggedIn → v ≠ c := by
    rintro v hv rfl
    rw [hv] at hpc
    cases hpc
  simp only [FineState.queuePcs]
  cases hd : s.inside d with
  | pushed v =>
      rw [hd] at hcall
      simp [Inside.queuePc, hlogged v hcall]
  | post v =>
      rw [hd] at hcall
      simp [Inside.queuePc, hlogged v hcall]
  | lockQueue =>
      have hdc : d ≠ c := by
        rintro rfl
        rw [hinside] at hd
        cases hd
      simp [Inside.queuePc, hdc]
  | critical m =>
      rw [hd] at hcall
      have hm : m ≠ .queue c := by
        rintro rfl
        rcases Op.mutex_eq_queue hcall with ⟨rfl, -⟩
        rw [hinside] at hd
        cases hd
      simp [Inside.queuePc, hm]
  | _ => simp [Inside.queuePc]

/-- A user is created, with an empty queue. -/
theorem newUser (h : FineQueues s) (hfine : FineInvariant s) {t : FineState} {username : Bytes}
    {k : Thread} (hcode : code s.base c = .newUser username k) (hinside : s.inside c = .outside)
    (hperform : s.perform c env .outside = some t) :
    FineQueues { t with avail := update t.avail c 0 } := by
  have hstep := FineState.base_of_perform hperform
  rcases FineState.performed_of_perform hcode hperform with ⟨hperf, hrole, -⟩
  have husers : t.base.users = update s.base.users c { username := username } := by
    generalize t.base = base at hperf
    cases hperf with
    | newUser _ _ => rfl
  rcases FineState.inside_of_perform hperform with ⟨hmoved, havail⟩
  refine h.of_step hfine (.inr ⟨_, hstep⟩) hmoved trivial fun u => ?_
  have hsame : update (s.queuePcs u) c (Inside.outside.queuePc u c) = s.queuePcs u := by
    have hidle : Inside.outside.queuePc u c = s.queuePcs u c := by
      simp [FineState.queuePcs, hinside]
    rw [hidle]
    exact update_eq_self _ _
  rw [hsame]
  by_cases huc : u = c
  · subst u
    have hempty : FineState.queue { t with avail := update t.avail c 0 } c = {} := by
      simp [FineState.queue, husers]
    rw [hempty]
    exact .of_idle fun d => h.queuePc_of_absent hinside hrole.1 d
  · have hqueue : FineState.queue { t with avail := update t.avail c 0 } u = s.queue u := by
      simp [FineState.queue, husers, havail, huc]
    rw [hqueue]
    exact h.counted u

/-- A message is popped. -/
theorem pop (h : FineQueues s) (hfine : FineInvariant s) {k : Option Message → Thread}
    (hcode : code s.base c = .dequeue k) (hinside : s.inside c = .critical (.queue c))
    (hperform : s.perform c {} (.unlock (.queue c)) = some s') : FineQueues s' := by
  have hstep := FineState.base_of_perform hperform
  rcases FineState.inside_of_perform hperform with ⟨hmoved, havail⟩
  refine h.of_step hfine (.inr ⟨_, hstep⟩) hmoved trivial fun v => ?_
  have hpopped : ∃ m mqueue, (s.base.users c).mqueue = m :: mqueue ∧
      s'.base.users = update s.base.users c { s.base.users c with mqueue := mqueue } := by
    simp only [server, step, hcode, ChatServer.perform, Bool.false_eq_true, if_false] at hstep
    cases hqueue : (s.base.users c).mqueue with
    | nil => simp [hqueue] at hstep
    | cons m mqueue =>
        rw [hqueue, Option.some.injEq] at hstep
        exact ⟨m, mqueue, rfl, by rw [← hstep]; rfl⟩
  rcases hpopped with ⟨m, mqueue, hqueue, husers⟩
  have hcounted := h.counted v
  by_cases hvc : v = c
  · subst v
    have hpop : s.queuePcs c c = .pop := by simp [FineState.queuePcs, hinside, Inside.queuePc]
    have hfront : (s.queue c).pop = some (m, s'.queue c) := by
      simp [FineState.queue, MessageQueue.pop, hqueue, husers, havail]
    exact hcounted.pop hpop (by simp [Inside.queuePc]) (by simp [Inside.queuePc]) hfront
  · have hsame : s'.queue v = s.queue v := by simp [FineState.queue, husers, havail, hvc]
    have hpc : (Inside.unlock (.queue c)).queuePc v c = s.queuePcs v c := by
      simp [FineState.queuePcs, hinside, Inside.queuePc, Ne.symm hvc]
    rw [hsame, hpc, update_eq_self]
    exact hcounted

/-- The call in a critical section is performed. -/
theorem critical (h : FineQueues s) (hfine : FineInvariant s) {m : Mutex}
    (hinside : s.inside c = .critical m) (hperform : s.perform c {} (.unlock m) = some s') :
    FineQueues s' := by
  have hcall : (code s.base c).mutex c = some m := by
    have hcall := h.atCall c
    rwa [hinside] at hcall
  by_cases hqueue : ∃ u, m = .queue u
  · rcases hqueue with ⟨u, rfl⟩
    rcases Op.mutex_eq_queue hcall with ⟨rfl, k, hcode⟩
    exact h.pop hfine hcode hinside hperform
  · have hpc : ∀ u, (Inside.unlock m).queuePc u c = (s.inside c).queuePc u c := by
      intro u
      have hm : m ≠ .queue u := fun heq => hqueue ⟨u, heq⟩
      simp [hinside, Inside.queuePc, hm]
    refine h.perform hfine ?_ hperform trivial hpc
    cases hcode : code s.base c with
    | newUser name k => simp [hcode, Op.mutex] at hcall
    | visitMember r name text rest k => simp [hcode, Op.mutex] at hcall
    | dequeue k =>
        rw [hcode] at hcall
        cases hcall
        exact absurd ⟨c, rfl⟩ hqueue
    | _ => rfl

/-- The message of a broadcast is pushed. -/
theorem push (h : FineQueues s) (hfine : FineInvariant s) {u : ConnId}
    (hinside : s.inside c = .push u)
    (hperform : s.perform c { pick := u } (.pushed u) = some s') : FineQueues s' := by
  have hcall := h.atCall c
  have hfits := hfine.fits c
  rw [hinside] at hcall hfits
  rcases hfits with ⟨rest, hrest, hu⟩
  have hstep := FineState.base_of_perform hperform
  rcases FineState.inside_of_perform hperform with ⟨hmoved, havail⟩
  rcases code_visit hrest hu (code_ne_halt hstep) with ⟨r, name, text, k, hcode⟩
  have hrole := code_role s.base c
  have hlogged := (step_loggedIn hstep hcall.1).1
  rw [hcode] at hrole
  refine h.of_step hfine (.inr ⟨_, hstep⟩) hmoved hlogged fun v => ?_
  change ChatServer.perform s.base c { pick := u } (code s.base c) = some s'.base at hstep
  rw [hcode] at hstep
  have hqueue := mqueue_of_visit hstep v
  have hcounted := h.counted v
  have hidle : s.queuePcs v c = .idle := by simp [FineState.queuePcs, hinside, Inside.queuePc]
  by_cases hvu : v = u
  · subst v
    have hname : (s.base.users u).username ≠ name := hrole.2.2.1 ▸ hcall.2
    have hpush : s'.queue u = (s.queue u).push ((s.base.rooms r).newMessage name text) := by
      simp [FineState.queue, MessageQueue.push, hqueue, hname, havail]
    rw [hpush]
    have hnext : Counted ((s.queue u).push ((s.base.rooms r).newMessage name text))
        (update (s.queuePcs u) c .post) :=
      hcounted.push (by simp [hidle]) (by simp [hidle])
    simpa [Inside.queuePc] using hnext
  · have hsame : s'.queue v = s.queue v := by
      simp [FineState.queue, hqueue, hvu, havail]
    rw [hsame]
    have hpc : (Inside.pushed u).queuePc v c = s.queuePcs v c := by
      simp [Inside.queuePc, hidle, Ne.symm hvu]
    rw [hpc, update_eq_self]
    exact hcounted

/-- The semaphore is posted. -/
theorem post (h : FineQueues s) (hfine : FineInvariant s) {u : ConnId}
    (hinside : s.inside c = .post u) :
    FineQueues { s.move c .outside with avail := update s.avail u (s.avail u + 1) } := by
  refine h.of_step (c := c) hfine (.inl rfl) rfl trivial fun v => ?_
  have hcounted := h.counted v
  by_cases hvu : v = u
  · subst v
    have hpost : s.queuePcs u c = .post := by simp [FineState.queuePcs, hinside, Inside.queuePc]
    have hnext : Counted (s.queue u).post (update (s.queuePcs u) c .idle) :=
      hcounted.post hpost (by simp) (by simp)
    simpa [FineState.queue, MessageQueue.post, FineState.move, Inside.queuePc] using hnext
  · have hpc : Inside.outside.queuePc v c = s.queuePcs v c := by
      simp [FineState.queuePcs, hinside, Inside.queuePc, Ne.symm hvu]
    rw [hpc, update_eq_self]
    simpa [FineState.queue, FineState.move, hvu] using hcounted

/-- A wait for the semaphore succeeds. -/
theorem wait (h : FineQueues s) (hfine : FineInvariant s) (hinside : s.inside c = .wait)
    (havail : s.avail c ≠ 0) :
    FineQueues { s.move c .lockQueue with avail := update s.avail c (s.avail c - 1) } := by
  have hcall := h.atCall c
  rw [hinside] at hcall
  refine h.of_step (c := c) hfine (.inl rfl) rfl hcall fun v => ?_
  have hcounted := h.counted v
  have hidle : s.queuePcs v c = .idle := by simp [FineState.queuePcs, hinside, Inside.queuePc]
  by_cases hvc : v = c
  · subst v
    have hwait : (s.queue c).wait =
        some { mMessages := (s.base.users c).mqueue, mAvail := s.avail c - 1 } := by
      simp [FineState.queue, MessageQueue.wait, havail]
    have hnext := hcounted.wait (i := c) (by simp [hidle]) (by simp [hidle]) hwait
    simpa [FineState.queue, FineState.move, Inside.queuePc] using hnext
  · have hpc : Inside.lockQueue.queuePc v c = s.queuePcs v c := by
      simp [Inside.queuePc, hidle, Ne.symm hvc]
    rw [hpc, update_eq_self]
    simpa [FineState.queue, FineState.move, hvc] using hcounted

/-- The first step of a call. -/
theorem begin (h : FineQueues s) (hs : fineServer.Reachable s) (hfine : FineInvariant s)
    (hinside : s.inside c = .outside) (hstep : s.begin c env (code s.base c) = some s') :
    FineQueues s' := by
  have hpc : ∀ u, (s.inside c).queuePc u c = .idle := by simp [hinside, Inside.queuePc]
  have hquiet : (code s.base c).queueless → s.perform c env .outside = some s' →
      FineQueues s' := fun hop hperform =>
    h.perform hfine hop hperform trivial fun u => (hpc u).symm
  cases hcode : code s.base c with
  | halt => exact hquiet (by rw [hcode]; rfl) (by rwa [hcode] at hstep)
  | receive msg k => exact hquiet (by rw [hcode]; rfl) (by rwa [hcode] at hstep)
  | send msg k => exact hquiet (by rw [hcode]; rfl) (by rwa [hcode] at hstep)
  | newUser username k =>
      rw [hcode] at hstep
      rcases Option.map_eq_some_iff.mp hstep with ⟨t, hperform, rfl⟩
      exact h.newUser hfine hcode hinside hperform
  | findOrCreateRoom name k =>
      rw [hcode] at hstep
      refine h.lock hfine hstep ?_ fun u => (hpc u).symm
      exact congrArg (Op.mutex c) hcode
  | addMember r k =>
      rw [hcode] at hstep
      refine h.lock hfine hstep ?_ fun u => (hpc u).symm
      exact congrArg (Op.mutex c) hcode
  | removeMember r k =>
      rw [hcode] at hstep
      refine h.lock hfine hstep ?_ fun u => (hpc u).symm
      exact congrArg (Op.mutex c) hcode
  | lockRoom r name text k =>
      rw [hcode] at hstep
      rcases Option.bind_eq_some_iff.mp hstep with ⟨t, hlock, hperform⟩
      have hbase := FineState.base_of_perform hperform
      rw [FineState.base_of_lock hlock] at hbase
      unfold FineState.lock at hlock
      split at hlock <;> cases hlock
      rcases FineState.inside_of_perform hperform with ⟨hmoved, havail⟩
      have hinside' : s'.inside = update s.inside c .outside := hmoved.trans (update_idem ..)
      have hqueue := (performed_of_perform hbase).mqueue (by rw [hcode]; rfl)
      exact h.of_quiet hfine (.inr ⟨_, hbase⟩) hinside' trivial havail hqueue fun u => (hpc u).symm
  | visitMember r name text rest k =>
      have hrole := code_role s.base c
      rw [hcode] at hstep hrole
      simp only [FineState.begin] at hstep
      split at hstep <;> rename_i hpick
      · cases hstep
        refine h.move hfine ⟨?_, hrole.2.2.1 ▸ hpick.2⟩ fun u => (hpc u).symm
        exact loggedIn_of_visiting (fine_refines hs) (by rw [hrole.1]; rfl) hpick.1
      · have hbase := FineState.base_of_perform hstep
        rcases FineState.inside_of_perform hstep with ⟨hmoved, havail⟩
        have hqueue : ∀ u, (s'.base.users u).mqueue = (s.base.users u).mqueue := by
          intro u
          change ChatServer.perform s.base c env (code s.base c) = some s'.base at hbase
          rw [hcode] at hbase
          have hrest : env.pick ∈ rest := mem_of_visit hbase
          rw [mqueue_of_visit hbase u, if_neg, List.append_nil]
          rintro ⟨rfl, hname⟩
          exact hpick ⟨hrest, hname⟩
        exact h.of_quiet hfine (.inr ⟨_, hbase⟩) hmoved trivial havail hqueue fun u => (hpc u).symm
  | unlockRoom r k =>
      rw [hcode] at hstep
      rcases Option.map_eq_some_iff.mp hstep with ⟨t, hperform, rfl⟩
      have hbase := FineState.base_of_perform hperform
      rcases FineState.inside_of_perform hperform with ⟨hmoved, havail⟩
      have hinside' : update t.inside c .outside = update s.inside c .outside := by
        rw [hmoved, update_idem]
      have hqueue := (performed_of_perform hbase).mqueue (by rw [hcode]; rfl)
      exact h.of_quiet hfine (.inr ⟨_, hbase⟩) hinside' trivial havail hqueue fun u => (hpc u).symm
  | dequeue k =>
      rw [hcode] at hstep
      simp only [FineState.begin] at hstep
      split at hstep <;> rename_i htimeout
      · exact h.timeout hfine hcode htimeout hstep hpc
      · cases hstep
        refine h.move hfine ?_ fun u => (hpc u).symm
        exact congrArg (Op.mutex c) hcode

/-- A step of a thread. -/
theorem run (h : FineQueues s) (hs : fineServer.Reachable s) (hfine : FineInvariant s)
    (hstep : s.run c env = some s') : FineQueues s' := by
  have hcall := h.atCall c
  unfold FineState.run at hstep
  cases hinside : s.inside c with
  | outside =>
      simp only [hinside] at hstep
      exact h.begin hs hfine hinside hstep
  | critical m =>
      simp only [hinside] at hstep
      exact h.critical hfine hinside hstep
  | unlock m =>
      simp only [hinside] at hstep
      cases hstep
      have hmove : FineQueues (s.move c .outside) :=
        h.move hfine trivial fun u => by rw [hinside]; rfl
      exact hmove.owner _
  | enqueue u =>
      simp only [hinside] at hstep
      rw [hinside] at hcall
      exact h.lock hfine hstep hcall fun v => by rw [hinside]; rfl
  | push u =>
      simp only [hinside] at hstep
      exact h.push hfine hinside hstep
  | pushed u =>
      simp only [hinside] at hstep
      rw [hinside] at hcall
      cases hstep
      have hmove : FineQueues (s.move c (.post u)) :=
        h.move hfine hcall fun v => by rw [hinside]; rfl
      exact hmove.owner _
  | post u =>
      simp only [hinside] at hstep
      cases hstep
      exact h.post hfine hinside
  | wait =>
      simp only [hinside] at hstep
      rw [hinside] at hcall
      rcases Op.mutex_eq_queue hcall with ⟨-, k, hcode⟩
      split at hstep <;> rename_i htimeout
      · exact h.timeout hfine hcode htimeout hstep fun u => by rw [hinside]; rfl
      · split at hstep <;> rename_i havail <;> cases hstep
        exact h.wait hfine hinside havail
  | lockQueue =>
      simp only [hinside] at hstep
      rw [hinside] at hcall
      refine h.lock hfine hstep hcall fun u => ?_
      simp [hinside, Inside.queuePc]

/-- The arrival of a connection. -/
theorem accept (h : FineQueues s) (hfine : FineInvariant s) {reads : List ReadResult}
    {ending : StreamEnd} {base : State}
    (hstep : server.step s.base (.accept c reads ending) = some base) :
    FineQueues { s with base := base } := by
  rcases accept_step hstep with ⟨habsent, rfl⟩
  refine ⟨fun d => ?_, fun u => h.counted u⟩
  by_cases hdc : d = c
  · subst d
    have hcall := h.atCall c
    have hfits := hfine.fits c
    have hmutex : (code s.base c).mutex c = none := by simp [code, Thread.code, habsent, Op.mutex]
    rw [habsent] at hfits
    cases hinside : s.inside c with
    | outside => exact trivial
    | unlock m => exact trivial
    | critical m =>
        rw [hinside] at hcall
        cases hmutex.symm.trans hcall
    | wait =>
        rw [hinside] at hcall
        cases hmutex.symm.trans hcall
    | lockQueue =>
        rw [hinside] at hcall
        cases hmutex.symm.trans hcall
    | enqueue u =>
        rw [hinside] at hfits
        rcases hfits with ⟨rest, hrest, -⟩
        cases hrest
    | push u =>
        rw [hinside] at hfits
        rcases hfits with ⟨rest, hrest, -⟩
        cases hrest
    | pushed u =>
        rw [hinside] at hfits
        exact absurd rfl hfits
    | post u =>
        rw [hinside] at hfits
        exact absurd rfl hfits
  · exact h.atCall_other hfine (.inr ⟨_, hstep⟩) (by simp [hdc])

end FineQueues

/-- In every reachable state the semaphores of all queues are accounted for. -/
theorem reachable_fineQueues {s : FineState} (hs : fineServer.Reachable s) : FineQueues s := by
  refine hs.invariant ?_ fun s a s' hs hstep h => ?_
  · refine ⟨fun _ => trivial, fun u => .of_idle fun c => ?_⟩
    simp [fineServer, FineState.queuePcs, Inside.queuePc]
  · have hfine := reachable_fineInvariant hs
    cases a with
    | accept c reads ending =>
        rcases Option.map_eq_some_iff.mp hstep with ⟨base, hbase, rfl⟩
        exact h.accept hfine hbase
    | run c env => exact h.run hs hfine hstep

/-- A thread that has passed the wait finds a message. -/
theorem mqueue_ne_nil {s : FineState} (hs : fineServer.Reachable s) {c : ConnId}
    (hinside : s.inside c = .lockQueue ∨ s.inside c = .critical (.queue c)) :
    (s.base.users c).mqueue ≠ [] := by
  have hpop : s.queuePcs c c = .pop := by
    rcases hinside with hinside | hinside <;>
      simp [FineState.queuePcs, hinside, Inside.queuePc]
  exact ((reachable_fineQueues hs).counted c).mMessages_ne_nil hpop

/-! ## Threads that can go on -/

/-- The thread can take its next step. -/
def FineState.Enabled (s : FineState) (c : ConnId) : Prop :=
  ∃ env s', s.run c env = some s'

/-- The thread is inside of a call, or has not returned. -/
def FineState.Active (s : FineState) (c : ConnId) : Prop :=
  s.inside c ≠ .outside ∨ (s.base.threads c).pc ≠ .absent ∧ (s.base.threads c).pc ≠ .done

/-- Threads that own a mutex have not returned. -/
theorem active_of_owner {s : FineState} (hs : fineServer.Reachable s) {c : ConnId} {m : Mutex}
    (howner : s.owner m = some c) : s.Active c := by
  rcases ((reachable_fineInvariant hs).owned c m).mp howner with hmutex | ⟨r, -, -, rest, hpc⟩
  · refine .inl fun hinside => ?_
    rw [hinside] at hmutex
    cases hmutex
  · right
    rw [hpc]
    exact ⟨nofun, nofun⟩

/-- A call that the base server can make has an effect. -/
theorem FineState.perform_isSome {s : FineState} {c : ConnId} {env : Env} {next : Inside}
    (h : ∃ base, server.step s.base (.run c env) = some base) :
    ∃ s', s.perform c env next = some s' := by
  rcases h with ⟨base, hbase⟩
  exact ⟨_, by rw [FineState.perform, hbase, Option.map_some]⟩

/-- A thread that wants a mutex takes it, or waits for its owner. -/
theorem enabled_or_waits_of_wants {s : FineState} (hs : fineServer.Reachable s) {c : ConnId}
    {m : Mutex} (hwants : s.wants c = some m) :
    s.Enabled c ∨ ∃ d, WaitsFor s.owner s.wants c d := by
  cases howner : s.owner m with
  | none =>
      rcases FineState.run_of_free hs hwants howner {} with ⟨s', hrun, -⟩
      exact .inl ⟨{}, s', hrun⟩
  | some d => exact .inr ⟨d, m, hwants, howner⟩

/-- The call of a critical section can be performed: nobody else is broadcasting in
the room, and the queue is not empty. -/
theorem critical_enabled {s : FineState} (hs : fineServer.Reachable s) {c : ConnId} {m : Mutex}
    (hinside : s.inside c = .critical m) :
    ∃ base, server.step s.base (.run c {}) = some base := by
  have hfine := reachable_fineInvariant hs
  have hcall : (code s.base c).mutex c = some m := by
    have hcall := (reachable_fineQueues hs).atCall c
    rwa [hinside] at hcall
  have hfree : ∀ r, m = .room r → (s.base.rooms r).lock = none := by
    rintro r rfl
    cases hlock : (s.base.rooms r).lock with
    | none => rfl
    | some d =>
        have hin := reachable_lock (fine_refines hs) hlock
        have hd := (hfine.owned d (.room r)).mpr (.inr ⟨r, rfl, hin⟩)
        have hc := (hfine.owned c (.room r)).mpr (.inl (by rw [hinside]; rfl))
        rw [hc, Option.some.injEq] at hd
        subst d
        have hfits := hfine.fits c
        rw [hinside] at hfits
        exact absurd hin (Thread.not_broadcasting hfits.1 r)
  simp only [server, step]
  cases hcode : code s.base c <;> rw [hcode] at hcall <;> cases hcall
  case findOrCreateRoom name k =>
    cases hroom : s.base.mRooms name with
    | none => exact ⟨_, by rw [ChatServer.perform, hroom]⟩
    | some r => exact ⟨_, by rw [ChatServer.perform, hroom]⟩
  case addMember r k => exact ⟨_, if_pos (hfree r rfl)⟩
  case removeMember r k => exact ⟨_, if_pos (hfree r rfl)⟩
  case dequeue k =>
    rcases List.exists_cons_of_ne_nil (mqueue_ne_nil hs (.inr hinside)) with ⟨msg, rest, hqueue⟩
    exact ⟨_, by rw [ChatServer.perform, hqueue]; rfl⟩

/-- A message can be pushed. -/
theorem push_enabled {s : FineState} (hs : fineServer.Reachable s) {c u : ConnId}
    (hinside : s.inside c = .push u) :
    ∃ base, server.step s.base (.run c { pick := u }) = some base := by
  have hfits := (reachable_fineInvariant hs).fits c
  rw [hinside] at hfits
  rcases hfits with ⟨rest, hrest, hu⟩
  have hready : (code s.base c).Ready := by
    refine code_ready (fine_refines hs) ?_ ?_ <;> intro hpc <;> rw [hpc] at hrest <;> cases hrest
  have hhalt : code s.base c ≠ .halt := fun hhalt => by
    rw [hhalt] at hready
    exact hready
  rcases code_visit (s := s.base) hrest hu hhalt with ⟨r, name, text, k, hcode⟩
  simp only [server, step, hcode]
  exact ⟨_, if_pos hu⟩

/-- A thread that is about to make a call without a mutex can begin it. -/
theorem begin_enabled {s : FineState} {c : ConnId} (hinside : s.inside c = .outside)
    (hwants : s.wants c = none) (hready : (code s.base c).Ready) : s.Enabled c := by
  have hperform : ∀ (env : Env) {op : Op} {base : State}, code s.base c = op →
      ChatServer.perform s.base c env op = some base →
      ∃ s', s.perform c env .outside = some s' := by
    rintro env op base rfl hbase
    exact FineState.perform_isSome ⟨base, hbase⟩
  simp only [FineState.wants, hinside] at hwants
  simp only [FineState.Enabled, FineState.run, hinside]
  cases hcode : code s.base c <;> rw [hcode] at hwants hready
  case halt => exact absurd hready id
  case receive msg k => exact ⟨{}, hperform {} hcode rfl⟩
  case send msg k => exact ⟨{}, hperform {} hcode rfl⟩
  case newUser name k =>
    rcases hperform {} hcode rfl with ⟨t, ht⟩
    exact ⟨{}, _, by rw [FineState.begin, ht, Option.map_some]⟩
  case visitMember r name text rest k =>
    rcases hready with ⟨u, hu⟩
    refine ⟨{ pick := u }, ?_⟩
    rw [FineState.begin]
    split_ifs
    · exact ⟨_, rfl⟩
    · exact hperform { pick := u } hcode (if_pos hu)
  case unlockRoom r k =>
    rcases hperform {} hcode rfl with ⟨t, ht⟩
    exact ⟨{}, _, by rw [FineState.begin, ht, Option.map_some]⟩
  case dequeue k => exact ⟨{}, _, rfl⟩
  all_goals cases hwants

/-- A thread that has not returned can take its next step, or waits for a mutex. -/
theorem enabled_or_waits {s : FineState} (hs : fineServer.Reachable s) {c : ConnId}
    (hactive : s.Active c) : s.Enabled c ∨ ∃ d, WaitsFor s.owner s.wants c d := by
  cases hwants : s.wants c with
  | some m => exact enabled_or_waits_of_wants hs hwants
  | none =>
      left
      have hcall := (reachable_fineQueues hs).atCall c
      cases hinside : s.inside c with
      | outside =>
          rcases hactive with hout | ⟨habsent, hdone⟩
          · exact absurd hinside hout
          · exact begin_enabled hinside hwants (code_ready (fine_refines hs) habsent hdone)
      | critical m =>
          rcases FineState.perform_isSome (critical_enabled hs hinside) with ⟨t, ht⟩
          exact ⟨{}, t, by simpa only [FineState.run, hinside] using ht⟩
      | unlock m => exact ⟨{}, _, by simp only [FineState.run, hinside]; rfl⟩
      | enqueue u => simp [FineState.wants, hinside] at hwants
      | push u =>
          rcases FineState.perform_isSome (push_enabled hs hinside) with ⟨t, ht⟩
          exact ⟨{}, t, by simpa only [FineState.run, hinside] using ht⟩
      | pushed u => exact ⟨{}, _, by simp only [FineState.run, hinside]; rfl⟩
      | post u => exact ⟨{}, _, by simp only [FineState.run, hinside]; rfl⟩
      | wait =>
          rw [hinside] at hcall
          rcases Op.mutex_eq_queue hcall with ⟨-, k, hcode⟩
          have htimeout : ∃ base, server.step s.base (.run c { timeout := true }) = some base := by
            simp only [server, step, hcode]
            exact ⟨_, rfl⟩
          rcases FineState.perform_isSome htimeout with ⟨t, ht⟩
          exact ⟨{ timeout := true }, t, by simpa only [FineState.run, hinside, if_true] using ht⟩
      | lockQueue => simp [FineState.wants, hinside] at hwants

/-- From every thread that has not returned, a chain of threads that each wait for a
mutex of the next one leads to a thread that can take its next step. -/
theorem fine_progress {s : FineState} (hs : fineServer.Reachable s) {c : ConnId}
    (habsent : (s.base.threads c).pc ≠ .absent) (hdone : (s.base.threads c).pc ≠ .done) :
    ∃ d, Relation.ReflTransGen (WaitsFor s.owner s.wants) c d ∧ s.Enabled d := by
  have hfine := reachable_fineInvariant hs
  have hfree := not_deadlocked_of_rank Mutex.rank fun c m m' => hfine.rank_lt (c := c)
  rcases exists_unblocked hfree c with ⟨d, hchain, hunblocked⟩
  have hactive : s.Active d := by
    rcases hchain.cases_tail with rfl | ⟨e, -, m, -, howner⟩
    · exact .inr ⟨habsent, hdone⟩
    · exact active_of_owner hs howner
  refine ⟨d, hchain, (enabled_or_waits hs hactive).resolve_right ?_⟩
  rintro ⟨e, hwaits⟩
  exact hunblocked e hwaits

end ChatServer
