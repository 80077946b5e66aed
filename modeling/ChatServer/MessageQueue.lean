import ChatServer.Lib.ThreadCount
import ChatServer.Lib.TransitionSystem
import ChatServer.Message

/-!
# Message queues

{lit}`MessageQueue` with its operations taken apart: an enqueue pushes under the
mutex and posts the semaphore afterwards, a dequeue reads the clock, waits for
the semaphore and pops under the mutex afterwards.  Any number of threads may
be anywhere in between.  The semaphore therefore does not count the messages of
the deque exactly; it does so together with the threads on their way.

Main results:

- Definition {lit}`queueSystem`: any threads that call {lit}`enqueue` and
  {lit}`dequeue` on one queue.
- Theorem {lit}`Counted.mMessages_ne_nil`: a thread that has passed the wait
  finds a message.
- Theorem {lit}`queue_safety`: the counting invariant, and that messages are
  neither lost nor duplicated nor reordered.

Current gaps:

- The semaphore has no maximal value, so {lit}`sem_post` does not fail.
-/

namespace ChatServer

open Function ThreadCount

/-! ## The queue and its atomic operations -/

/-- {lit}`MessageQueue`: the deque and the value of the semaphore.  The mutex is
held for a single step only. -/
structure MessageQueue where
  mMessages : List Message := []
  mAvail : Nat := 0
deriving DecidableEq

namespace MessageQueue

/-- {lit}`push_back` under the mutex. -/
def push (q : MessageQueue) (msg : Message) : MessageQueue :=
  { q with mMessages := q.mMessages ++ [msg] }

/-- {lit}`sem_post`. -/
def post (q : MessageQueue) : MessageQueue :=
  { q with mAvail := q.mAvail + 1 }

/-- A {lit}`sem_timedwait` that succeeds; {lit}`none` while the value is zero. -/
def wait (q : MessageQueue) : Option MessageQueue :=
  if q.mAvail = 0 then none else some { q with mAvail := q.mAvail - 1 }

/-- {lit}`front` and {lit}`pop_front` under the mutex; {lit}`none` on an empty
deque, where their behaviour is undefined. -/
def pop (q : MessageQueue) : Option (Message × MessageQueue) :=
  match q.mMessages with
  | [] => none
  | msg :: rest => some (msg, { q with mMessages := rest })

end MessageQueue

/-- Control points of a thread: outside of both operations, in {lit}`enqueue`
before the push and between the push and the post, and in {lit}`dequeue` before
the clock is read, before the wait, and between the wait and the pop. -/
inductive QueuePc where
  | idle
  | push (msg : Message)
  | post
  | clock
  | wait
  | pop
deriving DecidableEq

/-! ## The counting invariant -/

/-- The semaphore, the dequeuers that have passed the wait and the enqueuers that
have not posted yet account for the messages of the deque. -/
structure Counted {ι : Type*} (q : MessageQueue) (pcs : ι → QueuePc) : Prop where
  finite_pop : FiniteAt (· = .pop) pcs
  finite_post : FiniteAt (· = .post) pcs
  count : q.mAvail + countAt (· = .pop) pcs + countAt (· = .post) pcs = q.mMessages.length

namespace Counted

variable {ι : Type*} {q q' : MessageQueue} {pcs : ι → QueuePc} {i : ι} {pc : QueuePc}

/-- An empty queue that nobody uses. -/
theorem of_idle (h : ∀ i, pcs i ≠ .pop ∧ pcs i ≠ .post) : Counted {} pcs where
  finite_pop := Set.finite_empty.subset fun i hi => (h i).1 hi
  finite_post := Set.finite_empty.subset fun i hi => (h i).2 hi
  count := by
    rw [countAt_eq_zero fun i => (h i).1, countAt_eq_zero fun i => (h i).2]
    rfl

/-- A thread that has passed the wait finds a message. -/
theorem mMessages_ne_nil (h : Counted q pcs) (hi : pcs i = .pop) : q.mMessages ≠ [] := by
  have hpos : 0 < countAt (· = .pop) pcs := countAt_pos h.finite_pop hi
  have hcount := h.count
  apply List.ne_nil_of_length_pos
  omega

variable [DecidableEq ι]

/-- The two counts after one thread has moved. -/
private theorem moved (h : Counted q pcs) (i : ι) (pc : QueuePc) :
    countAt (· = .pop) (update pcs i pc) + (if pcs i = .pop then 1 else 0) =
        countAt (· = .pop) pcs + (if pc = .pop then 1 else 0) ∧
      countAt (· = .post) (update pcs i pc) + (if pcs i = .post then 1 else 0) =
        countAt (· = .post) pcs + (if pc = .post then 1 else 0) :=
  ⟨countAt_update h.finite_pop i pc, countAt_update h.finite_post i pc⟩

/-- Moving between other control points is not noticed by the queue. -/
theorem move (h : Counted q pcs) (hpop : pcs i = .pop ↔ pc = .pop)
    (hpost : pcs i = .post ↔ pc = .post) : Counted q (update pcs i pc) where
  finite_pop := h.finite_pop.update i pc
  finite_post := h.finite_post.update i pc
  count := by
    rw [countAt_same hpop, countAt_same hpost]
    exact h.count

/-- A push is on account of the enqueuer until it posts. -/
theorem push {msg : Message} (h : Counted q pcs) (hpop : pcs i ≠ .pop) (hpost : pcs i ≠ .post) :
    Counted (q.push msg) (update pcs i .post) where
  finite_pop := h.finite_pop.update i _
  finite_post := h.finite_post.update i _
  count := by
    have hmoved := h.moved i .post
    have hcount := h.count
    simp only [hpop, hpost, if_true, if_false, reduceCtorEq] at hmoved
    simp only [MessageQueue.push, List.length_append, List.length_singleton]
    omega

/-- A post moves a message from the account of its enqueuer to the semaphore. -/
theorem post (h : Counted q pcs) (hi : pcs i = .post) (hpop : pc ≠ .pop) (hpost : pc ≠ .post) :
    Counted q.post (update pcs i pc) where
  finite_pop := h.finite_pop.update i _
  finite_post := h.finite_post.update i _
  count := by
    have hmoved := h.moved i pc
    have hcount := h.count
    simp only [hi, hpop, hpost, if_true, if_false, reduceCtorEq] at hmoved
    simp only [MessageQueue.post]
    omega

/-- A wait that goes through moves a message from the semaphore to the account of its
dequeuer. -/
theorem wait (h : Counted q pcs) (hpop : pcs i ≠ .pop) (hpost : pcs i ≠ .post)
    (hwait : q.wait = some q') : Counted q' (update pcs i .pop) where
  finite_pop := h.finite_pop.update i _
  finite_post := h.finite_post.update i _
  count := by
    have hmoved := h.moved i .pop
    have hcount := h.count
    unfold MessageQueue.wait at hwait
    split at hwait
    · cases hwait
    · cases hwait
      simp only [hpop, hpost, if_true, if_false, reduceCtorEq] at hmoved
      simp only
      omega

/-- A pop settles the account of its dequeuer. -/
theorem pop {msg : Message} (h : Counted q pcs) (hi : pcs i = .pop) (hpop : pc ≠ .pop)
    (hpost : pc ≠ .post) (hmsg : q.pop = some (msg, q')) : Counted q' (update pcs i pc) where
  finite_pop := h.finite_pop.update i _
  finite_post := h.finite_post.update i _
  count := by
    have hmoved := h.moved i pc
    have hcount := h.count
    unfold MessageQueue.pop at hmsg
    split at hmsg
    · cases hmsg
    · rename_i hqueue
      cases hmsg
      rw [hqueue, List.length_cons] at hcount
      simp only [hi, hpop, hpost, if_true, if_false, reduceCtorEq] at hmoved
      simp only
      omega

end Counted

/-! ## Any number of threads on one queue -/

/-- A queue with the threads {lit}`ι` that use it.  The history records what was
pushed and what was popped; for each thread, what its last dequeue has removed
from the deque, and what this dequeue has returned once it has. -/
structure QueueState (ι : Type*) where
  queue : MessageQueue := {}
  pcs : ι → QueuePc := fun _ => .idle
  pushed : List Message := []
  popped : List Message := []
  removed : ι → List Message := fun _ => []
  returned : ι → Option (Option Message) := fun _ => none
  undefined : Bool := false

/-- Labels: a thread calls one of the operations, or takes the next step of its
call; {lit}`fails` makes the clock or the wait fail, for whatever reason. -/
inductive QueueAction (ι : Type*) where
  | enqueue (i : ι) (msg : Message)
  | dequeue (i : ι)
  | run (i : ι) (fails : Bool := false)

section

variable {ι : Type*} [DecidableEq ι]

/-- The end of a dequeue that returns a null pointer. -/
def QueueState.returnNull (s : QueueState ι) (i : ι) : QueueState ι :=
  { s with
    pcs := update s.pcs i .idle
    returned := update s.returned i (some none) }

/-- One step; {lit}`none` when the thread is blocked, or in the wrong place. -/
def queueStep (s : QueueState ι) : QueueAction ι → Option (QueueState ι)
  | .enqueue i msg =>
      if s.pcs i = .idle then some { s with pcs := update s.pcs i (.push msg) } else none
  | .dequeue i =>
      if s.pcs i = .idle then
        some { s with
          pcs := update s.pcs i .clock
          removed := update s.removed i []
          returned := update s.returned i none }
      else none
  | .run i fails =>
      match s.pcs i with
      | .idle => none
      | .push msg =>
          some { s with
            queue := s.queue.push msg
            pcs := update s.pcs i .post
            pushed := s.pushed ++ [msg] }
      | .post => some { s with queue := s.queue.post, pcs := update s.pcs i .idle }
      | .clock =>
          if fails then some (s.returnNull i)
          else some { s with pcs := update s.pcs i .wait }
      | .wait =>
          if fails then some (s.returnNull i)
          else s.queue.wait.map fun queue =>
            { s with queue := queue, pcs := update s.pcs i .pop }
      | .pop =>
          match s.queue.pop with
          | none => some { s with undefined := true }
          | some (msg, queue) =>
              some { s with
                queue := queue
                pcs := update s.pcs i .idle
                popped := s.popped ++ [msg]
                removed := update s.removed i (s.removed i ++ [msg])
                returned := update s.returned i (some (some msg)) }

variable (ι) in
/-- Any threads that call {lit}`enqueue` and {lit}`dequeue` on one queue. -/
def queueSystem : TransitionSystem (QueueState ι) (QueueAction ι) where
  init := {}
  step := queueStep

/-! ## Safety -/

/-- Inside of a dequeue. -/
def QueuePc.dequeuing : QueuePc → Bool
  | .clock | .wait | .pop => true
  | _ => false

/-- The invariant: the queue is accounted for, the deque holds what was pushed
and not popped, and a dequeue has removed what it has returned so far. -/
structure QueueState.Safe (s : QueueState ι) : Prop where
  counted : Counted s.queue s.pcs
  order : s.pushed = s.popped ++ s.queue.mMessages
  removed : ∀ i, s.removed i = (s.returned i).join.toList
  running : ∀ i, (s.pcs i).dequeuing → s.returned i = none
  defined : s.undefined = false

namespace QueueState.Safe

variable {s : QueueState ι}

/-- A thread moves on without returning from a dequeue. -/
private theorem running_update (h : s.Safe) {i : ι} {pc : QueuePc}
    (hpc : pc.dequeuing → (s.pcs i).dequeuing) (j : ι)
    (hj : (update s.pcs i pc j).dequeuing) : s.returned j = none := by
  by_cases hji : j = i
  · subst j
    rw [update_self] at hj
    exact h.running i (hpc hj)
  · rw [update_of_ne hji] at hj
    exact h.running j hj

/-- A dequeue has returned: what it has removed is what it returns. -/
private theorem removed_update (h : s.Safe) (i : ι) (r : Option Message) (j : ι) :
    update s.removed i r.toList j = (update s.returned i (some r) j).join.toList := by
  by_cases hji : j = i
  · subst j
    simp
  · rw [update_of_ne hji, update_of_ne hji]
    exact h.removed j

/-- The result of one dequeue is not the result of another that is still running. -/
private theorem running_return (h : s.Safe) (i : ι) (r : Option (Option Message)) (j : ι)
    (hj : (update s.pcs i .idle j).dequeuing) : update s.returned i r j = none := by
  by_cases hji : j = i
  · subst j
    simp [QueuePc.dequeuing] at hj
  · rw [update_of_ne hji] at hj ⊢
    exact h.running j hj

/-- A dequeue that times out keeps the invariant. -/
theorem returnNull (h : s.Safe) {i : ι} (hi : s.pcs i = .clock ∨ s.pcs i = .wait) :
    (s.returnNull i).Safe where
  counted := by
    refine h.counted.move ?_ ?_ <;> rcases hi with hi | hi <;> simp [hi]
  order := h.order
  removed j := by
    have hnone : s.returned i = none := h.running i (by rcases hi with hi | hi <;> rw [hi] <;> rfl)
    have hold : s.removed i = [] := by rw [h.removed i, hnone]; rfl
    have hupdate := h.removed_update i none j
    rw [Option.toList_none, ← hold, update_eq_self] at hupdate
    exact hupdate
  running := h.running_return i _
  defined := h.defined

/-- One step of one thread. -/
theorem run (h : s.Safe) {i : ι} {fails : Bool} {s' : QueueState ι}
    (hstep : queueStep s (.run i fails) = some s') : s'.Safe := by
  simp only [queueStep] at hstep
  cases hi : s.pcs i with
  | idle => simp [hi] at hstep
  | push msg =>
      simp only [hi, Option.some.injEq] at hstep
      subst s'
      exact
        { counted := h.counted.push (by simp [hi]) (by simp [hi])
          order := by simp [MessageQueue.push, h.order]
          removed := h.removed
          running := h.running_update (by simp [QueuePc.dequeuing])
          defined := h.defined }
  | post =>
      simp only [hi, Option.some.injEq] at hstep
      subst s'
      exact
        { counted := h.counted.post hi (by simp) (by simp)
          order := h.order
          removed := h.removed
          running := h.running_update (by simp [QueuePc.dequeuing])
          defined := h.defined }
  | clock =>
      simp only [hi] at hstep
      split at hstep
      · cases hstep
        exact h.returnNull (.inl hi)
      · cases hstep
        exact
          { counted := h.counted.move (by simp [hi]) (by simp [hi])
            order := h.order
            removed := h.removed
            running := h.running_update (by simp [hi, QueuePc.dequeuing])
            defined := h.defined }
  | wait =>
      simp only [hi] at hstep
      split at hstep
      · cases hstep
        exact h.returnNull (.inr hi)
      · rcases Option.map_eq_some_iff.mp hstep with ⟨q, hq, rfl⟩
        have hsame : q.mMessages = s.queue.mMessages := by
          unfold MessageQueue.wait at hq
          split at hq <;> cases hq
          rfl
        exact
          { counted := h.counted.wait (by simp [hi]) (by simp [hi]) hq
            order := by rw [hsame]; exact h.order
            removed := h.removed
            running := h.running_update (by simp [hi, QueuePc.dequeuing])
            defined := h.defined }
  | pop =>
      have hne := h.counted.mMessages_ne_nil hi
      rcases List.exists_cons_of_ne_nil hne with ⟨msg, rest, hqueue⟩
      have hpop : s.queue.pop = some (msg, { s.queue with mMessages := rest }) := by
        simp [MessageQueue.pop, hqueue]
      have hnone : s.returned i = none := h.running i (by rw [hi]; rfl)
      have hold : s.removed i = [] := by rw [h.removed i, hnone]; rfl
      simp only [hi, hpop, Option.some.injEq] at hstep
      subst s'
      exact
        { counted := h.counted.pop hi (by simp) (by simp) hpop
          order := by simp [h.order, hqueue]
          removed := by
            rw [hold]
            exact h.removed_update i (some msg)
          running := h.running_return i _
          defined := h.defined }

/-- A thread starts a call. -/
theorem call (h : s.Safe) {i : ι} {a : QueueAction ι}
    (ha : (∃ msg, a = .enqueue i msg) ∨ a = .dequeue i) {s' : QueueState ι}
    (hstep : queueStep s a = some s') : s'.Safe := by
  rcases ha with ⟨msg, rfl⟩ | rfl
  · simp only [queueStep] at hstep
    split at hstep <;> rename_i hi <;> cases hstep
    exact
      { counted := h.counted.move (by simp [hi]) (by simp [hi])
        order := h.order
        removed := h.removed
        running := h.running_update (by simp [QueuePc.dequeuing])
        defined := h.defined }
  · simp only [queueStep] at hstep
    split at hstep <;> rename_i hi <;> cases hstep
    refine
      { counted := h.counted.move (by simp [hi]) (by simp [hi])
        order := h.order
        removed := fun j => ?_
        running := fun j hj => ?_
        defined := h.defined }
    · by_cases hji : j = i
      · subst j
        simp
      · simp [hji, h.removed j]
    · by_cases hji : j = i
      · subst j
        simp
      · simp only [update_of_ne hji] at hj ⊢
        exact h.running j hj

end QueueState.Safe

/-- The invariant holds in every reachable state. -/
theorem reachable_safe {s : QueueState ι} (hs : (queueSystem ι).Reachable s) : s.Safe := by
  refine TransitionSystem.Reachable.invariant ?_ ?_ hs
  · exact
      { counted := .of_idle fun i => by simp [queueSystem]
        order := rfl
        removed := fun _ => rfl
        running := fun _ h => by simp [queueSystem, QueuePc.dequeuing] at h
        defined := rfl }
  · intro s a s' _ hstep hsafe
    cases a with
    | enqueue i msg => exact hsafe.call (.inl ⟨msg, rfl⟩) hstep
    | dequeue i => exact hsafe.call (.inr rfl) hstep
    | run i fails => exact hsafe.run hstep

/-- In every state that any number of threads can reach by calling
{lit}`enqueue` and {lit}`dequeue`: the value of the semaphore, the dequeuers
between the wait and the pop and the enqueuers between the push and the post are
as many as the deque has messages; nothing is popped off an empty deque; what
was popped is the beginning of what was pushed, and the rest is in the deque; and
a dequeue that has returned has removed what it has returned, hence nothing for
a null pointer. -/
theorem queue_safety {s : QueueState ι} (hs : (queueSystem ι).Reachable s) :
    s.queue.mAvail + countAt (· = .pop) s.pcs + countAt (· = .post) s.pcs =
        s.queue.mMessages.length ∧
      (∀ i, s.pcs i = .pop → s.queue.mMessages ≠ []) ∧ s.undefined = false ∧
      s.popped <+: s.pushed ∧ s.pushed = s.popped ++ s.queue.mMessages ∧
      ∀ i r, s.returned i = some r → s.removed i = r.toList := by
  have hsafe := reachable_safe hs
  refine ⟨hsafe.counted.count, fun i => hsafe.counted.mMessages_ne_nil, hsafe.defined, ?_,
    hsafe.order, ?_⟩
  · exact ⟨_, hsafe.order.symm⟩
  · intro i r hr
    rw [hsafe.removed i, hr]
    rfl

end

/-- One thread enqueues two messages, a second one pops the first of them before
the post of the other, and a third one times out. -/
theorem queue_safety_three :
    ∃ s, (queueSystem (Fin 3)).run (queueSystem (Fin 3)).init
        [.dequeue 1, .run 1, .enqueue 0 { tag := tagDelivery }, .run 0, .dequeue 2, .run 2,
          .run 2 true, .run 0, .enqueue 0 { tag := tagOk }, .run 0, .run 1, .run 1] = some s ∧
      s.popped = [{ tag := tagDelivery }] ∧ s.queue.mMessages = [{ tag := tagOk }] ∧
      s.popped <+: s.pushed ∧ s.removed 2 = [] ∧ s.undefined = false := by
  have hrun : ((queueSystem (Fin 3)).run (queueSystem (Fin 3)).init
      [.dequeue 1, .run 1, .enqueue 0 { tag := tagDelivery }, .run 0, .dequeue 2, .run 2,
        .run 2 true, .run 0, .enqueue 0 { tag := tagOk }, .run 0, .run 1, .run 1]).map
      (fun s => (s.popped, s.queue.mMessages, s.returned 2)) =
      some ([{ tag := tagDelivery }], [{ tag := tagOk }], some none) := by
    decide +kernel
  rcases TransitionSystem.exists_reachable_of_run hrun with ⟨s, hs, hend, hreach⟩
  rw [Prod.mk.injEq, Prod.mk.injEq] at hend
  rcases hend with ⟨hpopped, hqueue, hreturned⟩
  rcases queue_safety hreach with ⟨-, -, hdefined, hprefix, -, hremoved⟩
  exact ⟨s, hs, hpopped, hqueue, hprefix, hremoved 2 none hreturned, hdefined⟩

end ChatServer
