import ChatServer.SenderClient

/-!
# The end of the command loop

The command loop of the sender is only left by a quit, by the exception of a join
without a room, and by the signal of a write that is refused; the end of the input reads
as empty lines.  How the loop goes on is therefore a function of the lines of the input
and of the results of the writes; what the server answers has no part in it.

Main results:

- Theorem {lit}`flow_commandLoop`: how the loop goes on after a number of passes is a
  function of what these passes meet.
- Theorem {lit}`commandLoop_ends_iff`: the inputs on which the loop ends.

Current gaps:

- Every send and every receive returns.
-/

namespace ChatServer

/-! ## What a pass meets -/

/-- A line on which the client throws. -/
def Throws (line : Bytes) : Prop :=
  trim line = str "/join"

/-- A line that is taken for a quit. -/
def Quits (line : Bytes) : Prop :=
  str "/quit" <+: trim line

instance (line : Bytes) : Decidable (Throws line) :=
  inferInstanceAs (Decidable (trim line = str "/join"))

instance (line : Bytes) : Decidable (Quits line) :=
  inferInstanceAs (Decidable (str "/quit" <+: trim line))

/-- A line of the input, and the results of the writes of the pass that reads it. -/
structure Turn where
  line : Bytes
  writes : ClientWrites := {}
deriving DecidableEq

/-- The lines of the input with the results of the writes. -/
def turns (stdin : Bytes) (writes : ℕ → ClientWrites) : List Turn :=
  (stdin.splitOn newline).mapIdx fun i line => { line := line, writes := writes i }

/-- The line is a request, and the signal of its write ends the process. -/
def Turn.Killed (t : Turn) : Prop :=
  ∃ msg ∈ requestOf t.line, t.writes.Refuses msg

instance (t : Turn) : Decidable t.Killed :=
  inferInstanceAs (Decidable (∃ msg ∈ requestOf t.line, t.writes.Refuses msg))

/-- How the loop goes on after a line. -/
def Turn.flow (t : Turn) : Flow :=
  if Throws t.line then .outOfRange
  else if t.Killed then .killed
  else if Quits t.line then .exit
  else .next

/-- How the loop goes on after some lines. -/
def turnsFlow : List Turn → Flow
  | [] => .next
  | t :: ts => if t.flow = .next then turnsFlow ts else t.flow

/-! ## The flow of a pass -/

/-- The client throws exactly on the lines that it cannot parse. -/
theorem throws_iff (raw : Bytes) : Throws raw ↔ parseLine raw = none := by
  have hform := parseLine_form raw
  rw [Throws]
  generalize parseLine raw = command at hform ⊢
  generalize trim raw = line at hform ⊢
  have hkeyword : str "/join" <+: str "/join" := List.prefix_rfl
  cases hform with
  | empty h =>
      subst line
      decide
  | text hne hslash =>
      refine iff_of_false (fun h => hslash ?_) (Option.some_ne_none _)
      exact head_of_keyword (.inl (h ▸ hkeyword))
  | bareJoin h => exact iff_of_true h rfl
  | joinByte c h =>
      subst line
      exact iff_of_false (by simp) (Option.some_ne_none _)
  | join c d name h =>
      subst line
      exact iff_of_false (by simp) (Option.some_ne_none _)
  | leave hleave =>
      refine iff_of_false (fun h => ?_) (Option.some_ne_none _)
      exact keywords_disjoint.1 ⟨h ▸ hkeyword, hleave⟩
  | quit hquit =>
      refine iff_of_false (fun h => ?_) (Option.some_ne_none _)
      exact keywords_disjoint.2.1 ⟨h ▸ hkeyword, hquit⟩
  | unknown _ hjoin _ _ =>
      exact iff_of_false (fun h => hjoin (h ▸ hkeyword)) (Option.some_ne_none _)

/-- The lines that are taken for a quit are those that leave the loop. -/
theorem quits_iff (raw : Bytes) : Quits raw ↔ ∃ msg, parseLine raw = some (.ask msg true) := by
  have hform := parseLine_form raw
  rw [Quits]
  generalize parseLine raw = command at hform ⊢
  generalize trim raw = line at hform ⊢
  cases hform with
  | empty h =>
      subst line
      exact iff_of_false (by decide) (by simp)
  | text hne hslash =>
      exact iff_of_false (fun h => hslash (head_of_keyword (.inr (.inr h)))) (by simp)
  | bareJoin h =>
      subst line
      exact iff_of_false (by decide) (by simp)
  | joinByte c h =>
      subst line
      refine iff_of_false (fun h => ?_) (by simp)
      exact keywords_disjoint.2.1 ⟨List.prefix_append _ _, h⟩
  | join c d name h =>
      subst line
      refine iff_of_false (fun h => ?_) (by simp)
      exact keywords_disjoint.2.1 ⟨List.prefix_append _ _, h⟩
  | leave hleave => exact iff_of_false (fun h => keywords_disjoint.2.2 ⟨hleave, h⟩) (by simp)
  | quit hquit => exact iff_of_true hquit ⟨_, rfl⟩
  | unknown _ _ _ hquit => exact iff_of_false hquit (by simp)

theorem Throws.not_quits {line : Bytes} (hthrows : Throws line) : ¬ Quits line := by
  rw [quits_iff, (throws_iff line).mp hthrows]
  rintro ⟨msg, h⟩
  cases h

/-- The flow of a pass only depends on the line and on the results of its writes. -/
theorem Turn.flow_eq (t : Turn) (conn : Connection) :
    t.flow =
      match senderIteration conn t.line t.writes with
      | none => .outOfRange
      | some p => p.flow := by
  have hthrows := throws_iff t.line
  have hquits := quits_iff t.line
  rw [flow, senderIteration]
  cases hparse : parseLine t.line with
  | none =>
      rw [if_pos (hthrows.mpr hparse)]
      rfl
  | some command =>
      rw [hparse] at hthrows hquits
      rw [if_neg (fun h => Option.some_ne_none _ (hthrows.mp h))]
      cases command with
      | nothing =>
          have hkilled : ¬ t.Killed := by simp [Killed, requestOf, hparse]
          have hquit : ¬ Quits t.line := by simp [hquits]
          rw [if_neg hkilled, if_neg hquit]
          rfl
      | complain text =>
          have hkilled : ¬ t.Killed := by simp [Killed, requestOf, hparse]
          have hquit : ¬ Quits t.line := by simp [hquits]
          rw [if_neg hkilled, if_neg hquit]
          rfl
      | ask msg quits =>
          have hkilled : t.Killed ↔ t.writes.Refuses msg := by simp [Killed, requestOf, hparse]
          have hquit : Quits t.line ↔ quits = true := by simp [hquits]
          simp [hkilled, hquit, Command.pass, flow_exchange]

/-! ## The flow of the loop -/

/-- Lines are read off the input one by one; after the last one the input is empty. -/
theorem splitOn_getline (stdin : Bytes) :
    stdin.splitOn newline = (getline stdin).1 :: (getline stdin).2.splitOn newline ∨
      stdin.splitOn newline = [(getline stdin).1] ∧ (getline stdin).2 = [] := by
  by_cases hmem : newline ∈ stdin
  · rcases List.eq_append_cons_of_mem hmem with ⟨line, rest, rfl, hline⟩
    have hread : getline (line ++ newline :: rest) = (line, rest) := by
      have hall : ∀ c ∈ line, (c != newline) = true := by
        intro c hc
        simpa using ne_of_mem_of_not_mem hc hline
      simp [getline, List.takeWhile_append_of_pos hall, List.dropWhile_append_of_pos hall]
    rw [hread, List.splitOn_append_cons_self_of_not_mem hline]
    exact .inl rfl
  · have hall : ∀ c ∈ stdin, (c != newline) = true := by
      intro c hc
      simpa using ne_of_mem_of_not_mem hc hmem
    have hread : getline stdin = (stdin, []) := by
      simp only [getline, List.takeWhile_eq_self_iff.mpr hall, List.dropWhile_eq_nil_iff.mpr hall,
        List.tail_nil]
    rw [hread, List.splitOn_eq_singleton hmem]
    exact .inr ⟨rfl, rfl⟩

/-- A pass reads one line and goes on as its turn says. -/
theorem SenderClient.pass_next {s : SenderClient} (hflow : s.flow = .next)
    (writes : ClientWrites) :
    (s.pass writes).flow = Turn.flow { line := (getline s.stdin).1, writes := writes } ∧
      (s.pass writes).stdin = (getline s.stdin).2 := by
  rw [Turn.flow_eq _ s.conn, SenderClient.pass, if_pos hflow]
  dsimp only
  cases senderIteration s.conn (getline s.stdin).1 writes with
  | none => exact ⟨rfl, rfl⟩
  | some p => exact ⟨rfl, rfl⟩

/-- A loop that was left stays left. -/
theorem commandLoop_left {s : SenderClient} (hflow : s.flow ≠ .next)
    (writes : ℕ → ClientWrites) (n : ℕ) : commandLoop writes s n = s := by
  induction n generalizing writes with
  | zero => rfl
  | succ n ih => rw [commandLoop, SenderClient.pass, if_neg hflow, ih]

/-- On an empty line nothing happens. -/
theorem Turn.flow_of_empty (writes : ClientWrites) :
    Turn.flow { line := [], writes := writes } = .next :=
  (Turn.flow_eq _ {}).trans rfl

/-- The flow after the first turns of the input. -/
theorem turnsFlow_take_turns (stdin : Bytes) (writes : ℕ → ClientWrites) (n : ℕ) :
    turnsFlow ((turns stdin writes).take (n + 1)) =
      if Turn.flow { line := (getline stdin).1, writes := writes 0 } = .next then
        turnsFlow ((turns (getline stdin).2 fun i => writes (i + 1)).take n)
      else Turn.flow { line := (getline stdin).1, writes := writes 0 } := by
  unfold turns
  rcases splitOn_getline stdin with h | ⟨h, hrest⟩
  · rw [h, List.mapIdx_cons, List.take_succ_cons, turnsFlow]
  · rw [h, hrest, List.mapIdx_cons, List.take_succ_cons, turnsFlow, List.splitOn_nil]
    cases n with
    | zero => rfl
    | succ n => simp [turnsFlow, Turn.flow_of_empty]

/-- How the loop goes on after a number of passes is what the turns of these passes say,
and behind the last line it stays so. -/
theorem flow_commandLoop {s : SenderClient} (hflow : s.flow = .next)
    (writes : ℕ → ClientWrites) (n : ℕ) :
    (commandLoop writes s n).flow = turnsFlow ((turns s.stdin writes).take n) := by
  induction n generalizing s writes with
  | zero => exact hflow
  | succ n ih =>
      rcases SenderClient.pass_next hflow (writes 0) with ⟨hpass, hstdin⟩
      rw [commandLoop, turnsFlow_take_turns, ← hpass, ← hstdin]
      split_ifs with hnext
      · exact ih hnext _
      · rw [commandLoop_left hnext]

/-! ## The inputs on which the loop ends -/

/-- The flow after a turn and some more. -/
theorem turnsFlow_cons (t : Turn) (ts : List Turn) :
    turnsFlow (t :: ts) =
      if Throws t.line then .outOfRange
      else if t.Killed then .killed
      else if Quits t.line then .exit
      else turnsFlow ts := by
  rw [turnsFlow, Turn.flow]
  by_cases hthrows : Throws t.line
  · simp [hthrows]
  by_cases hkilled : t.Killed
  · simp [hthrows, hkilled]
  by_cases hquits : Quits t.line
  · simp [hthrows, hkilled, hquits]
  · simp [hthrows, hkilled, hquits]

/-- An element with one property behind elements with another one is the first element of
a list, or stands in the rest of it. -/
theorem exists_behind_cons_iff {α : Type*} {P Q : α → Prop} {x : α} {xs : List α} :
    (∃ before t after, x :: xs = before ++ t :: after ∧ (∀ u ∈ before, P u) ∧ Q t) ↔
      Q x ∨ P x ∧ ∃ before t after, xs = before ++ t :: after ∧ (∀ u ∈ before, P u) ∧ Q t := by
  constructor
  · rintro ⟨before, t, after, hsplit, hbefore, ht⟩
    cases before with
    | nil =>
        rw [List.nil_append, List.cons.injEq] at hsplit
        exact .inl (hsplit.1 ▸ ht)
    | cons u before =>
        rw [List.cons_append, List.cons.injEq] at hsplit
        rw [List.forall_mem_cons] at hbefore
        exact .inr ⟨hsplit.1 ▸ hbefore.1, before, t, after, hsplit.2, hbefore.2, ht⟩
  · rintro (hx | ⟨hx, before, t, after, rfl, hbefore, ht⟩)
    · exact ⟨[], x, xs, rfl, by simp, hx⟩
    · exact ⟨x :: before, t, after, rfl, List.forall_mem_cons.mpr ⟨hx, hbefore⟩, ht⟩

/-- Some turns leave the loop by a quit exactly if the line of one of them is taken for a
quit, and neither an exception before it nor a signal up to it ends the process. -/
theorem turnsFlow_eq_exit_iff (ts : List Turn) :
    turnsFlow ts = .exit ↔ ∃ before t after, ts = before ++ t :: after ∧
      (∀ u ∈ before, ¬ Throws u.line ∧ ¬ u.Killed) ∧ Quits t.line ∧ ¬ t.Killed := by
  induction ts with
  | nil =>
      refine iff_of_false (by decide) ?_
      rintro ⟨before, t, after, hsplit, -⟩
      exact absurd hsplit.symm (by simp)
  | cons first ts ih =>
      rw [turnsFlow_cons, exists_behind_cons_iff, ← ih]
      by_cases hthrows : Throws first.line
      · simp [hthrows, hthrows.not_quits]
      by_cases hkilled : first.Killed
      · simp [hthrows, hkilled]
      by_cases hquits : Quits first.line
      · simp [hthrows, hkilled, hquits]
      · simp [hthrows, hkilled, hquits]

/-- Some turns end the loop exactly if the line of one of them is taken for a quit, or the
client throws on it, or the signal of its write ends the process. -/
theorem turnsFlow_ne_next_iff (ts : List Turn) :
    turnsFlow ts ≠ .next ↔ ∃ t ∈ ts, Throws t.line ∨ Quits t.line ∨ t.Killed := by
  induction ts with
  | nil => simp [turnsFlow]
  | cons first ts ih =>
      rw [turnsFlow_cons, List.exists_mem_cons_iff, ← ih]
      split_ifs with hthrows hkilled hquits
      · exact iff_of_true (by decide) (.inl (.inl hthrows))
      · exact iff_of_true (by decide) (.inl (.inr (.inr hkilled)))
      · exact iff_of_true (by decide) (.inl (.inr (.inl hquits)))
      · simp [hthrows, hkilled, hquits]

/-- The turns behind one that leaves the loop have no part in the flow. -/
theorem turnsFlow_of_take (ts : List Turn) (n : ℕ) (hleft : turnsFlow (ts.take n) ≠ .next) :
    turnsFlow ts = turnsFlow (ts.take n) := by
  induction ts generalizing n with
  | nil => rw [List.take_nil]
  | cons t ts ih =>
      cases n with
      | zero => exact absurd rfl hleft
      | succ n =>
          rw [List.take_succ_cons, turnsFlow] at hleft ⊢
          rw [turnsFlow]
          split_ifs at hleft ⊢ with hnext
          · exact ih n hleft
          · rfl

/-- The loop is left as the turns of the input say. -/
theorem exists_flow_commandLoop_iff (stdin : Bytes) (conn : Connection)
    (writes : ℕ → ClientWrites) {flow : Flow} (hleft : flow ≠ .next) :
    (∃ n, (commandLoop writes { stdin := stdin, conn := conn } n).flow = flow) ↔
      turnsFlow (turns stdin writes) = flow := by
  have hrun := fun n => @flow_commandLoop { stdin := stdin, conn := conn } rfl writes n
  simp only [hrun]
  constructor
  · rintro ⟨n, rfl⟩
    exact turnsFlow_of_take _ n hleft
  · intro h
    exact ⟨(turns stdin writes).length, by rwa [List.take_length]⟩

/-- The loop ends by {lit}`break` exactly if some line of the input is taken for a quit,
the client does not throw on a line before it, and no request up to it meets a connection
that its peer has closed; it ends at all exactly if some line is taken for a quit, or the
client throws on it, or the signal of its write ends the process.  What the server
answers has no part in this. -/
theorem commandLoop_ends_iff (stdin : Bytes) (conn : Connection) (writes : ℕ → ClientWrites) :
    ((∃ n, (commandLoop writes { stdin := stdin, conn := conn } n).flow = .exit) ↔
        ∃ before t after, turns stdin writes = before ++ t :: after ∧
          (∀ u ∈ before, ¬ Throws u.line ∧ ¬ u.Killed) ∧ Quits t.line ∧ ¬ t.Killed) ∧
      ((∃ n, (commandLoop writes { stdin := stdin, conn := conn } n).flow ≠ .next) ↔
        ∃ t ∈ turns stdin writes, Throws t.line ∨ Quits t.line ∨ t.Killed) := by
  constructor
  · rw [exists_flow_commandLoop_iff stdin conn writes (by decide), turnsFlow_eq_exit_iff]
  · rw [← turnsFlow_ne_next_iff]
    constructor
    · rintro ⟨n, hn⟩
      rwa [(exists_flow_commandLoop_iff stdin conn writes hn).mp ⟨n, rfl⟩]
    · intro h
      rcases (exists_flow_commandLoop_iff stdin conn writes h).mpr rfl with ⟨n, hn⟩
      exact ⟨n, hn ▸ h⟩

/-- On an input without a quit the loop reads empty lines for ever. -/
theorem commandLoop_without_quit :
    ¬ ∃ n, (commandLoop (fun _ => {}) { stdin := str "hi\n", conn := {} } n).flow ≠ .next := by
  rintro ⟨n, hn⟩
  have hflow := (exists_flow_commandLoop_iff (str "hi\n") {} (fun _ => {}) hn).mp ⟨n, rfl⟩
  have hnext : turnsFlow (turns (str "hi\n") fun _ => {}) = .next := by decide
  exact hn (hflow.symm.trans hnext)

end ChatServer
