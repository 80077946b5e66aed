import ChatServer.ReceiverClient
import ChatServer.SenderClient

/-!
# The client programs

The two {lit}`main` functions as resumable programs, from the login to the end of the
process: at each control point a client gives its next call and, for every result, the
client after it.  The clients do not ignore the signal of a write to a connection that
its peer has closed, so a send may end the process instead of returning.  The loops of
{lit}`ReceiverClient` and {lit}`SenderClient` are what these programs do when nothing
happens between their calls.

Main results:

- Definitions {lit}`receiverMain` and {lit}`senderMain`, to be read against
  {lit}`receiver.cpp` and {lit}`sender.cpp`.
- Theorem {lit}`client_runs_deliveryLoop`: the receiver program runs the delivery loop.
- Theorem {lit}`client_runs_commandLoop`: the sender program runs the command loop.

Current gaps:

- The arguments of the command line have been parsed and the connection is open.
- The lines of the user are given in advance; the user may type them at any time.
- Writes may fail, but always return; the standard streams can always be written.
-/

namespace ChatServer

/-! ## Control points -/

/-- Control points of the {lit}`main` of the sender, each about to make the call it is
named after. -/
inductive SenderMainPc where
  | login
  | loginReply
  | prompt
  | request (quits : Bool)
  | reply (quits : Bool)
deriving DecidableEq

/-- Control points of the {lit}`main` of the receiver. -/
inductive ReceiverMainPc where
  | login
  | loginReply
  | join
  | joinReply
  | deliver
deriving DecidableEq

/-- Control points of a client: it has not been started, it runs one of the programs,
it has returned, an exception has ended it, or the signal of a refused write has. -/
inductive ClientPc where
  | absent
  | sender (p : SenderMainPc)
  | receiver (p : ReceiverMainPc)
  | exited (status : Nat)
  | aborted
  | killed
deriving DecidableEq

/-- A client with its arguments, its message variable and its standard streams. -/
structure Client where
  pc : ClientPc := .absent
  username : Bytes := []
  roomName : Bytes := []
  msg : Message := {}
  stdin : Bytes := []
  stdout : Bytes := []
  stderr : Bytes := []
deriving DecidableEq

/-- The client at another control point. -/
def Client.goto (cl : Client) (pc : ClientPc) : Client :=
  { cl with pc := pc }

/-- The process has ended. -/
def ClientPc.ended : ClientPc → Bool
  | .exited _ | .aborted | .killed => true
  | _ => false

/-- Lines as they are printed. -/
def endLines (lines : List Bytes) : Bytes :=
  lines.flatMap fun line => line ++ [newline]

/-- The client after printing lines on its error stream. -/
def Client.complain (cl : Client) (lines : List Bytes) : Client :=
  { cl with stderr := cl.stderr ++ endLines lines }

/-! ## The programs -/

/-- The next call of a client and its continuation; the result of a receive is ignored
by all of them. -/
inductive ClientOp where
  | halt
  | send (msg : Message) (k : Bool → Client)
  | receive (msg : Message) (k : Message → Client)
  | getline (k : Bytes → Bytes → Client)

/-- The {lit}`main` of the receiver. -/
def receiverMain (cl : Client) : ReceiverMainPc → ClientOp
  | .login => .send { tag := tagRlogin, data := cl.username } fun ok =>
      if !ok then (cl.complain [cl.username]).goto (.exited 1)
      else cl.goto (.receiver .loginReply)
  | .loginReply => .receive {} fun msg =>
      if msg.tag ≠ tagOk then (cl.complain [msg.data]).goto (.exited 1)
      else cl.goto (.receiver .join)
  | .join => .send { tag := tagJoin, data := cl.roomName } fun ok =>
      if !ok then (cl.complain [cl.roomName]).goto (.exited 2)
      else cl.goto (.receiver .joinReply)
  | .joinReply => .receive {} fun msg =>
      if msg.tag ≠ tagOk then (cl.complain [msg.data]).goto (.exited 2)
      else { cl with msg := {}, pc := .receiver .deliver }
  | .deliver => .receive cl.msg fun msg =>
      { cl.complain (deliveryOutput msg).2 with
        msg := msg, stdout := cl.stdout ++ endLines (deliveryOutput msg).1 }

/-- The {lit}`main` of the sender. -/
def senderMain (cl : Client) : SenderMainPc → ClientOp
  | .login => .send { tag := tagSlogin, data := cl.username } fun ok =>
      if !ok then (cl.complain [cl.username]).goto (.exited 1)
      else cl.goto (.sender .loginReply)
  | .loginReply => .receive {} fun msg =>
      if msg.tag ≠ tagOk then (cl.complain [msg.data]).goto (.exited 1)
      else cl.goto (.sender .prompt)
  | .prompt => .getline fun line stdin =>
      let cl := { cl with stdin := stdin, stdout := cl.stdout ++ str "> " }
      match parseLine line with
      | none => cl.goto .aborted
      | some .nothing => cl.goto (.sender .prompt)
      | some (.complain text) => { cl with stderr := cl.stderr ++ text, pc := .sender .prompt }
      | some (.ask msg quits) => { cl with msg := msg, pc := .sender (.request quits) }
  | .request quits => .send cl.msg fun ok =>
      if !ok then (cl.complain [str "Send Failed"]).goto (.sender (.reply quits))
      else cl.goto (.sender (.reply quits))
  | .reply quits => .receive cl.msg fun msg =>
      { (if msg.tag ≠ tagOk then cl.complain [msg.data] else cl) with
        msg := msg, pc := if quits then .exited 0 else .sender .prompt }

/-- The call that a client is about to make. -/
def Client.code (cl : Client) : ClientOp :=
  match cl.pc with
  | .sender p => senderMain cl p
  | .receiver p => receiverMain cl p
  | .absent | .exited _ | .aborted | .killed => .halt

/-- The client after a send: the program goes on with the result, unless the signal of a
refused write has ended the process. -/
def Client.afterSend (cl : Client) (ok : Bool) (writes : ClientWrites) (k : Bool → Client) :
    Client :=
  if !ok && writes.epipe then cl.goto .killed else k ok

/-- The program of a sender client. -/
theorem Client.code_sender {cl : Client} {p : SenderMainPc} (hpc : cl.pc = .sender p) :
    cl.code = senderMain cl p := by
  simp [code, hpc]

/-- The program of a receiver client. -/
theorem Client.code_receiver {cl : Client} {p : ReceiverMainPc} (hpc : cl.pc = .receiver p) :
    cl.code = receiverMain cl p := by
  simp [code, hpc]

/-! ## Clients that run alone -/

/-- A call of a client on its connection when nothing else happens: the client and the
connection afterwards, and the bytes that reach the socket. -/
def ClientOp.perform (cl : Client) (conn : Connection) (writes : ClientWrites) :
    ClientOp → Option (Client × Connection × Bytes)
  | .halt => none
  | .send msg k =>
      let r := conn.send msg writes.results
      some (cl.afterSend r.1 writes k, r.2.2, r.2.1)
  | .receive msg k => some (k (conn.receive msg).2.1, (conn.receive msg).2.2, [])
  | .getline k =>
      some (k (ChatServer.getline cl.stdin).1 (ChatServer.getline cl.stdin).2, conn, [])

/-- A client with its connection, and all bytes that it has sent. -/
structure LoneClient where
  client : Client
  conn : Connection
  sent : Bytes := []

/-- The next call of a client that runs alone. -/
def LoneClient.next (s : LoneClient) (writes : ClientWrites) : Option LoneClient :=
  (s.client.code.perform s.client s.conn writes).map fun r =>
    { client := r.1, conn := r.2.1, sent := s.sent ++ r.2.2 }

/-- Some calls of a client that runs alone, each with the results of its writes. -/
def LoneClient.run (s : LoneClient) : List ClientWrites → Option LoneClient
  | [] => some s
  | writes :: more => (s.next writes).bind fun s' => s'.run more

/-- Lines are printed one after the other. -/
theorem endLines_append (lines lines' : List Bytes) :
    endLines (lines ++ lines') = endLines lines ++ endLines lines' :=
  List.flatMap_append

/-- A run in two parts. -/
theorem LoneClient.run_append (s : LoneClient) (calls calls' : List ClientWrites) :
    s.run (calls ++ calls') = (s.run calls).bind fun s' => s'.run calls' := by
  induction calls generalizing s with
  | nil => rfl
  | cons writes calls ih =>
      cases hnext : s.next writes with
      | none => simp [run, hnext]
      | some s' => simp [run, hnext, ih]

/-- The receiver program in its loop runs the delivery loop, one pass for each call. -/
theorem client_runs_deliveryLoop {s : LoneClient} (hpc : s.client.pc = .receiver .deliver)
    (calls : List ClientWrites) :
    ∃ s', s.run calls = some s' ∧ s'.client.pc = .receiver .deliver ∧
      s'.client.stdout = s.client.stdout ++
        endLines (deliveryLoop s.conn s.client.msg calls.length).1 ∧
      s'.client.stderr = s.client.stderr ++
        endLines (deliveryLoop s.conn s.client.msg calls.length).2 ∧
      s'.sent = s.sent := by
  induction calls generalizing s with
  | nil => exact ⟨s, rfl, hpc, by simp [deliveryLoop, endLines]⟩
  | cons writes calls ih =>
      let msg := (s.conn.receive s.client.msg).2.1
      let s₁ : LoneClient :=
        { client := { s.client.complain (deliveryOutput msg).2 with
            msg := msg, stdout := s.client.stdout ++ endLines (deliveryOutput msg).1 }
          conn := (s.conn.receive s.client.msg).2.2
          sent := s.sent ++ [] }
      have hnext : s.next writes = some s₁ := by
        rw [LoneClient.next, Client.code_receiver hpc]
        rfl
      rcases @ih s₁ hpc with ⟨s', hrun, hpc', hstdout, hstderr, hsent⟩
      refine ⟨s', by simpa [LoneClient.run, hnext] using hrun, hpc', ?_, ?_, ?_⟩
      · rw [hstdout]
        simp [s₁, msg, deliveryLoop, endLines_append]
      · rw [hstderr]
        simp [s₁, msg, deliveryLoop, endLines_append, Client.complain]
      · simpa [s₁] using hsent

/-- The program prints a delivery and then its repetition at the end of the stream. -/
theorem client_runs_deliveryLoop_twice :
    ∃ s' : LoneClient,
      ({ client := { pc := .receiver .deliver }
         conn := { fdbuf := { rioBuf := str "delivery:hall:bob:hi\n" } } } :
        LoneClient).run [{}, {}] = some s' ∧
      s'.client.stdout = endLines (deliveryLoop
        { fdbuf := { rioBuf := str "delivery:hall:bob:hi\n" } } {} 2).1 := by
  obtain ⟨s', hrun, -, hstdout, -⟩ := client_runs_deliveryLoop
    (s := { client := { pc := .receiver .deliver }
            conn := { fdbuf := { rioBuf := str "delivery:hall:bob:hi\n" } } }) rfl [{}, {}]
  exact ⟨s', hrun, hstdout⟩

/-! ## The sender program runs the command loop -/

/-- The control point of the sender program between two passes. -/
def Flow.pc : Flow → ClientPc
  | .next => .sender .prompt
  | .exit => .exited 0
  | .outOfRange => .aborted
  | .killed => .killed

/-- The sender program between two passes of its loop. -/
structure LoneClient.Between (s : LoneClient) (t : SenderClient) : Prop where
  pc : s.client.pc = t.flow.pc
  conn : s.conn = t.conn
  stdin : s.client.stdin = t.stdin
  stdout : s.client.stdout = t.stdout
  stderr : s.client.stderr = t.stderr
  sent : s.sent = t.sent

/-- A request and its reply, or a request whose write ends the process. -/
theorem LoneClient.run_exchange {s : LoneClient} {quits : Bool}
    (hpc : s.client.pc = .sender (.request quits)) (writes : ClientWrites) :
    ∃ calls s', s.run calls = some s' ∧
      s'.client.pc = (exchange s.conn s.client.msg quits writes).flow.pc ∧
      s'.conn = (exchange s.conn s.client.msg quits writes).conn ∧
      s'.client.stdin = s.client.stdin ∧ s'.client.stdout = s.client.stdout ∧
      s'.client.stderr =
        s.client.stderr ++ (exchange s.conn s.client.msg quits writes).stderr ∧
      s'.sent = s.sent ++ (exchange s.conn s.client.msg quits writes).sent := by
  have hfailed : endLines [str "Send Failed"] = str "Send Failed\n" := by decide
  let r := s.conn.send s.client.msg writes.results
  have hnext : s.next writes = some
      { client := s.client.afterSend r.1 writes fun ok =>
          if !ok then (s.client.complain [str "Send Failed"]).goto (.sender (.reply quits))
          else s.client.goto (.sender (.reply quits))
        conn := r.2.2
        sent := s.sent ++ r.2.1 } := by
    rw [next, Client.code_sender hpc]
    rfl
  by_cases hkilled : (!r.1 && writes.epipe) = true
  · have hpass : exchange s.conn s.client.msg quits writes =
        { conn := r.2.2, sent := r.2.1, flow := .killed } := if_pos hkilled
    rw [Client.afterSend, if_pos hkilled] at hnext
    refine ⟨[writes], _, by rw [run, hnext]; rfl, ?_⟩
    rw [hpass]
    exact ⟨rfl, rfl, rfl, rfl, (List.append_nil _).symm, rfl⟩
  · let cl₁ : Client :=
      if !r.1 then (s.client.complain [str "Send Failed"]).goto (.sender (.reply quits))
      else s.client.goto (.sender (.reply quits))
    let s₁ : LoneClient := { client := cl₁, conn := r.2.2, sent := s.sent ++ r.2.1 }
    have hs₁ : s.next writes = some s₁ := by
      rw [hnext, Client.afterSend, if_neg hkilled]
    have hpc₁ : cl₁.pc = .sender (.reply quits) := by
      unfold cl₁
      split <;> rfl
    have hmsg₁ : cl₁.msg = s.client.msg := by
      unfold cl₁
      split <;> rfl
    have hstdin₁ : cl₁.stdin = s.client.stdin := by
      unfold cl₁
      split <;> rfl
    have hstdout₁ : cl₁.stdout = s.client.stdout := by
      unfold cl₁
      split <;> rfl
    have hstderr₁ : cl₁.stderr =
        s.client.stderr ++ if !r.1 then str "Send Failed\n" else [] := by
      unfold cl₁
      split <;> simp_all [Client.goto, Client.complain]
    have hnext₁ : s₁.next {} =
        ((senderMain cl₁ (.reply quits)).perform cl₁ s₁.conn {}).map fun r =>
          { client := r.1, conn := r.2.1, sent := s₁.sent ++ r.2.2 } := by
      rw [next, Client.code_sender hpc₁]
    refine ⟨[writes, {}], _, by simp only [run, hs₁, hnext₁, Option.bind_some]; rfl, ?_⟩
    simp only [exchange, r, if_neg hkilled, hmsg₁, s₁, true_and]
    refine ⟨?_, ?_, ?_, ?_, by simp⟩
    · cases quits <;> rfl
    · split <;> simp [Client.complain, hstdin₁]
    · split <;> simp [Client.complain, hstdout₁]
    · split <;> simp [Client.complain, hstderr₁, endLines, r]

/-- A pass of the loop takes some calls of the program: one, and two more for a request
and its reply. -/
theorem LoneClient.Between.pass {s : LoneClient} {t : SenderClient} (h : s.Between t)
    (hflow : t.flow = .next) (writes : ClientWrites) :
    ∃ calls s', s.run calls = some s' ∧ s'.Between (t.pass writes) := by
  have hpc : s.client.pc = .sender .prompt := by rw [h.pc, hflow]; rfl
  have hnext : s.next {} =
      ((senderMain s.client .prompt).perform s.client s.conn {}).map fun r =>
        { client := r.1, conn := r.2.1, sent := s.sent ++ r.2.2 } := by
    rw [next, Client.code_sender hpc]
  simp only [SenderClient.pass, if_pos hflow, senderIteration]
  cases hparse : parseLine (getline t.stdin).1 with
  | none =>
      refine ⟨[{}], _, by simp [run, hnext, senderMain, ClientOp.perform, h.stdin, hparse]; rfl, ?_⟩
      constructor <;> simp [Client.goto, Flow.pc, h.conn, h.stdout, h.stderr, h.sent]
  | some command =>
      cases command with
      | nothing =>
          refine ⟨[{}], _,
            by simp [run, hnext, senderMain, ClientOp.perform, h.stdin, hparse]; rfl, ?_⟩
          constructor <;> simp [Client.goto, Flow.pc, Command.pass, h.conn, h.stdout, h.stderr,
            h.sent]
      | complain text =>
          refine ⟨[{}], _,
            by simp [run, hnext, senderMain, ClientOp.perform, h.stdin, hparse]; rfl, ?_⟩
          constructor <;> simp [Flow.pc, Command.pass, h.conn, h.stdout, h.stderr, h.sent]
      | ask msg quits =>
          let s₁ : LoneClient :=
            { client := { s.client with
                stdin := (getline t.stdin).2, stdout := s.client.stdout ++ str "> "
                msg := msg, pc := .sender (.request quits) }
              conn := s.conn
              sent := s.sent ++ [] }
          have hs₁ : s.next {} = some s₁ := by
            simp [hnext, senderMain, ClientOp.perform, h.stdin, hparse, s₁]
          rcases run_exchange (s := s₁) rfl writes with
            ⟨calls, s', hrun, hpc', hconn, hstdin, hstdout, hstderr, hsent⟩
          refine ⟨{} :: calls, s', by rw [run, hs₁]; exact hrun, ?_⟩
          constructor
          · rw [hpc']
            simp [s₁, Command.pass, h.conn]
          · rw [hconn]
            simp [s₁, Command.pass, h.conn]
          · rw [hstdin]
            rfl
          · rw [hstdout]
            simp [s₁, h.stdout]
          · rw [hstderr]
            simp [s₁, Command.pass, h.conn, h.stderr]
          · rw [hsent]
            simp [s₁, Command.pass, h.conn, h.sent]

/-- The sender program runs the command loop: after some calls it is where the loop is
after {lit}`n` passes, and has read, sent and printed the same. -/
theorem client_runs_commandLoop {s : LoneClient} {t : SenderClient} (h : s.Between t)
    (writes : ℕ → ClientWrites) (n : ℕ) :
    ∃ calls s', s.run calls = some s' ∧ s'.Between (commandLoop writes t n) := by
  induction n generalizing s t writes with
  | zero => exact ⟨[], s, rfl, h⟩
  | succ n ih =>
      by_cases hflow : t.flow = .next
      · rcases h.pass hflow (writes 0) with ⟨calls, s₁, hrun, h₁⟩
        rcases ih h₁ fun i => writes (i + 1) with ⟨calls', s', hrun', h'⟩
        exact ⟨calls ++ calls', s', by rw [LoneClient.run_append, hrun]; exact hrun', h'⟩
      · have hstay : t.pass (writes 0) = t := by simp [SenderClient.pass, hflow]
        rw [commandLoop, hstay]
        exact ih h fun i => writes (i + 1)

/-- Three passes of a sender whose user types two lines. -/
theorem client_runs_commandLoop_quit :
    ∃ calls s',
      ({ client := { pc := .sender .prompt, stdin := str "hi\n/quit\n" }
         conn := { fdbuf := { rioBuf := str "ok:sent\nok:quit\n" } } } :
        LoneClient).run calls = some s' ∧
      s'.Between (commandLoop (fun _ => {})
        { conn := { fdbuf := { rioBuf := str "ok:sent\nok:quit\n" } }
          stdin := str "hi\n/quit\n" } 3) :=
  client_runs_commandLoop ⟨rfl, rfl, rfl, rfl, rfl, rfl⟩ (fun _ => {}) 3

end ChatServer
