import Mathlib.Data.List.Infix
import ChatServer.ConnectionContract

/-!
# The sender client

The command loop of the sender's {lit}`main`.  A pass reads a line, trims it,
compares fixed positions of it with the keywords, and exchanges a request and a
reply with the server.  The comparisons only look at the beginning of a line, and the
room name is taken from a fixed position that may lie behind the end of the line.
The client does not ignore the signal of a write to a connection that its peer has
closed, so such a write ends the process.

Main results:

- Definitions {lit}`parseLine`, {lit}`exchange` and {lit}`commandLoop`, to be read
  against {lit}`sender.cpp`.
- Theorem {lit}`parseLine_form`: the forms of a line, each with what it asks for.
- Theorem {lit}`sent_exchange`: the bytes of a request that reach the socket.

Current gaps:

- The login of the client is in {lit}`ClientPrograms`.
- Every call returns, and the standard streams can always be written.
-/

namespace ChatServer

/-! ## Lines and requests -/

def slash : Byte := 47

/-- What is printed about a join without the name of a room. -/
def needsRoomName : Bytes :=
  str "Needs a room name: ./join [room name]\n"

/-- What is printed about any other line that begins with a slash. -/
def invalidCommand : Bytes :=
  str "-Invalid command-\nValid Commands: /join /leave /quit\n"

/-- What a line asks for: nothing, a complaint, or a request and whether the loop is
left after it. -/
inductive Command where
  | nothing
  | complain (text : Bytes)
  | ask (msg : Message) (quits : Bool)
deriving DecidableEq

/-- The part of a pass that compares the line with the keywords; {lit}`none` is an
exception of {lit}`substr`. -/
def parseLine (line : Bytes) : Option Command :=
  let line := trim line
  if line.length ≠ 0 then
    if line.head? = some slash then do
      let _command ← substrFrom? line 1
      if (← substr? line 1 4) = str "join" then
        let roomName ← substrFrom? line 6
        if roomName = [] then some (.complain needsRoomName)
        else some (.ask { tag := tagJoin, data := roomName } false)
      else if (← substr? line 1 5) = str "leave" then
        some (.ask { tag := tagLeave, data := str "left room" } false)
      else if (← substr? line 1 4) = str "quit" then
        some (.ask { tag := tagQuit, data := str "quit room" } true)
      else some (.complain invalidCommand)
    else some (.ask { tag := tagSendall, data := line } false)
  else some .nothing

/-- The request that a line asks for. -/
def requestOf (line : Bytes) : Option Message :=
  match parseLine line with
  | some (.ask msg _) => some msg
  | _ => none

/-! ## The command loop -/

/-- The results of the {lit}`write` calls of one send of a client, and whether an error
among them is that of a connection closed by its peer, which raises {lit}`SIGPIPE`. -/
structure ClientWrites where
  results : List WriteResult := []
  epipe : Bool := false
deriving DecidableEq

/-- The write of the message is refused by a signal: it does not go through, because the
peer has closed the connection. -/
def ClientWrites.Refuses (writes : ClientWrites) (msg : Message) : Prop :=
  ¬ Connection.Written msg writes.results ∧ writes.epipe = true

instance (writes : ClientWrites) (msg : Message) : Decidable (writes.Refuses msg) :=
  inferInstanceAs (Decidable (_ ∧ _))

/-- The loop goes on, was left by {lit}`break`, was left by an exception, or the process
was ended by the signal. -/
inductive Flow where
  | next
  | exit
  | outOfRange
  | killed
deriving DecidableEq

/-- What one pass of the loop does with a line: the bytes that reach the socket, what it
prints on standard error, and how the loop goes on. -/
structure Pass where
  conn : Connection
  sent : Bytes := []
  stderr : Bytes := []
  flow : Flow := .next
deriving DecidableEq

/-- Send a request and receive the reply into the same variable; what the server
refuses is printed. -/
def exchange (conn : Connection) (msg : Message) (quits : Bool) (writes : ClientWrites) :
    Pass :=
  let r := conn.send msg writes.results
  if !r.1 && writes.epipe then { conn := r.2.2, sent := r.2.1, flow := .killed }
  else
    let reply := r.2.2.receive msg
    { conn := reply.2.2
      sent := r.2.1
      stderr := (if !r.1 then str "Send Failed\n" else []) ++
        if reply.2.1.tag ≠ tagOk then reply.2.1.data ++ [newline] else []
      flow := if quits then .exit else .next }

/-- What is left to do in the pass. -/
def Command.pass (conn : Connection) (writes : ClientWrites) : Command → Pass
  | .nothing => { conn := conn }
  | .complain text => { conn := conn, stderr := text }
  | .ask msg quits => exchange conn msg quits writes

/-- What the loop does with a line that was read; {lit}`none` is an exception of
{lit}`substr`. -/
def senderIteration (conn : Connection) (line : Bytes) (writes : ClientWrites) :
    Option Pass :=
  (parseLine line).map (Command.pass conn writes)

/-- {lit}`std::getline` into an empty string, and what is left of the input; at the end
of the input the string stays empty. -/
def getline (stdin : Bytes) : Bytes × Bytes :=
  (stdin.takeWhile fun c => c != newline, (stdin.dropWhile fun c => c != newline).tail)

/-- The state of the client in front of a pass, or after the loop. -/
structure SenderClient where
  stdin : Bytes
  conn : Connection
  flow : Flow := .next
  sent : Bytes := []
  stdout : Bytes := []
  stderr : Bytes := []

/-- One pass of the loop, if it was not left. -/
def SenderClient.pass (s : SenderClient) (writes : ClientWrites) : SenderClient :=
  if s.flow = .next then
    let r := getline s.stdin
    let stdout := s.stdout ++ str "> "
    match senderIteration s.conn r.1 writes with
    | none => { s with stdin := r.2, flow := .outOfRange, stdout := stdout }
    | some p =>
        { stdin := r.2
          conn := p.conn
          flow := p.flow
          sent := s.sent ++ p.sent
          stdout := stdout
          stderr := s.stderr ++ p.stderr }
  else s

/-- The first {lit}`n` passes of the loop; the i-th one meets the results
{lit}`writes i`. -/
def commandLoop (writes : ℕ → ClientWrites) (s : SenderClient) : ℕ → SenderClient
  | 0 => s
  | n + 1 => commandLoop (fun i => writes (i + 1)) (s.pass (writes 0)) n

/-! ## One exchange -/

section

variable (conn : Connection) (msg : Message) (quits : Bool) (writes : ClientWrites)

/-- A request writes the C string of its frame, as far as the writes go. -/
theorem sent_exchange : (exchange conn msg quits writes).sent =
    (rioWritenLoop writes.results (cStr msg.encoding)).2 := by
  have hsent : (exchange conn msg quits writes).sent = (conn.send msg writes.results).2.1 := by
    unfold exchange
    dsimp only
    split <;> rfl
  rw [hsent, Connection.send_eq_writtenLoop]

/-- After a request the loop goes on or is left as the line says, unless the write of the
request ends the process. -/
theorem flow_exchange : (exchange conn msg quits writes).flow =
    if writes.Refuses msg then .killed else if quits then .exit else .next := by
  unfold exchange ClientWrites.Refuses
  rw [Connection.send_eq_writtenLoop]
  by_cases hwritten : Connection.Written msg writes.results
  · simp [hwritten]
  · by_cases hpipe : writes.epipe = true
    · simp [hwritten, hpipe]
    · simp [hwritten, hpipe]

end

/-- Without results of its own every write goes through. -/
theorem ClientWrites.not_refuses_default (msg : Message) : ¬ ({} : ClientWrites).Refuses msg :=
  fun h => Bool.noConfusion h.2

/-! ## The forms of a line -/

/-- What the client takes a trimmed line for: the text of a message, or the keyword that
it begins with. -/
inductive LineForm (line : Bytes) : Option Command → Prop where
  | empty (h : line = []) : LineForm line (some .nothing)
  | text (hne : line ≠ []) (hslash : line.head? ≠ some slash) :
      LineForm line (some (.ask { tag := tagSendall, data := line } false))
  | bareJoin (h : line = str "/join") : LineForm line none
  | joinByte (c : Byte) (h : line = str "/join" ++ [c]) :
      LineForm line (some (.complain needsRoomName))
  | join (c d : Byte) (name : Bytes) (h : line = str "/join" ++ c :: d :: name) :
      LineForm line (some (.ask { tag := tagJoin, data := d :: name } false))
  | leave (h : str "/leave" <+: line) :
      LineForm line (some (.ask { tag := tagLeave, data := str "left room" } false))
  | quit (h : str "/quit" <+: line) :
      LineForm line (some (.ask { tag := tagQuit, data := str "quit room" } true))
  | unknown (hslash : line.head? = some slash) (hjoin : ¬ str "/join" <+: line)
      (hleave : ¬ str "/leave" <+: line) (hquit : ¬ str "/quit" <+: line) :
      LineForm line (some (.complain invalidCommand))

/-- Behind a slash the beginning of the line is compared with the keywords. -/
theorem parseLine_of_slash {raw : Bytes} (hline : (trim raw).head? = some slash) :
    parseLine raw =
      if str "/join" <+: trim raw then
        if (trim raw).length < 6 then none
        else if (trim raw).drop 6 = [] then some (.complain needsRoomName)
        else some (.ask { tag := tagJoin, data := (trim raw).drop 6 } false)
      else if str "/leave" <+: trim raw then
        some (.ask { tag := tagLeave, data := str "left room" } false)
      else if str "/quit" <+: trim raw then
        some (.ask { tag := tagQuit, data := str "quit room" } true)
      else some (.complain invalidCommand) := by
  rcases List.head?_eq_some_iff.mp hline with ⟨rest, hrest⟩
  have hstart : ∀ keyword : Bytes,
      slash :: keyword <+: slash :: rest ↔ rest.take keyword.length = keyword := by
    intro keyword
    rw [List.cons_prefix_cons, List.prefix_iff_eq_take]
    simp [eq_comm]
  have hjoin : str "/join" <+: slash :: rest ↔ rest.take 4 = str "join" := hstart (str "join")
  have hleave : str "/leave" <+: slash :: rest ↔ rest.take 5 = str "leave" :=
    hstart (str "leave")
  have hquit : str "/quit" <+: slash :: rest ↔ rest.take 4 = str "quit" := hstart (str "quit")
  have hcommand : substrFrom? (slash :: rest) 1 = some rest := by simp [substrFrom?, substrFrom]
  have hkeyword : ∀ n, substr? (slash :: rest) 1 n = some (rest.take n) := by
    intro n
    simp [substr?, substr]
  have hroom : substrFrom? (slash :: rest) 6 =
      if (slash :: rest).length < 6 then none else some ((slash :: rest).drop 6) := by
    by_cases hlen : (slash :: rest).length < 6
    · rw [substrFrom?, if_pos hlen, if_neg (Nat.not_le.mpr hlen)]
    · rw [substrFrom?, if_neg hlen, if_pos (Nat.not_lt.mp hlen)]
      rfl
  simp only [parseLine, hrest, hjoin, hleave, hquit, hroom, hcommand, hkeyword,
    List.head?_cons, Option.bind_eq_bind, Option.bind_some, if_true]
  rw [if_pos (by simp)]
  by_cases hlen : (slash :: rest).length < 6
  · simp only [if_pos hlen, Option.bind_none]
  · simp only [if_neg hlen, Option.bind_some]

/-- A line that begins with {lit}`/join` is read by what comes behind the keyword. -/
theorem lineForm_of_join (t : Bytes) :
    LineForm (str "/join" ++ t)
      (if (str "/join" ++ t).length < 6 then none
        else if (str "/join" ++ t).drop 6 = [] then some (.complain needsRoomName)
        else some (.ask { tag := tagJoin, data := (str "/join" ++ t).drop 6 } false)) := by
  match t with
  | [] => exact .bareJoin (List.append_nil _)
  | [c] => exact .joinByte c rfl
  | c :: d :: name =>
      have hlen : ¬ (str "/join" ++ c :: d :: name).length < 6 := by
        rw [List.length_append, List.length_cons]
        have hkeyword : (str "/join").length = 5 := rfl
        omega
      have hdrop : (str "/join" ++ c :: d :: name).drop 6 = d :: name := rfl
      rw [if_neg hlen, hdrop, if_neg (List.cons_ne_nil _ _)]
      exact .join c d name rfl

/-- Every line has one of the forms, and asks for what its form says. -/
theorem parseLine_form (raw : Bytes) : LineForm (trim raw) (parseLine raw) := by
  by_cases hne : trim raw = []
  · have hparse : parseLine raw = some .nothing := by simp [parseLine, hne]
    rw [hparse]
    exact .empty hne
  by_cases hslash : (trim raw).head? = some slash
  · rw [parseLine_of_slash hslash]
    by_cases hjoin : str "/join" <+: trim raw
    · rw [if_pos hjoin]
      rcases hjoin with ⟨t, ht⟩
      rw [← ht]
      exact lineForm_of_join t
    · rw [if_neg hjoin]
      split_ifs with hleave hquit
      · exact .leave hleave
      · exact .quit hquit
      · exact .unknown hslash hjoin hleave hquit
  · have hparse : parseLine raw =
        some (.ask { tag := tagSendall, data := trim raw } false) := by
      simp [parseLine, hne, hslash]
    rw [hparse]
    exact .text hne hslash

/-- The requests that a line can ask for: its text, the name of a room that ends the line,
a leave, or a quit, after which alone the loop is left. -/
theorem ask_cases {raw : Bytes} {msg : Message} {quits : Bool}
    (h : parseLine raw = some (.ask msg quits)) :
    (msg = { tag := tagSendall, data := trim raw } ∧ quits = false) ∨
      (msg = { tag := tagJoin, data := (trim raw).drop 6 } ∧ quits = false) ∨
      (msg = { tag := tagLeave, data := str "left room" } ∧ quits = false) ∨
      (msg = { tag := tagQuit, data := str "quit room" } ∧ quits = true) := by
  have hform := parseLine_form raw
  rw [h] at hform
  cases hform with
  | text => exact .inl ⟨rfl, rfl⟩
  | join c d name hline =>
      rw [hline]
      exact .inr (.inl ⟨rfl, rfl⟩)
  | leave => exact .inr (.inr (.inl ⟨rfl, rfl⟩))
  | quit => exact .inr (.inr (.inr ⟨rfl, rfl⟩))

/-- No line begins with two of the keywords. -/
theorem keywords_disjoint {line : Bytes} :
    ¬ (str "/join" <+: line ∧ str "/leave" <+: line) ∧
      ¬ (str "/join" <+: line ∧ str "/quit" <+: line) ∧
      ¬ (str "/leave" <+: line ∧ str "/quit" <+: line) := by
  refine ⟨?_, ?_, ?_⟩
  · rintro ⟨h, h'⟩
    exact absurd (List.prefix_or_prefix_of_prefix h h') (by decide)
  · rintro ⟨h, h'⟩
    exact absurd (List.prefix_or_prefix_of_prefix h h') (by decide)
  · rintro ⟨h, h'⟩
    exact absurd (List.prefix_or_prefix_of_prefix h h') (by decide)

/-- The keywords begin with a slash. -/
theorem head_of_keyword {line : Bytes}
    (h : str "/join" <+: line ∨ str "/leave" <+: line ∨ str "/quit" <+: line) :
    line.head? = some slash := by
  rcases h with ⟨t, rfl⟩ | ⟨t, rfl⟩ | ⟨t, rfl⟩ <;> rfl

end ChatServer
