import ChatServer.Connection

/-!
# Streams of frames

Sequences of sends and receives on one connection.  A stream made of the
encodings of legal messages is read back frame by frame; a stream of arbitrary
lines is read line by line exactly when no line is longer than the limit.

Main results:

- Theorem {lit}`Connection.stream_round_trip`: every list of legal messages is
  received as it was sent, up to trailing whitespace.
- Theorem {lit}`oneLineOneFrame_iff`: successive receives consume one line each
  exactly when every line fits in {lit}`maxLen` bytes.

Current gaps:

- Frames cut off by the end of the stream are not the subject of this module.
-/

namespace ChatServer

open LineFraming

namespace Connection

/-- Send messages in order, each with the write results it meets: the results
of the sends and all bytes that reached the socket. -/
def sendAll (conn : Connection) : List (Message × List WriteResult) → List Bool × Bytes
  | [] => ([], [])
  | (m, writes) :: rest =>
      let r := conn.send m writes
      (r.1 :: (sendAll r.2.2 rest).1, r.2.1 ++ (sendAll r.2.2 rest).2)

/-- Receive a number of times into the same variable: the results with the
message after each, and the variable and the connection at the end. -/
def receiveAll (conn : Connection) (msg : Message) :
    Nat → List (Bool × Message) × Message × Connection
  | 0 => ([], msg, conn)
  | n + 1 =>
      let r := conn.receive msg
      let rest := receiveAll r.2.2 r.2.1 n
      ((r.1, r.2.1) :: rest.1, rest.2)

/-- The last of a number of receives comes after the others. -/
theorem receiveAll_succ (conn : Connection) (msg : Message) (n : Nat) :
    let before := conn.receiveAll msg n
    let r := before.2.2.receive before.2.1
    conn.receiveAll msg (n + 1) = (before.1 ++ [(r.1, r.2.1)], r.2.1, r.2.2) := by
  induction n generalizing conn msg with
  | zero => rfl
  | succ n ih =>
      simp only at ih ⊢
      rw [receiveAll, ih]
      simp [receiveAll]

end Connection

/-! ## Legal messages survive the stream -/

/-- A message the protocol allows on the wire: a lower-case tag, data on one
line without NUL, and an encoding within the limit. -/
structure Message.Legal (m : Message) : Prop where
  tag : isLowerCased m.tag = true
  newline_data : newline ∉ m.data
  nul_data : nul ∉ m.data
  fits : m.encoding.length ≤ maxLen

/-- The encoding is one delimited line. -/
theorem Message.Legal.line {m : Message} (h : m.Legal) :
    ∃ body, m.encoding = body ++ [newline] ∧ newline ∉ body ∧ body.length < maxLen := by
  refine ⟨m.tag ++ colon :: m.data, by simp [Message.encoding], ?_, ?_⟩
  · have htag : newline ∉ m.tag := not_mem_of_isLowerCased h.tag (by decide)
    have hcolon : newline ≠ colon := by decide
    simp [htag, h.newline_data, hcolon]
  · have hfits := h.fits
    rw [Message.length_encoding] at hfits
    simp only [List.length_append, List.length_cons]
    omega

/-- The step of the round trip: a frame at the head of the stream is received,
and exactly that frame is consumed. -/
theorem Connection.receive_encoding {conn : Connection} {m : Message} (h : m.Legal)
    {rest : Bytes} (hstream : conn.stream = m.encoding ++ rest) (msg : Message) :
    (conn.receive msg).1 = true ∧
      (conn.receive msg).2.1 = { tag := m.tag, data := m.data.rdropWhile isSpace } ∧
      (conn.receive msg).2.2.stream = rest := by
  rcases h.line with ⟨body, hline, hbody, hfit⟩
  rw [hline] at hstream
  have hstream' : conn.stream = body ++ newline :: rest := by simpa using hstream
  have hnext := nextLine_of_line hbody hfit hstream'
  have hdecode := decode_encoding h.tag h.nul_data
  rw [hline, rtrim_eq_rdropWhile] at hdecode
  refine ⟨?_, ?_, ?_⟩
  · rw [receive_eq, hnext]
    simp [hdecode]
  · rw [receive_eq, hnext]
    simp [hdecode]
  · rw [stream_receive, hstream', takeLine_line hbody hfit]

/-- With no write error every send succeeds and the encodings are on the wire. -/
theorem Connection.sendAll_eq (conn : Connection)
    {sends : List (Message × List WriteResult)} (hlegal : ∀ p ∈ sends, p.1.Legal)
    (hwrites : ∀ p ∈ sends, WriteResult.error ∉ p.2) :
    conn.sendAll sends =
      (sends.map fun _ => true, (sends.map fun p => p.1.encoding).flatten) := by
  induction sends generalizing conn with
  | nil => rfl
  | cons p sends ih =>
      have hp := hlegal p (by simp)
      have hnul := nul_not_mem_encoding hp.tag hp.nul_data
      have hsend := conn.send_eq hnul (hwrites p (by simp))
      have hrest := ih conn (fun q hq => hlegal q (by simp [hq]))
        fun q hq => hwrites q (by simp [hq])
      simp [sendAll, hsend, hrest]

/-- Every frame of a stream of legal encodings is received, in order, and the
stream is exhausted afterwards. -/
theorem Connection.receiveAll_encodings {ms : List Message} (hlegal : ∀ m ∈ ms, m.Legal)
    {conn : Connection} (hstream : conn.stream = (ms.map Message.encoding).flatten)
    (msg : Message) :
    (conn.receiveAll msg ms.length).1 =
        ms.map (fun m => (true, { tag := m.tag, data := m.data.rdropWhile isSpace })) ∧
      (conn.receiveAll msg ms.length).2.2.stream = [] := by
  induction ms generalizing conn msg with
  | nil => exact ⟨rfl, hstream⟩
  | cons m ms ih =>
      have hsplit : conn.stream = m.encoding ++ (ms.map Message.encoding).flatten := by
        simpa using hstream
      rcases receive_encoding (hlegal m (by simp)) hsplit msg with ⟨hok, hmsg, hrest⟩
      obtain ⟨hresults, hend⟩ :=
        ih (fun m' hm' => hlegal m' (by simp [hm'])) hrest (conn.receive msg).2.1
      refine ⟨?_, ?_⟩
      · simp [receiveAll, hok, hmsg, ← hresults]
      · simpa [receiveAll] using hend

/-- On an exhausted stream a receive consumes nothing and reports the end. -/
theorem Connection.receive_of_stream_nil {conn : Connection} (hstream : conn.stream = [])
    (msg : Message) :
    (conn.receive msg).1 = false ∧ (conn.receive msg).2.2.lastResult = .eofOrError ∧
      (conn.receive msg).2.2.stream = [] := by
  have hnext := nextLine_of_nil hstream
  refine ⟨?_, ?_, ?_⟩
  · rw [receive_eq, hnext]
  · rw [receive_eq, hnext]
  · rw [stream_receive, hstream, takeLine_nil]

/-- Legal messages sent over one connection are received by the peer, whatever
the short writes on the way and the segmentation of the input: every send and
every receive succeeds, the messages arrive in order with their trailing
whitespace removed, and the next receive consumes nothing and reports the end
of the stream. -/
theorem Connection.stream_round_trip (conn : Connection)
    (sends : List (Message × List WriteResult)) (hlegal : ∀ p ∈ sends, p.1.Legal)
    (hwrites : ∀ p ∈ sends, WriteResult.error ∉ p.2)
    (peer : Connection) (hpeer : peer.stream = (conn.sendAll sends).2) (msg : Message) :
    (∀ ok ∈ (conn.sendAll sends).1, ok = true) ∧
      (peer.receiveAll msg sends.length).1 = sends.map (fun p =>
        (true, { tag := p.1.tag, data := p.1.data.rdropWhile isSpace })) ∧
      (peer.receiveAll msg sends.length).2.2.stream = [] ∧
      (peer.receiveAll msg (sends.length + 1)).2.2.stream = [] ∧
      (peer.receiveAll msg (sends.length + 1)).1.getLast?.map Prod.fst = some false ∧
      (peer.receiveAll msg (sends.length + 1)).2.2.lastResult = .eofOrError := by
  have hsent := conn.sendAll_eq hlegal hwrites
  rw [hsent] at hpeer
  have hlegal' : ∀ m ∈ sends.map Prod.fst, m.Legal := by
    intro m hm
    rcases List.mem_map.mp hm with ⟨p, hp, rfl⟩
    exact hlegal p hp
  have hstream : peer.stream = ((sends.map Prod.fst).map Message.encoding).flatten := by
    simpa [Function.comp_def] using hpeer
  rcases receiveAll_encodings hlegal' hstream msg with ⟨hresults, hend⟩
  rw [List.length_map] at hresults hend
  obtain ⟨hfalse, hlast, hnil⟩ :=
    receive_of_stream_nil hend (peer.receiveAll msg sends.length).2.1
  have hsucc := receiveAll_succ peer msg sends.length
  simp only at hsucc
  refine ⟨by simp [hsent], ?_, hend, ?_, ?_, ?_⟩
  · simpa [Function.comp_def] using hresults
  · rw [hsucc]
    exact hnil
  · rw [hsucc]
    simp [hfalse]
  · rw [hsucc]
    exact hlast

/-- Two frames, one of them with trailing blanks, over a segmented input. -/
theorem Connection.stream_round_trip_two :
    (({} : Connection).sendAll
        [({ tag := tagJoin, data := str "lobby  " }, [.wrote 3, .eintr]),
          ({ tag := tagQuit, data := [] }, [])]).1 = [true, true] ∧
      (({ fdbuf := { reads := [.data 106 (str "oin:lob"), .eintr,
            .data 98 (str "y  " ++ [newline] ++ str "quit:" ++ [newline])] } } :
          Connection).receiveAll {} 2).1 =
        [(true, { tag := tagJoin, data := str "lobby" }), (true, { tag := tagQuit })] := by
  obtain ⟨hsent, hreceived, -⟩ := stream_round_trip {}
    [({ tag := tagJoin, data := str "lobby  " }, [.wrote 3, .eintr]),
      ({ tag := tagQuit, data := [] }, [])]
    (by
      intro p hp
      simp only [List.mem_cons, List.not_mem_nil, or_false] at hp
      rcases hp with rfl | rfl <;> constructor <;> decide)
    (by decide)
    { fdbuf := { reads := [.data 106 (str "oin:lob"), .eintr,
        .data 98 (str "y  " ++ [newline] ++ str "quit:" ++ [newline])] } }
    (by decide) {}
  exact ⟨by decide, hreceived.trans (by decide)⟩

/-! ## One line, one frame -/

/-- A newline at the end and nowhere else. -/
def Terminated (line : Bytes) : Prop :=
  ∃ body, line = body ++ [newline] ∧ newline ∉ body

/-- The outcome a receive owes to a line: its own parse when it fits, and one
report of an invalid message otherwise. -/
def OutcomeOf (line : Bytes) (r : Bool × Message × Connection) : Prop :=
  match if line.length ≤ maxLen then decode line else none with
  | some m => r.1 = true ∧ r.2.1 = m
  | none => r.1 = false ∧ r.2.2.lastResult = .invalidMsg

/-- The i-th receive finds the stream at the i-th line, consumes exactly this
line and has the outcome it owes to it. -/
def OneLineOneFrame (conn : Connection) (msg : Message) (lines : List Bytes) : Prop :=
  ∀ i (hi : i < lines.length),
    let before := conn.receiveAll msg i
    let r := before.2.2.receive before.2.1
    before.2.2.stream = (lines.drop i).flatten ∧
      r.2.2.stream = (lines.drop (i + 1)).flatten ∧ OutcomeOf lines[i] r

/-- The step: a line that fits is consumed and answered on its own. -/
theorem Connection.receive_line {conn : Connection} {line rest : Bytes}
    (hline : Terminated line) (hfit : line.length ≤ maxLen)
    (hstream : conn.stream = line ++ rest) (msg : Message) :
    (conn.receive msg).2.2.stream = rest ∧ OutcomeOf line (conn.receive msg) := by
  rcases hline with ⟨body, rfl, hbody⟩
  have hshort : body.length < maxLen := by
    rw [List.length_append, List.length_singleton] at hfit
    exact hfit
  have hstream' : conn.stream = body ++ newline :: rest := by simpa using hstream
  have hnext := nextLine_of_line hbody hshort hstream'
  refine ⟨?_, ?_⟩
  · rw [stream_receive, hstream', takeLine_line hbody hshort]
  · rw [OutcomeOf, if_pos hfit, receive_eq, hnext]
    cases hdec : decode (body ++ [newline]) <;> simp [hdec]

/-- While all lines fit, the i-th receive starts at the i-th line. -/
theorem Connection.stream_receiveAll_lines {conn : Connection} {msg : Message}
    {lines : List Bytes} (hterm : ∀ line ∈ lines, Terminated line)
    (hfit : ∀ line ∈ lines, line.length ≤ maxLen) (hstream : conn.stream = lines.flatten)
    {i : Nat} (hi : i ≤ lines.length) :
    (conn.receiveAll msg i).2.2.stream = (lines.drop i).flatten := by
  induction i with
  | zero => simpa [receiveAll] using hstream
  | succ i ih =>
      have hlt : i < lines.length := hi
      have hbefore := ih (Nat.le_of_lt hlt)
      rw [List.drop_eq_getElem_cons hlt, List.flatten_cons] at hbefore
      have hsucc := receiveAll_succ conn msg i
      simp only at hsucc
      rw [hsucc]
      exact (receive_line (hterm _ (List.getElem_mem hlt)) (hfit _ (List.getElem_mem hlt))
        hbefore (conn.receiveAll msg i).2.1).1

/-- Successive receives consume one line each, and report each line on its own,
exactly when no line is longer than the limit. -/
theorem oneLineOneFrame_iff (conn : Connection) (msg : Message) (lines : List Bytes)
    (hterm : ∀ line ∈ lines, Terminated line) (hstream : conn.stream = lines.flatten) :
    OneLineOneFrame conn msg lines ↔ ∀ line ∈ lines, line.length ≤ maxLen := by
  constructor
  · intro h line hline
    rcases List.getElem_of_mem hline with ⟨i, hi, rfl⟩
    rcases h i hi with ⟨hbefore, hafter, -⟩
    -- one receive takes at most maxLen bytes off the stream
    rw [Connection.stream_receive] at hafter
    have happ := takeLine_append newline maxLen (conn.receiveAll msg i).2.2.stream
    have hle := length_takeLine_le newline maxLen (conn.receiveAll msg i).2.2.stream
    rw [hafter, hbefore, List.drop_eq_getElem_cons hi, List.flatten_cons] at happ
    have hlen := congrArg List.length happ
    rw [hbefore, List.drop_eq_getElem_cons hi, List.flatten_cons] at hle
    simp only [List.length_append] at hlen
    omega
  · intro hfit i hi
    have hbefore : (conn.receiveAll msg i).2.2.stream = (lines.drop i).flatten :=
      Connection.stream_receiveAll_lines hterm hfit hstream (Nat.le_of_lt hi)
    have hhead := hbefore
    rw [List.drop_eq_getElem_cons hi, List.flatten_cons] at hhead
    obtain ⟨hafter, houtcome⟩ := Connection.receive_line (hterm _ (List.getElem_mem hi))
      (hfit _ (List.getElem_mem hi)) hhead (conn.receiveAll msg i).2.1
    exact ⟨hbefore, hafter, houtcome⟩

/-- A line of the sender client that is longer than the limit: the bytes after
the first {lit}`maxLen` spell another request. -/
def smugglingLine : Bytes :=
  str "sendall:" ++ List.replicate 247 120 ++ str "quit:now" ++ [newline]

def smugglingConnection : Connection :=
  { fdbuf := { rioBuf := smugglingLine } }

/-- The smuggling line is not one frame: its second part is received as a quit
request of its own. -/
theorem smugglingLine_not_one_frame :
    Terminated smugglingLine ∧ smugglingConnection.stream = [smugglingLine].flatten ∧
      ¬ OneLineOneFrame smugglingConnection {} [smugglingLine] ∧
      (smugglingConnection.receiveAll {} 2).1 =
        [(true, { tag := tagSendall, data := List.replicate 247 120 }),
          (true, { tag := tagQuit, data := str "now" })] := by
  refine ⟨⟨smugglingLine.dropLast, by decide +kernel, by decide +kernel⟩,
    by decide +kernel, ?_, by decide +kernel⟩
  intro h
  rcases h 0 (by decide) with ⟨-, hafter, -⟩
  rw [Connection.stream_receive] at hafter
  revert hafter
  decide +kernel

/-- Two lines that fit are two frames. -/
theorem oneLineOneFrame_two :
    OneLineOneFrame { fdbuf := { rioBuf := str "join:a" ++ [newline] ++ str "bad" ++ [newline] } }
      {} [str "join:a" ++ [newline], str "bad" ++ [newline]] := by
  refine (oneLineOneFrame_iff _ _ _ ?_ (by decide)).mpr (by decide)
  intro line hline
  simp only [List.mem_cons, List.not_mem_nil, or_false] at hline
  rcases hline with rfl | rfl
  · exact ⟨str "join:a", rfl, by decide⟩
  · exact ⟨str "bad", rfl, by decide⟩

end ChatServer
