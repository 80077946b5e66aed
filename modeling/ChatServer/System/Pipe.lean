import ChatServer.Server.Live
import ChatServer.WireStream

/-!
# One direction of a connection

What the writer of a connection has passed to {lit}`send`, what the reader has got from
{lit}`receive`, and what is on its way between them: bytes in flight, and bytes that have
arrived and have not been read.  Bytes arrive in pieces of any size, in order; an orderly
end of the stream is met behind the last byte, and a connection may be lost at any time.

Main results:

- Theorem {lit}`Connection.nextLine_of_carried`: a receive that does not fail takes the
  frame whose turn it is.
- Theorems {lit}`Pipe.Faithful.send`, {lit}`Pipe.Faithful.receive`,
  {lit}`Pipe.Faithful.arrive`, {lit}`Pipe.Faithful.hangUp` and
  {lit}`Pipe.Faithful.finish`: no step loses, repeats or reorders a frame.
- Theorem {lit}`Pipe.Waits.inFlight`: a reader for whom a message is on its way waits for
  bytes in flight only.

Current gaps:

- Frames that are not legal, and frames of which only a part was written, are not
  accounted for.
-/

namespace ChatServer

open LineFraming

/-! ## Frames on their way -/

/-- A legal frame is one line within the limit. -/
theorem Message.Legal.isLine {m : Message} (h : m.Legal) :
    IsLine newline maxLen m.encoding := by
  rcases h.line with ⟨body, hline, hbody, hfit⟩
  exact ⟨body, hline, hbody, hfit⟩

instance (m : Message) : Decidable m.Legal :=
  decidable_of_iff
    (isLowerCased m.tag = true ∧ newline ∉ m.data ∧ nul ∉ m.data ∧ m.encoding.length ≤ maxLen)
    ⟨fun h => ⟨h.1, h.2.1, h.2.2.1, h.2.2.2⟩, fun h => ⟨h.tag, h.newline_data, h.nul_data, h.fits⟩⟩

/-- The bytes of some frames. -/
def encodings (ms : List Message) : Bytes :=
  (ms.map Message.encoding).flatten

/-- The bytes of frames after each other. -/
theorem encodings_append (ms ms' : List Message) :
    encodings (ms ++ ms') = encodings ms ++ encodings ms' := by
  simp [encodings]

/-- A successful send of a legal message writes its encoding. -/
theorem Connection.send_legal {conn : Connection} {m : Message} {writes : List WriteResult}
    (hm : m.Legal) (hok : (conn.send m writes).1 = true) :
    (conn.send m writes).2.1 = m.encoding := by
  have hlen : strlen m.encoding = m.encoding.length := by
    rw [strlen, cStr_eq_self_iff.mpr (nul_not_mem_encoding hm.tag hm.nul_data)]
  unfold send at hok ⊢
  dsimp only at hok ⊢
  rw [hlen] at hok ⊢
  split at hok <;> rename_i hn
  · cases hok
  · rw [if_neg hn]
    simp only [rioWriten, List.take_length] at hn ⊢
    split at hn <;> rename_i hdone
    · exact rioWritenLoop_complete hdone
    · omega

/-- Some legal frames have arrived in part.  A receive that does not fail, and that does
not meet the end of the stream before it is due, takes the first of them. -/
theorem Connection.nextLine_of_carried {conn : Connection} {todo : List Message}
    (hlegal : ∀ m ∈ todo, m.Legal) {inFlight : Bytes}
    (hcarried : conn.stream ++ inFlight = encodings todo)
    (hwait : conn.Starved → conn.fdbuf.ending = .eof → inFlight = []) {line : Bytes}
    (hline : conn.nextLine = some line) (msg : Message) :
    ∃ m rest, todo = m :: rest ∧ line = m.encoding ∧
      (conn.receive msg).2.2.stream ++ inFlight = encodings rest := by
  have hlines : ∀ l ∈ todo.map Message.encoding, IsLine newline maxLen l := by
    intro l hl
    rcases List.mem_map.mp hl with ⟨m, hm, rfl⟩
    exact (hlegal m hm).isLine
  rw [nextLine_eq] at hline
  split at hline <;> rename_i hfail
  · cases hline
  rw [not_or, not_and] at hfail
  have hfinished : ¬ Unfinished newline maxLen (takeLine newline maxLen conn.stream).1 := by
    intro hstarved
    cases hending : conn.fdbuf.ending with
    | error => exact hfail.2 hending hstarved
    | eof =>
        have hall : conn.stream = encodings todo := by
          rw [← hcarried, hwait hstarved hending, List.append_nil]
        have hne : conn.stream ≠ [] := by
          intro hnil
          rw [hnil] at hfail
          exact hfail.1 rfl
        exact finished_of_carried hlines hall hne hstarved
  rcases takeLine_of_carried (by decide) hlines hcarried hfinished with
    ⟨l, lines, htodo, hfirst, hrest⟩
  cases hline
  cases todo with
  | nil => cases htodo
  | cons m rest =>
      rw [List.map_cons, List.cons.injEq] at htodo
      rcases htodo with ⟨rfl, rfl⟩
      refine ⟨m, rest, rfl, hfirst, ?_⟩
      rw [stream_receive]
      exact hrest

/-! ## Pipes -/

/-- One direction of a connection: the buffered reader at its end and how the stream was
met by it, the bytes in flight, the calls of {lit}`send` with their results and the lines
that {lit}`receive` has read, and whether the writer has returned. -/
structure Pipe where
  reader : Rio
  link : Link
  inFlight : Bytes
  sent : List (Message × Bool)
  received : List (Option Bytes)
  ended : Bool

/-- Every send has succeeded and was one of a legal message. -/
def Pipe.Sound (p : Pipe) : Prop :=
  ∀ m ok, (m, ok) ∈ p.sent → ok = true ∧ m.Legal

instance (p : Pipe) : Decidable p.Sound :=
  decidable_of_iff (∀ x ∈ p.sent, x.2 = true ∧ x.1.Legal)
    ⟨fun h m ok hm => h (m, ok) hm, fun h x hx => h x.1 x.2 hx⟩

/-- The lines that were received are the first frames that were sent, and the other
frames are on their way. -/
def Pipe.Carries (p : Pipe) : Prop :=
  ∃ got todo : List Message,
    p.sent.map Prod.fst = got ++ todo ∧
      p.received = got.map (fun m => some m.encoding) ∧
      p.reader.stream ++ p.inFlight = encodings todo

/-- The account of a pipe: an orderly end is met when everything has arrived and nothing
more will be sent; and as long as no send and no receive fails, no frame is lost,
repeated or reordered. -/
structure Pipe.Faithful (p : Pipe) : Prop where
  orderly : p.link ≠ .linked → p.reader.ending = .eof → p.ended = true ∧ p.inFlight = []
  carries : p.Sound → none ∉ p.received → p.Carries

namespace Pipe

variable {p : Pipe}

/-- A pipe at the start of a connection. -/
def Fresh (p : Pipe) : Prop :=
  p.link = .linked ∧ p.reader = {} ∧ p.inFlight = [] ∧ p.sent = [] ∧ p.received = []

/-- A fresh pipe is faithful. -/
theorem Fresh.faithful (h : p.Fresh) : p.Faithful := by
  rcases h with ⟨hlink, hreader, hinFlight, hsent, hreceived⟩
  refine ⟨fun hclosed => absurd hlink hclosed, ?_⟩
  intro _ _
  refine ⟨[], [], ?_, ?_, ?_⟩
  · simp [hsent]
  · simp [hreceived]
  · rw [hreader, hinFlight]
    rfl

/-- The earlier sends of a sound pipe have succeeded with legal messages. -/
theorem Sound.of_append {sent sent' : List (Message × Bool)} (hsent : p.sent = sent ++ sent')
    (h : p.Sound) : ∀ m ok, (m, ok) ∈ sent → ok = true ∧ m.Legal := by
  intro m ok hmem
  exact h m ok (by rw [hsent]; exact List.mem_append_left _ hmem)

/-- The writer passes a message to {lit}`send`. -/
theorem Faithful.send (h : p.Faithful) (hended : p.ended = false) (conn : Connection)
    (m : Message) (writes : List WriteResult) :
    ({ p with
      inFlight := p.inFlight ++ (conn.send m writes).2.1
      sent := p.sent ++ [(m, (conn.send m writes).1)] } : Pipe).Faithful where
  orderly hclosed hending := by
    rw [(h.orderly hclosed hending).1] at hended
    cases hended
  carries hsound hreceived := by
    have hm := hsound m (conn.send m writes).1 (by simp)
    rcases h.carries (Sound.of_append rfl hsound) hreceived with ⟨got, todo, hsent, hgot, hway⟩
    refine ⟨got, todo ++ [m], ?_, hgot, ?_⟩
    · simp [hsent]
    · rw [Connection.send_legal hm.2 hm.1, ← List.append_assoc, hway, encodings_append]
      simp [encodings]

/-- Something arrives. -/
theorem Faithful.arrive (h : p.Faithful) (hlink : p.link = .linked) {r : ReadResult}
    {rest : Bytes} (hr : p.inFlight = r.bytes ++ rest) :
    ({ p with reader := p.reader.extend [r] .eof, inFlight := rest } : Pipe).Faithful where
  orderly hclosed := absurd hlink hclosed
  carries hsound hreceived := by
    rcases h.carries hsound hreceived with ⟨got, todo, hsent, hgot, hway⟩
    refine ⟨got, todo, hsent, hgot, ?_⟩
    rw [← hway, hr]
    simp [Rio.stream, Rio.extend]

/-- The reader meets the end of the stream, or the connection is lost. -/
theorem Faithful.hangUp (h : p.Faithful) (ending : StreamEnd)
    (horderly : ending = .eof → p.ended = true ∧ p.inFlight = []) :
    ({ p with reader := p.reader.extend [] ending, link := .closed } : Pipe).Faithful where
  orderly _ := horderly
  carries hsound hreceived := by
    rcases h.carries hsound hreceived with ⟨got, todo, hsent, hgot, hway⟩
    refine ⟨got, todo, hsent, hgot, ?_⟩
    rw [← hway]
    simp [Rio.stream, Rio.extend]

/-- The reader receives, and waits while its line is incomplete and more may come. -/
theorem Faithful.receive (h : p.Faithful) {conn : Connection} (hconn : conn.fdbuf = p.reader)
    (hready : p.link = .linked → ¬ conn.Starved) (msg : Message) :
    ({ p with
      reader := (conn.receive msg).2.2.fdbuf
      received := p.received ++ [conn.nextLine] } : Pipe).Faithful where
  orderly hclosed hending := by
    rw [Connection.ending_receive, hconn] at hending
    exact h.orderly hclosed hending
  carries hsound hreceived := by
    simp only [List.mem_append, List.mem_singleton, not_or] at hreceived
    rcases h.carries hsound hreceived.1 with ⟨got, todo, hsent, hgot, hway⟩
    rcases Option.ne_none_iff_exists'.mp (Ne.symm hreceived.2) with ⟨line, hline⟩
    have hlegal : ∀ m ∈ todo, m.Legal := by
      intro m hm
      have hmem : m ∈ p.sent.map Prod.fst := by
        rw [hsent]
        exact List.mem_append_right _ hm
      rcases List.mem_map.mp hmem with ⟨⟨m', ok⟩, hmem', rfl⟩
      exact (hsound m' ok hmem').2
    have hcarried : conn.stream ++ p.inFlight = encodings todo := by
      rw [← hway, ← hconn]
    have hwait : conn.Starved → conn.fdbuf.ending = .eof → p.inFlight = [] := by
      intro hstarved hending
      rw [hconn] at hending
      exact (h.orderly (fun hlink => hready hlink hstarved) hending).2
    rcases Connection.nextLine_of_carried hlegal hcarried hwait hline msg with
      ⟨m, rest, rfl, rfl, hrest⟩
    refine ⟨got ++ [m], rest, ?_, ?_, hrest⟩
    · simp [hsent]
    · simp [hgot, hline]

/-- The writer returns. -/
theorem Faithful.finish (h : p.Faithful) {ended : Bool} (hended : p.ended = true → ended = true) :
    ({ p with ended := ended } : Pipe).Faithful where
  orderly hclosed hending :=
    ⟨hended (h.orderly hclosed hending).1, (h.orderly hclosed hending).2⟩
  carries := h.carries

/-! ## Readers that wait -/

/-- The reader of the pipe has to wait for the rest of its line. -/
def Waits (p : Pipe) : Prop :=
  p.link = .linked ∧ Unfinished newline maxLen (takeLine newline maxLen p.reader.stream).1

instance (p : Pipe) : Decidable p.Waits :=
  inferInstanceAs (Decidable (_ ∧ _))

/-- A reader that waits has little to read. -/
theorem Waits.short (h : p.Waits) : p.reader.stream.length < maxLen := by
  have hshort := h.2.1
  rwa [takeLine_of_unfinished h.2] at hshort

/-- If messages are on their way and the reader waits, then bytes are in flight. -/
theorem Waits.inFlight (h : p.Waits) {todo : List Message} (hlegal : ∀ m ∈ todo, m.Legal)
    (htodo : todo ≠ []) (hway : p.reader.stream ++ p.inFlight = encodings todo) :
    p.inFlight ≠ [] := by
  intro hnil
  rw [hnil, List.append_nil] at hway
  refine finished_of_carried ?_ hway ?_ h.2
  · intro line hline
    rcases List.mem_map.mp hline with ⟨m, hm, rfl⟩
    exact (hlegal m hm).isLine
  · cases todo with
    | nil => exact absurd rfl htodo
    | cons m rest =>
        rw [hway]
        simp [encodings, Message.encoding]

/-- Some bytes have arrived, and nothing has been read. -/
structure Arrives (p p' : Pipe) (bytes : Bytes) : Prop where
  stream : p'.reader.stream = p.reader.stream ++ bytes
  link : p'.link = .linked → p.link = .linked

/-- A line that is complete stays so. -/
theorem Arrives.waits {p' : Pipe} {bytes : Bytes} (h : p.Arrives p' bytes) (hwaits : p'.Waits) :
    p.Waits := by
  refine ⟨h.link hwaits.1, ?_⟩
  by_contra hfinished
  have hunfinished := hwaits.2
  rw [h.stream, takeLine_append_of_finished hfinished] at hunfinished
  exact hfinished hunfinished

end Pipe

end ChatServer
