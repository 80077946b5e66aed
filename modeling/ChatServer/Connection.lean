import ChatServer.Message
import ChatServer.Rio

/-!
# Connections

{lit}`Connection::send` and {lit}`Connection::receive` over the buffered reader
and the write loop.  The function {lit}`decode` names the parse that
{lit}`receive` performs on its buffer, and {lit}`Connection.nextLine` the line
that it reads; two theorems describe {lit}`receive` by these and by the byte
stream of the connection.

Main results:

- Theorem {lit}`Connection.receive_eq`: a receive reads one line and decodes it.
- Theorem {lit}`Connection.stream_receive`: it consumes the next line of the
  stream, cut at {lit}`maxLen` bytes, and nothing else.
- Theorem {lit}`decode_encoding`: decoding an encoded message gives the message
  back, without the trailing whitespace of its data.
- Theorem {lit}`Connection.send_eq`: without a NUL and without a write error the
  whole encoding reaches the socket.

Current gaps:

- The file descriptor is not modelled; opening and closing sockets is out of
  scope, and a write to a closed socket is a write error.
-/

namespace ChatServer

open LineFraming

/-- {lit}`Connection::Result`. -/
inductive Result where
  | success
  | eofOrError
  | invalidMsg
deriving DecidableEq

structure Connection where
  fdbuf : Rio := {}
  lastResult : Result := .success
deriving DecidableEq

namespace Connection

/-- {lit}`Connection::send`: the result, the bytes that reached the socket, and
the connection afterwards. -/
def send (conn : Connection) (msg : Message) (writes : List WriteResult) :
    Bool × Bytes × Connection :=
  let tagAndPayStr := msg.encoding
  let n := rioWriten writes tagAndPayStr (strlen tagAndPayStr)
  if n.1 ≠ strlen tagAndPayStr then
    (false, n.2, { conn with lastResult := .eofOrError })
  else
    (true, n.2, conn)

/-- {lit}`Connection::receive` into {lit}`msg`: the result, the message
afterwards, and the connection afterwards. -/
def receive (conn : Connection) (msg : Message) : Bool × Message × Connection :=
  let n := rioReadlineb conn.fdbuf (maxLen + 1)
  if n.1.1 < 1 then
    (false, { msg with tag := tagErr }, { fdbuf := n.2, lastResult := .eofOrError })
  else
    let newStr := cStr n.1.2
    let bufStr := trim newStr
    match find bufStr colon with
    | none =>
        (false, { msg with tag := tagErr }, { fdbuf := n.2, lastResult := .invalidMsg })
    | some colonPos =>
        let tag := substr bufStr 0 colonPos
        let data := substrFrom bufStr (colonPos + 1)
        if !isLowerCased tag then
          (false, { msg with tag := tagErr }, { fdbuf := n.2, lastResult := .invalidMsg })
        else
          (true, { tag := tag, data := data }, { conn with fdbuf := n.2 })

/-- The bytes that can still be received. -/
abbrev stream (conn : Connection) : Bytes :=
  conn.fdbuf.stream

/-- The contents of the buffer after the line read of the next receive, or
{lit}`none` when it reports end of file or an error. -/
def nextLine (conn : Connection) : Option Bytes :=
  let n := rioReadlineb conn.fdbuf (maxLen + 1)
  if n.1.1 < 1 then none else some n.1.2

end Connection

/-- The parse of {lit}`receive`: NUL termination, trimming, the split at the
first colon and the check of the tag. -/
def decode (buf : Bytes) : Option Message :=
  let bufStr := trim (cStr buf)
  match find bufStr colon with
  | none => none
  | some colonPos =>
      if isLowerCased (substr bufStr 0 colonPos) then
        some { tag := substr bufStr 0 colonPos, data := substrFrom bufStr (colonPos + 1) }
      else none

/-! ## Receive as a line read followed by a decode -/

/-- A receive reads one line and decodes it; the three outcomes differ in the
result, in the message and in the recorded last result. -/
theorem Connection.receive_eq (conn : Connection) (msg : Message) :
    conn.receive msg =
      match conn.nextLine with
      | none =>
          (false, { msg with tag := tagErr },
            { fdbuf := (rioReadlineb conn.fdbuf (maxLen + 1)).2, lastResult := .eofOrError })
      | some line =>
          match decode line with
          | none =>
              (false, { msg with tag := tagErr },
                { fdbuf := (rioReadlineb conn.fdbuf (maxLen + 1)).2,
                  lastResult := .invalidMsg })
          | some m =>
              (true, m, { conn with fdbuf := (rioReadlineb conn.fdbuf (maxLen + 1)).2 }) := by
  unfold receive nextLine decode
  by_cases hn : (rioReadlineb conn.fdbuf (maxLen + 1)).1.1 < 1
  · simp [hn]
  · simp only [if_neg hn]
    cases hfind : find (trim (cStr (rioReadlineb conn.fdbuf (maxLen + 1)).1.2)) colon with
    | none => rfl
    | some pos =>
        cases hlower : isLowerCased
            (substr (trim (cStr (rioReadlineb conn.fdbuf (maxLen + 1)).1.2)) 0 pos) <;>
          simp [hlower]

/-- The line read of a receive, in terms of the byte stream. -/
theorem Connection.rioReadlineb_eq (conn : Connection) :
    ∃ rp, rioReadlineb conn.fdbuf (maxLen + 1) =
        ((readlineResult conn.fdbuf.ending maxLen (takeLine newline maxLen conn.stream).1,
          (takeLine newline maxLen conn.stream).1), rp) ∧
      rp.stream = (takeLine newline maxLen conn.stream).2 ∧
      rp.ending = conn.fdbuf.ending :=
  rioReadlineb_spec conn.fdbuf (maxLen + 1)

/-- Every outcome of a receive leaves the reader where the line read put it. -/
theorem Connection.fdbuf_receive (conn : Connection) (msg : Message) :
    (conn.receive msg).2.2.fdbuf = (rioReadlineb conn.fdbuf (maxLen + 1)).2 := by
  rw [receive_eq]
  cases conn.nextLine with
  | none => rfl
  | some line => cases hdec : decode line <;> simp [hdec]

/-- A receive consumes the next line of the stream, whatever becomes of it. -/
theorem Connection.stream_receive (conn : Connection) (msg : Message) :
    (conn.receive msg).2.2.stream = (takeLine newline maxLen conn.stream).2 := by
  rcases conn.rioReadlineb_eq with ⟨rp, hread, hstream, -⟩
  rw [stream, fdbuf_receive, hread]
  exact hstream

@[simp]
theorem Connection.ending_receive (conn : Connection) (msg : Message) :
    (conn.receive msg).2.2.fdbuf.ending = conn.fdbuf.ending := by
  rcases conn.rioReadlineb_eq with ⟨rp, hread, -, hend⟩
  rw [fdbuf_receive, hread]
  exact hend

/-- The line read fails only on an exhausted stream or on a read error. -/
theorem Connection.nextLine_eq (conn : Connection) :
    conn.nextLine =
      if (takeLine newline maxLen conn.stream).1 = [] ∨
          (conn.fdbuf.ending = .error ∧
            Unfinished newline maxLen (takeLine newline maxLen conn.stream).1) then none
      else some (takeLine newline maxLen conn.stream).1 := by
  rcases conn.rioReadlineb_eq with ⟨rp, hread, -, -⟩
  simp only [nextLine, hread, readlineResult]
  by_cases hend : conn.fdbuf.ending = .error ∧
      Unfinished newline maxLen (takeLine newline maxLen conn.stream).1
  · simp [hend]
  · rw [if_neg hend]
    by_cases hnil : (takeLine newline maxLen conn.stream).1 = []
    · simp [hnil]
    · have hpos : 0 < (takeLine newline maxLen conn.stream).1.length :=
        List.length_pos_iff.mpr hnil
      rw [if_neg (by omega), if_neg (by tauto)]

/-- A line that ends in a newline is read, however the stream ends. -/
theorem Connection.nextLine_of_line {conn : Connection} {body rest : Bytes}
    (hbody : newline ∉ body) (hfit : body.length < maxLen)
    (hstream : conn.stream = body ++ newline :: rest) :
    conn.nextLine = some (body ++ [newline]) := by
  have hline := takeLine_line hbody hfit rest
  rw [nextLine_eq, hstream, hline, if_neg]
  rintro (hnil | ⟨-, -, hlast⟩)
  · simp at hnil
  · simp at hlast

/-- On an exhausted stream the line read fails. -/
theorem Connection.nextLine_of_nil {conn : Connection} (hstream : conn.stream = []) :
    conn.nextLine = none := by
  rw [nextLine_eq, hstream]
  simp

/-! ## Decoding -/

/-- What a successful decode returns. -/
theorem decode_eq_some {buf : Bytes} {m : Message} (h : decode buf = some m) :
    trim (cStr buf) = m.tag ++ colon :: m.data ∧ isLowerCased m.tag = true := by
  unfold decode at h
  cases hfind : find (trim (cStr buf)) colon with
  | none => simp [hfind] at h
  | some pos =>
      simp only [hfind] at h
      split at h
      · rename_i hlower
        cases h
        exact ⟨by simpa [substr, substrFrom] using (eq_append_of_find hfind).1, hlower⟩
      · cases h

/-- A decoded line fits the limit without its colon, and its data is one line. -/
theorem decode_bounds {line : Bytes} {m : Message} (hlen : line.length ≤ maxLen)
    (hline : newline ∉ line.dropLast) (h : decode line = some m) :
    m.tag.length + m.data.length < maxLen ∧ newline ∉ m.data ∧ nul ∉ m.data := by
  rcases decode_eq_some h with ⟨htrim, -⟩
  have hsub : (m.tag ++ colon :: m.data).Sublist (cStr line) := by
    rw [← htrim]
    exact trim_sublist _
  refine ⟨?_, ?_, ?_⟩
  · have hle := hsub.length_le.trans (strlen_le_length line)
    simp only [List.length_append, List.length_cons] at hle
    omega
  · have hbody := sublist_dropLast (cStr_prefix_self line).sublist
    have hnot := newline_not_mem_trim fun hmem => hline (hbody.subset hmem)
    rw [htrim] at hnot
    exact fun hmem => hnot (by simp [hmem])
  · exact fun hmem => nul_not_mem_cStr line (hsub.subset (by simp [hmem]))

/-- A buffer that trims to a lower-case tag, a colon and a payload decodes to
these. -/
theorem decode_of_trim {buf tag data : Bytes} (hlower : isLowerCased tag = true)
    (htrim : trim (cStr buf) = tag ++ colon :: data) :
    decode buf = some { tag := tag, data := data } := by
  have hcolon : colon ∉ tag := not_mem_of_isLowerCased hlower (by decide)
  have hfind : find (tag ++ colon :: data) colon = some tag.length :=
    find_append_cons hcolon data
  simp [decode, htrim, hfind, substr, substrFrom, hlower]

/-- A line with a lower-case tag, a colon and a payload. -/
def FrameLine (line : Bytes) : Prop :=
  ∃ tag data, isLowerCased tag = true ∧ trim (cStr line) = tag ++ colon :: data

/-- The lines that decode are the frames. -/
theorem decode_isSome_iff {line : Bytes} : (decode line).isSome ↔ FrameLine line := by
  constructor
  · intro h
    rcases Option.isSome_iff_exists.mp h with ⟨m, hm⟩
    rcases decode_eq_some hm with ⟨htrim, hlower⟩
    exact ⟨m.tag, m.data, hlower, htrim⟩
  · rintro ⟨tag, data, hlower, htrim⟩
    simp [decode_of_trim hlower htrim]

/-- Trimming the line of a message with a lower-case tag only touches the
trailing whitespace of its data. -/
theorem trim_encoding {m : Message} (hlower : isLowerCased m.tag = true) :
    trim m.encoding = m.tag ++ colon :: rtrim m.data := by
  have hshape : m.encoding = m.tag ++ colon :: (m.data ++ [newline]) := by
    simp [Message.encoding]
  rw [hshape, trim_tag_colon hlower, rtrim_append_newline]

theorem nul_not_mem_encoding {m : Message} (hlower : isLowerCased m.tag = true)
    (hdata : nul ∉ m.data) : nul ∉ m.encoding := by
  have htag : nul ∉ m.tag := not_mem_of_isLowerCased hlower (by decide)
  have hcolon : nul ≠ colon := by decide
  have hnewline : nul ≠ newline := by decide
  simp [Message.encoding, htag, hdata, hcolon, hnewline]

/-- Decoding an encoded message gives the message back, up to the trailing
whitespace of its data. -/
theorem decode_encoding {m : Message} (hlower : isLowerCased m.tag = true)
    (hdata : nul ∉ m.data) :
    decode m.encoding = some { tag := m.tag, data := rtrim m.data } := by
  apply decode_of_trim hlower
  rw [cStr_eq_self_iff.mpr (nul_not_mem_encoding hlower hdata)]
  exact trim_encoding hlower

/-! ## Sending -/

/-- Without a NUL in the encoding and without a write error, a send succeeds and
the whole encoding reaches the socket. -/
theorem Connection.send_eq (conn : Connection) {m : Message} {writes : List WriteResult}
    (hnul : nul ∉ m.encoding) (hwrites : WriteResult.error ∉ writes) :
    conn.send m writes = (true, m.encoding, conn) := by
  have hlen : strlen m.encoding = m.encoding.length := by
    rw [strlen, cStr_eq_self_iff.mpr hnul]
  have hdone := rioWritenLoop_of_no_error hwrites m.encoding
  have hout := rioWritenLoop_complete hdone
  simp [send, rioWriten, hlen, hdone, hout]

end ChatServer
