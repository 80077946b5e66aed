import ChatServer.WireStream

/-!
# The wire format

The frames that {lit}`receive` accepts are the encodings of messages up to
surrounding whitespace, and a received message is in normal form: encoding it
gives the trimmed frame, and receiving that gives the message again.  The checks
of {lit}`split_payload` describe the same format a second time, and miss it in
three ways: they forget the colon and the newline when they measure the message,
they look for a newline in the trimmed data only, and they let a NUL pass.

Main results:

- Theorem {lit}`frameLine_iff`: the frames are the encoder's image up to surrounding
  whitespace.
- Theorem {lit}`receive_normalises`: what a receive accepts, and the normal form of
  what it returns.
- Theorem {lit}`validator_agrees_iff`: an accepted payload belongs to a legal wire
  message exactly when the checks overlook nothing.

Current gaps:

- None for frames that end in a newline.
-/

namespace ChatServer

/-! ## Normal forms -/

/-- Received data has no trailing whitespace. -/
theorem rtrim_data_of_decode {line : Bytes} {m : Message} (h : decode line = some m) :
    rtrim m.data = m.data := by
  rcases decode_eq_some h with ⟨htrim, -⟩
  have hfixed : rtrim (m.tag ++ colon :: m.data) = m.tag ++ colon :: m.data := by
    rw [← htrim, trim, rtrim_rtrim]
  rw [rtrim_append_cons_of_not_isSpace _ not_isSpace_colon] at hfixed
  simpa using hfixed

/-- Without a NUL, the encoding of a received message is the trimmed line with a
newline. -/
theorem encoding_of_decode {line : Bytes} {m : Message} (hnul : nul ∉ line)
    (h : decode line = some m) : m.encoding = trim line ++ [newline] := by
  rcases decode_eq_some h with ⟨htrim, -⟩
  rw [cStr_eq_self_iff.mpr hnul] at htrim
  simp [Message.encoding, htrim]

/-- A terminated line loses at least its newline. -/
theorem length_trim_lt {line : Bytes} (hline : Terminated line) :
    (trim line).length < line.length := by
  rcases hline with ⟨body, rfl, hbody⟩
  refine lt_of_le_of_ne (trim_sublist _).length_le fun hlen => ?_
  have hsame := (trim_sublist (body ++ [newline])).eq_of_length hlen
  have hnot : newline ∉ trim (body ++ [newline]) := newline_not_mem_trim (by simpa using hbody)
  rw [hsame] at hnot
  simp at hnot

/-- A text that trims like the encoding of a message with a lower-case tag and data
on one line. -/
def TrimsLikeEncoding (text : Bytes) : Prop :=
  ∃ m : Message, isLowerCased m.tag = true ∧ newline ∉ m.data ∧
    trim text = trim (m.tag ++ [colon] ++ m.data)

/-- The frames are the encoder's image up to surrounding whitespace. -/
theorem frameLine_iff {line : Bytes} (hline : Terminated line) (hnul : nul ∉ line) :
    FrameLine line ↔ TrimsLikeEncoding line := by
  rw [FrameLine, cStr_eq_self_iff.mpr hnul]
  constructor
  · rintro ⟨tag, data, hlower, htrim⟩
    have hdecode : decode line = some { tag := tag, data := data } :=
      decode_of_trim hlower (by rwa [cStr_eq_self_iff.mpr hnul])
    have hdata := rtrim_data_of_decode hdecode
    refine ⟨{ tag := tag, data := data }, hlower, ?_, ?_⟩
    · rcases hline with ⟨body, rfl, hbody⟩
      have hnot : newline ∉ trim (body ++ [newline]) := newline_not_mem_trim (by simpa using hbody)
      rw [htrim] at hnot
      exact fun hmem => hnot (by simp [hmem])
    · have htag := trim_tag_colon hlower data
      rw [hdata] at htag
      simp [htrim, htag]
  · rintro ⟨m, hlower, -, htrim⟩
    refine ⟨m.tag, rtrim m.data, hlower, ?_⟩
    rw [htrim, ← trim_tag_colon hlower]
    simp

/-- A received message is legal. -/
theorem legal_of_decode {line : Bytes} {m : Message} (hline : Terminated line)
    (hfit : line.length ≤ maxLen) (hnul : nul ∉ line) (h : decode line = some m) : m.Legal := by
  rcases hline with ⟨body, rfl, hbody⟩
  rcases decode_bounds hfit (by simpa using hbody) h with ⟨-, hnewline, hnuldata⟩
  refine ⟨(decode_eq_some h).2, hnewline, hnuldata, ?_⟩
  have hlt := length_trim_lt ⟨body, rfl, hbody⟩
  rw [encoding_of_decode hnul h, List.length_append, List.length_singleton]
  omega

/-- The message is in normal form: its encoding is the trimmed frame with a newline
and no longer than the frame, a send writes it, and a receive of it returns the
message. -/
structure NormalForm (m : Message) (frame : Bytes) : Prop where
  encoding : m.encoding = trim frame ++ [newline]
  no_longer : m.encoding.length ≤ frame.length
  sent : ∀ (conn : Connection) (writes : List WriteResult), WriteResult.error ∉ writes →
    conn.send m writes = (true, trim frame ++ [newline], conn)
  received : ∀ (peer : Connection) (rest : Bytes) (msg : Message),
    peer.stream = (trim frame ++ [newline]) ++ rest →
      (peer.receive msg).1 = true ∧ (peer.receive msg).2.1 = m

theorem normalForm_of_decode {line : Bytes} {m : Message} (hline : Terminated line)
    (hfit : line.length ≤ maxLen) (hnul : nul ∉ line) (h : decode line = some m) :
    NormalForm m line := by
  have hencoding := encoding_of_decode hnul h
  have hlegal := legal_of_decode hline hfit hnul h
  refine ⟨hencoding, ?_, fun conn writes hwrites => ?_, fun peer rest msg hpeer => ?_⟩
  · have hlt := length_trim_lt hline
    rw [hencoding, List.length_append, List.length_singleton]
    omega
  · rw [← hencoding]
    exact conn.send_eq (nul_not_mem_encoding hlegal.tag hlegal.nul_data) hwrites
  · rw [← hencoding] at hpeer
    rcases Connection.receive_encoding hlegal hpeer msg with ⟨hok, hmsg, -⟩
    rw [← rtrim_eq_rdropWhile, rtrim_data_of_decode h] at hmsg
    exact ⟨hok, hmsg⟩

/-- A receive of a frame returns true exactly if the frame trims like an encoding, and
otherwise records an invalid message; the message that it returns is in normal
form. -/
theorem receive_normalises {frame : Bytes} (hframe : Terminated frame)
    (hfit : frame.length ≤ maxLen) (hnul : nul ∉ frame) {conn : Connection} {rest : Bytes}
    (hstream : conn.stream = frame ++ rest) (msg : Message) :
    ((conn.receive msg).1 = true ↔ TrimsLikeEncoding frame) ∧
      ((conn.receive msg).1 = false → (conn.receive msg).2.2.lastResult = .invalidMsg) ∧
      ((conn.receive msg).1 = true → NormalForm (conn.receive msg).2.1 frame) := by
  have houtcome := (Connection.receive_line hframe hfit hstream msg).2
  rw [OutcomeOf, if_pos hfit] at houtcome
  rw [← frameLine_iff hframe hnul, ← decode_isSome_iff]
  cases hdec : decode frame with
  | none =>
      rw [hdec] at houtcome
      rcases houtcome with ⟨hok, hlast⟩
      simp [hok, hlast]
  | some m =>
      rw [hdec] at houtcome
      rcases houtcome with ⟨hok, hmsg⟩
      have hnormal := normalForm_of_decode hframe hfit hnul hdec
      simp [hok, hmsg, hnormal]

/-- A frame with whitespace on both sides and a second colon. -/
theorem receive_normalises_join :
    let frame := str " join: a:b \n"
    let conn : Connection := { fdbuf := { rioBuf := frame } }
    ((conn.receive {}).1 = true ↔ TrimsLikeEncoding frame) ∧
      ((conn.receive {}).1 = false → (conn.receive {}).2.2.lastResult = .invalidMsg) ∧
      ((conn.receive {}).1 = true → NormalForm (conn.receive {}).2.1 frame) :=
  receive_normalises ⟨str " join: a:b ", by decide, by decide⟩ (by decide) (by decide)
    (List.append_nil _).symm {}

/-! ## The payload validator -/

/-- A legal wire message: its encoding is one line within the limit. -/
structure Message.WireLegal (m : Message) : Prop where
  fits : m.encoding.length ≤ maxLen
  one_line : newline ∉ m.encoding.dropLast

/-- A send and a receive use exactly one frame, and keep the message up to the trailing
whitespace of its data. -/
def Message.OneFrame (m : Message) : Prop :=
  ∀ (conn : Connection) (writes : List WriteResult), WriteResult.error ∉ writes →
    ∀ (peer : Connection) (rest : Bytes), peer.stream = (conn.send m writes).2.1 ++ rest →
      ∀ msg : Message, (conn.send m writes).1 = true ∧ (peer.receive msg).1 = true ∧
        (peer.receive msg).2.1 = { tag := m.tag, data := m.data.rdropWhile isSpace } ∧
        (peer.receive msg).2.2.stream = rest

/-- A message that passes the checks of {lit}`split_payload` although its encoding is
longer than the limit, or has a newline at the ends of the data, or a NUL. -/
def Message.Overlooked (m : Message) : Prop :=
  m.Accepted ∧ (253 < m.tag.length + m.data.length ∨ newline ∈ m.data ∨ nul ∈ m.data)

theorem isLowerCased_of_mem_tagTable {tag : Bytes} (h : tag ∈ tagTable) :
    isLowerCased tag = true := by
  have hall : ∀ tag ∈ tagTable, isLowerCased tag = true := by decide
  exact hall tag h

/-- Legal messages are legal on the wire, and use one frame. -/
theorem Message.Legal.oneFrame {m : Message} (h : m.Legal) : m.WireLegal ∧ m.OneFrame := by
  have hnul := nul_not_mem_encoding h.tag h.nul_data
  refine ⟨⟨h.fits, ?_⟩, fun conn writes hwrites peer rest hpeer msg => ?_⟩
  · rcases h.line with ⟨body, hbody, hnewline, -⟩
    simpa [hbody] using hnewline
  · rw [conn.send_eq hnul hwrites] at hpeer ⊢
    exact ⟨rfl, Connection.receive_encoding h hpeer msg⟩

/-- Legal wire messages have a short payload on one line. -/
theorem Message.WireLegal.bounds {m : Message} (h : m.WireLegal) :
    m.tag.length + m.data.length ≤ 253 ∧ newline ∉ m.data := by
  have hfits : m.tag.length + m.data.length + 2 ≤ 255 := m.length_encoding ▸ h.fits
  have hshape : m.encoding.dropLast = m.tag ++ colon :: m.data := by
    rw [Message.encoding, List.dropLast_concat]
    simp
  have hline := h.one_line
  rw [hshape] at hline
  exact ⟨by omega, fun hmem => hline (by simp [hmem])⟩

/-- Received data has no NUL. -/
theorem Connection.nul_not_mem_of_receive {conn : Connection} {msg : Message}
    (h : (conn.receive msg).1 = true) : nul ∉ (conn.receive msg).2.1.data := by
  rw [receive_eq] at h ⊢
  cases hnext : conn.nextLine with
  | none => simp [hnext] at h
  | some line =>
      cases hdec : decode line with
      | none => simp [hnext, hdec] at h
      | some m =>
          simp only [hdec]
          intro hmem
          have hsub := (trim_sublist (cStr line)).subset
          rw [(decode_eq_some hdec).1] at hsub
          exact nul_not_mem_cStr line (hsub (by simp [hmem]))

/-- A NUL does not survive a send and a receive. -/
theorem Message.OneFrame.nul_not_mem {m : Message} (h : m.OneFrame) : nul ∉ m.data := by
  intro hmem
  let sent := (({} : Connection).send m []).2.1
  let peer : Connection := { fdbuf := { rioBuf := sent } }
  have hstream : peer.stream = sent ++ [] := by
    change sent ++ [] = sent ++ []
    rfl
  rcases h {} [] (by simp) peer [] hstream {} with ⟨-, hok, hmsg, -⟩
  have hnot := Connection.nul_not_mem_of_receive hok
  rw [hmsg, ← rtrim_eq_rdropWhile] at hnot
  rcases List.append_of_mem hmem with ⟨front, back, hdata⟩
  rw [hdata, rtrim_append_cons_of_not_isSpace front (by decide)] at hnot
  simp at hnot

/-- An accepted payload belongs to a legal wire message that uses one frame, exactly
when the checks overlook nothing. -/
theorem validator_agrees_iff (m : Message) :
    (2 ≤ m.splitPayload.length → m.WireLegal ∧ m.OneFrame) ↔ ¬ m.Overlooked := by
  by_cases haccepted : m.Accepted
  · have htwo := (Message.fields_of_accepted haccepted).2.1
    constructor
    · rintro h ⟨-, hover⟩
      rcases h htwo with ⟨hlegal, hframe⟩
      rcases hlegal.bounds with ⟨hshort, hline⟩
      rcases hover with hlong | hnewline | hnul
      · omega
      · exact hline hnewline
      · exact hframe.nul_not_mem hnul
    · intro hnot _
      have hlower := isLowerCased_of_mem_tagTable haccepted.in_table
      refine Message.Legal.oneFrame ⟨hlower, fun hnewline => ?_, fun hnul => ?_, ?_⟩
      · exact hnot ⟨haccepted, .inr (.inl hnewline)⟩
      · exact hnot ⟨haccepted, .inr (.inr hnul)⟩
      · have hshort : ¬ 253 < m.tag.length + m.data.length := fun hlong =>
          hnot ⟨haccepted, .inl hlong⟩
        rw [Message.length_encoding, maxLen]
        omega
  · have hone := Message.length_splitPayload_of_not_accepted haccepted
    refine iff_of_true (fun htwo => ?_) fun hover => haccepted hover.1
    omega

/-- A reply of full length that a malformed line follows: the failed receive replaces
the tag by a longer one. -/
def longReplyStream : Connection :=
  { fdbuf := { rioBuf := str "ok:r:u:" ++ List.replicate 247 120 ++ str "\nbad\n" } }

/-- The message variable is accepted then, and its encoding has 256 bytes. -/
theorem overlong_message_accepted :
    let m := (longReplyStream.receiveAll {} 2).2.1
    m = { tag := tagErr, data := str "r:u:" ++ List.replicate 247 120 } ∧
      m.splitPayload.length = 3 ∧ m.encoding.length = 256 ∧
      ¬ (2 ≤ m.splitPayload.length → m.WireLegal ∧ m.OneFrame) := by
  have hm : (longReplyStream.receiveAll {} 2).2.1 =
      { tag := tagErr, data := str "r:u:" ++ List.replicate 247 120 } := by
    decide +kernel
  have hthree : ({ tag := tagErr, data := str "r:u:" ++ List.replicate 247 120 } :
      Message).splitPayload.length = 3 := by
    decide +kernel
  have hlong : ({ tag := tagErr, data := str "r:u:" ++ List.replicate 247 120 } :
      Message).encoding.length = 256 := by
    decide +kernel
  dsimp only
  rw [hm]
  refine ⟨rfl, hthree, hlong, fun h => ?_⟩
  have hfits := (h (by omega)).1.fits
  rw [hlong] at hfits
  exact absurd hfits (by decide)

end ChatServer
