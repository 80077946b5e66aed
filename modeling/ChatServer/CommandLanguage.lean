import ChatServer.SenderClient

/-!
# The command language of the sender

What the commands of the sender are meant to do, stated of what a pass does: whether it
throws, the bytes that reach the socket for all results of the writes, what is printed,
and how the loop goes on.  A pass keeps to this exactly on the lines that the comparisons
with the keywords do not mistake and whose request has no NUL.

Main results:

- Theorem {lit}`sends_exchange_iff`: a request is sent as a message exactly if it is cut
  to the frame of that message.
- Theorem {lit}`senderIteration_parses_iff`: the lines on which a pass does what the
  command language says.

Current gaps:

- Whether the server accepts a request is not part of the command language.
-/

namespace ChatServer

/-! ## The meaning of the commands -/

/-- The line is {lit}`/join`, whitespace and the name of a room, which begins with its
first visible byte. -/
def JoinLine (line room : Bytes) : Prop :=
  ∃ blank c name, blank ≠ [] ∧ (∀ b ∈ blank, isSpace b = true) ∧
    room = c :: name ∧ isSpace c = false ∧ line = str "/join" ++ blank ++ room

/-- A pass sends one message: for all results of its writes, the bytes that reach the
socket are those of a write of the whole frame. -/
def Sends (pass : ClientWrites → Option Pass) (msg : Message) : Prop :=
  ∀ writes, ∃ p, pass writes = some p ∧
    p.sent = (rioWritenLoop writes.results msg.encoding).2

/-- The loop is left after the pass, unless the write of the request has ended the
process. -/
def Leaves (pass : ClientWrites → Option Pass) : Prop :=
  ∀ writes p, pass writes = some p → p.flow = .exit ∨ p.flow = .killed

/-- What the command language says about a pass over a trimmed line. -/
structure Parses (conn : Connection) (line : Bytes) (pass : ClientWrites → Option Pass) :
    Prop where
  returns : ∀ writes, pass writes ≠ none
  empty : line = [] → ∀ writes, pass writes = some { conn := conn }
  join : ∀ room, Sends pass { tag := tagJoin, data := room } ↔ JoinLine line room
  leave : (∃ data, Sends pass { tag := tagLeave, data := data }) ↔ line = str "/leave"
  quit : (∃ data, Sends pass { tag := tagQuit, data := data }) ∧ Leaves pass ↔
    line = str "/quit"
  sendall : Sends pass { tag := tagSendall, data := line } ↔
    line ≠ [] ∧ line.head? ≠ some slash
  other : line.head? = some slash → (∀ room, ¬ JoinLine line room) → line ≠ str "/leave" →
    line ≠ str "/quit" →
    ∃ text, text ≠ [] ∧ ∀ writes, pass writes = some { conn := conn, stderr := text }

/-- The lines that the comparisons with the keywords do not mistake: behind
{lit}`/join` comes one byte, or one byte of whitespace and then something visible,
nothing comes behind {lit}`/leave` and {lit}`/quit`, and there is no NUL in the name of
the room or in the text. -/
structure NotMistaken (line : Bytes) : Prop where
  join : ∀ t, line = str "/join" ++ t → (∃ c, t = [c]) ∨
    ∃ c d name, t = c :: d :: name ∧ isSpace c = true ∧ isSpace d = false ∧ nul ∉ d :: name
  leave : str "/leave" <+: line → line = str "/leave"
  quit : str "/quit" <+: line → line = str "/quit"
  text : line.head? ≠ some slash → nul ∉ line

/-! ## Sending a request -/

/-- The tags of the requests. -/
def requestTags : List Bytes :=
  [tagJoin, tagLeave, tagQuit, tagSendall]

theorem requestTags_not_mem {tag : Bytes} (htag : tag ∈ requestTags) :
    colon ∉ tag ∧ nul ∉ tag := by
  revert tag
  decide

/-- The tags of the requests are different. -/
theorem requestTags_ne : tagJoin ≠ tagLeave ∧ tagJoin ≠ tagQuit ∧ tagJoin ≠ tagSendall ∧
    tagLeave ≠ tagQuit ∧ tagLeave ≠ tagSendall ∧ tagQuit ≠ tagSendall := by
  decide

/-- In a frame that is cut at a NUL the tag stays. -/
theorem cStr_encoding_eq_iff {tag tag' : Bytes} (htag : colon ∉ tag ∧ nul ∉ tag)
    (htag' : colon ∉ tag') (data data' : Bytes) :
    cStr (Message.encoding { tag := tag, data := data }) =
        Message.encoding { tag := tag', data := data' } ↔
      tag = tag' ∧ cStr (data ++ [newline]) = data' ++ [newline] := by
  have hprefix : nul ∉ tag ++ [colon] := by
    have hcolon : nul ≠ colon := by decide
    simp [htag.2, hcolon]
  have hcut : cStr (Message.encoding { tag := tag, data := data }) =
      tag ++ colon :: cStr (data ++ [newline]) := by
    have happ := cStr_append_of_not_mem hprefix (data ++ [newline])
    simpa [Message.encoding] using happ
  have hwhole : Message.encoding { tag := tag', data := data' } =
      tag' ++ colon :: (data' ++ [newline]) := by
    simp [Message.encoding]
  rw [hcut, hwhole]
  constructor
  · intro h
    have hlen : tag.length = tag'.length := by
      have hfind := find_append_cons htag.1 (cStr (data ++ [newline]))
      rw [h, find_append_cons htag'] at hfind
      exact (Option.some.inj hfind).symm
    rcases List.append_inj h hlen with ⟨htags, hrest⟩
    exact ⟨htags, (List.cons.inj hrest).2⟩
  · rintro ⟨rfl, h⟩
    rw [h]

/-- A line of text keeps its newline exactly if there is no NUL in it. -/
theorem cStr_append_newline_eq_iff {data : Bytes} :
    cStr (data ++ [newline]) = data ++ [newline] ↔ nul ∉ data := by
  have hnewline : nul ≠ newline := by decide
  rw [cStr_eq_self_iff]
  simp [hnewline]

section

variable {conn : Connection} {line : Bytes} {msg : Message} {quits : Bool}

/-- A request is sent as a message exactly if the C string of its frame is the frame of
that message. -/
theorem sends_exchange_iff {m : Message} :
    Sends (fun writes => some (exchange conn msg quits writes)) m ↔
      cStr msg.encoding = m.encoding := by
  constructor
  · intro h
    rcases h {} with ⟨p, hp, hsent⟩
    cases hp
    rwa [sent_exchange] at hsent
  · intro h writes
    exact ⟨_, rfl, by rw [sent_exchange, h]⟩

/-- A request is sent as a message with the same tag, and with the same data up to a
NUL. -/
theorem sends_request_iff (htag : msg.tag ∈ requestTags) {tag data : Bytes}
    (htag' : tag ∈ requestTags) :
    Sends (fun writes => some (exchange conn msg quits writes)) { tag := tag, data := data } ↔
      msg.tag = tag ∧ cStr (msg.data ++ [newline]) = data ++ [newline] := by
  rw [sends_exchange_iff]
  exact cStr_encoding_eq_iff (requestTags_not_mem htag) (requestTags_not_mem htag').1 _ _

/-- The loop is left after a request exactly if the request is a quit. -/
theorem leaves_exchange_iff :
    Leaves (fun writes => some (exchange conn msg quits writes)) ↔ quits = true := by
  constructor
  · intro h
    have hflow := h {} _ rfl
    rw [flow_exchange, if_neg (ClientWrites.not_refuses_default msg)] at hflow
    cases quits with
    | true => rfl
    | false => rcases hflow with hflow | hflow <;> cases hflow
  · rintro rfl writes p hp
    cases hp
    rw [flow_exchange]
    by_cases hrefused : writes.Refuses msg
    · exact .inr (if_pos hrefused)
    · exact .inl (by rw [if_neg hrefused]; rfl)

/-- A request is no complaint. -/
theorem exchange_ne_complaint (htag : msg.tag ∈ requestTags) (text : Bytes) :
    exchange conn msg quits {} ≠ { conn := conn, stderr := text } := by
  intro h
  have hsent : cStr msg.encoding = [] := by
    have hsent := sent_exchange conn msg quits {}
    rw [h] at hsent
    exact hsent.symm
  have hne : msg.tag ++ [colon] ≠ [] := by simp
  have hprefix : nul ∉ msg.tag ++ [colon] := by
    have hcolon : nul ≠ colon := by decide
    simp [(requestTags_not_mem htag).2, hcolon]
  have happ := cStr_append_of_not_mem hprefix (msg.data ++ [newline])
  have hencoding : msg.encoding = msg.tag ++ [colon] ++ (msg.data ++ [newline]) := by
    simp [Message.encoding]
  rw [← hencoding, hsent] at happ
  exact hne (List.append_eq_nil_iff.mp happ.symm).1

/-! ## The forms of a line -/

theorem JoinLine.keyword {room : Bytes} (h : JoinLine line room) : str "/join" <+: line := by
  rcases h with ⟨blank, c, name, -, -, -, -, rfl⟩
  rw [List.append_assoc]
  exact List.prefix_append _ _

theorem ne_nil_of_slash (hslash : line.head? = some slash) : line ≠ [] := by
  rintro rfl
  cases hslash

/-- Lines that begin with a slash and have no keyword are not mistaken. -/
theorem notMistaken_of_no_keyword (hslash : line.head? = some slash)
    (hjoin : ¬ str "/join" <+: line) (hleave : ¬ str "/leave" <+: line)
    (hquit : ¬ str "/quit" <+: line) : NotMistaken line where
  join t ht := absurd ⟨t, ht.symm⟩ hjoin
  leave h := absurd h hleave
  quit h := absurd h hquit
  text h := absurd hslash h

/-- A pass that sends nothing sends no message. -/
theorem not_sends_of_silent {p : Pass} (hp : p.sent = []) (m : Message) :
    ¬ Sends (fun _ => some p) m := by
  intro h
  rcases h {} with ⟨p', hp', hsent⟩
  cases hp'
  rw [hp] at hsent
  have hlen := congrArg List.length hsent
  rw [rioWritenLoop, Message.length_encoding, List.length_nil] at hlen
  omega

/-- An empty line. -/
theorem parses_empty : Parses conn [] (fun _ => some { conn := conn }) where
  returns _ := Option.some_ne_none _
  empty _ _ := rfl
  join room := iff_of_false (not_sends_of_silent rfl _) fun h => absurd h.keyword (by decide)
  leave := iff_of_false (fun ⟨_, h⟩ => not_sends_of_silent rfl _ h) (by decide)
  quit := iff_of_false (fun ⟨⟨_, h⟩, _⟩ => not_sends_of_silent rfl _ h) (by decide)
  sendall := iff_of_false (not_sends_of_silent rfl _) fun h => h.1 rfl
  other h := by cases h

/-- A line on which nothing is sent and something is printed. -/
theorem parses_of_complaint (hslash : line.head? = some slash)
    (hjoin : ∀ room, ¬ JoinLine line room) (hleave : line ≠ str "/leave")
    (hquit : line ≠ str "/quit") {text : Bytes} (htext : text ≠ []) :
    Parses conn line (fun _ => some { conn := conn, stderr := text }) where
  returns _ := Option.some_ne_none _
  empty h := absurd h (ne_nil_of_slash hslash)
  join room := iff_of_false (not_sends_of_silent rfl _) (hjoin room)
  leave := iff_of_false (fun ⟨_, h⟩ => not_sends_of_silent rfl _ h) hleave
  quit := iff_of_false (fun ⟨⟨_, h⟩, _⟩ => not_sends_of_silent rfl _ h) hquit
  sendall := iff_of_false (not_sends_of_silent rfl _) fun h => h.2 hslash
  other _ _ _ _ := ⟨text, htext, fun _ => rfl⟩

/-- A line on which one request is sent. -/
theorem parses_of_request (htag : msg.tag ∈ requestTags) (hne : line ≠ []) :
    Parses conn line (fun writes => some (exchange conn msg quits writes)) ↔
      (∀ room, msg.tag = tagJoin ∧ cStr (msg.data ++ [newline]) = room ++ [newline] ↔
          JoinLine line room) ∧
        ((∃ data, msg.tag = tagLeave ∧ cStr (msg.data ++ [newline]) = data ++ [newline]) ↔
          line = str "/leave") ∧
        ((∃ data, msg.tag = tagQuit ∧ cStr (msg.data ++ [newline]) = data ++ [newline]) ∧
          quits = true ↔ line = str "/quit") ∧
        (msg.tag = tagSendall ∧ cStr (msg.data ++ [newline]) = line ++ [newline] ↔
          line.head? ≠ some slash) ∧
        (line.head? = some slash →
          (∃ room, JoinLine line room) ∨ line = str "/leave" ∨ line = str "/quit") := by
  have hsends : ∀ {tag data : Bytes}, tag ∈ requestTags →
      (Sends (fun writes => some (exchange conn msg quits writes))
          { tag := tag, data := data } ↔
        msg.tag = tag ∧ cStr (msg.data ++ [newline]) = data ++ [newline]) :=
    fun htag' => sends_request_iff htag htag'
  have hjoinTag : tagJoin ∈ requestTags := by decide
  have hleaveTag : tagLeave ∈ requestTags := by decide
  have hquitTag : tagQuit ∈ requestTags := by decide
  have hsendallTag : tagSendall ∈ requestTags := by decide
  constructor
  · intro h
    refine ⟨fun room => ?_, ?_, ?_, ?_, fun hslash => ?_⟩
    · rw [← hsends hjoinTag]
      exact h.join room
    · simp only [← hsends hleaveTag]
      exact h.leave
    · simp only [← hsends hquitTag, ← @leaves_exchange_iff conn msg quits]
      exact h.quit
    · rw [← hsends hsendallTag, h.sendall, and_iff_right hne]
    · by_contra hnone
      simp only [not_or, not_exists] at hnone
      rcases h.other hslash hnone.1 hnone.2.1 hnone.2.2 with ⟨text, -, htext⟩
      exact exchange_ne_complaint htag text (Option.some.inj (htext {}))
  · rintro ⟨hjoin, hleave, hquit, hsendall, hother⟩
    refine ⟨fun writes => Option.some_ne_none _, fun h => absurd h hne, fun room => ?_, ?_, ?_,
      ?_, fun hslash hj hl hq => ?_⟩
    · rw [hsends hjoinTag]
      exact hjoin room
    · simp only [hsends hleaveTag]
      exact hleave
    · simp only [hsends hquitTag, leaves_exchange_iff]
      exact hquit
    · rw [hsends hsendallTag, hsendall, and_iff_right hne]
    · rcases hother hslash with ⟨room, hroom⟩ | h | h
      · exact absurd hroom (hj room)
      · exact absurd h hl
      · exact absurd h hq

/-- Everything that does not begin with a slash is sent to the room, up to a NUL. -/
theorem parses_text_iff (hne : line ≠ []) (hslash : line.head? ≠ some slash) :
    Parses conn line (fun writes =>
        some (exchange conn { tag := tagSendall, data := line } false writes)) ↔
      NotMistaken line := by
  have hkeyword : ¬ (str "/join" <+: line ∨ str "/leave" <+: line ∨ str "/quit" <+: line) :=
    fun h => hslash (head_of_keyword h)
  simp only [not_or] at hkeyword
  rcases hkeyword with ⟨hjoin, hleave, hquit⟩
  rcases requestTags_ne with ⟨-, -, hjs, -, hls, hqs⟩
  have htag : tagSendall ∈ requestTags := by decide
  rw [parses_of_request htag hne]
  constructor
  · rintro ⟨-, -, -, hsendall, -⟩
    refine ⟨fun t ht => absurd ⟨t, ht.symm⟩ hjoin, fun h => absurd h hleave,
      fun h => absurd h hquit, fun _ => ?_⟩
    exact cStr_append_newline_eq_iff.mp (hsendall.mpr hslash).2
  · intro h
    refine ⟨fun room => iff_of_false (fun h => hjs h.1.symm) fun h => hjoin h.keyword,
      iff_of_false (fun ⟨_, h, _⟩ => hls h.symm) ?_,
      iff_of_false (fun ⟨⟨_, h, _⟩, _⟩ => hqs h.symm) ?_,
      iff_of_true ⟨rfl, cStr_append_newline_eq_iff.mpr (h.text hslash)⟩ hslash,
      fun h => absurd h hslash⟩
    · rintro rfl
      exact hleave List.prefix_rfl
    · rintro rfl
      exact hquit List.prefix_rfl

/-- Any line that begins with {lit}`/leave` is taken for a leave. -/
theorem parses_leave_iff (hleave : str "/leave" <+: line) :
    Parses conn line (fun writes =>
        some (exchange conn { tag := tagLeave, data := str "left room" } false writes)) ↔
      NotMistaken line := by
  have hslash := head_of_keyword (.inr (.inl hleave))
  have hjoin : ¬ str "/join" <+: line := fun h => keywords_disjoint.1 ⟨h, hleave⟩
  have hquit : ¬ str "/quit" <+: line := fun h => keywords_disjoint.2.2 ⟨hleave, h⟩
  have hwhole : cStr (str "left room" ++ [newline]) = str "left room" ++ [newline] := by decide
  rcases requestTags_ne with ⟨hjl, -, -, hlq, hls, -⟩
  rw [parses_of_request (by decide) (ne_nil_of_slash hslash)]
  constructor
  · rintro ⟨-, h, -⟩
    exact ⟨fun t ht => absurd ⟨t, ht.symm⟩ hjoin, fun _ => h.mp ⟨_, rfl, hwhole⟩,
      fun h => absurd h hquit, fun h => absurd hslash h⟩
  · intro h
    have hline := h.leave hleave
    refine ⟨fun room => iff_of_false (fun h => hjl h.1.symm) fun h => hjoin h.keyword,
      iff_of_true ⟨_, rfl, hwhole⟩ hline, iff_of_false (fun h => Bool.noConfusion h.2) ?_,
      iff_of_false (fun h => hls h.1) (not_not.mpr hslash), fun _ => .inr (.inl hline)⟩
    exact fun h => hquit (h ▸ List.prefix_rfl)

/-- Any line that begins with {lit}`/quit` is taken for a quit. -/
theorem parses_quit_iff (hquit : str "/quit" <+: line) :
    Parses conn line (fun writes =>
        some (exchange conn { tag := tagQuit, data := str "quit room" } true writes)) ↔
      NotMistaken line := by
  have hslash := head_of_keyword (.inr (.inr hquit))
  have hjoin : ¬ str "/join" <+: line := fun h => keywords_disjoint.2.1 ⟨h, hquit⟩
  have hleave : ¬ str "/leave" <+: line := fun h => keywords_disjoint.2.2 ⟨h, hquit⟩
  have hwhole : cStr (str "quit room" ++ [newline]) = str "quit room" ++ [newline] := by decide
  rcases requestTags_ne with ⟨-, hjq, -, hlq, -, hqs⟩
  rw [parses_of_request (by decide) (ne_nil_of_slash hslash)]
  constructor
  · rintro ⟨-, -, h, -⟩
    exact ⟨fun t ht => absurd ⟨t, ht.symm⟩ hjoin, fun h => absurd h hleave,
      fun _ => h.mp ⟨⟨_, rfl, hwhole⟩, rfl⟩, fun h => absurd hslash h⟩
  · intro h
    have hline := h.quit hquit
    refine ⟨fun room => iff_of_false (fun h => hjq h.1.symm) fun h => hjoin h.keyword,
      iff_of_false (fun ⟨_, h, _⟩ => hlq h.symm) ?_, iff_of_true ⟨⟨_, rfl, hwhole⟩, rfl⟩ hline,
      iff_of_false (fun h => hqs h.1) (not_not.mpr hslash), fun _ => .inr (.inr hline)⟩
    exact fun h => hleave (h ▸ List.prefix_rfl)

/-- What comes behind the keyword is whitespace and the name of the room. -/
theorem joinLine_append_iff (t room : Bytes) :
    JoinLine (str "/join" ++ t) room ↔ ∃ blank c name, blank ≠ [] ∧
      (∀ b ∈ blank, isSpace b = true) ∧ room = c :: name ∧ isSpace c = false ∧
        t = blank ++ room := by
  simp only [JoinLine, List.append_assoc, List.append_cancel_left_eq]

/-- Behind one byte of whitespace the name of the room is everything that begins with a
visible byte. -/
theorem joinLine_of_blank {c d : Byte} (hc : isSpace c = true) (hd : isSpace d = false)
    (name room : Bytes) :
    JoinLine (str "/join" ++ c :: d :: name) room ↔ room = d :: name := by
  rw [joinLine_append_iff]
  constructor
  · rintro ⟨blank, c', name', hne, hblank, -, -, hsplit⟩
    rcases List.exists_cons_of_ne_nil hne with ⟨b, blank', rfl⟩
    cases blank' with
    | nil =>
        simp only [List.cons_append, List.nil_append, List.cons.injEq] at hsplit
        exact hsplit.2.symm
    | cons b' blank' =>
        simp only [List.cons_append, List.cons.injEq] at hsplit
        have hspace := hblank b' (by simp)
        rw [← hsplit.2.1, hd] at hspace
        cases hspace
  · rintro rfl
    exact ⟨[c], d, name, by simp, by simpa using hc, rfl, hd, rfl⟩

/-- If the name of a room is sent from the sixth byte on, then the fifth byte is all the
whitespace. -/
theorem blank_of_joinLine {c d : Byte} {name room : Bytes}
    (hline : JoinLine (str "/join" ++ c :: d :: name) room)
    (hsent : cStr (d :: name ++ [newline]) = room ++ [newline]) :
    isSpace c = true ∧ isSpace d = false := by
  rcases (joinLine_append_iff _ _).mp hline with ⟨blank, c', name', hne, hblank, hroom, hc', hsplit⟩
  rcases List.exists_cons_of_ne_nil hne with ⟨b, blank', rfl⟩
  have hfirst : d = c' := by
    have hprefix := cStr_prefix_self (d :: name ++ [newline])
    rw [hsent, hroom, List.cons_append, List.cons_append, List.cons_prefix_cons] at hprefix
    exact hprefix.1.symm
  rw [List.cons_append, List.cons.injEq] at hsplit
  exact ⟨hsplit.1 ▸ hblank b (by simp), hfirst ▸ hc'⟩

/-- A line with one byte behind {lit}`/join` has no room name. -/
theorem parses_missing_room (conn : Connection) (c : Byte) :
    Parses conn (str "/join" ++ [c])
        (fun _ => some { conn := conn, stderr := needsRoomName }) ∧
      NotMistaken (str "/join" ++ [c]) := by
  have hkeyword : str "/join" <+: str "/join" ++ [c] := List.prefix_append _ _
  have hleave : ¬ str "/leave" <+: str "/join" ++ [c] :=
    fun h => keywords_disjoint.1 ⟨hkeyword, h⟩
  have hquit : ¬ str "/quit" <+: str "/join" ++ [c] :=
    fun h => keywords_disjoint.2.1 ⟨hkeyword, h⟩
  constructor
  · refine parses_of_complaint rfl (fun room h => ?_) (fun h => hleave (h ▸ List.prefix_rfl))
      (fun h => hquit (h ▸ List.prefix_rfl)) (by decide)
    rcases (joinLine_append_iff [c] room).mp h with ⟨blank, c', name, hblank, -, rfl, -, hsplit⟩
    have hlen := congrArg List.length hsplit
    have hpos := List.length_pos_iff.mpr hblank
    rw [List.length_singleton, List.length_append, List.length_cons] at hlen
    omega
  · refine ⟨fun t ht => .inl ⟨c, ?_⟩, fun h => absurd h hleave, fun h => absurd h hquit,
      fun h => absurd rfl h⟩
    exact (List.append_cancel_left ht).symm

/-- A line that goes on behind {lit}`/join` and another byte is taken for a join. -/
theorem parses_join_iff {c d : Byte} {name : Bytes}
    (hline : line = str "/join" ++ c :: d :: name) :
    Parses conn line (fun writes =>
        some (exchange conn { tag := tagJoin, data := d :: name } false writes)) ↔
      NotMistaken line := by
  have hkeyword : str "/join" <+: line := hline ▸ List.prefix_append _ _
  have hslash := head_of_keyword (.inl hkeyword)
  have hleave : line ≠ str "/leave" :=
    fun h => keywords_disjoint.1 ⟨hkeyword, h ▸ List.prefix_rfl⟩
  have hquit : line ≠ str "/quit" :=
    fun h => keywords_disjoint.2.1 ⟨hkeyword, h ▸ List.prefix_rfl⟩
  rcases requestTags_ne with ⟨hjl, hjq, hjs, -⟩
  have htag : tagJoin ∈ requestTags := by decide
  rw [parses_of_request htag (ne_nil_of_slash hslash)]
  simp only [true_and]
  subst line
  constructor
  · rintro ⟨hjoin, -, -, -, hother⟩
    have hroom : ∃ room, JoinLine (str "/join" ++ c :: d :: name) room := by
      rcases hother hslash with h | h | h
      · exact h
      · exact absurd h hleave
      · exact absurd h hquit
    rcases hroom with ⟨room, hroom⟩
    have hsent := (hjoin room).mpr hroom
    rcases blank_of_joinLine hroom hsent with ⟨hc, hd⟩
    rw [(joinLine_of_blank hc hd name room).mp hroom] at hsent
    refine ⟨fun t ht => .inr ?_, fun h => absurd ⟨hkeyword, h⟩ keywords_disjoint.1,
      fun h => absurd ⟨hkeyword, h⟩ keywords_disjoint.2.1, fun h => absurd hslash h⟩
    rw [List.append_cancel_left_eq] at ht
    exact ⟨c, d, name, ht.symm, hc, hd, cStr_append_newline_eq_iff.mp hsent⟩
  · intro h
    have hname : isSpace c = true ∧ isSpace d = false ∧ nul ∉ d :: name := by
      rcases h.join _ rfl with ⟨c', ht⟩ | ⟨c', d', name', ht, hname⟩
      · simp at ht
      · simp only [List.cons.injEq] at ht
        rwa [ht.1, ht.2.1, ht.2.2]
    rcases hname with ⟨hc, hd, hnul⟩
    have hrooms : ∀ room, cStr (d :: name ++ [newline]) = room ++ [newline] ↔
        JoinLine (str "/join" ++ c :: d :: name) room := by
      intro room
      rw [joinLine_of_blank hc hd, cStr_append_newline_eq_iff.mpr hnul,
        List.append_cancel_right_eq, eq_comm]
    refine ⟨hrooms, iff_of_false (fun ⟨_, h, _⟩ => hjl h) hleave,
      iff_of_false (fun h => Bool.noConfusion h.2) hquit,
      iff_of_false (fun h => hjs h.1) (not_not.mpr hslash), fun _ => .inl ⟨d :: name, ?_⟩⟩
    rw [joinLine_of_blank hc hd]

/-! ## What a pass parses -/

/-- A pass over a line of any form. -/
theorem parses_iff_of_form {command : Option Command} (h : LineForm line command) :
    Parses conn line (fun writes => command.map (Command.pass conn writes)) ↔
      NotMistaken line := by
  cases h with
  | empty h =>
      subst line
      exact iff_of_true parses_empty
        ⟨fun t ht => absurd ht (by simp [str]), fun h => absurd h (by decide),
          fun h => absurd h (by decide), fun _ => by simp⟩
  | text hne hslash => exact parses_text_iff hne hslash
  | bareJoin h =>
      refine iff_of_false (fun h => h.returns {} rfl) fun hnot => ?_
      rcases hnot.join [] (by simpa using h) with ⟨c, hc⟩ | ⟨c, d, name, hc, -⟩ <;> cases hc
  | joinByte c h =>
      subst line
      exact iff_of_true (parses_missing_room conn c).1 (parses_missing_room conn c).2
  | join c d name h => exact parses_join_iff h
  | leave h => exact parses_leave_iff h
  | quit h => exact parses_quit_iff h
  | unknown hslash hjoin hleave hquit =>
      refine iff_of_true (parses_of_complaint hslash (fun room h => hjoin h.keyword) ?_ ?_ ?_)
        (notMistaken_of_no_keyword hslash hjoin hleave hquit)
      · exact fun h => hleave (h ▸ List.prefix_rfl)
      · exact fun h => hquit (h ▸ List.prefix_rfl)
      · decide

end

/-- A pass does what the command language says exactly on the lines that are not
mistaken. -/
theorem senderIteration_parses_iff (conn : Connection) (raw : Bytes) :
    Parses conn (trim raw) (senderIteration conn raw) ↔ NotMistaken (trim raw) :=
  parses_iff_of_form (parseLine_form raw)

/-- The client throws an exception on a join without a room, takes a longer word for a
keyword, sends whitespace as part of a room name, and cuts a text at a NUL. -/
theorem commands_mistaken :
    senderIteration {} (str "/join") {} = none ∧
      (senderIteration {} (str "/joinxhall") {}).map Pass.sent = some (str "join:hall\n") ∧
      (senderIteration {} (str "/join  hall") {}).map Pass.sent = some (str "join: hall\n") ∧
      (senderIteration {} (str "/quitter") {}).map Pass.flow = some .exit ∧
      (senderIteration {} [104, nul, 105] {}).map Pass.sent = some (str "sendall:h") ∧
      ¬ Parses {} (trim (str "/join")) (senderIteration {} (str "/join")) := by
  have hnone : senderIteration {} (str "/join") {} = none := by decide
  exact ⟨hnone, by decide, by decide, by decide, by decide, fun h => h.returns {} hnone⟩

end ChatServer
