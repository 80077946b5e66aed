import ChatServer.ReceiverClient
import ChatServer.Server.Code
import ChatServer.WireStream

/-!
# From a broadcast to the receiver's output

The way of one message through all four stages: composed by
{lit}`broadcast_message`, framed by {lit}`send`, read back by {lit}`receive`,
and split by {lit}`split_payload` in the receiver client.  The first three
stages keep every text; the splitter asks for exactly two colons in a delivery,
so that a text with a colon is lost in the last stage.

Main results:

- Theorem {lit}`receive_newMessage`: the peer receives the message that the room
  composed.
- Theorem {lit}`delivered_text_iff`: the client prints the text iff it has no
  colon.

Current gaps:

- None for a message that is sent without a write error.
-/

namespace ChatServer

/-! ## Received data and composed messages -/

/-- Data that a receive can return: one line without NUL and without trailing
whitespace. -/
structure Receivable (data : Bytes) : Prop where
  newline : newline ∉ data
  nul : nul ∉ data
  trimmed : rtrim data = data

instance (data : Bytes) : Decidable (Receivable data) :=
  decidable_of_iff (newline ∉ data ∧ nul ∉ data ∧ rtrim data = data)
    ⟨fun h => ⟨h.1, h.2.1, h.2.2⟩, fun h => ⟨h.newline, h.nul, h.trimmed⟩⟩

/-- A valid room name avoids every character that is not alphanumeric. -/
theorem not_mem_of_isValidRoomName {name : Bytes} (h : isValidRoomName name = true)
    {c : Byte} (hc : isalnum c = false) : c ∉ name := by
  intro hmem
  have hall := List.all_eq_true.mp h c hmem
  rw [hc] at hall
  cases hall

/-- No trailing whitespace is lost from a composed message. -/
theorem rtrim_newMessage_data (room : Room) (senderUsername : Bytes) {messageText : Bytes}
    (htext : Receivable messageText) :
    rtrim (room.newMessage senderUsername messageText).data =
      (room.newMessage senderUsername messageText).data := by
  have hshape : (room.newMessage senderUsername messageText).data =
      (room.roomName ++ [colon] ++ senderUsername) ++ colon :: messageText := by
    simp [Room.newMessage]
  rw [hshape, rtrim_append_cons_of_not_isSpace _ not_isSpace_colon, htext.trimmed]

section

variable {room : Room} {senderUsername messageText : Bytes}
  (hroom : isValidRoomName room.roomName = true) (huser : Receivable senderUsername)
  (htext : Receivable messageText)
include hroom huser htext

/-- The composed message is legal if it fits. -/
theorem newMessage_legal
    (hfits : (room.newMessage senderUsername messageText).encoding.length ≤ maxLen) :
    (room.newMessage senderUsername messageText).Legal where
  tag := rfl
  newline_data := by
    have hname : newline ∉ room.roomName := not_mem_of_isValidRoomName hroom (by decide)
    have hcolon : newline ≠ colon := by decide
    simp [Room.newMessage, hname, hcolon, huser.newline, htext.newline]
  nul_data := by
    have hname : nul ∉ room.roomName := not_mem_of_isValidRoomName hroom (by decide)
    have hcolon : nul ≠ colon := by decide
    simp [Room.newMessage, hname, hcolon, huser.nul, htext.nul]
  fits := hfits

/-- The peer receives the message that the room composed. -/
theorem receive_newMessage
    (hfits : (room.newMessage senderUsername messageText).encoding.length ≤ maxLen)
    (conn : Connection) {writes : List WriteResult} (hwrites : WriteResult.error ∉ writes)
    {peer : Connection} {rest : Bytes}
    (hpeer : peer.stream =
      (conn.send (room.newMessage senderUsername messageText) writes).2.1 ++ rest)
    (msg : Message) :
    (conn.send (room.newMessage senderUsername messageText) writes).1 = true ∧
      (peer.receive msg).1 = true ∧
      (peer.receive msg).2.1 = room.newMessage senderUsername messageText := by
  have hlegal := newMessage_legal hroom huser htext hfits
  have hsend := conn.send_eq (nul_not_mem_encoding hlegal.tag hlegal.nul_data) hwrites
  rw [hsend] at hpeer ⊢
  rcases Connection.receive_encoding hlegal hpeer msg with ⟨hok, hmsg, -⟩
  refine ⟨rfl, hok, ?_⟩
  rw [hmsg, ← rtrim_eq_rdropWhile, rtrim_newMessage_data room senderUsername htext]

/-- The splitter accepts a composed message iff its text has no colon, and then
returns its three parts. -/
theorem splitPayload_newMessage (hcolon : colon ∉ senderUsername)
    (hfits : (room.newMessage senderUsername messageText).encoding.length ≤ maxLen) :
    (room.newMessage senderUsername messageText).splitPayload =
        [room.roomName, senderUsername, messageText] ↔ colon ∉ messageText := by
  have hname : colon ∉ room.roomName := not_mem_of_isValidRoomName hroom (by decide)
  have hlegal := newMessage_legal hroom huser htext hfits
  have hcount : (room.newMessage senderUsername messageText).data.count colon =
      2 + messageText.count colon := by
    simp [Room.newMessage, List.count_eq_zero_of_not_mem hname,
      List.count_eq_zero_of_not_mem hcolon]
    omega
  constructor
  · intro hsplit
    have hthree := (Message.length_splitPayload_eq_three_iff _).mp (by rw [hsplit]; rfl)
    rw [hcount] at hthree
    exact List.count_eq_zero.mp (by omega)
  · intro htextColon
    have htable : tagDelivery ∈ tagTable := by decide
    have haccepted : (room.newMessage senderUsername messageText).Accepted :=
      { short := by
          rw [Message.length_encoding] at hfits
          exact (Nat.le_add_right _ 2).trans hfits
        one_line := newline_not_mem_trim fun h =>
          hlegal.newline_data (List.mem_of_mem_dropLast h)
        separator := by simp [Room.newMessage]
        in_table := htable
        two_colons := fun _ => by
          rw [hcount, List.count_eq_zero_of_not_mem htextColon] }
    have hshape : (room.newMessage senderUsername messageText).data =
        room.roomName ++ colon :: (senderUsername ++ colon :: messageText) := by
      simp [Room.newMessage]
    rw [Message.splitPayload_of_accepted haccepted, hshape,
      List.splitOn_append_cons_self_of_not_mem hname,
      List.splitOn_append_cons_self_of_not_mem hcolon, List.splitOn_eq_singleton htextColon]

/-- A message that the room composes from received data and that fits the limit
reaches the output of the receiver client as it was composed iff its text has no
colon. -/
theorem delivered_text_iff (hcolon : colon ∉ senderUsername)
    (hfits : (room.newMessage senderUsername messageText).encoding.length ≤ maxLen)
    (conn : Connection) {writes : List WriteResult} (hwrites : WriteResult.error ∉ writes)
    {peer : Connection} {rest : Bytes}
    (hpeer : peer.stream =
      (conn.send (room.newMessage senderUsername messageText) writes).2.1 ++ rest)
    (msg : Message) :
    ((conn.send (room.newMessage senderUsername messageText) writes).1 = true ∧
        (peer.receive msg).1 = true ∧
        (peer.receive msg).2.1.splitPayload =
          [room.roomName, senderUsername, messageText] ∧
        (deliveryOutput (peer.receive msg).2.1).1 =
          [senderUsername ++ str ": " ++ messageText]) ↔
      colon ∉ messageText := by
  obtain ⟨hsent, hok, hmsg⟩ :=
    receive_newMessage hroom huser htext hfits conn hwrites hpeer msg
  have hsplit := splitPayload_newMessage hroom huser htext hcolon hfits
  rw [hmsg]
  constructor
  · exact fun h => hsplit.mp h.2.2.1
  · intro htextColon
    have hfields := hsplit.mpr htextColon
    refine ⟨hsent, hok, hfields, ?_⟩
    simp [deliveryOutput, hfields]

end

/-- A text without a colon is printed. -/
theorem delivered_text_iff_greeting :
    ∃ peer : Connection,
      (deliveryOutput (peer.receive {}).2.1).1 = [str "bob: hello  all"] := by
  have hsplit := (@delivered_text_iff { roomName := str "hall" } (str "bob")
    (str "hello  all") (by decide) (by decide) (by decide) (by decide) (by decide) {} []
    (by simp) { fdbuf := { rioBuf := str "delivery:hall:bob:hello  all\n" } } [] (by decide)
    {}).mpr (by decide)
  exact ⟨_, hsplit.2.2.2⟩

/-- A text with a colon is received and then refused by the splitter, so that the
client prints nothing. -/
theorem text_with_colon_not_printed :
    let room : Room := { roomName := str "hall" }
    let sent := ({} : Connection).send (room.newMessage (str "bob") (str "at 10:30")) []
    let peer : Connection := { fdbuf := { rioBuf := sent.2.1 } }
    isValidRoomName room.roomName = true ∧ Receivable (str "bob") ∧ colon ∉ str "bob" ∧
      Receivable (str "at 10:30") ∧ sent.1 = true ∧
      sent.2.1 = str "delivery:hall:bob:at 10:30\n" ∧ (peer.receive {}).1 = true ∧
      (peer.receive {}).2.1.splitPayload ≠ [str "hall", str "bob", str "at 10:30"] ∧
      (deliveryOutput (peer.receive {}).2.1).1 = [] := by
  decide +kernel

end ChatServer
