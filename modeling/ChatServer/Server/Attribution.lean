import ChatServer.Server.Broadcasts

/-!
# Deliveries and their senders

The payload of a delivery is the room name, the user name and the text, with a
colon between them.  Room names are checked before a room is created, user names
are not: a user name may contain a colon, and then the same payload can be read
in two ways.

Main results:

- Theorem {lit}`append_colon_eq_iff`: when two pairs are joined to the same string.
- Theorem {lit}`delivery_identifies_sender_iff`: two broadcasts in one room have
  different payloads unless one user name is the other one, a colon and the
  beginning of the text.

Current gaps:

- None for the steps of {lit}`Server.Step`.
-/

namespace ChatServer

/-! ## Payloads that can be read in two ways -/

/-- The second user name consists of the first one, a colon and what comes before
a colon in the first text; the second text is what comes after it. -/
def Ambiguous (username text username' text' : Bytes) : Prop :=
  ∃ between, username' = username ++ colon :: between ∧ text = between ++ colon :: text'

/-- A user name that continues another one contains a colon. -/
theorem Ambiguous.colon_mem {username text username' text' : Bytes}
    (h : Ambiguous username text username' text') : colon ∈ username' := by
  rcases h with ⟨between, rfl, -⟩
  simp

/-- The ambiguous pairs make the same payload. -/
theorem Ambiguous.append_eq {username text username' text' : Bytes}
    (h : Ambiguous username text username' text') :
    username ++ colon :: text = username' ++ colon :: text' := by
  rcases h with ⟨between, rfl, rfl⟩
  simp

/-- The usernames of ambiguous pairs differ. -/
theorem Ambiguous.username_ne {username text username' text' : Bytes}
    (h : Ambiguous username text username' text') : username ≠ username' := by
  rcases h with ⟨between, rfl, -⟩
  intro heq
  have hlen := congrArg List.length heq
  simp at hlen

/-- The longer of two user names that are joined to the same string is ambiguous. -/
private theorem ambiguous_of_extends {text text' extra : Bytes}
    (h : colon :: text = extra ++ colon :: text') (username : Bytes) :
    (username, text) = (username ++ extra, text') ∨
      Ambiguous username text (username ++ extra) text' := by
  cases extra with
  | nil =>
      have htext : text = text' := by simpa using h
      exact .inl (by simp [htext])
  | cons c between =>
      rw [List.cons_append, List.cons.injEq] at h
      rcases h with ⟨rfl, htext⟩
      exact .inr ⟨between, rfl, htext⟩

/-- Two pairs are joined to the same string iff they are equal or ambiguous. -/
theorem append_colon_eq_iff {username text username' text' : Bytes} :
    username ++ colon :: text = username' ++ colon :: text' ↔
      (username, text) = (username', text') ∨ Ambiguous username text username' text' ∨
        Ambiguous username' text' username text := by
  constructor
  · intro h
    rcases List.append_eq_append_iff.mp h with ⟨extra, rfl, htext⟩ | ⟨extra, rfl, htext⟩
    · rcases ambiguous_of_extends htext username with heq | hamb
      · exact .inl heq
      · exact .inr (.inl hamb)
    · rcases ambiguous_of_extends htext username' with heq | hamb
      · exact .inl heq.symm
      · exact .inr (.inr hamb)
  · rintro (heq | hamb | hamb)
    · rw [Prod.mk.injEq] at heq
      rw [heq.1, heq.2]
    · exact hamb.append_eq
    · exact hamb.append_eq.symm

/-! ## Broadcasts in one room -/

/-- The payloads of two messages of one room are equal iff the rests after the room
name are. -/
theorem Room.newMessage_data_eq_iff (room : Room) {username text username' text' : Bytes} :
    (room.newMessage username text).data = (room.newMessage username' text').data ↔
      username ++ colon :: text = username' ++ colon :: text' := by
  simp [newMessage]

/-- Two broadcasts in one room whose user names or texts differ have different
payloads, unless they are ambiguous. -/
theorem delivery_identifies_sender_iff {s : State} (hs : server.Reachable s)
    {b b' : Broadcast} (hb : b ∈ s.broadcasts) (hb' : b' ∈ s.broadcasts)
    (hroom : b.room = b'.room) :
    ((b.username, b.text) ≠ (b'.username, b'.text) → b.message.data ≠ b'.message.data) ↔
      ¬ Ambiguous b.username b.text b'.username b'.text ∧
        ¬ Ambiguous b'.username b'.text b.username b.text := by
  have hlog := reachable_broadcastLog hs
  rw [(hlog.message b hb).2, (hlog.message b' hb').2, ← hroom, ne_eq, ne_eq,
    Room.newMessage_data_eq_iff, append_colon_eq_iff]
  constructor
  · intro h
    refine ⟨fun hamb => ?_, fun hamb => ?_⟩
    · refine h (fun heq => hamb.username_ne ?_) (.inr (.inl hamb))
      exact (Prod.mk.inj heq).1
    · refine h (fun heq => hamb.username_ne ?_) (.inr (.inr hamb))
      exact (Prod.mk.inj heq).1.symm
  · rintro ⟨hamb, hamb'⟩ hne (heq | h | h)
    · exact hne heq
    · exact hamb h
    · exact hamb' h

/-- Broadcasts of two users with the same text. -/
theorem delivery_identifies_sender_iff_two :
    ∃ s, server.run server.init
        (connect 1 (str "slogin:ann\njoin:hall\nsendall:hi\n") :: serve 1 9 ++
          .run 1 { pick := 1 } :: serve 1 2 ++
          connect 2 (str "slogin:bob\njoin:hall\nsendall:hi\n") :: serve 2 9) = some s ∧
      ∃ b ∈ s.broadcasts, ∃ b' ∈ s.broadcasts, b.username = str "ann" ∧
        b'.username = str "bob" ∧ b.message.data ≠ b'.message.data := by
  have hrun : (server.run server.init
      (connect 1 (str "slogin:ann\njoin:hall\nsendall:hi\n") :: serve 1 9 ++
        .run 1 { pick := 1 } :: serve 1 2 ++
        connect 2 (str "slogin:bob\njoin:hall\nsendall:hi\n") :: serve 2 9)).map
      (fun s => s.broadcasts.map fun b => (b.room, b.username)) =
      some [(0, str "ann"), (0, str "bob")] := by
    decide +kernel
  rcases TransitionSystem.exists_reachable_of_run hrun with ⟨s, hs, hlog, hreach⟩
  have hann : (0, str "ann") ∈ s.broadcasts.map fun b => (b.room, b.username) := by simp [hlog]
  have hbob : (0, str "bob") ∈ s.broadcasts.map fun b => (b.room, b.username) := by simp [hlog]
  rcases List.mem_map.mp hann with ⟨b, hb, hbann⟩
  rcases List.mem_map.mp hbob with ⟨b', hb', hbbob⟩
  rw [Prod.mk.injEq] at hbann hbbob
  refine ⟨s, hs, b, hb, b', hb', hbann.2, hbbob.2, ?_⟩
  have hroom : b.room = b'.room := hbann.1.trans hbbob.1.symm
  refine (delivery_identifies_sender_iff hreach hb hb' hroom).mpr ?_ ?_
  · rw [hbann.2, hbbob.2]
    exact ⟨fun h => absurd h.colon_mem (by decide), fun h => absurd h.colon_mem (by decide)⟩
  · rw [hbann.2, hbbob.2, ne_eq, Prod.mk.injEq, not_and]
    exact fun h => absurd h (by decide)

set_option synthInstance.maxSize 400 in
/-- A user name with a colon: the receiver gets the same message from two users. -/
theorem two_senders_one_delivery :
    ∃ s, server.run server.init
        (connect 0 (str "rlogin:ann\njoin:hall\n") :: serve 0 7 ++
          connect 1 (str "slogin:a\njoin:hall\nsendall:b:c\n") :: serve 1 9 ++
          .run 1 { pick := 0 } :: .run 1 { pick := 1 } :: serve 1 2 ++
          connect 2 (str "slogin:a:b\njoin:hall\nsendall:c\n") :: serve 2 9 ++
          [.run 2 { pick := 0 }]) = some s ∧
      (s.users 0).mqueue = [{ tag := tagDelivery, data := str "hall:a:b:c" },
        { tag := tagDelivery, data := str "hall:a:b:c" }] ∧
      ∃ b ∈ s.broadcasts, ∃ b' ∈ s.broadcasts, b.room = b'.room ∧
        ¬ ((b.username, b.text) ≠ (b'.username, b'.text) →
          b.message.data ≠ b'.message.data) := by
  have hrun : (server.run server.init
      (connect 0 (str "rlogin:ann\njoin:hall\n") :: serve 0 7 ++
        connect 1 (str "slogin:a\njoin:hall\nsendall:b:c\n") :: serve 1 9 ++
        .run 1 { pick := 0 } :: .run 1 { pick := 1 } :: serve 1 2 ++
        connect 2 (str "slogin:a:b\njoin:hall\nsendall:c\n") :: serve 2 9 ++
        [.run 2 { pick := 0 }])).map
      (fun s => ((s.users 0).mqueue,
        s.broadcasts.map fun b => (b.room, b.username, b.text, b.message.data))) =
      some ([{ tag := tagDelivery, data := str "hall:a:b:c" },
          { tag := tagDelivery, data := str "hall:a:b:c" }],
        [(0, str "a", str "b:c", str "hall:a:b:c"),
          (0, str "a:b", str "c", str "hall:a:b:c")]) := by
    decide +kernel
  rcases Option.map_eq_some_iff.mp hrun with ⟨s, hs, hend⟩
  rw [Prod.mk.injEq] at hend
  rcases hend with ⟨hqueue, hlog⟩
  have hfirst : (0, str "a", str "b:c", str "hall:a:b:c") ∈
      s.broadcasts.map fun b => (b.room, b.username, b.text, b.message.data) := by
    simp [hlog]
  have hsecond : (0, str "a:b", str "c", str "hall:a:b:c") ∈
      s.broadcasts.map fun b => (b.room, b.username, b.text, b.message.data) := by
    simp [hlog]
  rcases List.mem_map.mp hfirst with ⟨b, hb, hfields⟩
  rcases List.mem_map.mp hsecond with ⟨b', hb', hfields'⟩
  simp only [Prod.mk.injEq] at hfields hfields'
  rcases hfields with ⟨hroom, hname, htext, hdata⟩
  rcases hfields' with ⟨hroom', hname', htext', hdata'⟩
  refine ⟨s, hs, hqueue, b, hb, b', hb', hroom.trans hroom'.symm, fun h => ?_⟩
  refine h ?_ (hdata.trans hdata'.symm)
  rw [hname, hname', ne_eq, Prod.mk.injEq, not_and]
  exact fun heq => absurd heq (by decide)

end ChatServer
