import ChatServer.Server.Joins
import ChatServer.Server.LegalFrames
import ChatServer.Server.SessionSpec

/-!
# Where names and texts come from

Every name and every text in the log of the broadcasts has come from a client: from the
login of the author of the broadcast, and from one of its requests.

Main results:

- Theorem {lit}`reachable_authored`: the author of a broadcast is a sender that has logged
  in with the name that the broadcast carries.
- Theorem {lit}`reachable_provenance`: the name and the text of a broadcast are data that
  its author has received.

Current gaps:

- None for the broadcasts in the log.
-/

namespace ChatServer

open Function

/-! ## The data of a session -/

/-- Every room and every text of a session is the data of a request that it has received;
the name of the room has been checked. -/
theorem senderSession_data (username : Bytes) (lines : List (Option Bytes)) :
    (∀ name, (senderSession username lines).room = some name → isValidRoomName name = true) ∧
      ∀ p ∈ (senderSession username lines).texts, isValidRoomName p.1 = true ∧
        ∃ line, some line ∈ lines ∧ decode line = some { tag := tagSendall, data := p.2 } := by
  induction lines using List.reverseRecOn with
  | nil => exact ⟨fun name h => (by cases h), fun p hp => (by cases hp)⟩
  | append_singleton lines line ih =>
      have hold : ∀ p ∈ (senderSession username lines).texts, isValidRoomName p.1 = true ∧
          ∃ line', some line' ∈ lines ++ [line] ∧
            decode line' = some { tag := tagSendall, data := p.2 } := by
        intro p hp
        rcases ih.2 p hp with ⟨hvalid, line', hline', hdec⟩
        exact ⟨hvalid, line', List.mem_append_left _ hline', hdec⟩
      rw [senderSession_append]
      cases line with
      | none => exact ⟨ih.1, hold⟩
      | some line =>
          cases hdec : decode line with
          | none =>
              simp only [SenderSession.receive, hdec]
              exact ⟨ih.1, hold⟩
          | some m =>
              simp only [SenderSession.receive, hdec, SenderSession.request]
              split_ifs with hjoin hvalid hleave hquit hsendall
              · exact ⟨ih.1, hold⟩
              · refine ⟨fun name hname => ?_, hold⟩
                cases hname
                simpa using hvalid
              · cases hroom : (senderSession username lines).room with
                | none => exact ⟨by simp [SenderSession.refuse, hroom], hold⟩
                | some name => exact ⟨fun name h => (by cases h), hold⟩
              · exact ⟨ih.1, hold⟩
              · cases hroom : (senderSession username lines).room with
                | none => exact ⟨by simp [SenderSession.refuse, hroom], hold⟩
                | some name =>
                    refine ⟨by simpa [hroom] using ih.1 name hroom, fun p hp => ?_⟩
                    rcases List.mem_append.mp hp with hp | hp
                    · exact hold p hp
                    · rw [List.mem_singleton.mp hp]
                      exact ⟨ih.1 name hroom, line, by simp, by rw [hdec, ← hsendall]⟩
              · exact ⟨ih.1, hold⟩

/-! ## Authors -/

/-- The author of a broadcast is a sender that has logged in with the name that the
broadcast carries. -/
structure Authored (s : State) (b : Broadcast) : Prop where
  login : (s.threads b.author).login.tag = tagSlogin
  pc : (s.threads b.author).pc.isSender ∨ (s.threads b.author).pc = .done
  greeted : Greeted (s.threads b.author).login true (s.loginCalls b.author)
  username : b.username = (s.threads b.author).login.data

/-- Broadcasts keep their authors and names; a new one has those of its call. -/
theorem Performed.broadcast_origin {s s' : State} {c : ConnId} {op : Op}
    (h : Performed s c op s') {b : Broadcast} (hb : b ∈ s'.broadcasts) :
    (∃ b' ∈ s.broadcasts, b.author = b'.author ∧ b.username = b'.username) ∨
      b.author = c ∧ ∃ r text k, op = .lockRoom r b.username text k := by
  cases h with
  | locked r name text k hlock =>
      rcases List.mem_append.mp hb with hb | hb
      · exact .inl ⟨b, hb, rfl, rfl⟩
      · rw [List.mem_singleton.mp hb]
        exact .inr ⟨rfl, r, text, k, rfl⟩
  | visited r name text rest k u hu =>
      rcases List.mem_map.mp hb with ⟨b', hb', rfl⟩
      exact .inl ⟨b', hb', Broadcast.visit_author _ _ _, Broadcast.visit_username _ _ _⟩
  | _ => exact .inl ⟨b, hb, rfl, rfl⟩

/-- In every reachable state the author of a broadcast is a sender with its name. -/
theorem reachable_authored {s : State} (hs : server.Reachable s) {b : Broadcast}
    (hb : b ∈ s.broadcasts) : Authored s b := by
  refine hs.invariant (P := fun s => ∀ b ∈ s.broadcasts, Authored s b)
    (fun b hb => (by cases hb)) ?_ b hb
  intro s a s' hs hstep hauthored b hb
  rcases step_cases hstep with ⟨c, fdbuf, habsent, rfl⟩ | ⟨c, env, rfl, hperf⟩
  · have hold := hauthored b hb
    have hne : b.author ≠ c := by
      intro heq
      have hpc := hold.pc
      rw [heq, habsent] at hpc
      simp [Pc.isSender] at hpc
    have hthread : (s.accept c fdbuf).threads b.author = s.threads b.author :=
      update_of_ne hne _ _
    constructor
    · rw [hthread]
      exact hold.login
    · rw [hthread]
      exact hold.pc
    · rw [hthread]
      exact hold.greeted
    · rw [hthread]
      exact hold.username
  · have hmine : (s.threads c).pc.isSender → ∀ b' : Broadcast, b'.author = c →
        (s.threads c).login.tag = tagSlogin →
        Greeted (s.threads c).login true (s.loginCalls c) →
        b'.username = (s.threads c).login.data → Authored s' b' := by
      intro hpc b' hauthor htag hgreeted husername
      have hpc' := hperf.stays_sender hpc
      obtain ⟨hlogin, hcalls⟩ := hperf.login (.inl hpc)
      subst c
      exact ⟨by rw [hlogin, htag], hpc', by rw [hlogin, hcalls]; exact hgreeted,
        by rw [hlogin, husername]⟩
    rcases hperf.broadcast_origin hb with ⟨b', hb', hauthor, husername⟩ | ⟨hauthor, hnew⟩
    · have hold := hauthored b' hb'
      by_cases hc : c = b'.author
      · subst c
        have hsender : (s.threads b'.author).pc.isSender := by
          rcases hold.pc with hpc | hdone
          · exact hpc
          · exact absurd hdone (not_done_of_run hstep)
        exact hmine hsender b hauthor hold.login hold.greeted (husername.trans hold.username)
      · have hthread := (step_other hstep (c := b'.author) hc).1
        have hcalls := hperf.loginCalls (d := b'.author) (.inl (Ne.symm hc))
        constructor
        · rw [hauthor, hthread]
          exact hold.login
        · rw [hauthor, hthread]
          exact hold.pc
        · rw [hauthor, hthread, hcalls]
          exact hold.greeted
        · rw [hauthor, hthread, husername]
          exact hold.username
    · rcases hnew with ⟨r, text, k, hcode⟩
      have hrole := code_role s c
      rw [hcode] at hrole
      have hsender : (s.threads c).pc.isSender := by rw [hrole.1]; rfl
      refine hmine hsender b hauthor ((reachable_role hs c).sender hsender)
        (greeted_of_chat hs (.inl hsender)) ?_
      rw [hrole.2.2.1, reachable_username hs (.inl hsender)]

/-- The room name of a broadcast has been checked, and its text is the data of a request
of its author to send it. -/
theorem broadcast_requested {s : State} (hs : server.Reachable s) {b : Broadcast}
    (hb : b ∈ s.broadcasts) :
    isValidRoomName (s.names b.room) = true ∧
      ∃ line, .received (some line) ∈ s.chatCalls b.author ∧
        decode line = some { tag := tagSendall, data := b.text } := by
  have hauthored := reachable_authored hs hb
  have hworker : ∀ p, (s.threads b.author).pc ≠ .worker p := by
    intro p hp
    rcases hauthored.pc with hpc | hpc <;> simp [hp, Pc.isSender] at hpc
  have hagrees := reachable_sessionAgrees hs hauthored.login hworker
  have hmem : (s.names b.room, b.text) ∈ (senderSession (s.threads b.author).login.data
      (receivedLines (s.chatCalls b.author))).texts := by
    rw [← hagrees.texts]
    refine List.mem_append_left _ (List.mem_map_of_mem (List.mem_map_of_mem ?_))
    simp [hb]
  rcases (senderSession_data _ _).2 _ hmem with ⟨hvalid, line, hline, hdec⟩
  refine ⟨hvalid, line, ?_, hdec⟩
  rcases List.mem_filterMap.mp hline with ⟨e, he, heq⟩
  cases e with
  | received l =>
      cases heq
      exact he
  | _ => cases heq

/-- The name of a broadcast is the data of the login of its author. -/
theorem broadcast_logged_in {s : State} (hs : server.Reachable s) {b : Broadcast}
    (hb : b ∈ s.broadcasts) :
    ∃ line, .received (some line) ∈ s.loginCalls b.author ∧
      decode line = some { tag := tagSlogin, data := b.username } := by
  have hauthored := reachable_authored hs hb
  rcases hauthored.greeted with ⟨line, hlogin, hcalls⟩
  refine ⟨line, by simp [hcalls], ?_⟩
  rw [hlogin.decodes, hauthored.username, ← hauthored.login]

/-! ## Whom a broadcast concerns -/

/-- The members of a broadcast have joined its room. -/
theorem reachable_members_joined {s : State} (hs : server.Reachable s) {b : Broadcast}
    (hb : b ∈ s.broadcasts) {u : ConnId} (hu : u ∈ b.members) : s.Joined b.room u := by
  refine hs.invariant (P := fun s => ∀ b ∈ s.broadcasts, ∀ u ∈ b.members, s.Joined b.room u)
    (fun b hb => by cases hb) ?_ b hb u hu
  intro s a s' hs hstep ih b hb u hu
  cases step_kind hstep with
  | elsewhere c h =>
      rw [h.broadcasts] at hb
      exact step_joined hstep (ih b hb u hu)
  | locks c r h =>
      rw [h.broadcasts, List.mem_append] at hb
      rcases hb with hb | hb
      · exact step_joined hstep (ih b hb u hu)
      · rw [List.mem_singleton.mp hb] at hu ⊢
        exact step_joined hstep (joined_of_mem hs hu)
  | visits c r rest v h =>
      rw [h.broadcasts] at hb
      rcases List.mem_map.mp hb with ⟨b₀, hb₀, rfl⟩
      rw [Broadcast.visit_members] at hu
      rw [Broadcast.visit_room]
      exact step_joined hstep (ih b₀ hb₀ u hu)
  | unlocks c r h =>
      rw [h.broadcasts] at hb
      exact step_joined hstep (ih b hb u hu)

/-- Nothing is made up.  In every reachable state a broadcast carries the name with which
its author has logged in and a text that its author has asked to send, it goes to a room
with a checked name, and its members are users that have joined this room. -/
theorem reachable_provenance {s : State} (hs : server.Reachable s) {b : Broadcast}
    (hb : b ∈ s.broadcasts) :
    isValidRoomName (s.names b.room) = true ∧ (∀ u ∈ b.members, s.Joined b.room u) ∧
      (∃ line, .received (some line) ∈ s.loginCalls b.author ∧
        decode line = some { tag := tagSlogin, data := b.username }) ∧
      ∃ line, .received (some line) ∈ s.chatCalls b.author ∧
        decode line = some { tag := tagSendall, data := b.text } :=
  ⟨(broadcast_requested hs hb).1, fun _ => reachable_members_joined hs hb,
    broadcast_logged_in hs hb, (broadcast_requested hs hb).2⟩

/-- A broadcast to the one member of a room. -/
theorem reachable_provenance_one :
    ∃ s, server.run server.init
        (connect 0 (str "slogin:bob\njoin:hall\nsendall:hi\n") :: serve 0 9) = some s ∧
      ∃ b ∈ s.broadcasts, b.text = str "hi" ∧ isValidRoomName (s.names b.room) = true ∧
        ∃ line, .received (some line) ∈ s.loginCalls b.author ∧
          decode line = some { tag := tagSlogin, data := b.username } := by
  have hrun : (server.run server.init
      (connect 0 (str "slogin:bob\njoin:hall\nsendall:hi\n") :: serve 0 9)).map
      (fun s => s.broadcasts.map Broadcast.text) = some [str "hi"] := by
    decide +kernel
  rcases TransitionSystem.exists_reachable_of_run hrun with ⟨s, hs, htexts, hreach⟩
  have hmem : str "hi" ∈ s.broadcasts.map Broadcast.text := by simp [htexts]
  rcases List.mem_map.mp hmem with ⟨b, hb, htext⟩
  obtain ⟨hvalid, -, hlogin, -⟩ := reachable_provenance hreach hb
  exact ⟨s, hs, b, hb, htext, hvalid, hlogin⟩

end ChatServer
