import ChatServer.Server.Broadcasts

/-!
# Room names

The two join requests are the only way into the registry of rooms, and both
check the requested name first.  The check lets the empty name pass, because
the size of a string is compared to zero with the wrong relation; every other
name in the registry consists of letters and digits.

Main results:

- Theorem {lit}`reachable_checked`: a thread that is about to look up a room has
  checked the name.
- Theorem {lit}`reachable_room_registered`: every allocated room is registered.
- Theorem {lit}`room_names_valid_iff`: names are valid as long as no lookup asks
  for the empty name, and the first one that does ends this.

Current gaps:

- None for the steps of {lit}`Server.Step`.
-/

namespace ChatServer

open Function

/-! ## Checked names -/

/-- Control points at which the data of the message is going to be looked up. -/
def Pc.namesRoom : Pc → Bool
  | .sender .switch | .sender .find | .receiver .find => true
  | _ => false

/-- The room name of a pending lookup has passed the check. -/
def Thread.Checked (t : Thread) : Prop :=
  t.pc.namesRoom → isValidRoomName t.msg.data

/-- Away from the lookups there is nothing to check. -/
theorem Thread.checked_of_pc {t : Thread} (h : t.pc.namesRoom = false) : t.Checked := by
  intro hnames
  rw [h] at hnames
  cases hnames

/-- The dispatch of a join leads to a lookup only after the check of its name. -/
theorem Thread.checked_dispatch (t : Thread) : t.dispatch.Checked := by
  unfold dispatch
  split_ifs with hjoin hvalid hroom
  · exact checked_of_pc rfl
  · exact fun _ => by simpa [goto] using hvalid
  · exact fun _ => by simpa [goto] using hvalid
  all_goals exact checked_of_pc rfl

/-- No lookup follows the request loop. -/
theorem Thread.checked_breakLoop (t : Thread) : t.breakLoop.Checked := by
  unfold breakLoop
  split_ifs <;> exact checked_of_pc rfl

/-- {lit}`worker` looks up no room. -/
theorem worker_checked (t : Thread) (p : WorkerPc) :
    (worker t p).Called fun t' _ => t'.Checked := by
  cases p with
  | receive =>
      apply called_receive
      intro ok result msg _ _
      split_ifs <;> exact Thread.checked_of_pc rfl
  | refuse why => exact fun _ => Thread.checked_of_pc rfl
  | newUser => exact Thread.checked_of_pc rfl
  | welcome =>
      intro ok
      dsimp only
      split_ifs <;> exact Thread.checked_of_pc rfl

/-- A lookup of {lit}`chat_with_sender` follows the check of its name. -/
theorem chatWithSender_checked (user : User) (getRoomName : RoomPtr → Bytes) {t : Thread}
    {p : SenderPc} (hpc : t.pc = .sender p) (h : t.Checked) :
    (chatWithSender user getRoomName t p).Called fun t' _ => t'.Checked := by
  cases p with
  | receive =>
      apply called_receive
      intro ok result msg _ _
      split_ifs
      · exact Thread.checked_of_pc rfl
      · exact Thread.checked_of_pc rfl
      · exact Thread.checked_dispatch _
      · exact Thread.checked_dispatch _
  | invalid => exact fun _ => t.checked_dispatch
  | eof => exact fun _ => t.checked_breakLoop
  | refuse why => exact fun _ => Thread.checked_of_pc rfl
  | switch => exact deref_cases trivial fun r _ _ => h (by rw [hpc]; rfl)
  | find => exact fun _ => Thread.checked_of_pc rfl
  | add => exact deref_cases trivial fun r _ => Thread.checked_of_pc rfl
  | joined => exact fun _ => Thread.checked_of_pc rfl
  | leave => exact deref_cases trivial fun r _ => Thread.checked_of_pc rfl
  | left => exact deref_cases trivial fun r _ _ => Thread.checked_of_pc rfl
  | quit => exact fun _ => t.checked_breakLoop
  | broadcast => exact deref_cases trivial fun r _ _ => Thread.checked_of_pc rfl
  | visit rest =>
      apply deref_cases trivial
      intro r _
      split_ifs
      · exact Thread.checked_of_pc rfl
      · exact fun _ => Thread.checked_of_pc rfl
  | sent => exact fun _ => Thread.checked_of_pc rfl
  | exit => exact deref_cases trivial fun r _ => Thread.checked_of_pc rfl

/-- A lookup of {lit}`chat_with_receiver` follows the check of its name. -/
theorem chatWithReceiver_checked (t : Thread) (p : ReceiverPc) :
    (chatWithReceiver t p).Called fun t' _ => t'.Checked := by
  cases p with
  | receive =>
      apply called_receive
      intro ok result msg _ _
      dsimp only
      split_ifs with hinvalid heof hjoin hvalid
      · exact Thread.checked_of_pc rfl
      · exact Thread.checked_of_pc rfl
      · exact Thread.checked_of_pc rfl
      · exact Thread.checked_of_pc rfl
      · exact fun _ => by simpa [Thread.goto] using hvalid
  | refuse why => exact fun _ => Thread.checked_of_pc rfl
  | find => exact fun _ => Thread.checked_of_pc rfl
  | add => exact deref_cases trivial fun r _ => Thread.checked_of_pc rfl
  | joined => exact fun _ => Thread.checked_of_pc rfl
  | dequeue => exact fun m => by cases m <;> exact Thread.checked_of_pc rfl
  | deliver newMsg =>
      intro ok
      dsimp only
      split_ifs <;> exact Thread.checked_of_pc rfl
  | empty => exact fun _ => Thread.checked_of_pc rfl
  | remove => exact deref_cases trivial fun r _ => Thread.checked_of_pc rfl

/-- In every reachable state a thread that is about to look up a room has checked
the name. -/
theorem reachable_checked {s : State} (hs : server.Reachable s) (c : ConnId) :
    (s.threads c).Checked := by
  have hcode : ∀ (t : Thread) (user : User) (getRoomName : RoomPtr → Bytes), t.Checked →
      (t.code user getRoomName).Called fun t' _ => t'.Checked := by
    intro t user getRoomName h
    apply Thread.code_cases
    · exact trivial
    · exact fun p _ => worker_checked t p
    · exact fun p hpc => chatWithSender_checked user getRoomName hpc h
    · exact fun p _ => chatWithReceiver_checked t p
  exact history_invariant (I := fun t _ => t.Checked) (Thread.checked_of_pc rfl)
    (fun _ _ _ _ => Thread.checked_of_pc rfl)
    (fun t _ user getRoomName _ _ h => hcode t user getRoomName h)
    (fun t user getRoomName _ _ h => hcode t user getRoomName h) hs c

/-! ## Lookups and the registry -/

/-- Control points at which the next call is {lit}`find_or_create_room`. -/
def Pc.looksUp : Pc → Bool
  | .sender .find | .receiver .find => true
  | _ => false

/-- The control points of a lookup are among those with a checked name. -/
theorem Pc.namesRoom_of_looksUp {pc : Pc} (h : pc.looksUp) : pc.namesRoom := by
  unfold looksUp at h
  split at h <;> first | rfl | cases h

/-- A lookup is made at its control points, with the data of the message. -/
def Op.LooksUp (t : Thread) : Op → Prop
  | .findOrCreateRoom name _ => t.pc.looksUp ∧ name = t.msg.data
  | _ => True

/-- Every thread looks up the name that its message holds. -/
theorem Thread.code_looksUp (t : Thread) (user : User) (getRoomName : RoomPtr → Bytes) :
    (t.code user getRoomName).LooksUp t := by
  apply Thread.code_cases
  · exact trivial
  · intro p _
    cases p <;> exact trivial
  · intro p hpc
    cases p with
    | find => exact ⟨by rw [hpc]; rfl, rfl⟩
    | switch | add | leave | left | broadcast | exit =>
        exact deref_cases trivial fun r _ => trivial
    | visit rest =>
        apply deref_cases trivial
        intro r _
        split <;> exact trivial
    | _ => exact trivial
  · intro p hpc
    cases p with
    | find => exact ⟨by rw [hpc]; rfl, rfl⟩
    | add | remove => exact deref_cases trivial fun r _ => trivial
    | _ => exact trivial

/-- The other direction: at these control points nothing else is called. -/
theorem Thread.code_of_looksUp {t : Thread} (h : t.pc.looksUp) (user : User)
    (getRoomName : RoomPtr → Bytes) :
    ∃ k, t.code user getRoomName = .findOrCreateRoom t.msg.data k := by
  unfold Pc.looksUp at h
  split at h
  · rename_i hpc
    exact ⟨_, Thread.code_sender hpc⟩
  · rename_i hpc
    exact ⟨_, Thread.code_receiver hpc⟩
  · cases h

/-- A call enters at most the name that it looks up into the registry. -/
theorem Performed.mRooms {s s' : State} {c : ConnId} {op : Op} (h : Performed s c op s')
    (hop : op.LooksUp (s.threads c)) :
    s'.mRooms = s.mRooms ∨
      (s.threads c).pc.looksUp ∧ s.mRooms (s.threads c).msg.data = none ∧
        s'.mRooms = update s.mRooms (s.threads c).msg.data (some s.nextRoom) := by
  cases h with
  | newRoom name k hroom =>
      rcases hop with ⟨hpc, rfl⟩
      exact .inr ⟨hpc, hroom, rfl⟩
  | _ => exact .inl rfl

/-- After a lookup the name is in the registry. -/
theorem Performed.mRooms_of_lookup {s s' : State} {c : ConnId} {name : Bytes}
    {k : RoomPtr → Thread} (h : Performed s c (.findOrCreateRoom name k) s') :
    ∃ r, s'.mRooms name = some r := by
  cases h with
  | found _ _ r hroom => exact ⟨r, hroom⟩
  | newRoom => exact ⟨s.nextRoom, by simp [State.newRoom]⟩

/-- Every allocated room is registered under its name. -/
theorem reachable_room_registered {s : State} (hs : server.Reachable s) {r : RoomPtr}
    (hr : r < s.nextRoom) : s.mRooms (s.rooms r).roomName = some r := by
  let Registered (s : State) : Prop :=
    ∀ r, r < s.nextRoom → s.mRooms (s.rooms r).roomName = some r
  have hsame : ∀ {s s' : State}, Registered s → s'.mRooms = s.mRooms →
      s'.nextRoom = s.nextRoom → (∀ q, (s'.rooms q).roomName = (s.rooms q).roomName) →
      Registered s' := by
    intro s s' hreg hmap hnext hname r hr
    rw [hmap, hname]
    exact hreg r (hnext ▸ hr)
  have hreg : Registered s := by
    refine TransitionSystem.Reachable.invariant ?_ ?_ hs
    · intro r hr
      cases hr
    · intro s a s' _ hstep hreg
      rcases step_cases hstep with ⟨d, fdbuf, -, rfl⟩ | ⟨d, env, -, hperf⟩
      · exact hreg
      · generalize code s d = op at hperf
        cases hperf with
        | newRoom name k hroom =>
            intro r hr
            rcases Nat.lt_succ_iff_lt_or_eq.mp hr with hlt | rfl
            · have hold := hreg r hlt
              have hne : (s.rooms r).roomName ≠ name := by
                rintro rfl
                simp [hroom] at hold
              simpa [State.newRoom, Nat.ne_of_lt hlt, hne] using hold
            · simp [State.newRoom]
        | added r k hlock => exact hsame hreg rfl rfl (roomName_update (by simp))
        | removed r k hlock => exact hsame hreg rfl rfl (roomName_update (by simp))
        | locked r name text k hlock => exact hsame hreg rfl rfl (roomName_update rfl)
        | unlocked r k => exact hsame hreg rfl rfl (roomName_update rfl)
        | _ => exact hreg
  exact hreg r hr

/-- Two allocated rooms with one name are one room. -/
theorem room_eq_of_roomName {s : State} (hs : server.Reachable s) {r q : RoomPtr}
    (hr : r < s.nextRoom) (hq : q < s.nextRoom)
    (h : (s.rooms r).roomName = (s.rooms q).roomName) : r = q := by
  have hroom := reachable_room_registered hs hr
  rw [h, reachable_room_registered hs hq] at hroom
  exact (Option.some.inj hroom).symm

/-! ## Valid room names -/

/-- A room name is a non-empty string of letters and digits. -/
def ValidRoomName (name : Bytes) : Prop :=
  name ≠ [] ∧ ∀ c ∈ name, isalnum c

/-- The first field of a delivery payload. -/
def roomField (data : Bytes) : Bytes :=
  data.takeWhile (· ≠ colon)

/-- The registered names and the names in the payloads of broadcasts are valid. -/
structure RoomNamesValid (s : State) : Prop where
  registered : ∀ name r, s.mRooms name = some r → ValidRoomName name
  delivered : ∀ b ∈ s.broadcasts, ValidRoomName (roomField b.message.data)

/-- The step does not look up the empty name. -/
def LooksUpName (s : State) : Action → Prop
  | .accept _ _ _ => True
  | .run c _ => (s.threads c).pc.looksUp → (s.threads c).msg.data ≠ []

instance (s : State) : (a : Action) → Decidable (LooksUpName s a)
  | .accept _ _ _ => isTrue trivial
  | .run c _ =>
      inferInstanceAs
        (Decidable ((s.threads c).pc.looksUp → (s.threads c).msg.data ≠ []))

/-- A valid room name holds no colon. -/
theorem colon_not_mem_of_validRoomName {name : Bytes} (h : ValidRoomName name) :
    colon ∉ name := by
  intro hcolon
  exact absurd (h.2 colon hcolon) (by decide)

/-- The first field of the message of a broadcast is the name of its room. -/
theorem roomField_newMessage {room : Room} (h : ValidRoomName room.roomName)
    (username text : Bytes) :
    roomField (room.newMessage username text).data = room.roomName := by
  have hcolon := colon_not_mem_of_validRoomName h
  have hall : ∀ c ∈ room.roomName, decide (c ≠ colon) = true := by
    intro c hc
    rw [decide_eq_true_eq]
    rintro rfl
    exact hcolon hc
  simp only [roomField, Room.newMessage, List.append_assoc]
  rw [List.takeWhile_append_of_pos hall]
  simp

/-- Broadcasts carry valid names if the registry holds valid names. -/
theorem roomNamesValid_of_registered {s : State} (hs : server.Reachable s)
    (h : ∀ name r, s.mRooms name = some r → ValidRoomName name) : RoomNamesValid s where
  registered := h
  delivered b hb := by
    rcases (reachable_broadcastLog hs).message b hb with ⟨hlt, hmessage⟩
    have hname := h _ _ (reachable_room_registered hs hlt)
    rwa [hmessage, roomField_newMessage hname]

/-- A step that does not look up the empty name enters valid names only. -/
theorem registered_step {s s' : State} {a : Action} (hs : server.Reachable s)
    (h : ∀ name r, s.mRooms name = some r → ValidRoomName name) (hname : LooksUpName s a)
    (hstep : server.step s a = some s') :
    ∀ name r, s'.mRooms name = some r → ValidRoomName name := by
  rcases step_cases hstep with ⟨c, fdbuf, -, rfl⟩ | ⟨c, env, rfl, hperf⟩
  · exact h
  · rcases hperf.mRooms (Thread.code_looksUp _ _ _) with heq | ⟨hpc, -, heq⟩
    · rwa [heq]
    · intro name r hr
      rw [heq] at hr
      by_cases hnew : name = (s.threads c).msg.data
      · subst name
        have hchecked := reachable_checked hs c (Pc.namesRoom_of_looksUp hpc)
        exact ⟨hname hpc, by simpa [isValidRoomName] using hchecked⟩
      · rw [update_of_ne hnew] at hr
        exact h name r hr

/-- A lookup of the empty name leaves an invalid name in the registry. -/
theorem not_roomNamesValid_of_empty {s s' : State} {c : ConnId} {env : Env}
    (hpc : (s.threads c).pc.looksUp) (hempty : (s.threads c).msg.data = [])
    (hstep : server.step s (.run c env) = some s') : ¬ RoomNamesValid s' := by
  have hperf : Performed s c (code s c) s' := performed_of_perform hstep
  obtain ⟨k, hk⟩ := Thread.code_of_looksUp hpc (s.users c) fun r => (s.rooms r).roomName
  rw [code, hk, hempty] at hperf
  rcases hperf.mRooms_of_lookup with ⟨r, hr⟩
  exact fun hvalid => (hvalid.registered [] r hr).1 rfl

/-- In every run that never looks up the empty name all room names are valid; and
the next step keeps it so exactly if it does not look up the empty name. -/
theorem room_names_valid_iff {s : State} (hs : server.ReachableBy LooksUpName s) :
    RoomNamesValid s ∧
      ∀ a s', server.step s a = some s' → (RoomNamesValid s' ↔ LooksUpName s a) := by
  have hvalid : ∀ {s : State}, server.ReachableBy LooksUpName s → RoomNamesValid s := by
    intro s hs
    apply roomNamesValid_of_registered hs.reachable
    apply hs.invariant (P := fun s => ∀ name r, s.mRooms name = some r → ValidRoomName name)
    · intro name r hr
      cases hr
    · exact fun s a s' hs hname hstep h => registered_step hs.reachable h hname hstep
  refine ⟨hvalid hs, fun a s' hstep => ⟨fun h => ?_, fun hname => ?_⟩⟩
  · cases a with
    | accept c reads ending => exact trivial
    | run c env => exact fun hpc hempty => not_roomNamesValid_of_empty hpc hempty hstep h
  · exact hvalid (hs.step hname hstep)

/-- A run with a delivery in room {lit}`hall`. -/
theorem room_names_valid_iff_hall :
    ∃ s, server.runBy LooksUpName server.init
        (connect 0 (str "rlogin:ann\njoin:hall\n") :: serve 0 7 ++
          connect 1 (str "slogin:bob\njoin:hall\nsendall:hi\n") :: serve 1 9) = some s ∧
      s.mRooms (str "hall") = some 0 ∧ s.broadcasts.map (·.message.data) = [str "hall:bob:hi"] ∧
      RoomNamesValid s := by
  have hrun : (server.runBy LooksUpName server.init
      (connect 0 (str "rlogin:ann\njoin:hall\n") :: serve 0 7 ++
        connect 1 (str "slogin:bob\njoin:hall\nsendall:hi\n") :: serve 1 9)).map
      (fun s => (s.mRooms (str "hall"), s.broadcasts.map (·.message.data))) =
      some (some 0, [str "hall:bob:hi"]) := by
    decide +kernel
  rcases Option.map_eq_some_iff.mp hrun with ⟨s, hs, hend⟩
  rw [Prod.mk.injEq] at hend
  have hreach : server.ReachableBy LooksUpName s :=
    TransitionSystem.ReachableBy.of_runBy .init hs
  exact ⟨s, hs, hend.1, hend.2, (room_names_valid_iff hreach).1⟩

/-- A join without a name creates a room with the empty name. -/
theorem empty_room_name_registered :
    ∃ s, server.run server.init (connect 0 (str "rlogin:ann\njoin:\n") :: serve 0 7) = some s ∧
      s.mRooms [] = some 0 ∧ 0 ∈ (s.rooms 0).members ∧ ¬ RoomNamesValid s := by
  have hrun : (server.run server.init
      (connect 0 (str "rlogin:ann\njoin:\n") :: serve 0 7)).map
      (fun s => (s.mRooms [], decide (0 ∈ (s.rooms 0).members))) = some (some 0, true) := by
    decide +kernel
  rcases Option.map_eq_some_iff.mp hrun with ⟨s, hs, hend⟩
  rw [Prod.mk.injEq] at hend
  refine ⟨s, hs, hend.1, of_decide_eq_true hend.2, fun hvalid => ?_⟩
  exact (hvalid.registered [] 0 hend.1).1 rfl

end ChatServer
