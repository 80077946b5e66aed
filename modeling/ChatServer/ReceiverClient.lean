import ChatServer.Connection

/-!
# The receiver client

The delivery loop of the receiver's {lit}`main`: receive into one message
variable, ignore the result, split the payload of whatever the variable holds,
and print a line when there are three fields.  Since a failed receive replaces
the tag but keeps the data, the loop prints the payload of an earlier frame
again.

Main results:

- Theorem {lit}`deliveryLoop_stdout`: the output of the loop is a function of
  the decoded lines of the stream.
- Theorem {lit}`receiver_output_exact_iff`: the loop prints exactly one line for
  each well-formed delivery if and only if the stream is {lit}`Clean`.

Current gaps:

- The login and the join of the client are in {lit}`ClientPrograms`.
-/

namespace ChatServer

open LineFraming

/-- What one pass of the loop prints on standard output and on standard error,
given the message variable after the receive. -/
def deliveryOutput (msg : Message) : List Bytes × List Bytes :=
  let notDelivery := if msg.tag ≠ tagDelivery then [msg.data] else []
  match msg.splitPayload with
  | [_room, sender, text] => ([sender ++ str ": " ++ text], notDelivery)
  | _ => ([], notDelivery ++ [str "invalid payload size"])

/-- The first {lit}`n` passes of the loop. -/
def deliveryLoop (conn : Connection) (msg : Message) : Nat → List Bytes × List Bytes
  | 0 => ([], [])
  | n + 1 =>
      let r := conn.receive msg
      let rest := deliveryLoop r.2.2 r.2.1 n
      ((deliveryOutput r.2.1).1 ++ rest.1, (deliveryOutput r.2.1).2 ++ rest.2)

/-! ## What one pass prints -/

/-- The line for a payload of three fields. -/
def deliveredLine (data : Bytes) : Bytes :=
  match data.splitOn colon with
  | [_room, sender, text] => sender ++ str ": " ++ text
  | _ => []

/-- A pass prints its line exactly when the splitter accepts the variable and
its data has two colons. -/
theorem deliveryOutput_fst (msg : Message) [Decidable msg.Accepted] :
    (deliveryOutput msg).1 =
      if msg.Accepted ∧ msg.data.count colon = 2 then [deliveredLine msg.data] else [] := by
  have hthree := msg.length_splitPayload_eq_three_iff
  by_cases h : msg.Accepted ∧ msg.data.count colon = 2
  · have hsplit := Message.splitPayload_of_accepted h.1
    have hlen := hthree.mpr h
    rw [hsplit] at hlen
    rcases List.length_eq_three.mp hlen with ⟨room, sender, text, hfields⟩
    simp [deliveryOutput, deliveredLine, hsplit, hfields, h]
  · rw [if_neg h]
    simp only [deliveryOutput]
    split
    · rename_i room sender text hfields
      exact absurd (hthree.mp (by rw [hfields]; rfl)) h
    · rfl

/-! ## The stream as a list of frames -/

/-- The frames of a stream: its lines, decoded; {lit}`none` is a malformed one. -/
def frames (stream : Bytes) : List (Option Message) :=
  (chop newline maxLen stream).map decode

/-- The message variable after a receive, given the frame it met; {lit}`none`
also stands for the end of the stream. -/
def afterFrame (last : Message) : Option Message → Message
  | some m => m
  | none => { last with tag := tagErr }

/-- What a decoded frame satisfies. -/
theorem bounds_of_mem_frames {stream : Bytes} {m : Message}
    (h : some m ∈ frames stream) :
    m.tag.length + m.data.length < maxLen ∧ newline ∉ m.data := by
  rcases List.mem_map.mp h with ⟨line, hline, hdecode⟩
  rcases exists_takeLine_of_mem_chop hline with ⟨ys, rfl⟩
  obtain ⟨hlen, hnewline, -⟩ := decode_bounds (length_takeLine_le _ _ _)
    (delim_not_mem_dropLast_takeLine _ _ _) hdecode
  exact ⟨hlen, hnewline⟩

/-- On a stream that ends in end of file the next line is the first one of the
stream. -/
theorem nextLine_of_eof {conn : Connection} (heof : conn.fdbuf.ending = .eof) :
    conn.nextLine = (chop newline maxLen conn.stream).head? := by
  rw [conn.nextLine_eq]
  simp only [heof, reduceCtorEq, false_and, or_false]
  by_cases hline : (takeLine newline maxLen conn.stream).1 = []
  · have hnil : conn.stream = [] := (takeLine_eq_nil_iff newline 254 conn.stream).mp hline
    rw [if_pos hline, hnil]
    rfl
  · rw [if_neg hline, chop_of_ne_nil hline, List.head?_cons]

/-- Behind the first line of a stream are the other lines. -/
theorem frames_takeLine (stream : Bytes) :
    frames (takeLine newline maxLen stream).2 = (frames stream).tail := by
  by_cases hline : (takeLine newline maxLen stream).1 = []
  · have hnil : stream = [] := (takeLine_eq_nil_iff newline 254 stream).mp hline
    rw [hnil]
    rfl
  · rw [frames, frames, chop_of_ne_nil hline, List.map_cons, List.tail_cons]

/-- One receive on a stream that ends in end of file takes the first frame; after
the last frame it fails and takes nothing. -/
theorem receive_frames {conn : Connection} (heof : conn.fdbuf.ending = .eof)
    (msg : Message) :
    (conn.receive msg).2.1 = afterFrame msg (frames conn.stream).head?.join ∧
      frames (conn.receive msg).2.2.stream = (frames conn.stream).tail := by
  constructor
  · rw [Connection.receive_eq, nextLine_of_eof heof, frames]
    cases chop newline maxLen conn.stream with
    | nil => rfl
    | cons line lines => cases hdec : decode line <;> simp [hdec, afterFrame]
  · rw [Connection.stream_receive, frames_takeLine]

/-- The output of the loop over a list of frames, each {lit}`none` being a failed
receive. -/
def loopOutput (last : Message) : List (Option Message) → List Bytes
  | [] => []
  | o :: os => (deliveryOutput (afterFrame last o)).1 ++ loopOutput (afterFrame last o) os

/-- The frames and then the end of the stream, over and over. -/
def padded (fs : List (Option Message)) : Nat → List (Option Message)
  | 0 => []
  | n + 1 => fs.head?.join :: padded fs.tail n

theorem padded_length_add (fs : List (Option Message)) (k : Nat) :
    padded fs (fs.length + k) = fs ++ List.replicate k none := by
  induction fs with
  | nil =>
      rw [List.length_nil, Nat.zero_add, List.nil_append]
      induction k with
      | zero => rfl
      | succ k ih => simp [padded, ih, List.replicate_succ]
  | cons o fs ih =>
      rw [List.length_cons, Nat.add_right_comm]
      simp [padded, ih]

/-- The standard output of the loop depends on the frames of the stream only. -/
theorem deliveryLoop_stdout {conn : Connection} (heof : conn.fdbuf.ending = .eof)
    (msg : Message) (n : Nat) :
    (deliveryLoop conn msg n).1 = loopOutput msg (padded (frames conn.stream) n) := by
  induction n generalizing conn msg with
  | zero => rfl
  | succ n ih =>
      rcases receive_frames heof msg with ⟨hmsg, hrest⟩
      simp only [deliveryLoop, padded, loopOutput]
      rw [ih (by rw [Connection.ending_receive, heof]), hrest, hmsg]

/-! ## When the output is exact -/

/-- One line for each accepted delivery with exactly two colons. -/
def deliveries (fs : List (Option Message)) : List Bytes :=
  fs.flatMap fun o =>
    match o with
    | some m =>
        if m.tag = tagDelivery ∧ m.data.count colon = 2 then [deliveredLine m.data] else []
    | none => []

/-- The stale payload that a failed receive would print. -/
def Loud (last : Message) : Prop :=
  last.data.count colon = 2 ∧ last.data.length ≤ 252

/-- A frame with another tag of the tag table and a payload of three fields. -/
def Foreign (m : Message) : Prop :=
  m.tag ∈ tagTable ∧ m.tag ≠ tagDelivery ∧ m.data.count colon = 2

/-- The streams on which the loop prints exactly the deliveries: no foreign
frame, and after each payload that would be printed again another frame is
received successfully. -/
structure Clean (fs : List (Option Message)) : Prop where
  no_foreign : ∀ m, some m ∈ fs → ¬ Foreign m
  followed : ∀ i m, fs[i]? = some (some m) → Loud m → ∃ m', fs[i + 1]? = some (some m')

/-- Pass by pass, nothing is printed beyond the deliveries. -/
def Quiet (last : Message) : List (Option Message) → Prop
  | [] => True
  | some m :: os => ¬ Foreign m ∧ Quiet m os
  | none :: os => ¬ Loud last ∧ Quiet { last with tag := tagErr } os

/-- What the loop relies on about a frame. -/
def Bounded (m : Message) : Prop :=
  m.tag.length + m.data.length ≤ 255 ∧ newline ∉ m.data

private theorem accepted_iff_of_bounded {m : Message} (h : Bounded m)
    (hcount : m.data.count colon = 2) : m.Accepted ↔ m.tag ∈ tagTable := by
  constructor
  · exact fun hacc => hacc.in_table
  · intro htable
    refine ⟨h.1, fun hmem => h.2 ((trim_sublist _).subset hmem), ?_, htable, fun _ => hcount⟩
    exact List.count_pos_iff.mp (by omega)

/-- A received frame prints its delivery, and a line of its own only when it is
foreign. -/
theorem deliveryOutput_of_bounded {m : Message} (h : Bounded m) :
    (m.tag = tagDelivery → (deliveryOutput m).1 = deliveries [some m]) ∧
      (m.tag ≠ tagDelivery → ((deliveryOutput m).1 = [] ↔ ¬ Foreign m)) := by
  classical
  rw [deliveryOutput_fst]
  by_cases hcount : m.data.count colon = 2
  · have hacc := accepted_iff_of_bounded h hcount
    constructor
    · intro htag
      have htable : m.tag ∈ tagTable := by
        rw [htag]
        decide
      simp [deliveries, hacc.mpr htable, hcount, htag]
    · intro htag
      simp [Foreign, hacc, hcount, htag]
  · constructor
    · intro _
      simp [deliveries, hcount]
    · intro _
      simp [Foreign, hcount]

/-- A failed receive prints the stale payload exactly when it is loud. -/
theorem deliveryOutput_stale {last : Message} (h : newline ∉ last.data) :
    (deliveryOutput { last with tag := tagErr }).1 = [] ↔ ¬ Loud last := by
  classical
  rw [deliveryOutput_fst]
  by_cases hcount : last.data.count colon = 2
  · by_cases hlen : last.data.length ≤ 252
    · have htag : tagErr.length = 3 := by decide
      have hbound : Bounded { last with tag := tagErr } :=
        ⟨by simp only [htag]; omega, h⟩
      have hacc := (accepted_iff_of_bounded hbound hcount).mpr (by decide : tagErr ∈ tagTable)
      simp [Loud, hcount, hlen, hacc]
    · have hnot : ¬ ({ last with tag := tagErr } : Message).Accepted := by
        intro hacc
        have hshort := hacc.short
        have htag : tagErr.length = 3 := by decide
        simp only [htag] at hshort
        omega
      simp [Loud, hlen, hnot]
  · simp [Loud, hcount]

/-- The loop never prints fewer lines than there are deliveries. -/
theorem length_deliveries_le {last : Message} {os : List (Option Message)}
    (hos : ∀ m, some m ∈ os → Bounded m) :
    (deliveries os).length ≤ (loopOutput last os).length := by
  induction os generalizing last with
  | nil => simp [deliveries]
  | cons o os ih =>
      have hrest : (deliveries os).length ≤ (loopOutput (afterFrame last o) os).length :=
        ih fun m hm => hos m (by simp [hm])
      have hsplit : deliveries (o :: os) = deliveries [o] ++ deliveries os := by
        simp [deliveries]
      rw [hsplit, List.length_append, loopOutput, List.length_append]
      cases o with
      | none => simpa [deliveries] using Nat.le_add_left_of_le hrest
      | some m =>
          by_cases htag : m.tag = tagDelivery
          · have hline := (deliveryOutput_of_bounded (hos m (by simp))).1 htag
            rw [afterFrame, hline]
            exact Nat.add_le_add_left hrest _
          · have hnone : deliveries [some m] = [] := by simp [deliveries, htag]
            rw [hnone]
            simpa using Nat.le_add_left_of_le hrest

private theorem append_eq_iff_of_length_le {α : Type*} {xs ys zs : List α}
    (hlen : zs.length ≤ ys.length) : xs ++ ys = zs ↔ xs = [] ∧ ys = zs := by
  constructor
  · intro h
    have htotal := congrArg List.length h
    rw [List.length_append] at htotal
    have hxs : xs = [] := List.length_eq_zero_iff.mp (by omega)
    exact ⟨hxs, by simpa [hxs] using h⟩
  · rintro ⟨rfl, rfl⟩
    rfl

/-- Over any frames, the output is exact when every pass is quiet. -/
theorem loopOutput_eq_deliveries_iff {last : Message} {os : List (Option Message)}
    (hlast : newline ∉ last.data) (hos : ∀ m, some m ∈ os → Bounded m) :
    loopOutput last os = deliveries os ↔ Quiet last os := by
  induction os generalizing last with
  | nil => simp [loopOutput, deliveries, Quiet]
  | cons o os ih =>
      have hos' : ∀ m, some m ∈ os → Bounded m := fun m hm => hos m (by simp [hm])
      have hsplit : deliveries (o :: os) = deliveries [o] ++ deliveries os := by
        simp [deliveries]
      have hle : (deliveries os).length ≤ (loopOutput (afterFrame last o) os).length :=
        length_deliveries_le hos'
      rw [hsplit, loopOutput]
      cases o with
      | none =>
          have hnone : deliveries [none] = [] := rfl
          rw [hnone, List.nil_append, append_eq_iff_of_length_le hle, afterFrame,
            deliveryOutput_stale hlast, Quiet]
          exact and_congr_right fun _ => ih hlast hos'
      | some m =>
          have hm := hos m (by simp)
          rw [afterFrame, Quiet, ← ih hm.2 hos']
          by_cases htag : m.tag = tagDelivery
          · have hnot : ¬ Foreign m := fun hf => hf.2.1 htag
            rw [(deliveryOutput_of_bounded hm).1 htag, List.append_cancel_left_eq]
            simp [hnot]
          · have hnone : deliveries [some m] = [] := by simp [deliveries, htag]
            rw [hnone, List.nil_append]
            rw [afterFrame] at hle
            rw [append_eq_iff_of_length_le hle, (deliveryOutput_of_bounded hm).2 htag]

theorem clean_cons_iff (o : Option Message) (fs : List (Option Message)) :
    Clean (o :: fs) ↔
      (∀ m, o = some m → ¬ Foreign m ∧ (Loud m → ∃ m', fs[0]? = some (some m'))) ∧
        Clean fs := by
  constructor
  · rintro ⟨hforeign, hfollowed⟩
    refine ⟨?_, ?_, ?_⟩
    · rintro m rfl
      exact ⟨hforeign m (by simp), hfollowed 0 m (by simp)⟩
    · exact fun m hm => hforeign m (by simp [hm])
    · intro i m hi hloud
      simpa using hfollowed (i + 1) m (by simpa using hi) hloud
  · rintro ⟨hhead, hforeign, hfollowed⟩
    constructor
    · intro m hm
      rcases List.mem_cons.mp hm with heq | hmem
      · exact (hhead m heq.symm).1
      · exact hforeign m hmem
    · intro i m hi hloud
      cases i with
      | zero => simpa using (hhead m (by simpa using hi)).2 hloud
      | succ i => simpa using hfollowed i m (by simpa using hi) hloud

/-- Failed receives stay quiet when nothing loud is pending. -/
theorem quiet_replicate {last : Message} (hloud : ¬ Loud last) (k : Nat) :
    Quiet last (List.replicate k none) := by
  induction k generalizing last with
  | zero => exact trivial
  | succ k ih => exact ⟨hloud, @ih { last with tag := tagErr } hloud⟩

/-- Every pass is quiet, for as long as the client runs, exactly on the clean
streams (and when nothing loud is pending at the start). -/
theorem quiet_iff_clean (last : Message) (fs : List (Option Message)) :
    (∀ k, Quiet last (fs ++ List.replicate k none)) ↔
      (Loud last → ∃ m', fs[0]? = some (some m')) ∧ Clean fs := by
  induction fs generalizing last with
  | nil =>
      have hclean : Clean [] := ⟨by simp, by simp⟩
      have hnone : (Loud last → ∃ m', ([] : List (Option Message))[0]? = some (some m')) ↔
          ¬ Loud last := by simp
      rw [hnone]
      simp only [List.nil_append, hclean, and_true]
      exact ⟨fun h => (h 1).1, quiet_replicate⟩
  | cons o fs ih =>
      rw [clean_cons_iff]
      cases o with
      | none =>
          have hloud : Loud { last with tag := tagErr } ↔ Loud last := Iff.rfl
          simp only [List.cons_append, Quiet, forall_and, forall_const, ih, hloud]
          simp
          tauto
      | some m =>
          simp only [List.cons_append, Quiet, forall_and, forall_const, ih]
          simp
          tauto

/-- The client prints exactly one line for each accepted delivery with two
colons, however long it runs, if and only if the stream it receives is clean. -/
theorem receiver_output_exact_iff (conn : Connection) (heof : conn.fdbuf.ending = .eof) :
    (∀ k, (deliveryLoop conn {} ((frames conn.stream).length + k)).1 =
        deliveries (frames conn.stream)) ↔ Clean (frames conn.stream) := by
  have hbounded : ∀ m, some m ∈ frames conn.stream → Bounded m := by
    intro m hm
    rcases bounds_of_mem_frames hm with ⟨hlen, hnewline⟩
    exact ⟨Nat.le_of_lt hlen, hnewline⟩
  have hquiet : ∀ k, (deliveryLoop conn {} ((frames conn.stream).length + k)).1 =
      deliveries (frames conn.stream) ↔
        Quiet {} (frames conn.stream ++ List.replicate k none) := by
    intro k
    have hpad : deliveries (frames conn.stream ++ List.replicate k none) =
        deliveries (frames conn.stream) := by
      simp [deliveries]
    rw [deliveryLoop_stdout heof, padded_length_add, ← hpad]
    apply loopOutput_eq_deliveries_iff (by simp)
    intro m hm
    simpa using hbounded m (by simpa using hm)
  have hsilent : ¬ Loud {} := by simp [Loud]
  rw [forall_congr' hquiet, quiet_iff_clean]
  simp [hsilent]

/-- A delivery followed by the report of an empty queue. -/
def reportedStream : Connection :=
  let first := str "delivery:r:u:hi" ++ [newline]
  let second := str "err:Empty error" ++ [newline]
  { fdbuf := { rioBuf := first ++ second } }

/-- On a clean stream the output is exact, also after passes at its end. -/
theorem receiver_output_exact_reported :
    (deliveryLoop reportedStream {} 5).1 = [str "u: hi"] := by
  have hframes : frames reportedStream.stream =
      [some { tag := tagDelivery, data := str "r:u:hi" },
        some { tag := tagErr, data := str "Empty error" }] := by
    decide +kernel
  have hnil : Clean [] := ⟨by simp, by simp⟩
  have hclean : Clean (frames reportedStream.stream) := by
    rw [hframes, clean_cons_iff, clean_cons_iff]
    refine ⟨?_, ?_, hnil⟩
    · rintro m ⟨⟩
      exact ⟨fun hforeign => hforeign.2.1 rfl, fun _ => ⟨_, rfl⟩⟩
    · rintro m ⟨⟩
      exact ⟨fun hforeign => absurd hforeign.2.2 (by decide),
        fun hloud => absurd hloud.1 (by decide)⟩
  have hexact := (receiver_output_exact_iff reportedStream rfl).mpr hclean
  rw [hframes] at hexact
  exact (hexact 3).trans (by decide +kernel)

/-- A delivery followed by the end of the stream. -/
def lastDeliveryStream : Connection :=
  { fdbuf := { rioBuf := str "delivery:r:u:hi" ++ [newline] } }

/-- After its only delivery the client prints the same line again at every
failed receive. -/
theorem receiver_repeats_last_delivery :
    ¬ ∀ k, (deliveryLoop lastDeliveryStream {}
        ((frames lastDeliveryStream.stream).length + k)).1 =
      deliveries (frames lastDeliveryStream.stream) := by
  intro h
  have hone := h 1
  revert hone
  decide +kernel

end ChatServer
