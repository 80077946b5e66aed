import Mathlib.Data.List.ReduceOption
import ChatServer.ReceiverClient
import ChatServer.WireStream

/-!
# Cut streams

What a peer accepts from a stream that was cut off, compared with what it would
have accepted from the whole stream.  A receive takes the bytes in front of the
end of the stream for a line, so an unfinished frame is accepted if what has
arrived of it decodes; the cut is harmless exactly if this is not the case, or
if the missing bytes of the line would not have been seen.

Main results:

- Theorem {lit}`decode_append_eq_iff`: when a frame decodes to the same message
  after it has been continued.
- Theorem {lit}`accepted_cut`: an unfinished frame is accepted exactly if what has arrived
  of it is a frame by itself.
- Theorem {lit}`cut_prefix_iff`: the cut stream yields a prefix of the messages
  of the whole stream exactly if the cut is harmless.

Current gaps:

- Streams that end in a read error are not covered; there an unfinished line is
  dropped.
-/

namespace ChatServer

open LineFraming

/-! ## Continued frames -/

/-- Lines that agree after trimming decode alike. -/
theorem decode_congr {line line' : Bytes} (h : trim (cStr line) = trim (cStr line')) :
    decode line = decode line' := by
  rw [decode, decode, h]

/-- A frame without NUL that goes on decodes to the same tag; its data changes as
soon as the continuation has a visible byte. -/
private theorem decode_append_of_not_nul {line rest : Bytes} (hframe : FrameLine line)
    (hnul : nul ∉ line) :
    (decode (line ++ rest)).isSome ∧
      (decode (line ++ rest) = decode line ↔ ∀ c ∈ cStr rest, isSpace c = true) := by
  have hsame : cStr line = line := cStr_eq_self_iff.mpr hnul
  rcases hframe with ⟨tag, data, hlower, htrim⟩
  have hdec : decode line = some { tag := tag, data := data } := decode_of_trim hlower htrim
  rw [hsame] at htrim
  have hcolon : colon ∈ line := (trim_sublist line).subset (by simp [htrim])
  have hleft : ltrim (line ++ cStr rest) = ltrim line ++ cStr rest :=
    ltrim_append_of_visible hcolon not_isSpace_colon _
  by_cases hspace : ∀ c ∈ cStr rest, isSpace c = true
  · have heq : decode (line ++ rest) = decode line := by
      apply decode_congr
      rw [cStr_append_of_not_mem hnul, hsame, trim, hleft, rtrim_append_of_isSpace _ hspace]
      rfl
    exact ⟨by rw [heq, hdec]; rfl, iff_of_true heq hspace⟩
  · simp only [not_forall, Bool.not_eq_true] at hspace
    rcases hspace with ⟨c, hmem, hc⟩
    rcases rtrim_append_of_visible (ltrim line) hmem hc with ⟨last, hlast, hrtrim⟩
    rcases rtrim_prefix_self (ltrim line) with ⟨blank, hblank⟩
    have htrim' : trim (cStr (line ++ rest)) = tag ++ colon :: (data ++ blank ++ last) := by
      rw [cStr_append_of_not_mem hnul, trim, hleft, hrtrim, ← hblank]
      rw [trim] at htrim
      simp [htrim]
    have hdec' : decode (line ++ rest) = some { tag := tag, data := data ++ blank ++ last } :=
      decode_of_trim hlower htrim'
    refine ⟨by rw [hdec']; rfl, iff_of_false ?_ fun h => ?_⟩
    · rw [hdec', hdec]
      simp [hlast]
    · rw [h c hmem] at hc
      cases hc

/-- A frame that goes on still decodes, and to the same message exactly if it
contains a NUL or goes on with whitespace only. -/
theorem decode_append_eq_iff {line : Bytes} (hframe : FrameLine line) (rest : Bytes) :
    (decode (line ++ rest)).isSome ∧
      (decode (line ++ rest) = decode line ↔
        nul ∈ line ∨ ∀ c ∈ cStr rest, isSpace c = true) := by
  by_cases hnul : nul ∈ line
  · have heq : decode (line ++ rest) = decode line :=
      decode_congr (by rw [cStr_append_of_mem hnul])
    rw [heq]
    exact ⟨decode_isSome_iff.mpr hframe, by simp [hnul]⟩
  · simpa [hnul] using decode_append_of_not_nul hframe hnul

/-! ## Accepted messages -/

/-- The messages of the receives that have succeeded. -/
def accepted (results : List (Bool × Message)) : List Message :=
  results.filterMap fun r => if r.1 then some r.2 else none

/-- On a stream that ends in end of file a receive accepts the first frame. -/
theorem receive_accepts {conn : Connection} (heof : conn.fdbuf.ending = .eof) (msg : Message) :
    (if (conn.receive msg).1 then some (conn.receive msg).2.1 else none) =
      (frames conn.stream).head?.join := by
  rw [Connection.receive_eq, nextLine_of_eof heof, frames]
  cases chop newline maxLen conn.stream with
  | nil => rfl
  | cons line lines => cases hdec : decode line <;> simp [hdec]

/-- The receives accept the frames of the stream that decode, in order. -/
theorem accepted_receiveAll {conn : Connection} (heof : conn.fdbuf.ending = .eof)
    (msg : Message) (n : Nat) :
    accepted (conn.receiveAll msg n).1 = ((frames conn.stream).take n).reduceOption := by
  induction n generalizing conn msg with
  | zero => rfl
  | succ n ih =>
      have heof' : (conn.receive msg).2.2.fdbuf.ending = .eof := by
        rw [Connection.ending_receive, heof]
      have hrest := ih heof' (conn.receive msg).2.1
      rw [(receive_frames heof msg).2] at hrest
      have hfirst := receive_accepts heof msg
      have hsplit : accepted (conn.receiveAll msg (n + 1)).1 =
          (if (conn.receive msg).1 then some (conn.receive msg).2.1 else none).toList ++
            accepted ((conn.receive msg).2.2.receiveAll (conn.receive msg).2.1 n).1 := by
        rw [Connection.receiveAll, accepted, accepted, List.filterMap_cons]
        split <;> rename_i h <;> simp [h]
      rw [hsplit, hrest, hfirst]
      cases frames conn.stream with
      | nil => simp
      | cons o os => cases o <;> simp [List.reduceOption]

/-- Whatever number of receives, the messages accepted from the first stream are a
prefix of those accepted from the second one. -/
theorem accepted_prefix_iff {cut whole : Connection} (hcut : cut.fdbuf.ending = .eof)
    (hwhole : whole.fdbuf.ending = .eof) (msg msg' : Message) :
    (∀ n, ∃ k, accepted (cut.receiveAll msg n).1 <+: accepted (whole.receiveAll msg' k).1) ↔
      (frames cut.stream).reduceOption <+: (frames whole.stream).reduceOption := by
  simp only [accepted_receiveAll hcut, accepted_receiveAll hwhole]
  constructor
  · intro h
    rcases h (frames cut.stream).length with ⟨k, hk⟩
    rw [List.take_length] at hk
    exact hk.trans ((List.take_prefix k _).filterMap _)
  · intro h n
    refine ⟨(frames whole.stream).length, ?_⟩
    rw [List.take_length]
    exact ((List.take_prefix n _).filterMap _).trans h

/-! ## Harmless cuts -/

/-- What has arrived of the unfinished line is no frame, or the missing bytes of
this line are not seen: they come behind a NUL, or up to a NUL of their own they
are whitespace. -/
def CutHarmless (cut rest : Bytes) : Prop :=
  let part := unfinishedPart newline maxLen cut
  ¬ FrameLine part ∨ nul ∈ part ∨
    ∀ c ∈ cStr (takeLine newline (maxLen - part.length) rest).1, isSpace c = true

theorem not_frameLine_nil : ¬ FrameLine [] := by
  rintro ⟨tag, data, -, htrim⟩
  have hnil : trim (cStr []) = [] := rfl
  simp [hnil] at htrim

/-- The messages of a stream: those of the lines that have arrived as a whole, which stay
when the stream goes on, and behind them that of the unfinished line, if it is a frame. -/
theorem frames_cut (cut : Bytes) :
    let part := unfinishedPart newline maxLen cut
    ∃ whole : List Message, (frames cut).reduceOption = whole ++ (decode part).toList ∧
      ∀ rest, (frames (cut ++ rest)).reduceOption =
        whole ++ ((chop newline maxLen (part ++ rest)).map decode).reduceOption := by
  intro part
  rcases chop_append newline (by decide : 0 < maxLen) cut with ⟨full, hcut, hmore⟩
  refine ⟨(full.map decode).reduceOption, ?_, fun rest => ?_⟩
  · rw [frames, hcut, List.map_append, List.reduceOption_append]
    by_cases hpart : part = []
    · have hnone : decode [] = none := by
        rw [← Option.not_isSome_iff_eq_none, decode_isSome_iff]
        exact not_frameLine_nil
      rw [if_pos hpart, hpart, hnone]
      rfl
    · rw [if_neg hpart]
      cases hdec : decode part <;> simp [part, hdec, List.reduceOption]
  · rw [frames, hmore, List.map_append, List.reduceOption_append]

/-- The messages of a stream, and of the same stream when it goes on. -/
theorem frames_prefix_iff (cut rest : Bytes) :
    (frames cut).reduceOption <+: (frames (cut ++ rest)).reduceOption ↔ CutHarmless cut rest := by
  rcases frames_cut cut with ⟨whole, hframes, hmore⟩
  rcases unfinishedPart_spec newline (by decide : 0 < maxLen) cut with ⟨hlen, hnl⟩
  unfold CutHarmless
  dsimp only
  generalize unfinishedPart newline maxLen cut = part at hframes hmore hlen hnl ⊢
  rw [hframes, hmore, List.prefix_append_right_inj]
  by_cases hframe : FrameLine part
  · have hline := takeLine_append_of_not_mem hnl (Nat.le_of_lt hlen) rest
    have hpart : part ≠ [] := by
      rintro rfl
      exact not_frameLine_nil hframe
    rcases decode_append_eq_iff hframe
      (takeLine newline (maxLen - part.length) rest).1 with ⟨hsome, hsame⟩
    rcases Option.isSome_iff_exists.mp hsome with ⟨m', hm'⟩
    rcases Option.isSome_iff_exists.mp (decode_isSome_iff.mpr hframe) with ⟨m, hm⟩
    have hne : (takeLine newline maxLen (part ++ rest)).1 ≠ [] := by
      rw [hline]
      simp [hpart]
    rw [chop_of_ne_nil hne, hline, List.map_cons, hm', hm]
    rw [hm', hm] at hsame
    rw [List.reduceOption_cons_of_some, Option.toList_some, List.cons_prefix_cons, ← hsame,
      Option.some.injEq]
    constructor
    · exact fun h => Or.inr h.1.symm
    · rintro (hnot | heq)
      · exact absurd hframe hnot
      · exact ⟨heq.symm, List.nil_prefix⟩
  · have hnone : decode part = none := by
      rw [← Option.not_isSome_iff_eq_none, decode_isSome_iff]
      exact hframe
    rw [hnone]
    exact iff_of_true List.nil_prefix (.inl hframe)

/-- All messages accepted from a cut stream: those of the lines that have arrived as a
whole, which are accepted however the stream goes on, and behind them that of the
unfinished line, which is accepted exactly if it is a frame by itself. -/
theorem accepted_cut {cut : Connection} (hcut : cut.fdbuf.ending = .eof) (msg : Message) :
    let part := unfinishedPart newline maxLen cut.stream
    ((decode part).isSome ↔ FrameLine part) ∧
      ∃ whole : List Message, (∀ rest, whole <+: (frames (cut.stream ++ rest)).reduceOption) ∧
        ∀ n, (frames cut.stream).length ≤ n →
          accepted (cut.receiveAll msg n).1 = whole ++ (decode part).toList := by
  intro part
  rcases frames_cut cut.stream with ⟨whole, hframes, hmore⟩
  refine ⟨decode_isSome_iff, whole, fun rest => ?_, fun n hn => ?_⟩
  · rw [hmore]
    exact List.prefix_append _ _
  · rw [accepted_receiveAll hcut, List.take_of_length_le hn, hframes]

/-- The messages accepted from a cut stream are a prefix of the messages accepted
from the whole stream exactly if the cut is harmless. -/
theorem cut_prefix_iff {cut whole : Connection} (hcut : cut.fdbuf.ending = .eof)
    (hwhole : whole.fdbuf.ending = .eof) {rest : Bytes}
    (hstream : whole.stream = cut.stream ++ rest) (msg msg' : Message) :
    (∀ n, ∃ k, accepted (cut.receiveAll msg n).1 <+: accepted (whole.receiveAll msg' k).1) ↔
      CutHarmless cut.stream rest := by
  rw [accepted_prefix_iff hcut hwhole, hstream]
  exact frames_prefix_iff cut.stream rest

/-- A frame that lacks its newline only, and a frame that is cut inside its tag. -/
theorem cut_prefix_iff_join :
    (∀ n, ∃ k, accepted (({ fdbuf := { rioBuf := str "quit:\njoin:hall" } } :
        Connection).receiveAll {} n).1 <+:
      accepted (({ fdbuf := { rioBuf := str "quit:\njoin:hall\n" } } :
        Connection).receiveAll {} k).1) ∧
      ∀ n, ∃ k, accepted (({ fdbuf := { rioBuf := str "quit:\njoi" } } :
          Connection).receiveAll {} n).1 <+:
        accepted (({ fdbuf := { rioBuf := str "quit:\njoin:hall\n" } } :
          Connection).receiveAll {} k).1 := by
  constructor
  · refine (@cut_prefix_iff { fdbuf := { rioBuf := str "quit:\njoin:hall" } }
      { fdbuf := { rioBuf := str "quit:\njoin:hall\n" } } rfl rfl [newline] (by decide)
      {} {}).mpr (.inr (.inr ?_))
    decide +kernel
  · refine (@cut_prefix_iff { fdbuf := { rioBuf := str "quit:\njoi" } }
      { fdbuf := { rioBuf := str "quit:\njoin:hall\n" } } rfl rfl (str "n:hall\n") (by decide)
      {} {}).mpr (.inl ?_)
    rw [← decode_isSome_iff]
    decide +kernel

/-- A stream that is cut inside of a room name is accepted as a join of another
room. -/
theorem truncated_join_accepted :
    let cut : Connection := { fdbuf := { rioBuf := str "join:ha" } }
    let whole : Connection := { fdbuf := { rioBuf := str "join:hall\n" } }
    cut.stream <+: whole.stream ∧
      accepted (cut.receiveAll {} 1).1 = [{ tag := tagJoin, data := str "ha" }] ∧
      ¬ ∀ n, ∃ k, accepted (cut.receiveAll {} n).1 <+: accepted (whole.receiveAll {} k).1 := by
  refine ⟨by decide, by decide +kernel, fun h => ?_⟩
  rw [accepted_prefix_iff rfl rfl] at h
  revert h
  decide +kernel

end ChatServer
