import ChatServer.Bytes
import ChatServer.Lib.LineFraming

/-!
# Robust input and output

The buffered reader and the write loop of {lit}`csapp.c`, over a socket whose
receive side is the list of results that {lit}`read` will return and whose send
side is the list of results that {lit}`write` will return.  The segmentation of
the input, interrupted calls and short writes are therefore all explicit.

Main results:

- Theorem {lit}`rioReadlineb_spec`: a buffered line read depends on the byte
  stream only, not on its segmentation, and cuts it with
  {lit}`LineFraming.takeLine`.
- Theorem {lit}`rioWriten_spec`: the write loop returns the requested length
  after writing every byte, or -1 after writing a prefix.

Current gaps:

- {lit}`read` returns at most one buffer of data per call; the model allows any
  positive amount.  A {lit}`write` that returns zero is not modelled.
- Once the listed write results are used up the socket accepts everything.
-/

namespace ChatServer

open LineFraming

/-! ## Receive side -/

/-- One return of {lit}`read` that does not end the stream: a positive number of
bytes, or -1 with {lit}`EINTR`. -/
inductive ReadResult where
  | data (first : Byte) (rest : Bytes)
  | eintr
deriving DecidableEq

/-- The bytes that a {lit}`read` has returned. -/
def ReadResult.bytes : ReadResult → Bytes
  | .data first rest => first :: rest
  | .eintr => []

/-- What {lit}`read` returns once the data is exhausted. -/
inductive StreamEnd where
  | eof
  | error
deriving DecidableEq

/-- {lit}`rio_t`: the unread part of the internal buffer, and the future results
of {lit}`read` on its descriptor. -/
structure Rio where
  rioBuf : Bytes := []
  reads : List ReadResult := []
  ending : StreamEnd := .eof
deriving DecidableEq

/-- All bytes that can still be read. -/
def Rio.stream (rp : Rio) : Bytes :=
  rp.rioBuf ++ rp.reads.flatMap ReadResult.bytes

/-- Outcome of {lit}`rio_read` for one byte: return value 1, 0 or -1. -/
inductive RioByte where
  | byte (c : Byte)
  | eof
  | error
deriving DecidableEq

/-- The refill loop of {lit}`rio_read`, entered with an empty buffer, and the
delivery of the first byte of the new contents. -/
def rioRefill (ending : StreamEnd) : List ReadResult → RioByte × Rio
  | [] =>
      (match ending with
        | .eof => .eof
        | .error => .error, { rioBuf := [], reads := [], ending := ending })
  | .eintr :: reads => rioRefill ending reads
  | .data first rest :: reads =>
      (.byte first, { rioBuf := rest, reads := reads, ending := ending })

/-- {lit}`rio_read(rp, &c, 1)`, the only way the line reader calls it. -/
def rioRead (rp : Rio) : RioByte × Rio :=
  match rp.rioBuf with
  | c :: buf => (.byte c, { rp with rioBuf := buf })
  | [] => rioRefill rp.ending rp.reads

/-- The loop of {lit}`rio_readlineb`, with the number of bytes it may still store
and the bytes stored so far; the result is the return value and the buffer. -/
def rioReadlinebLoop : Nat → Rio → Bytes → (Int × Bytes) × Rio
  | 0, rp, buf => ((buf.length, buf), rp)
  | left + 1, rp, buf =>
      match rioRead rp with
      | (.byte c, rp) =>
          if c = newline then ((buf.length + 1, buf ++ [c]), rp)
          else rioReadlinebLoop left rp (buf ++ [c])
      | (.eof, rp) =>
          if buf = [] then ((0, []), rp)
          else ((buf.length, buf), rp)
      | (.error, rp) => ((-1, buf), rp)

/-- {lit}`rio_readlineb(rp, usrbuf, maxlen)`. -/
def rioReadlineb (rp : Rio) (maxlen : Nat) : (Int × Bytes) × Rio :=
  rioReadlinebLoop (maxlen - 1) rp []

/-- Return value of the line reader for the bytes it stored: an error is reported if it was
met behind an unfinished line. -/
def readlineResult (ending : StreamEnd) (limit : Nat) (line : Bytes) : Int :=
  if ending = .error ∧ Unfinished newline limit line then -1 else line.length

/-- Reads without data come to the end of the stream. -/
theorem rioRefill_nil (ending : StreamEnd) {reads : List ReadResult}
    (h : reads.flatMap ReadResult.bytes = []) :
    rioRefill ending reads = rioRefill ending [] := by
  induction reads with
  | nil => rfl
  | cons r reads ih =>
      cases r with
      | data first rest => simp [ReadResult.bytes] at h
      | eintr => exact ih (by simpa [ReadResult.bytes] using h)

/-- Reads with data return the first byte and keep the rest. -/
theorem rioRefill_cons (ending : StreamEnd) {reads : List ReadResult} {c : Byte}
    {rest : Bytes} (h : reads.flatMap ReadResult.bytes = c :: rest) :
    ∃ rp, rioRefill ending reads = (.byte c, rp) ∧ rp.stream = rest ∧
      rp.ending = ending := by
  induction reads with
  | nil => simp at h
  | cons r reads ih =>
      cases r with
      | eintr => exact ih (by simpa [ReadResult.bytes] using h)
      | data first buf =>
          simp only [List.flatMap_cons, ReadResult.bytes, List.cons_append,
            List.cons.injEq] at h
          rcases h with ⟨rfl, rfl⟩
          exact ⟨_, rfl, rfl, rfl⟩

/-- At the end of the stream a byte read reports how the stream ends. -/
theorem rioRead_nil {rp : Rio} (h : rp.stream = []) :
    rioRead rp = rioRefill rp.ending [] := by
  rcases List.append_eq_nil_iff.mp h with ⟨hbuf, hreads⟩
  simp only [rioRead, hbuf]
  exact rioRefill_nil rp.ending hreads

/-- Before the end of the stream a byte read returns its next byte. -/
theorem rioRead_cons {rp : Rio} {c : Byte} {rest : Bytes} (h : rp.stream = c :: rest) :
    ∃ rp', rioRead rp = (.byte c, rp') ∧ rp'.stream = rest ∧ rp'.ending = rp.ending := by
  unfold Rio.stream at h
  cases hbuf : rp.rioBuf with
  | nil =>
      rw [hbuf] at h
      simp only [rioRead, hbuf]
      exact rioRefill_cons rp.ending h
  | cons d buf =>
      rw [hbuf] at h
      simp only [List.cons_append, List.cons.injEq] at h
      rcases h with ⟨rfl, rfl⟩
      simp only [rioRead, hbuf]
      exact ⟨_, rfl, rfl, rfl⟩

/-- One run of the loop: it appends the next line to what it has stored. -/
theorem rioReadlinebLoop_spec (left : Nat) (rp : Rio) (buf : Bytes) :
    ∃ rp', rioReadlinebLoop left rp buf =
        ((if rp.ending = .error ∧
              Unfinished newline left (takeLine newline left rp.stream).1 then -1
          else ((buf ++ (takeLine newline left rp.stream).1).length : Int),
          buf ++ (takeLine newline left rp.stream).1), rp') ∧
      rp'.stream = (takeLine newline left rp.stream).2 ∧ rp'.ending = rp.ending := by
  induction left generalizing rp buf with
  | zero =>
      refine ⟨rp, ?_, ?_, rfl⟩
      · simp [rioReadlinebLoop, Unfinished]
      · simp
  | succ left ih =>
      cases hstream : rp.stream with
      | nil =>
          have hread := rioRead_nil hstream
          refine ⟨{ rioBuf := [], reads := [], ending := rp.ending }, ?_, ?_, rfl⟩
          · cases hend : rp.ending with
            | eof =>
                rw [hend] at hread
                by_cases hbuf : buf = [] <;>
                  simp [rioReadlinebLoop, hread, rioRefill, hbuf]
            | error =>
                rw [hend] at hread
                simp [rioReadlinebLoop, hread, rioRefill, Unfinished]
          · simp [Rio.stream]
      | cons c rest =>
          rcases rioRead_cons hstream with ⟨rp₁, hread, hrest, hend⟩
          by_cases hc : c = newline
          · subst c
            refine ⟨rp₁, ?_, ?_, hend⟩
            · simp [rioReadlinebLoop, hread, takeLine_cons_delim, Unfinished]
            · simp [takeLine_cons_delim, hrest]
          · rcases ih rp₁ (buf ++ [c]) with ⟨rp', hloop, hstream', hend'⟩
            refine ⟨rp', ?_, ?_, hend'.trans hend⟩
            · simp only [rioReadlinebLoop, hread, if_neg hc, hloop, hrest, hend]
              rw [takeLine_cons_of_ne hc]
              simp [unfinished_cons hc]
            · rw [hstream', hrest, takeLine_cons_of_ne hc]

/-- The line reader returns the next line of the stream, whatever the
segmentation, and leaves exactly the rest of the stream to be read. -/
theorem rioReadlineb_spec (rp : Rio) (maxlen : Nat) :
    ∃ rp', rioReadlineb rp maxlen =
        ((readlineResult rp.ending (maxlen - 1) (takeLine newline (maxlen - 1) rp.stream).1,
          (takeLine newline (maxlen - 1) rp.stream).1), rp') ∧
      rp'.stream = (takeLine newline (maxlen - 1) rp.stream).2 ∧
      rp'.ending = rp.ending := by
  simpa [rioReadlineb, readlineResult] using rioReadlinebLoop_spec (maxlen - 1) rp []

/-! ## Send side -/

/-- One return of {lit}`write`: a positive number of bytes (at most the number
requested), -1 with {lit}`EINTR`, or -1 with another error. -/
inductive WriteResult where
  | wrote (pred : Nat)
  | eintr
  | error
deriving DecidableEq

/-- The loop of {lit}`rio_writen` over the bytes left: whether it completed, and
the bytes it wrote. -/
def rioWritenLoop : List WriteResult → Bytes → Bool × Bytes
  | [], left => (true, left)
  | r :: rs, left =>
      if left = [] then (true, [])
      else
        match r with
        | .wrote pred =>
            ((rioWritenLoop rs (left.drop (pred + 1))).1,
              left.take (pred + 1) ++ (rioWritenLoop rs (left.drop (pred + 1))).2)
        | .eintr => rioWritenLoop rs left
        | .error => (false, [])

/-- {lit}`rio_writen(fd, buf, n)`: the return value and the bytes written. -/
def rioWriten (writes : List WriteResult) (buf : Bytes) (n : Nat) : Int × Bytes :=
  (if (rioWritenLoop writes (buf.take n)).1 then n else -1,
    (rioWritenLoop writes (buf.take n)).2)

/-- A {lit}`rio_writen` that succeeds has written everything. -/
theorem rioWritenLoop_complete {writes : List WriteResult} {left : Bytes}
    (h : (rioWritenLoop writes left).1 = true) : (rioWritenLoop writes left).2 = left := by
  induction writes generalizing left with
  | nil => rfl
  | cons r rs ih =>
      by_cases hleft : left = []
      · simp [rioWritenLoop, hleft]
      · cases r with
        | wrote pred =>
            simp only [rioWritenLoop, if_neg hleft] at h ⊢
            rw [ih h, List.take_append_drop]
        | eintr =>
            simp only [rioWritenLoop, if_neg hleft] at h ⊢
            exact ih h
        | error => simp [rioWritenLoop, hleft] at h

/-- The loop completes exactly when every byte has been written. -/
theorem rioWritenLoop_complete_iff {writes : List WriteResult} {left : Bytes} :
    (rioWritenLoop writes left).1 = true ↔ (rioWritenLoop writes left).2 = left := by
  refine ⟨rioWritenLoop_complete, fun h => ?_⟩
  induction writes generalizing left with
  | nil => rfl
  | cons r rs ih =>
      by_cases hleft : left = []
      · simp [rioWritenLoop, hleft]
      · cases r with
        | wrote pred =>
            simp only [rioWritenLoop, if_neg hleft] at h ⊢
            have hsplit := List.take_append_drop (pred + 1) left
            exact ih (List.append_cancel_left (h.trans hsplit.symm))
        | eintr =>
            simp only [rioWritenLoop, if_neg hleft] at h ⊢
            exact ih h
        | error =>
            simp only [rioWritenLoop, if_neg hleft] at h
            exact absurd h.symm hleft

/-- Whatever happens, a prefix has been written. -/
theorem rioWritenLoop_prefix_of_left (writes : List WriteResult) (left : Bytes) :
    (rioWritenLoop writes left).2 <+: left := by
  induction writes generalizing left with
  | nil => exact List.prefix_rfl
  | cons r rs ih =>
      by_cases hleft : left = []
      · simp [rioWritenLoop, hleft]
      · cases r with
        | wrote pred =>
            simp only [rioWritenLoop, if_neg hleft]
            have hrest := ih (left.drop (pred + 1))
            have happ := (List.prefix_append_right_inj (left.take (pred + 1))).mpr hrest
            rwa [List.take_append_drop] at happ
        | eintr =>
            simp only [rioWritenLoop, if_neg hleft]
            exact ih left
        | error => simp [rioWritenLoop, hleft]

/-- Without an error among the results the loop completes. -/
theorem rioWritenLoop_of_no_error {writes : List WriteResult}
    (h : WriteResult.error ∉ writes) (left : Bytes) :
    (rioWritenLoop writes left).1 = true := by
  induction writes generalizing left with
  | nil => rfl
  | cons r rs ih =>
      have hrs : WriteResult.error ∉ rs := fun hmem => h (by simp [hmem])
      by_cases hleft : left = []
      · simp [rioWritenLoop, hleft]
      · cases r with
        | wrote pred =>
            simp only [rioWritenLoop, if_neg hleft]
            exact ih hrs _
        | eintr =>
            simp only [rioWritenLoop, if_neg hleft]
            exact ih hrs _
        | error => exact absurd (by simp) h

/-- All requested bytes are written and counted, or the result is -1 and a
prefix of them is written. -/
theorem rioWriten_spec (writes : List WriteResult) (buf : Bytes) (n : Nat) :
    rioWriten writes buf n = ((n : Int), buf.take n) ∨
      ((rioWriten writes buf n).1 = -1 ∧ (rioWriten writes buf n).2 <+: buf.take n) := by
  cases hdone : (rioWritenLoop writes (buf.take n)).1 with
  | true =>
      left
      simp [rioWriten, hdone, rioWritenLoop_complete hdone]
  | false =>
      right
      exact ⟨by simp [rioWriten, hdone], rioWritenLoop_prefix_of_left _ _⟩

end ChatServer
