import Mathlib.Data.List.Basic
import Mathlib.Tactic.Common

/-!
# Delimited lines of bounded length

A line reader cuts a stream at the first delimiter, or after a fixed number of
symbols when the delimiter is further away.  The definitions are over an
arbitrary alphabet; nothing here knows about bytes or about input and output.

Main results:

- Theorem {lit}`takeLine_line`: a delimited line that fits the limit is taken
  as a whole and nothing else is.
- Theorem {lit}`chop_of_ne_nil`: a nonempty stream is cut into its first line
  and the lines of the rest.
- Theorem {lit}`chop_append`: what becomes of the lines when a stream goes on.
- Theorem {lit}`takeLine_of_carried`: what is read from the part of a sequence of
  lines that has arrived.

Current gaps:

- Only one delimiter symbol is supported.
-/

namespace LineFraming

variable {α : Type*} [DecidableEq α]

/-! ## One line -/

/-- The symbols up to and including the first delimiter, but at most
{lit}`limit` of them, together with the rest of the stream. -/
def takeLine (delim : α) : Nat → List α → List α × List α
  | 0, xs => ([], xs)
  | _ + 1, [] => ([], [])
  | limit + 1, x :: xs =>
      if x = delim then ([x], xs)
      else (x :: (takeLine delim limit xs).1, (takeLine delim limit xs).2)

/-- A reader without room takes nothing. -/
@[simp]
theorem takeLine_zero (delim : α) (xs : List α) :
    takeLine delim 0 xs = ([], xs) := by
  cases xs <;> rfl

/-- An empty stream has no line. -/
@[simp]
theorem takeLine_nil (delim : α) (limit : Nat) :
    takeLine delim limit [] = ([], []) := by
  cases limit <;> rfl

/-- A delimiter ends the line. -/
theorem takeLine_cons_delim (delim : α) (limit : Nat) (xs : List α) :
    takeLine delim (limit + 1) (delim :: xs) = ([delim], xs) := by
  simp [takeLine]

/-- Another symbol belongs to the line. -/
theorem takeLine_cons_of_ne {delim x : α} (hx : x ≠ delim) (limit : Nat)
    (xs : List α) :
    takeLine delim (limit + 1) (x :: xs) =
      (x :: (takeLine delim limit xs).1, (takeLine delim limit xs).2) := by
  simp [takeLine, hx]

/-- The line and the rest are the stream. -/
theorem takeLine_append (delim : α) (limit : Nat) (xs : List α) :
    (takeLine delim limit xs).1 ++ (takeLine delim limit xs).2 = xs := by
  induction limit generalizing xs with
  | zero => simp
  | succ limit ih =>
      cases xs with
      | nil => simp
      | cons x xs =>
          by_cases hx : x = delim
          · subst x
            simp [takeLine_cons_delim]
          · simp [takeLine_cons_of_ne hx, ih xs]

/-- A line is no longer than the limit. -/
theorem length_takeLine_le (delim : α) (limit : Nat) (xs : List α) :
    (takeLine delim limit xs).1.length ≤ limit := by
  induction limit generalizing xs with
  | zero => simp
  | succ limit ih =>
      cases xs with
      | nil => simp
      | cons x xs =>
          by_cases hx : x = delim
          · subst x
            simp [takeLine_cons_delim]
          · simpa [takeLine_cons_of_ne hx] using ih xs

/-- Only a delimiter in the last place is part of a line. -/
theorem delim_not_mem_dropLast_takeLine (delim : α) (limit : Nat) (xs : List α) :
    delim ∉ (takeLine delim limit xs).1.dropLast := by
  induction limit generalizing xs with
  | zero => simp
  | succ limit ih =>
      cases xs with
      | nil => simp
      | cons x xs =>
          by_cases hx : x = delim
          · subst x
            simp [takeLine_cons_delim]
          · rw [takeLine_cons_of_ne hx]
            cases hline : (takeLine delim limit xs).1 with
            | nil => simp
            | cons y ys =>
                have htail := ih xs
                rw [hline] at htail
                simpa [Ne.symm hx] using htail

/-- The reader makes progress on a nonempty stream. -/
theorem takeLine_eq_nil_iff (delim : α) (limit : Nat) (xs : List α) :
    (takeLine delim (limit + 1) xs).1 = [] ↔ xs = [] := by
  cases xs with
  | nil => simp
  | cons x xs =>
      by_cases hx : x = delim
      · subst x
        simp [takeLine_cons_delim]
      · simp [takeLine_cons_of_ne hx]

/-- A line goes on behind symbols that are no delimiters. -/
theorem takeLine_append_of_not_mem {delim : α} {limit : Nat} {body : List α}
    (hbody : delim ∉ body) (hfit : body.length ≤ limit) (ys : List α) :
    takeLine delim limit (body ++ ys) =
      (body ++ (takeLine delim (limit - body.length) ys).1,
        (takeLine delim (limit - body.length) ys).2) := by
  induction body generalizing limit with
  | nil => simp
  | cons x body ih =>
      cases limit with
      | zero => simp at hfit
      | succ limit =>
          have hx : x ≠ delim := fun h => hbody (by simp [h])
          have htail : delim ∉ body := fun h => hbody (by simp [h])
          have hlen : body.length ≤ limit := by simpa using hfit
          simp [takeLine_cons_of_ne hx, ih htail hlen]

/-- A delimited line within the limit is read as a whole. -/
theorem takeLine_line {delim : α} {limit : Nat} {body : List α}
    (hbody : delim ∉ body) (hfit : body.length < limit) (rest : List α) :
    takeLine delim limit (body ++ delim :: rest) = (body ++ [delim], rest) := by
  rcases Nat.exists_eq_add_of_lt hfit with ⟨k, hk⟩
  have hleft : limit - body.length = k + 1 := by omega
  rw [takeLine_append_of_not_mem hbody (Nat.le_of_lt hfit), hleft, takeLine_cons_delim]

/-! ## The whole stream -/

/-- Cut a stream into lines; the fuel bounds the number of lines. -/
def chopWith (delim : α) (limit : Nat) : Nat → List α → List (List α)
  | 0, _ => []
  | fuel + 1, xs =>
      if (takeLine delim limit xs).1 = [] then []
      else (takeLine delim limit xs).1 ::
        chopWith delim limit fuel (takeLine delim limit xs).2

/-- Cut a stream into the lines that repeated reads return. -/
def chop (delim : α) (limit : Nat) (xs : List α) : List (List α) :=
  chopWith delim limit xs.length xs

/-- Any two amounts of fuel that cover the stream cut it alike. -/
theorem chopWith_fuel {delim : α} {limit fuel fuel' : Nat} {xs : List α}
    (hfuel : xs.length ≤ fuel) (hfuel' : xs.length ≤ fuel') :
    chopWith delim limit fuel xs = chopWith delim limit fuel' xs := by
  induction fuel generalizing fuel' xs with
  | zero =>
      have hxs : xs = [] := List.length_eq_zero_iff.mp (Nat.le_zero.mp hfuel)
      subst xs
      cases fuel' <;> simp [chopWith]
  | succ fuel ih =>
      by_cases hline : (takeLine delim limit xs).1 = []
      · cases fuel' <;> simp [chopWith, hline]
      · have happ := congrArg List.length (takeLine_append delim limit xs)
        rw [List.length_append] at happ
        have hpos : 0 < (takeLine delim limit xs).1.length :=
          List.length_pos_iff.mpr hline
        cases fuel' with
        | zero => omega
        | succ fuel' =>
            simp only [chopWith, if_neg hline]
            have hrest := @ih fuel' (takeLine delim limit xs).2 (by omega) (by omega)
            rw [hrest]

/-- The first line of a nonempty stream, followed by the lines of the rest. -/
theorem chop_of_ne_nil {delim : α} {limit : Nat} {xs : List α}
    (hline : (takeLine delim limit xs).1 ≠ []) :
    chop delim limit xs = (takeLine delim limit xs).1 ::
      chop delim limit (takeLine delim limit xs).2 := by
  have happ := congrArg List.length (takeLine_append delim limit xs)
  rw [List.length_append] at happ
  have hpos : 0 < (takeLine delim limit xs).1.length :=
    List.length_pos_iff.mpr hline
  obtain ⟨n, hn⟩ : ∃ n, xs.length = n + 1 := ⟨xs.length - 1, by omega⟩
  conv_lhs => rw [chop, hn]
  simp only [chopWith, if_neg hline]
  rw [chop, chopWith_fuel (by omega) (Nat.le_refl _)]

/-- Every line of a stream is the next line of one of its suffixes. -/
theorem exists_takeLine_of_mem_chop {delim : α} {limit : Nat} {xs line : List α}
    (h : line ∈ chop delim limit xs) : ∃ ys, line = (takeLine delim limit ys).1 := by
  unfold chop at h
  generalize xs.length = fuel at h
  induction fuel generalizing xs with
  | zero => simp [chopWith] at h
  | succ fuel ih =>
      simp only [chopWith] at h
      split at h
      · simp at h
      · rcases List.mem_cons.mp h with hhead | htail
        · exact ⟨xs, hhead⟩
        · exact ih htail

/-! ## Cut streams -/

/-- The reader stopped at the end of the stream, below the limit and without a
delimiter. -/
def Unfinished (delim : α) (limit : Nat) (line : List α) : Prop :=
  line.length < limit ∧ line.getLast? ≠ some delim

instance (delim : α) (limit : Nat) (line : List α) : Decidable (Unfinished delim limit line) :=
  inferInstanceAs (Decidable (_ ∧ _))

omit [DecidableEq α] in
/-- An element that is no delimiter does not finish a line. -/
theorem unfinished_cons {delim x : α} {limit : Nat} {line : List α} (hx : x ≠ delim) :
    Unfinished delim (limit + 1) (x :: line) ↔ Unfinished delim limit line := by
  cases line with
  | nil => simp [Unfinished, hx]
  | cons y line => simp [Unfinished]

/-- An unfinished line is all that was left of the stream. -/
theorem takeLine_of_unfinished {delim : α} {limit : Nat} {xs : List α}
    (h : Unfinished delim limit (takeLine delim limit xs).1) :
    takeLine delim limit xs = (xs, []) := by
  induction limit generalizing xs with
  | zero => simp [Unfinished] at h
  | succ limit ih =>
      cases xs with
      | nil => simp
      | cons x xs =>
          by_cases hx : x = delim
          · subst x
            simp [takeLine_cons_delim, Unfinished] at h
          · rw [takeLine_cons_of_ne hx] at h ⊢
            rw [ih ((unfinished_cons hx).mp h)]

/-- A finished line is read in the same way when the stream goes on. -/
theorem takeLine_append_of_finished {delim : α} {limit : Nat} {xs : List α}
    (h : ¬ Unfinished delim limit (takeLine delim limit xs).1) (ys : List α) :
    takeLine delim limit (xs ++ ys) =
      ((takeLine delim limit xs).1, (takeLine delim limit xs).2 ++ ys) := by
  induction limit generalizing xs with
  | zero => simp
  | succ limit ih =>
      cases xs with
      | nil => simp [Unfinished] at h
      | cons x xs =>
          by_cases hx : x = delim
          · subst x
            simp [takeLine_cons_delim]
          · rw [takeLine_cons_of_ne hx, unfinished_cons hx] at h
            rw [List.cons_append, takeLine_cons_of_ne hx, takeLine_cons_of_ne hx, ih h]

/-- The last line of a stream, if the end of the stream has cut it off. -/
def unfinishedPart (delim : α) (limit : Nat) (xs : List α) : List α :=
  match (chop delim limit xs).getLast? with
  | some line => if Unfinished delim limit line then line else []
  | none => []

/-- An unfinished line is all that is left of a stream. -/
private theorem unfinishedPart_of_unfinished {delim : α} {limit : Nat} {xs : List α}
    (hne : (takeLine delim limit xs).1 ≠ [])
    (h : Unfinished delim limit (takeLine delim limit xs).1) :
    chop delim limit xs = [xs] ∧ unfinishedPart delim limit xs = xs := by
  have hline := takeLine_of_unfinished h
  have hchop : chop delim limit xs = [xs] := by
    rw [chop_of_ne_nil hne, hline]
    rfl
  rw [hline] at h
  exact ⟨hchop, by simp [unfinishedPart, hchop, h]⟩

/-- A finished line leaves the unfinished part to the rest of the stream. -/
private theorem unfinishedPart_of_finished {delim : α} {limit : Nat} {xs : List α}
    (hne : (takeLine delim limit xs).1 ≠ [])
    (h : ¬ Unfinished delim limit (takeLine delim limit xs).1) :
    unfinishedPart delim limit xs = unfinishedPart delim limit (takeLine delim limit xs).2 := by
  rw [unfinishedPart, unfinishedPart, chop_of_ne_nil hne, List.getLast?_cons]
  cases hlast : (chop delim limit (takeLine delim limit xs).2).getLast? with
  | none => simp [h]
  | some line => simp

/-- The unfinished part is short and has no delimiter. -/
theorem unfinishedPart_spec (delim : α) {limit : Nat} (hlimit : 0 < limit) (xs : List α) :
    (unfinishedPart delim limit xs).length < limit ∧
      delim ∉ unfinishedPart delim limit xs := by
  unfold unfinishedPart
  cases hlast : (chop delim limit xs).getLast? with
  | none => simpa using hlimit
  | some line =>
      dsimp only
      split
      · rename_i hline
        refine ⟨hline.1, fun hmem => ?_⟩
        rcases exists_takeLine_of_mem_chop (List.mem_of_getLast? hlast) with ⟨ys, rfl⟩
        have hbody := delim_not_mem_dropLast_takeLine delim limit ys
        have hne : (takeLine delim limit ys).1 ≠ [] := List.ne_nil_of_mem hmem
        rw [← List.dropLast_append_getLast hne, List.mem_append, List.mem_singleton] at hmem
        rcases hmem with hmem | hmem
        · exact hbody hmem
        · exact hline.2 (by rw [List.getLast?_eq_some_getLast hne, ← hmem])
      · simpa using hlimit

/-- A stream is cut into finished lines and its unfinished part; when it goes on,
the finished lines stay, and the unfinished part is read on. -/
theorem chop_append (delim : α) {limit : Nat} (hlimit : 0 < limit) (xs : List α) :
    ∃ full : List (List α),
      chop delim limit xs =
          full ++ (if unfinishedPart delim limit xs = [] then []
            else [unfinishedPart delim limit xs]) ∧
        ∀ ys, chop delim limit (xs ++ ys) =
          full ++ chop delim limit (unfinishedPart delim limit xs ++ ys) := by
  induction hlen : xs.length using Nat.strongRecOn generalizing xs with
  | ind n ih =>
      subst n
      by_cases hne : (takeLine delim limit xs).1 = []
      · have hxs : xs = [] := by
          rcases Nat.exists_eq_add_of_lt hlimit with ⟨k, rfl⟩
          exact (takeLine_eq_nil_iff delim _ xs).mp hne
        subst xs
        exact ⟨[], rfl, fun ys => rfl⟩
      · by_cases hun : Unfinished delim limit (takeLine delim limit xs).1
        · rcases unfinishedPart_of_unfinished hne hun with ⟨hchop, hpart⟩
          have hxs : xs ≠ [] := by
            rintro rfl
            simp at hne
          refine ⟨[], ?_, fun ys => ?_⟩
          · simp [hchop, hpart, hxs]
          · simp [hpart]
        · have happ := congrArg List.length (takeLine_append delim limit xs)
          have hpos : 0 < (takeLine delim limit xs).1.length := List.length_pos_iff.mpr hne
          rw [List.length_append] at happ
          rcases ih _ (by omega) (takeLine delim limit xs).2 rfl with ⟨full, hfull, hmore⟩
          refine ⟨(takeLine delim limit xs).1 :: full, ?_, fun ys => ?_⟩
          · rw [unfinishedPart_of_finished hne hun, chop_of_ne_nil hne, hfull, List.cons_append]
          · have htake := takeLine_append_of_finished hun ys
            rw [unfinishedPart_of_finished hne hun, chop_of_ne_nil (by rwa [htake]), htake,
              hmore, List.cons_append]

/-! ## Lines on their way -/

/-- One delimited line within the limit. -/
def IsLine (delim : α) (limit : Nat) (line : List α) : Prop :=
  ∃ body, line = body ++ [delim] ∧ delim ∉ body ∧ body.length < limit

/-- A line in front of a stream is read as a whole. -/
theorem takeLine_line_append {delim : α} {limit : Nat} {line : List α}
    (hline : IsLine delim limit line) (rest : List α) :
    takeLine delim limit (line ++ rest) = (line, rest) := by
  rcases hline with ⟨body, rfl, hbody, hfit⟩
  rw [List.append_assoc]
  exact takeLine_line hbody hfit rest

/-- Of a sequence of lines a part has arrived.  If the first line of that part is
finished, then it is the first line of the sequence. -/
theorem takeLine_of_carried {delim : α} {limit : Nat} (hlimit : 0 < limit)
    {lines : List (List α)} (hlines : ∀ line ∈ lines, IsLine delim limit line)
    {arrived inFlight : List α} (hcarried : arrived ++ inFlight = lines.flatten)
    (h : ¬ Unfinished delim limit (takeLine delim limit arrived).1) :
    ∃ line rest, lines = line :: rest ∧ (takeLine delim limit arrived).1 = line ∧
      (takeLine delim limit arrived).2 ++ inFlight = rest.flatten := by
  cases lines with
  | nil =>
      have hnil : arrived = [] := by
        have happend : arrived ++ inFlight = [] := hcarried
        exact (List.append_eq_nil_iff.mp happend).1
      rw [hnil, takeLine_nil] at h
      exact absurd ⟨by simpa using hlimit, by simp⟩ h
  | cons line rest =>
      have hfirst := takeLine_line_append (hlines line (by simp)) rest.flatten
      rw [← List.flatten_cons, ← hcarried, takeLine_append_of_finished h,
        Prod.mk.injEq] at hfirst
      exact ⟨line, rest, rfl, hfirst.1, hfirst.2⟩

/-- When all of a sequence of lines has arrived, its first line is finished. -/
theorem finished_of_carried {delim : α} {limit : Nat} {lines : List (List α)}
    (hlines : ∀ line ∈ lines, IsLine delim limit line) {arrived : List α}
    (hcarried : arrived = lines.flatten) (hne : arrived ≠ []) :
    ¬ Unfinished delim limit (takeLine delim limit arrived).1 := by
  cases lines with
  | nil => exact absurd hcarried hne
  | cons line rest =>
      have hline := hlines line (by simp)
      rw [hcarried, List.flatten_cons, takeLine_line_append hline]
      rcases hline with ⟨body, rfl, -, -⟩
      simp [Unfinished]

end LineFraming
