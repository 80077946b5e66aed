import Mathlib.Data.List.Basic
import Mathlib.Data.List.DropRight
import Mathlib.Tactic.Common

/-!
# Byte strings

The program handles {lit}`std::string` values and C strings whose elements are
bytes.  A byte string is a list of 8-bit values; this module gives the string
operations the program calls, under their C++ names, and the facts about them
that the rest of the development uses.

Main results:

- Theorem {lit}`find_eq_none_iff` and theorem {lit}`find_append_cons`: a search
  fails exactly when the byte does not occur, and finds its first occurrence.
- Theorem {lit}`cStr_eq_self_iff`: a C string is the whole string exactly when
  there is no NUL in it.

Current gaps:

- {lit}`substr` is total, for the callers that never pass a position beyond the end
  of the string; the others use {lit}`substr?`.
-/

namespace ChatServer

/-- A {lit}`char`. -/
abbrev Byte := UInt8

/-- Contents of a {lit}`std::string` or of a character buffer. -/
abbrev Bytes := List Byte

/-- The bytes of an ASCII text. -/
def str (text : String) : Bytes :=
  text.toList.map fun c => c.toNat.toUInt8

/-- The byte that ends a C string. -/
def nul : Byte := 0

/-- The byte that ends a line. -/
def newline : Byte := 10

/-- The byte between the tag and the data of a message. -/
def colon : Byte := 58

/-! ## Standard string operations -/

/-- {lit}`s.find(c)`; {lit}`none` stands for {lit}`std::string::npos`. -/
def find (s : Bytes) (c : Byte) : Option Nat :=
  s.findIdx? (· == c)

/-- {lit}`s.find_first_not_of(set)`. -/
def findFirstNotOf (s set : Bytes) : Option Nat :=
  s.findIdx? fun c => !set.contains c

/-- {lit}`s.find_last_not_of(set)`. -/
def findLastNotOf (s set : Bytes) : Option Nat :=
  (s.reverse.findIdx? fun c => !set.contains c).map fun i => s.length - 1 - i

/-- {lit}`s.substr(pos, n)` for a position inside the string. -/
def substr (s : Bytes) (pos n : Nat) : Bytes :=
  (s.drop pos).take n

/-- {lit}`s.substr(pos)` for a position inside the string. -/
def substrFrom (s : Bytes) (pos : Nat) : Bytes :=
  s.drop pos

/-- {lit}`s.substr(pos, n)`; {lit}`none` stands for {lit}`std::out_of_range`. -/
def substr? (s : Bytes) (pos n : Nat) : Option Bytes :=
  if pos ≤ s.length then some (substr s pos n) else none

/-- {lit}`s.substr(pos)`; {lit}`none` stands for {lit}`std::out_of_range`. -/
def substrFrom? (s : Bytes) (pos : Nat) : Option Bytes :=
  if pos ≤ s.length then some (substrFrom s pos) else none

/-- What a function reading {lit}`s.c_str()`, or a NUL-terminated buffer, sees. -/
def cStr (s : Bytes) : Bytes :=
  s.takeWhile fun c => c != nul

/-- {lit}`strlen(s.c_str())`. -/
def strlen (s : Bytes) : Nat :=
  (cStr s).length

/-! ## Searching for a byte -/

/-- A search fails exactly if the byte does not occur. -/
theorem find_eq_none_iff {s : Bytes} {c : Byte} :
    find s c = none ↔ c ∉ s := by
  simp only [find, List.findIdx?_eq_none_iff, beq_eq_false_iff_ne]
  constructor
  · intro h hc
    exact h c hc rfl
  · rintro h x hx rfl
    exact h hx

/-- The search stops at the first occurrence. -/
theorem find_append_cons {pre : Bytes} {c : Byte} (hpre : c ∉ pre) (post : Bytes) :
    find (pre ++ c :: post) c = some pre.length := by
  have hnone : find pre c = none := find_eq_none_iff.mpr hpre
  unfold find at hnone ⊢
  simp [List.findIdx?_append, hnone, List.findIdx?_cons]

/-- A successful search splits the string at the first occurrence. -/
theorem eq_append_of_find {s : Bytes} {c : Byte} {i : Nat} (h : find s c = some i) :
    s = s.take i ++ c :: s.drop (i + 1) ∧ c ∉ s.take i := by
  have hmem : c ∈ s := by
    by_contra hc
    rw [find_eq_none_iff.mpr hc] at h
    cases h
  rcases List.eq_append_cons_of_mem hmem with ⟨pre, post, rfl, hpre⟩
  rw [find_append_cons hpre] at h
  cases h
  simp [hpre]

/-- Dropping the last byte preserves being a subsequence. -/
theorem sublist_dropLast {s t : Bytes} (h : s.Sublist t) :
    s.dropLast.Sublist t.dropLast := by
  have htail := h.reverse.tail
  rw [List.tail_reverse, List.tail_reverse] at htail
  exact List.reverse_sublist.mp htail

/-! ## C strings -/

/-- There is no NUL in a C string. -/
theorem nul_not_mem_cStr (s : Bytes) : nul ∉ cStr s := by
  intro h
  have := List.mem_takeWhile_imp h
  simp at this

/-- A C string is the whole string exactly if there is no NUL in it. -/
theorem cStr_eq_self_iff {s : Bytes} : cStr s = s ↔ nul ∉ s := by
  constructor
  · intro h
    rw [← h]
    exact nul_not_mem_cStr s
  · intro h
    refine List.takeWhile_eq_self_iff.mpr fun c hc => ?_
    have hne : c ≠ nul := by
      rintro rfl
      exact h hc
    simpa using hne

/-- A NUL hides what follows it. -/
theorem cStr_append_of_mem {s : Bytes} (h : nul ∈ s) (t : Bytes) : cStr (s ++ t) = cStr s := by
  rcases List.eq_append_cons_of_mem h with ⟨pre, post, rfl, hpre⟩
  have hself := cStr_eq_self_iff.mpr hpre
  have hstop : ∀ u, cStr (pre ++ nul :: u) = pre := by
    intro u
    rw [cStr, List.takeWhile_append_of_pos, List.takeWhile_cons_of_neg, List.append_nil]
    · simp
    · exact List.takeWhile_eq_self_iff.mp hself
  rw [List.append_assoc, List.cons_append, hstop, hstop]

/-- A C string goes on behind a part without NUL. -/
theorem cStr_append_of_not_mem {s : Bytes} (h : nul ∉ s) (t : Bytes) :
    cStr (s ++ t) = s ++ cStr t :=
  List.takeWhile_append_of_pos (List.takeWhile_eq_self_iff.mp (cStr_eq_self_iff.mpr h))

/-- A C string is a prefix of the string. -/
theorem cStr_prefix_self (s : Bytes) : cStr s <+: s :=
  List.takeWhile_prefix _

/-- The length of a C string is at most that of the string. -/
theorem strlen_le_length (s : Bytes) : strlen s ≤ s.length :=
  (cStr_prefix_self s).length_le

/-- The first {lit}`strlen` bytes are the C string. -/
theorem take_strlen (s : Bytes) : s.take (strlen s) = cStr s :=
  (List.prefix_iff_eq_take.mp (cStr_prefix_self s)).symm

end ChatServer
