import ChatServer.Bytes

/-!
# Messages

The tag table, the {lit}`Message` type with its payload splitter, and the
string helpers of the client utilities.  The helpers are written with the
{lit}`std::string` searches the source uses; theorems then identify them with
the list operations that the proofs work with.

Main results:

- Theorems {lit}`ltrim_eq_dropWhile` and {lit}`rtrim_eq_rdropWhile`: trimming
  removes exactly the leading, respectively the trailing, whitespace.
- Theorem {lit}`splitFields_eq_splitOn`: the find, substr, erase loop of the
  splitter cuts the payload at every colon.
- Theorem {lit}`Message.length_splitPayload_eq_three_iff`: the splitter returns
  three fields exactly when every check passes and there are two colons.
- Theorem {lit}`Message.splitPayload_spec`: the splitter inverts joining by
  colons, and its errors are the single-element lists.

Current gaps:

- The {lit}`size` member and the getters are left out: nothing reads the former
  and the latter are field accesses.
-/

namespace ChatServer

/-! ## Tag table -/

/-- {lit}`TAG_ERR`. -/
def tagErr : Bytes := str "err"

/-- {lit}`TAG_OK`. -/
def tagOk : Bytes := str "ok"

/-- {lit}`TAG_SLOGIN`. -/
def tagSlogin : Bytes := str "slogin"

/-- {lit}`TAG_RLOGIN`. -/
def tagRlogin : Bytes := str "rlogin"

/-- {lit}`TAG_JOIN`. -/
def tagJoin : Bytes := str "join"

/-- {lit}`TAG_LEAVE`. -/
def tagLeave : Bytes := str "leave"

/-- {lit}`TAG_SENDALL`. -/
def tagSendall : Bytes := str "sendall"

/-- {lit}`TAG_SENDUSER`. -/
def tagSenduser : Bytes := str "senduser"

/-- {lit}`TAG_QUIT`. -/
def tagQuit : Bytes := str "quit"

/-- {lit}`TAG_DELIVERY`. -/
def tagDelivery : Bytes := str "delivery"

/-- {lit}`TAG_EMPTY`. -/
def tagEmpty : Bytes := str "empty"

/-- The tags {lit}`split_payload` compares with, in its order. -/
def tagTable : List Bytes :=
  [tagErr, tagOk, tagSlogin, tagRlogin, tagJoin, tagLeave, tagSendall, tagSenduser,
    tagQuit, tagDelivery, tagEmpty]

/-! ## Client utilities -/

/-- {lit}`WHITESPACE`, the string {lit}`" \n\r\t\f\v"`. -/
def whitespace : Bytes := [32, 10, 13, 9, 12, 11]

/-- The byte is one of the whitespace characters of {lit}`client_util.cpp`. -/
def isSpace (c : Byte) : Bool :=
  whitespace.contains c

/-- Drop everything before the first byte that is not whitespace. -/
def ltrim (s : Bytes) : Bytes :=
  match findFirstNotOf s whitespace with
  | none => []
  | some start => substrFrom s start

/-- Drop everything after the last byte that is not whitespace. -/
def rtrim (s : Bytes) : Bytes :=
  match findLastNotOf s whitespace with
  | none => []
  | some last => substr s 0 (last + 1)

/-- Drop the whitespace on both sides. -/
def trim (s : Bytes) : Bytes :=
  rtrim (ltrim s)

/-- {lit}`isLowerCased`: every byte is one of the letters a to z. -/
def isLowerCased (s : Bytes) : Bool :=
  s.all fun c => 97 ≤ c && c ≤ 122

/-- Trimming on the left drops the leading whitespace. -/
theorem ltrim_eq_dropWhile (s : Bytes) : ltrim s = s.dropWhile isSpace := by
  have hfun : (fun c => !whitespace.contains c) = fun c => !isSpace c := rfl
  unfold ltrim findFirstNotOf substrFrom
  rw [hfun]
  induction s with
  | nil => rfl
  | cons c s ih =>
      by_cases hc : isSpace c = true
      · rw [List.dropWhile_cons_of_pos hc, ← ih]
        cases hidx : s.findIdx? fun c => !isSpace c <;>
          simp [List.findIdx?_cons, hc, hidx]
      · rw [List.dropWhile_cons_of_neg hc]
        simp [List.findIdx?_cons, hc]

/-- Trimming on the right drops the trailing whitespace. -/
theorem rtrim_eq_rdropWhile (s : Bytes) : rtrim s = s.rdropWhile isSpace := by
  have hrev := ltrim_eq_dropWhile s.reverse
  unfold ltrim findFirstNotOf substrFrom at hrev
  unfold rtrim findLastNotOf substr List.rdropWhile
  rw [← hrev]
  cases hidx : s.reverse.findIdx? fun c => !whitespace.contains c with
  | none => rfl
  | some i =>
      have hi : i < s.length := by
        rcases List.findIdx?_eq_some_iff_findIdx_eq.mp hidx with ⟨hlt, -⟩
        simpa using hlt
      have hlen : s.length - 1 - i + 1 = s.length - i := by omega
      simp [hlen, List.drop_reverse]

/-! ## Facts about trimming -/

/-- A newline is whitespace. -/
theorem isSpace_newline : isSpace newline = true := by decide

/-- A colon is visible. -/
theorem not_isSpace_colon : isSpace colon = false := by decide

/-- A newline at the end is trimmed. -/
theorem rtrim_append_newline (s : Bytes) : rtrim (s ++ [newline]) = rtrim s := by
  rw [rtrim_eq_rdropWhile, rtrim_eq_rdropWhile]
  exact List.rdropWhile_concat_pos _ _ _ isSpace_newline

/-- Trimming the tail of a concatenation leaves the head alone as soon as the
tail has a visible byte. -/
theorem rtrim_append_cons_of_not_isSpace (pre : Bytes) {c : Byte}
    (hc : isSpace c = false) (post : Bytes) :
    rtrim (pre ++ c :: post) = pre ++ c :: rtrim post := by
  rw [rtrim_eq_rdropWhile, rtrim_eq_rdropWhile]
  induction post using List.reverseRecOn with
  | nil =>
      rw [List.rdropWhile_concat_neg _ _ _ (by simp [hc])]
      simp
  | append_singleton post d ih =>
      by_cases hd : isSpace d = true
      · have hassoc : pre ++ c :: (post ++ [d]) = (pre ++ c :: post) ++ [d] := by simp
        rw [hassoc, List.rdropWhile_concat_pos _ _ _ hd, ih,
          List.rdropWhile_concat_pos _ _ _ hd]
      · have hassoc : pre ++ c :: (post ++ [d]) = (pre ++ c :: post) ++ [d] := by simp
        rw [hassoc, List.rdropWhile_concat_neg _ _ _ hd,
          List.rdropWhile_concat_neg _ _ _ hd]
        simp

/-- Whitespace at the end of a concatenation is trimmed away. -/
theorem rtrim_append_of_isSpace (pre : Bytes) {post : Bytes}
    (hpost : ∀ c ∈ post, isSpace c = true) : rtrim (pre ++ post) = rtrim pre := by
  induction post using List.reverseRecOn with
  | nil => rw [List.append_nil]
  | append_singleton post c ih =>
      rw [← List.append_assoc, rtrim_eq_rdropWhile,
        List.rdropWhile_concat_pos _ _ _ (hpost c (by simp)), ← rtrim_eq_rdropWhile]
      exact ih fun d hd => hpost d (by simp [hd])

/-- A visible byte in the second part keeps all of the first part. -/
theorem rtrim_append_of_visible (pre : Bytes) {post : Bytes} {c : Byte} (hmem : c ∈ post)
    (hc : isSpace c = false) : ∃ last, last ≠ [] ∧ rtrim (pre ++ post) = pre ++ last := by
  rcases List.append_of_mem hmem with ⟨front, back, rfl⟩
  refine ⟨front ++ c :: rtrim back, by simp, ?_⟩
  rw [← List.append_assoc, rtrim_append_cons_of_not_isSpace _ hc, List.append_assoc]

/-- A newline that is not the last byte of a string stays out of the way of
trimming, and a last one is trimmed away. -/
theorem newline_not_mem_rtrim {s : Bytes} (hs : newline ∉ s.dropLast) :
    newline ∉ rtrim s := by
  rw [rtrim_eq_rdropWhile]
  cases s using List.reverseRecOn with
  | nil => simp
  | append_singleton s c =>
      rw [List.dropLast_concat] at hs
      by_cases hc : isSpace c = true
      · rw [List.rdropWhile_concat_pos _ _ _ hc]
        exact fun h => hs ((List.rdropWhile_prefix _ _).subset h)
      · rw [List.rdropWhile_concat_neg _ _ _ hc]
        have hne : newline ≠ c := by
          rintro rfl
          exact hc isSpace_newline
        simp [hs, hne]

/-- A line without inner newlines has none after trimming. -/
theorem newline_not_mem_trim {s : Bytes} (hs : newline ∉ s.dropLast) :
    newline ∉ trim s := by
  apply newline_not_mem_rtrim
  rw [ltrim_eq_dropWhile]
  exact fun h => hs ((sublist_dropLast (List.dropWhile_sublist _)).subset h)

/-- Trimming on the right leaves a prefix. -/
theorem rtrim_prefix_self (s : Bytes) : rtrim s <+: s := by
  rw [rtrim_eq_rdropWhile]
  exact List.rdropWhile_prefix _ _

/-- Trimming on the right a second time changes nothing. -/
theorem rtrim_rtrim (s : Bytes) : rtrim (rtrim s) = rtrim s := by
  rw [rtrim_eq_rdropWhile, rtrim_eq_rdropWhile]
  exact List.rdropWhile_idempotent _ _

/-- Trimming only drops bytes. -/
theorem trim_sublist (s : Bytes) : (trim s).Sublist s := by
  unfold trim
  rw [ltrim_eq_dropWhile]
  exact (rtrim_prefix_self _).sublist.trans (List.dropWhile_sublist _)

/-- Behind a visible byte nothing is trimmed on the left. -/
theorem ltrim_append_of_visible {s : Bytes} {c : Byte} (hmem : c ∈ s)
    (hc : isSpace c = false) (t : Bytes) : ltrim (s ++ t) = ltrim s ++ t := by
  rw [ltrim_eq_dropWhile, ltrim_eq_dropWhile, List.dropWhile_append, if_neg]
  intro hempty
  rw [List.isEmpty_iff, List.dropWhile_eq_nil_iff] at hempty
  rw [hempty c hmem] at hc
  cases hc

/-- A string starting with a visible byte is only trimmed at its end. -/
theorem trim_of_head_not_isSpace {c : Byte} (hc : isSpace c = false) (s : Bytes) :
    trim (c :: s) = rtrim (c :: s) := by
  unfold trim
  rw [ltrim_eq_dropWhile, List.dropWhile_cons_of_neg (by simp [hc])]

/-- Lower-case letters are not whitespace. -/
theorem not_isSpace_of_lower {c : Byte} (hc : 97 ≤ c) : isSpace c = false := by
  have hne : ∀ w ∈ whitespace, c ≠ w := by
    rintro w hw rfl
    have hall : ∀ w ∈ whitespace, w < 97 := by decide +kernel
    exact absurd (hall c hw) (UInt8.not_lt.mpr hc)
  simpa [isSpace] using fun h => hne c h rfl

/-- The test in terms of the single bytes. -/
theorem isLowerCased_iff {s : Bytes} :
    isLowerCased s = true ↔ ∀ c ∈ s, 97 ≤ c ∧ c ≤ 122 := by
  simp [isLowerCased]

/-- Bytes in front of the letter a are not in a lower-case string. -/
theorem not_mem_of_isLowerCased {s : Bytes} (hs : isLowerCased s = true) {c : Byte}
    (hc : c < 97) : c ∉ s := by
  intro hmem
  exact absurd hc (UInt8.not_lt.mpr (isLowerCased_iff.mp hs c hmem).1)

/-- Trimming a text with a lower-case tag only touches the end of its payload. -/
theorem trim_tag_colon {tag : Bytes} (hlower : isLowerCased tag = true) (data : Bytes) :
    trim (tag ++ colon :: data) = tag ++ colon :: rtrim data := by
  rw [← rtrim_append_cons_of_not_isSpace tag not_isSpace_colon]
  cases htag : tag with
  | nil => exact trim_of_head_not_isSpace not_isSpace_colon _
  | cons c tag =>
      have hc : 97 ≤ c := (isLowerCased_iff.mp (htag ▸ hlower) c (by simp)).1
      exact trim_of_head_not_isSpace (not_isSpace_of_lower hc) _

/-! ## Messages and their payloads -/

/-- {lit}`Message`: a tag and the data of the message. -/
structure Message where
  tag : Bytes := []
  data : Bytes := []
deriving DecidableEq

/-- {lit}`Message::MAX_LEN`, the length limit of an encoded message including
its newline. -/
def maxLen : Nat := 255

/-- The encoding {lit}`tag:data` with its trailing newline. -/
def Message.encoding (msg : Message) : Bytes :=
  msg.tag ++ [colon] ++ msg.data ++ [newline]

/-- The loop of {lit}`split_payload` over the shrinking copy of the data: cut at
the first colon, erase up to it, repeat; the fuel bounds the iterations. -/
def splitFields : Nat → Bytes → List Bytes
  | 0, copy => [copy]
  | fuel + 1, copy =>
      match find copy colon with
      | none => [copy]
      | some pos => substr copy 0 pos :: splitFields fuel (copy.drop (pos + 1))

/-- {lit}`Message::split_payload`; a failed check returns its text as the only
element. -/
def Message.splitPayload (msg : Message) : List Bytes :=
  if msg.tag.length + msg.data.length > 255 then
    [str "ERROR The given message was longer than 255 bytes"]
  else if (find (trim msg.data) newline).isSome then
    [str "ERROR: newline character was found in data"]
  else if (find msg.data colon).isNone then
    [str "ERROR no colon separator"]
  else if msg.tag ∉ tagTable then
    [str "ERROR The given tag was not apart of the tag table"]
  else if msg.tag = tagDelivery ∧ msg.data.count colon ≠ 2 then
    [str "ERROR The given message payload was not structured correctly"]
  else
    splitFields msg.data.length msg.data

/-- An encoding has two bytes more than tag and data: the colon and the newline. -/
theorem Message.length_encoding (msg : Message) :
    msg.encoding.length = msg.tag.length + msg.data.length + 2 := by
  simp only [Message.encoding, List.length_append, List.length_singleton]
  omega

/-- With one unit of fuel for every byte the loop is the split at every colon. -/
theorem splitFields_eq_splitOn {fuel : Nat} {copy : Bytes} (hfuel : copy.length ≤ fuel) :
    splitFields fuel copy = copy.splitOn colon := by
  induction fuel generalizing copy with
  | zero =>
      have hcopy : copy = [] := List.length_eq_zero_iff.mp (Nat.le_zero.mp hfuel)
      subst copy
      rfl
  | succ fuel ih =>
      simp only [splitFields]
      cases hpos : find copy colon with
      | none =>
          have hnot := find_eq_none_iff.mp hpos
          exact (List.splitOn_eq_singleton hnot).symm
      | some pos =>
          rcases eq_append_of_find hpos with ⟨hsplit, hnot⟩
          have hlen : (copy.drop (pos + 1)).length ≤ fuel := by
            rw [List.length_drop]
            omega
          simp only [substr, List.drop_zero]
          rw [ih hlen]
          conv_rhs => rw [hsplit]
          exact (List.splitOn_append_cons_self_of_not_mem hnot _).symm

/-! ## What the splitter accepts -/

/-- All checks of {lit}`split_payload` pass. -/
structure Message.Accepted (msg : Message) : Prop where
  short : msg.tag.length + msg.data.length ≤ 255
  one_line : newline ∉ trim msg.data
  separator : colon ∈ msg.data
  in_table : msg.tag ∈ tagTable
  two_colons : msg.tag = tagDelivery → msg.data.count colon = 2

/-- There is one field more than there are colons. -/
theorem length_splitOn_colon (s : Bytes) :
    (s.splitOn colon).length = s.count colon + 1 := by
  induction s with
  | nil => rfl
  | cons c s ih =>
      rw [List.splitOn_cons_eq_if_modifyHead]
      by_cases hc : c = colon
      · simp [hc, ih]
      · simp [hc, ih]

/-- An accepted message is split at every colon of its data. -/
theorem Message.splitPayload_of_accepted {msg : Message} (h : msg.Accepted) :
    msg.splitPayload = msg.data.splitOn colon := by
  have hshort : ¬ msg.tag.length + msg.data.length > 255 := Nat.not_lt.mpr h.short
  have hline : find (trim msg.data) newline = none := find_eq_none_iff.mpr h.one_line
  have hsep : find msg.data colon ≠ none := fun hnone =>
    find_eq_none_iff.mp hnone h.separator
  have hcolons : ¬ (msg.tag = tagDelivery ∧ msg.data.count colon ≠ 2) := fun hbad =>
    hbad.2 (h.two_colons hbad.1)
  simp [splitPayload, hshort, hline, hsep, h.in_table, hcolons,
    splitFields_eq_splitOn (Nat.le_refl _)]

/-- A message that fails a check yields a single element. -/
theorem Message.length_splitPayload_of_not_accepted {msg : Message}
    (h : ¬ msg.Accepted) : msg.splitPayload.length = 1 := by
  unfold splitPayload
  split_ifs with hshort hline hsep htable hcolons
  · rfl
  · rfl
  · rfl
  · rfl
  · refine absurd ?_ h
    constructor
    · exact Nat.not_lt.mp hshort
    · simpa [find_eq_none_iff] using hline
    · by_contra hnot
      exact hsep (by simp [find_eq_none_iff.mpr hnot])
    · exact htable
    · intro htag
      by_contra hcount
      exact hcolons ⟨htag, hcount⟩
  · rfl

/-- Three fields come back exactly when every check passes and the data has two
colons. -/
theorem Message.length_splitPayload_eq_three_iff (msg : Message) :
    msg.splitPayload.length = 3 ↔ msg.Accepted ∧ msg.data.count colon = 2 := by
  by_cases h : msg.Accepted
  · rw [splitPayload_of_accepted h, length_splitOn_colon]
    simp [h]
  · rw [length_splitPayload_of_not_accepted h]
    simp [h]

/-! ## The splitter inverts joining -/

/-- No piece of a split string contains the colon it was split at. -/
theorem colon_not_mem_of_mem_splitOn {s piece : Bytes} (h : piece ∈ s.splitOn colon) :
    colon ∉ piece := by
  induction s generalizing piece with
  | nil =>
      have hpiece : piece = [] := by simpa using h
      simp [hpiece]
  | cons c s ih =>
      rw [List.splitOn_cons_eq_if_modifyHead] at h
      rcases List.exists_cons_of_ne_nil (List.splitOn_ne_nil colon s) with ⟨first, rest, hs⟩
      have hfirst : colon ∉ first := ih (by simp [hs])
      have hrest : ∀ p ∈ rest, colon ∉ p := fun p hp => ih (by simp [hs, hp])
      by_cases hc : c = colon
      · simp only [hc, beq_self_eq_true, if_true, hs, List.mem_cons] at h
        rcases h with rfl | rfl | hmem
        · simp
        · exact hfirst
        · exact hrest piece hmem
      · simp only [beq_iff_eq, hc, if_false, hs, List.modifyHead_cons, List.mem_cons] at h
        rcases h with rfl | hmem
        · simp [hfirst, Ne.symm hc]
        · exact hrest piece hmem

/-- The fields of an accepted message: one more than there are colons in its data,
none of them with a colon, and joined by colons they are the data. -/
theorem Message.fields_of_accepted {msg : Message} (h : msg.Accepted) :
    msg.splitPayload.length = msg.data.count colon + 1 ∧ 2 ≤ msg.splitPayload.length ∧
      (∀ field ∈ msg.splitPayload, colon ∉ field) ∧
      [colon].intercalate msg.splitPayload = msg.data := by
  have hpos : 0 < msg.data.count colon := List.count_pos_iff.mpr h.separator
  rw [splitPayload_of_accepted h, length_splitOn_colon]
  refine ⟨rfl, by omega, ?_, List.intercalate_splitOn colon⟩
  exact fun field hfield => colon_not_mem_of_mem_splitOn hfield

/-- The splitter returns a single element exactly when a check fails, and
otherwise the fields that joined by colons are the data; a delivery is split into
three fields exactly when no check fails. -/
theorem Message.splitPayload_spec (msg : Message) :
    (msg.splitPayload.length = 1 ↔ ¬ msg.Accepted) ∧
      (msg.Accepted →
        msg.splitPayload.length = msg.data.count colon + 1 ∧ 2 ≤ msg.splitPayload.length ∧
          (∀ field ∈ msg.splitPayload, colon ∉ field) ∧
          [colon].intercalate msg.splitPayload = msg.data) ∧
      (msg.tag = tagDelivery → (msg.splitPayload.length = 3 ↔ msg.Accepted)) := by
  refine ⟨⟨fun hone hacc => ?_, length_splitPayload_of_not_accepted⟩, fields_of_accepted, ?_⟩
  · have htwo := (fields_of_accepted hacc).2.1
    omega
  · intro htag
    rw [length_splitPayload_eq_three_iff]
    exact ⟨And.left, fun hacc => ⟨hacc, hacc.two_colons htag⟩⟩

end ChatServer
