import InkServer.Proofs.Text.Numeral
import InkServer.Proofs.Text.Pieces
import InkServer.Proofs.Text.Utf8
import InkServer.Rpc.Frame

/-!
This module contains the law of framing: from the first bytes of a stream of frames the
messages whose frames are complete are read, and then the end or an error.
-/

namespace InkServer

open Text

def lengthName : List Char :=
  "Content-Length".toList

def lengthLine (n : Nat) : List Char :=
  lengthName ++ ':' :: ' ' :: Nat.toDigits 10 n ++ ['\r']

theorem HeaderLine.ofBytes_lengthLine {n : Nat} (h : n < bound64) :
    HeaderLine.ofBytes (encode (lengthLine n)) = .length n := by
  have hdigit : ∀ c ∈ Nat.toDigits 10 n, isBlank c = false := by
    intro c hc
    apply not_isBlank_of_isAsciiDigit
    apply isAsciiDigit_of_mem_toDigits hc
  have htrim : trim (lengthLine n) = lengthName ++ ':' :: ' ' :: Nat.toDigits 10 n := by
    have hstart : trimStart (lengthLine n) = lengthLine n := by
      rw [lengthLine]
      apply trimStart_cons_of_not (by decide)
    have hend := trimEnd_append_of_forall_not hdigit Nat.toDigits_ne_nil (lengthName ++ [':', ' '])
    simp only [List.append_assoc, List.cons_append, List.nil_append] at hend
    rw [trim, hstart, lengthLine, trimEnd_append (by decide), hend]
  have hsplit : splitFirst? ':' (lengthName ++ ':' :: ' ' :: Nat.toDigits 10 n)
      = some (lengthName, ' ' :: Nat.toDigits 10 n) := by
    apply splitFirst?_append_cons
    decide
  have hname : (trim lengthName).map lowerLetter = "content-length".toList := by
    decide
  have hvalue : trim (' ' :: Nat.toDigits 10 n) = Nat.toDigits 10 n := by
    have hstart : trimStart (' ' :: Nat.toDigits 10 n) = Nat.toDigits 10 n := by
      rw [← List.singleton_append, trimStart_append (by decide), trimStart_of_forall_not hdigit]
    have hend := trimEnd_append_of_forall_not hdigit Nat.toDigits_ne_nil []
    rw [trim, hstart]
    exact hend
  have hne : lengthName ++ ':' :: ' ' :: Nat.toDigits 10 n ≠ [] := by
    simp
  rw [HeaderLine.ofBytes, decode?_encode]
  simp only [htrim, if_neg hne, hsplit, if_pos hname, hvalue, readUnsigned?_toDigits h]

theorem HeaderLine.ofBytes_ne_blank (bytes : Bytes) : HeaderLine.ofBytes (67 :: bytes) ≠ .blank := by
  rw [HeaderLine.ofBytes, decode?_cons (by decide)]
  cases decode? bytes with
  | none => simp
  | some cs =>
    simp only [Option.map_some, if_neg (trim_ne_nil (c := Char.ofNat (UInt8.toNat 67)) (by decide) cs)]
    split
    . simp
    . split
      . split
        . simp
        . simp
      . simp

theorem lineFeed_not_mem_lengthLine (n : Nat) : 10 ∉ encode (lengthLine n) := by
  apply not_mem_encode (by decide)
  simp only [lengthLine, List.mem_append, List.mem_cons, List.not_mem_nil, not_or, or_false]
  refine ⟨⟨by decide, by decide, by decide, ?_⟩, by decide⟩
  intro hmem
  exact absurd (isAsciiDigit_of_mem_toDigits hmem) (by decide)

theorem writeFrame_eq (m : Json) :
    writeFrame m
      =
    encode (lengthLine (encode m.text).length) ++ 10 :: 13 :: 10 :: encode m.text := by
  have hname : "Content-Length: ".toList = lengthName ++ [':', ' '] := by decide
  have hend : "\r\n\r\n".toList = ['\r'] ++ ['\n', '\r', '\n'] := by decide
  have hheader : ("Content-Length: " ++ numeral (encode m.text).length ++ "\r\n\r\n").toList
      = lengthLine (encode m.text).length ++ ['\n', '\r', '\n'] := by
    rw [String.toList_append, String.toList_append, hname, hend, lengthLine, numeral,
      String.toList_ofList]
    simp only [List.append_assoc, List.cons_append, List.nil_append]
  have hbreak : encode ['\n', '\r', '\n'] = [10, 13, 10] := by decide
  rw [writeFrame, bytesOf, hheader, encode_append, hbreak, List.append_assoc]
  rfl

section

variable {closed first : Bool} {fuel : Nat} {length : Option Nat} {line rest bytes : Bytes}

theorem readHeader_line (hline : 10 ∉ line) :
    readHeader closed (fuel + 1) first length (line ++ 10 :: rest)
      =
    match HeaderLine.ofBytes line with
    | .blank => .done length rest
    | .length n => readHeader closed fuel false (some n) rest
    | .other => readHeader closed fuel false length rest
    | .error e => .error e := by
  rewrite [readHeader, if_neg (by simp)]
  dsimp only
  rewrite [splitFirst?_append_cons hline]
  rfl

theorem readHeader_open (hbytes : 10 ∉ bytes) (hne : bytes ≠ []) :
    readHeader true (fuel + 1) first length bytes
      =
    match HeaderLine.ofBytes bytes with
    | .blank => .done length []
    | .length n => readHeader true fuel false (some n) []
    | .other => readHeader true fuel false length []
    | .error e => .error e := by
  rewrite [readHeader, if_neg hne]
  dsimp only
  rewrite [splitFirst?_eq_none hbytes]
  rfl

theorem readHeader_nil : readHeader true (fuel + 1) false length [] = .error .endInHeader := by
  rfl

end

section

variable {n : Nat} {rest : Bytes}

theorem readHeader_lengthLine (hn : n < bound64) (fuel : Nat) (rest : Bytes) :
    readHeader true (fuel + 1) true none (encode (lengthLine n) ++ 10 :: rest)
      =
    readHeader true fuel false (some n) rest := by
  simp only [readHeader_line (lineFeed_not_mem_lengthLine n), HeaderLine.ofBytes_lengthLine hn]

theorem HeaderLine.ofBytes_carriageReturn : HeaderLine.ofBytes [13] = .blank := by
  with_unfolding_all rfl

theorem readFrame_lengthLine (hn : n ≤ maxBodyLength) (rest : Bytes) :
    readFrame true (encode (lengthLine n) ++ 10 :: 13 :: 10 :: rest)
      =
    if rest.length < n then
      .error .endInBody
    else
      match bodyOf? (rest.take n) with
      | some body => .frame body (rest.drop n)
      | none => .error .bodyNotJson := by
  have hbound : n < bound64 := Nat.lt_of_le_of_lt hn (by decide)
  have hblank (fuel : Nat) : readHeader true (fuel + 1) false (some n) ([13] ++ 10 :: rest)
      = .done (some n) rest := by
    rw [readHeader_line (by decide), HeaderLine.ofBytes_carriageReturn]
  have hheader : readHeader true ((encode (lengthLine n) ++ 10 :: 13 :: 10 :: rest).length + 1) true
      none (encode (lengthLine n) ++ 10 :: 13 :: 10 :: rest) = .done (some n) rest := by
    rw [readHeader_lengthLine hbound, List.length_append]
    apply hblank
  rewrite [readFrame, hheader]
  dsimp only
  rewrite [if_neg (Nat.not_lt.mpr hn)]
  rfl

end

/-- The message is read back from its body, and its body is not too long. -/
structure Framable (m : Json) : Prop where
  body_eq : Json.ofChars? bodyDepth m.text = some m
  length_le : (encode m.text).length ≤ maxBodyLength

section

variable {m : Json} {messages : List Json} {k : Nat}

theorem Framable.body_ne_nil (h : Framable m) : encode m.text ≠ [] := by
  intro hnil
  have htext : m.text = [] := by
    have hdecode := decode?_encode m.text
    rw [hnil] at hdecode
    simpa [decode?, decodeUnits] using hdecode.symm
  have hbody := h.body_eq
  rw [htext] at hbody
  have hnone : Json.ofChars? bodyDepth [] = none := by decide +kernel
  simp [hnone] at hbody

theorem readFrame_writeFrame (h : Framable m) (rest : Bytes) :
    readFrame true (writeFrame m ++ rest) = .frame m rest := by
  have hbody : bodyOf? (encode m.text) = some m := by
    rw [bodyOf?, decode?_encode, Option.bind_some, h.body_eq]
  rw [writeFrame_eq, List.append_assoc, List.cons_append, List.cons_append, List.cons_append,
    readFrame_lengthLine h.length_le, if_neg (by simp)]
  simp only [List.take_left, List.drop_left, hbody]

/-- A header line that the stream cuts short is never the end of a header. -/
theorem readHeader_cut {bytes : Bytes} (hfirst : ∃ more, bytes = 67 :: more) (hbytes : 10 ∉ bytes) :
    ∃ e, readHeader true (bytes.length + 1) true none bytes = .error e := by
  obtain ⟨more, rfl⟩ := hfirst
  rw [readHeader_open hbytes (by simp)]
  have hblank := HeaderLine.ofBytes_ne_blank more
  cases hline : HeaderLine.ofBytes (67 :: more) with
  | blank => exact absurd hline hblank
  | length n => exact ⟨_, readHeader_nil⟩
  | other => exact ⟨_, readHeader_nil⟩
  | error e => exact ⟨e, rfl⟩

theorem head_lengthLine (n : Nat) : ∃ more, encode (lengthLine n) = 67 :: more :=
  ⟨_, rfl⟩

theorem readFrame_cut (h : Framable m) (hpos : 0 < k) (hk : k < (writeFrame m).length) :
    ∃ e, readFrame true ((writeFrame m).take k) = .error e := by
  have hbody := List.length_pos_iff.mpr h.body_ne_nil
  have hbound : (encode m.text).length < bound64 := Nat.lt_of_le_of_lt h.length_le (by decide)
  rw [writeFrame_eq] at hk ⊢
  generalize hn : (encode m.text).length = n at *
  simp only [List.length_append, List.length_cons, hn] at hk
  rw [List.take_append]
  -- The cut is in the first line, after its line feed, inside the blank line, or in the body.
  by_cases hline : k ≤ (encode (lengthLine n)).length
  . have hfirst : ∃ more, (encode (lengthLine n)).take k = 67 :: more := by
      obtain ⟨more, hmore⟩ := head_lengthLine n
      obtain ⟨k, rfl⟩ := Nat.exists_eq_add_of_lt hpos
      exact ⟨more.take (0 + k), by rw [hmore, List.take_succ_cons]⟩
    have hfeed : 10 ∉ (encode (lengthLine n)).take k :=
      fun hmem => lineFeed_not_mem_lengthLine n (List.mem_of_mem_take hmem)
    obtain ⟨e, he⟩ := readHeader_cut hfirst hfeed
    rw [Nat.sub_eq_zero_of_le hline, List.take_zero, List.append_nil, readFrame, he]
    exact ⟨e, rfl⟩
  . obtain ⟨j, hj⟩ : ∃ j, k - (encode (lengthLine n)).length = j + 1 :=
      ⟨k - (encode (lengthLine n)).length - 1, by omega⟩
    rw [List.take_of_length_le (by omega), hj, List.take_succ_cons]
    rcases j with _ | _ | j
    . have hheader : readHeader true ((encode (lengthLine n) ++ [10]).length + 1) true none
          (encode (lengthLine n) ++ [10]) = .error .endInHeader := by
        rw [readHeader_lengthLine hbound, List.length_append]
        apply readHeader_nil
      rw [List.take_zero, readFrame, hheader]
      exact ⟨_, rfl⟩
    . have hheader : readHeader true ((encode (lengthLine n) ++ [10, 13]).length + 1) true none
          (encode (lengthLine n) ++ [10, 13]) = .done (some n) [] := by
        rw [readHeader_lengthLine hbound, List.length_append, List.length_cons, ← Nat.add_assoc,
          readHeader_open (by decide) (by decide), HeaderLine.ofBytes_carriageReturn]
      rw [List.take_succ_cons, List.take_zero, readFrame, hheader]
      simp only [if_neg (Nat.not_lt.mpr (hn ▸ h.length_le)), List.length_nil, if_pos hbody]
      exact ⟨_, rfl⟩
    . rw [List.take_succ_cons, List.take_succ_cons, readFrame_lengthLine (hn ▸ h.length_le), if_pos]
      . exact ⟨_, rfl⟩
      . rw [List.length_take]
        omega

def frameEnd (messages : List Json) (i : Nat) : Nat :=
  ((messages.take i).flatMap writeFrame).length

theorem frameEnd_zero (messages : List Json) : frameEnd messages 0 = 0 := by
  simp [frameEnd]

theorem frameEnd_succ (m : Json) (messages : List Json) (i : Nat) :
    frameEnd (m :: messages) (i + 1) = (writeFrame m).length + frameEnd messages i := by
  simp [frameEnd]

theorem writeFrame_length_pos (m : Json) : 0 < (writeFrame m).length := by
  simp only [writeFrame_eq, List.length_append, List.length_cons]
  omega

/-- What is read from the first `k` bytes of a stream of frames: `n` messages, and then `final`. -/
structure ReadUpTo (messages : List Json) (k n : Nat) (final : FramesEnd) : Prop where
  le_length : n ≤ messages.length
  complete_iff : ∀ i < messages.length, frameEnd messages (i + 1) ≤ k ↔ i < n
  ended : (∃ i ≤ messages.length, frameEnd messages i = k) → final = .ended
  error : (∀ i ≤ messages.length, frameEnd messages i ≠ k) → ∃ e, final = .error e

theorem ReadUpTo.nil : ReadUpTo [] 0 0 .ended where
  le_length := by simp
  complete_iff := by simp
  ended := by simp
  error := by
    intro hcut
    apply absurd (frameEnd_zero []) (hcut 0 _)
    simp

theorem ReadUpTo.cons {n : Nat} {final : FramesEnd} (hcomplete : (writeFrame m).length ≤ k)
    (h : ReadUpTo messages (k - (writeFrame m).length) n final) :
    ReadUpTo (m :: messages) k (n + 1) final where
  le_length := by
    simp [h.le_length]
  complete_iff := by
    intro i hi
    rw [frameEnd_succ]
    cases i with
    | zero => simp [frameEnd_zero, hcomplete]
    | succ i =>
      have := h.complete_iff i (by simpa using hi)
      omega
  ended := by
    rintro ⟨i, hi, hend⟩
    have hpos := writeFrame_length_pos m
    cases i with
    | zero =>
      rw [frameEnd_zero] at hend
      omega
    | succ i =>
      rw [frameEnd_succ] at hend
      apply h.ended
      exact ⟨i, by simpa using hi, by omega⟩
  error := by
    intro hcut
    apply h.error
    intro i hi hend
    apply hcut (i + 1) (by simpa using hi)
    rw [frameEnd_succ]
    omega

theorem readUpTo_of_lt {final : FramesEnd} (hlt : k < (writeFrame m).length)
    (hended : k = 0 → final = .ended) (herror : 0 < k → ∃ e, final = .error e) :
    ReadUpTo (m :: messages) k 0 final where
  le_length := by simp
  complete_iff := by
    intro i hi
    rw [frameEnd_succ]
    omega
  ended := by
    rintro ⟨i, hi, hend⟩
    apply hended
    cases i with
    | zero => rw [← hend, frameEnd_zero]
    | succ i =>
      rw [frameEnd_succ] at hend
      omega
  error := by
    intro hcut
    apply herror
    have hzero := hcut 0 (by simp)
    rw [frameEnd_zero] at hzero
    omega

/-- Each step reads the first frame, or finds that the cut is before its end. -/
theorem readFrames_take (hframable : ∀ m ∈ messages, Framable m)
    (hk : k ≤ (messages.flatMap writeFrame).length) {fuel : Nat} (hfuel : k < fuel) :
    ∃ n final, ReadUpTo messages k n final
      ∧ readFrames true fuel ((messages.flatMap writeFrame).take k) = (messages.take n, final) := by
  induction messages generalizing k fuel with
  | nil =>
    obtain ⟨fuel, rfl⟩ := Nat.exists_eq_add_of_lt hfuel
    obtain rfl : k = 0 := by simpa using hk
    exact ⟨0, .ended, .nil, rfl⟩
  | cons m messages ih =>
    have hm := hframable m (.head _)
    obtain ⟨fuel, rfl⟩ := Nat.exists_eq_add_of_lt hfuel
    rw [List.flatMap_cons, List.length_append] at hk
    rw [List.flatMap_cons, List.take_append]
    by_cases hcomplete : (writeFrame m).length ≤ k
    . have hpos := writeFrame_length_pos m
      have hrest : k - (writeFrame m).length < k + fuel := by omega
      obtain ⟨n, final, hread, heq⟩ :=
        ih (fun m hmem => hframable m (.tail _ hmem)) (by omega) hrest
      refine ⟨n + 1, final, hread.cons hcomplete, ?_⟩
      rw [List.take_of_length_le hcomplete, readFrames, readFrame_writeFrame hm]
      simp only [heq, List.take_succ_cons]
    . have hlt : k < (writeFrame m).length := by omega
      rw [Nat.sub_eq_zero_of_le (by omega), List.take_zero, List.append_nil]
      cases Nat.eq_zero_or_pos k with
      | inl hzero =>
        subst hzero
        exact ⟨0, .ended, readUpTo_of_lt hlt (fun _ => rfl) (by simp), rfl⟩
      | inr hcut =>
        obtain ⟨e, he⟩ := readFrame_cut hm hcut hlt
        refine ⟨0, .error e, readUpTo_of_lt hlt (by omega) (fun _ => ⟨e, rfl⟩), ?_⟩
        rw [readFrames, he]
        rfl

/-- Framing is a code that no cut confuses: from the first `k` bytes of a stream of frames exactly the
messages whose frames end by then are read, and then the end of the stream where a frame ends there and
an error where none does. -/
theorem readStream_take (hframable : ∀ m ∈ messages, Framable m) :
    (∀ k ≤ (messages.flatMap writeFrame).length,
      ∃ n final, ReadUpTo messages k n final
        ∧ readStream ((messages.flatMap writeFrame).take k) = (messages.take n, final))
      ∧ readStream (messages.flatMap writeFrame) = (messages, .ended) := by
  have hcut : ∀ k ≤ (messages.flatMap writeFrame).length,
      ∃ n final, ReadUpTo messages k n final
        ∧ readStream ((messages.flatMap writeFrame).take k) = (messages.take n, final) := by
    intro k hk
    apply readFrames_take hframable hk
    rw [List.length_take]
    omega
  refine ⟨hcut, ?_⟩
  obtain ⟨n, final, hread, heq⟩ := hcut _ (Nat.le_refl _)
  have hend : frameEnd messages messages.length = (messages.flatMap writeFrame).length := by
    rw [frameEnd, List.take_length]
  have hall : messages.length ≤ n := by
    cases hlength : messages.length with
    | zero => omega
    | succ i =>
      rw [hlength] at hend
      apply (hread.complete_iff i _).mp
      . omega
      . omega
  rw [List.take_length, List.take_of_length_le hall, hread.ended ⟨_, Nat.le_refl _, hend⟩] at heq
  exact heq

/-- A stream of two messages, of which one has a letter of two bytes. -/
def cutStream : List Json :=
  [.object [("text", .string "Caf\u00e9")], .array [.null]]

theorem readStream_cutStream :
    (∀ m ∈ cutStream, Framable m)
      ∧ (∃ n final, ReadUpTo cutStream 35 n final
        ∧ readStream ((cutStream.flatMap writeFrame).take 35) = (cutStream.take n, final))
      ∧ readStream (cutStream.flatMap writeFrame) = (cutStream, .ended) := by
  have hframable : ∀ m ∈ cutStream, Framable m := by
    intro m hm
    simp only [cutStream, List.mem_cons, List.not_mem_nil, or_false] at hm
    rcases hm with rfl | rfl
    . exact ⟨by with_unfolding_all rfl, by decide⟩
    . exact ⟨by with_unfolding_all rfl, by decide⟩
  obtain ⟨hcut, hwhole⟩ := readStream_take hframable
  exact ⟨hframable, hcut 35 (by decide), hwhole⟩

end

end InkServer
