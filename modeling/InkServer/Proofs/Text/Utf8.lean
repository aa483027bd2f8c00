import InkServer.Text.Utf8

/-!
This module contains the laws of decoding: an ASCII byte stands for one character, and the bytes of a
text are read back as that text.
-/

namespace InkServer.Text

variable {b c d e : UInt8} {rest : Bytes} {cs : List Char}

theorem headChar_ascii (hb : b < 0x80) : headChar b rest = (some (Char.ofNat b.toNat), 0) := by
  unfold headChar
  rw [if_pos hb]

theorem decodeLossy_cons (hb : b < 0x80) (rest : Bytes) :
    decodeLossy (b :: rest) = Char.ofNat b.toNat :: decodeLossy rest := by
  unfold decodeLossy
  rw [decodeUnits, headChar_ascii hb]
  rfl

theorem decode?_cons (hb : b < 0x80) (rest : Bytes) :
    decode? (b :: rest) = (decode? rest).map (Char.ofNat b.toNat :: ·) := by
  simp only [decode?, decodeUnits, headChar_ascii hb, List.mapM_cons, List.drop_zero]
  cases (decodeUnits rest).mapM id with
  | none => rfl
  | some cs => rfl

theorem headChar_two (hb : 0xC2 ≤ b.toNat ∧ b.toNat ≤ 0xDF) (hc : 0x80 ≤ c.toNat ∧ c.toNat ≤ 0xBF) :
    headChar b (c :: rest) = (some (Char.ofNat (b.toNat % 32 * 64 + c.toNat % 64)), 1) := by
  simp [headChar, isContinuation, continuationBits, UInt8.lt_iff_toNat_lt, UInt8.le_iff_toNat_le, hb,
    hc]
  omega

theorem headChar_three (hb : 0xE0 ≤ b.toNat ∧ b.toNat ≤ 0xEF) (hc : secondByteOk b c)
    (hd : 0x80 ≤ d.toNat ∧ d.toNat ≤ 0xBF) :
    headChar b (c :: d :: rest)
      =
    (some (Char.ofNat (b.toNat % 16 * 4096 + c.toNat % 64 * 64 + d.toNat % 64)), 2) := by
  have hlow : ¬ b.toNat < 0x80 := by omega
  have hpair : ¬ b.toNat ≤ 0xDF := by omega
  simp [headChar, isContinuation, continuationBits, UInt8.lt_iff_toNat_lt, UInt8.le_iff_toNat_le, hb,
    hc, hd, hlow, hpair]

theorem headChar_four (hb : 0xF0 ≤ b.toNat ∧ b.toNat ≤ 0xF4) (hc : secondByteOk b c)
    (hd : 0x80 ≤ d.toNat ∧ d.toNat ≤ 0xBF) (he : 0x80 ≤ e.toNat ∧ e.toNat ≤ 0xBF) :
    headChar b (c :: d :: e :: rest)
      =
    (some (Char.ofNat
      (b.toNat % 8 * 262144 + c.toNat % 64 * 4096 + d.toNat % 64 * 64 + e.toNat % 64)), 3) := by
  have hlow : ¬ b.toNat < 0x80 := by omega
  have hpair : ¬ b.toNat ≤ 0xDF := by omega
  have htriple : ¬ b.toNat ≤ 0xEF := by omega
  simp [headChar, isContinuation, continuationBits, UInt8.lt_iff_toNat_lt, UInt8.le_iff_toNat_le, hb,
    hc, hd, he, hlow, hpair, htriple]

theorem secondByteOk_iff :
    secondByteOk b c
      ↔
    0x80 ≤ c.toNat ∧ c.toNat ≤ 0xBF ∧ (b.toNat = 0xE0 → 0xA0 ≤ c.toNat) ∧
      (b.toNat = 0xED → c.toNat ≤ 0x9F) ∧ (b.toNat = 0xF0 → 0x90 ≤ c.toNat) ∧
      (b.toNat = 0xF4 → c.toNat ≤ 0x8F) := by
  have htoNat (n : UInt8) : b = n ↔ b.toNat = n.toNat := UInt8.toNat_inj.symm
  simp only [secondByteOk, isContinuation, htoNat]
  split
  . simp [UInt8.le_iff_toNat_le] at *
    omega
  . split
    . simp [UInt8.le_iff_toNat_le] at *
      omega
    . split
      . simp [UInt8.le_iff_toNat_le] at *
        omega
      . split
        . simp [UInt8.le_iff_toNat_le] at *
          omega
        . simp [UInt8.le_iff_toNat_le] at *
          omega

/-- The bytes of a character are read back as that character, whatever follows them. -/
theorem headChar_encode (ch : Char) (rest : Bytes) :
    ∃ b bs, String.utf8EncodeChar ch = b :: bs ∧ headChar b (bs ++ rest) = (some ch, bs.length) := by
  have hvalid : ch.val.toNat < 0xD800 ∨ 0xDFFF < ch.val.toNat ∧ ch.val.toNat < 0x110000 := ch.valid
  have hch : Char.ofNat ch.val.toNat = ch := Char.ofNat_toNat ch
  have hbyte {k : Nat} (hk : k < 256) : (UInt8.ofNat k).toNat = k := by
    rw [UInt8.toNat_ofNat', Nat.mod_eq_of_lt hk]
  unfold String.utf8EncodeChar
  generalize ch.val.toNat = n at hvalid hch
  dsimp only
  split
  . refine ⟨_, _, rfl, ?_⟩
    rw [headChar_ascii]
    . rw [hbyte (by omega), hch]
      rfl
    . rw [UInt8.lt_iff_toNat_lt, hbyte (by omega)]
      simp
      omega
  . split
    . have hfirst := hbyte (k := n / 64 % 32 + 192) (by omega)
      have hsecond := hbyte (k := n % 64 + 128) (by omega)
      refine ⟨_, _, rfl, ?_⟩
      rw [List.cons_append, headChar_two (by omega) (by omega), hfirst, hsecond, ← hch]
      congr
      omega
    . split
      . have hfirst := hbyte (k := n / 4096 % 16 + 224) (by omega)
        have hsecond := hbyte (k := n / 64 % 64 + 128) (by omega)
        have hthird := hbyte (k := n % 64 + 128) (by omega)
        refine ⟨_, _, rfl, ?_⟩
        rw [List.cons_append, List.cons_append, headChar_three (by omega) (by
          rw [secondByteOk_iff]
          omega) (by omega), hfirst, hsecond, hthird, ← hch]
        congr
        omega
      . have hfirst := hbyte (k := n / 262144 % 8 + 240) (by omega)
        have hsecond := hbyte (k := n / 4096 % 64 + 128) (by omega)
        have hthird := hbyte (k := n / 64 % 64 + 128) (by omega)
        have hfourth := hbyte (k := n % 64 + 128) (by omega)
        refine ⟨_, _, rfl, ?_⟩
        rw [List.cons_append, List.cons_append, List.cons_append, headChar_four (by omega) (by
          rw [secondByteOk_iff]
          omega) (by omega) (by omega), hfirst, hsecond, hthird, hfourth, ← hch]
        congr
        omega

theorem decodeUnits_encode (cs : List Char) : decodeUnits (encode cs) = cs.map some := by
  induction cs with
  | nil =>
    rw [encode_nil, decodeUnits]
    rfl
  | cons ch cs ih =>
    obtain ⟨b, bs, hbytes, hhead⟩ := headChar_encode ch (encode cs)
    rw [encode_cons, hbytes, List.cons_append, decodeUnits, hhead]
    simp [ih]

theorem decode?_encode (cs : List Char) : decode? (encode cs) = some cs := by
  rw [decode?, decodeUnits_encode]
  induction cs with
  | nil => rfl
  | cons ch cs ih =>
    rw [List.map_cons, List.mapM_cons, ih]
    rfl

/-- A byte below 0x80 stands for itself, and for nothing else. -/
theorem toNat_of_mem_utf8EncodeChar {ch : Char} (h : b ∈ String.utf8EncodeChar ch) (hb : b < 0x80) :
    ch.toNat = b.toNat := by
  have hbyte {k : Nat} (hk : k < 256) : (UInt8.ofNat k).toNat = k := by
    rw [UInt8.toNat_ofNat', Nat.mod_eq_of_lt hk]
  have hhigh {k : Nat} (hk : k < 256) (hlow : 0x80 ≤ k) : b ≠ UInt8.ofNat k := by
    intro heq
    rw [heq, UInt8.lt_iff_toNat_lt, hbyte hk] at hb
    simp at hb
    omega
  have hvalid : ch.val.toNat < 0xD800 ∨ 0xDFFF < ch.val.toNat ∧ ch.val.toNat < 0x110000 := ch.valid
  change ch.val.toNat = b.toNat
  unfold String.utf8EncodeChar at h
  generalize ch.val.toNat = n at hvalid h
  dsimp only at h
  split at h
  . rw [List.mem_singleton] at h
    rw [h, hbyte (by omega)]
  . split at h
    . simp only [List.mem_cons, List.not_mem_nil, or_false] at h
      rcases h with h | h <;> exact absurd h (hhigh (by omega) (by omega))
    . split at h
      . simp only [List.mem_cons, List.not_mem_nil, or_false] at h
        rcases h with h | h | h <;> exact absurd h (hhigh (by omega) (by omega))
      . simp only [List.mem_cons, List.not_mem_nil, or_false] at h
        rcases h with h | h | h | h <;> exact absurd h (hhigh (by omega) (by omega))

theorem not_mem_encode (hb : b < 0x80) (h : Char.ofNat b.toNat ∉ cs) : b ∉ encode cs := by
  intro hmem
  obtain ⟨ch, hch, hbyte⟩ := List.mem_flatMap.mp hmem
  apply h
  rw [← toNat_of_mem_utf8EncodeChar hbyte hb, Char.ofNat_toNat]
  exact hch

end InkServer.Text
