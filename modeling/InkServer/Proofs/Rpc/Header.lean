import InkServer.Proofs.Rpc.Frame
import InkServer.Proofs.Text.Span

/-!
This module contains the reading of headers as any sender may write them. Lines that do not name the
length are passed over, of those that do the last one counts, and exactly one frame is taken from
the stream.
-/

namespace InkServer

open Text

/-- The name of the length header, in any letter case. -/
def IsLengthName (name : List Char) : Prop :=
  name.map lowerLetter = lengthName.map lowerLetter

instance (name : List Char) : Decidable (IsLengthName name) :=
  inferInstanceAs (Decidable (_ = _))

/-- The text of a header line that names the length and gives `value` for it. Blanks may stand around
the name and around the value. -/
inductive LengthLine : List Char → List Char → Prop where
  | intro {lead name gap rest value : List Char} (lead_blank : allBlank lead)
    (isName : IsLengthName name) (gap_blank : allBlank gap) (trimmed : Trimmed rest value) :
    LengthLine (lead ++ (name ++ (gap ++ ':' :: rest))) value

/-- The value is the decimal numeral of `n`, which fits a word of 64 bits. A plus sign may stand in
front. -/
structure LengthNumeral (value : List Char) (n : Nat) : Prop where
  signed : ∃ digits, (value = digits ∨ value = '+' :: digits) ∧ digits ≠ []
    ∧ digits.all isAsciiDigit ∧ numeralValue digits = n
  lt : n < bound64

section

variable {c : Char} {cs name gap value after : List Char} {n : Nat}

/-- The name of the length has no blank and no colon, whatever the case of its letters. -/
theorem IsLengthName.of_mem (h : IsLengthName name) (hc : c ∈ name) :
    isBlank c = false ∧ c ≠ ':' := by
  have hlower : lowerLetter c ∈ lengthName.map lowerLetter := by
    rw [← h]
    exact List.mem_map_of_mem hc
  have hall : (lengthName.map lowerLetter).all (fun d => !isBlank d && d ≠ ':') = true := by decide
  have hd := List.all_eq_true.mp hall _ hlower
  by_cases hupper : 65 ≤ c.toNat ∧ c.toNat ≤ 90
  . constructor
    . simp [isBlank]
      omega
    . rintro rfl
      exact absurd hupper (by decide)
  . rw [lowerLetter, if_neg hupper] at hd
    simpa using hd

theorem IsLengthName.ne_nil (h : IsLengthName name) : name ≠ [] := by
  rintro rfl
  have hlength := congrArg List.length h
  exact absurd hlength (by decide)

theorem IsLengthName.trimmed (h : IsLengthName name) (hgap : allBlank gap) :
    Trimmed (name ++ gap) name where
  around := ⟨[], gap, rfl, rfl, hgap⟩
  starts := fun _ hc => (h.of_mem (List.mem_of_head? hc)).1
  ends := fun _ hc => (h.of_mem (List.mem_reverse.mp (List.mem_of_head? hc))).1

theorem LengthNumeral.readUnsigned? (h : LengthNumeral value n) :
    readUnsigned? bound64 value = some n := by
  obtain ⟨digits, hvalue, hne, hascii, hn⟩ := h.signed
  have hdigits : readDigits? bound64 digits = some n := by
    rw [readDigits?, hn, if_pos ⟨hne, hascii, h.lt⟩]
  rcases hvalue with rfl | rfl
  . unfold Text.readUnsigned?
    split
    . exact absurd (List.all_eq_true.mp hascii '+' (.head _)) (by decide)
    . exact hdigits
  . exact hdigits

/-- A line is cut at its first colon, and what stands before it is the name. -/
theorem lengthLine_iff :
    LengthLine cs value
      ↔
    ∃ name rest, splitFirst? ':' (trim cs) = some (name, rest) ∧ IsLengthName (trim name)
      ∧ trim rest = value := by
  constructor
  . intro h
    obtain @⟨lead, name, gap, rest, _, hlead, hname, hgap, hrest⟩ := h
    have hcolon : ':' ∉ name ++ gap := by
      rw [List.mem_append, not_or]
      constructor
      . intro hmem
        exact (hname.of_mem hmem).2 rfl
      . intro hmem
        exact absurd (List.all_eq_true.mp hgap ':' hmem) (by decide)
    have hstart : trimStart (name ++ (gap ++ ':' :: rest)) = name ++ (gap ++ ':' :: rest) := by
      obtain ⟨c, more, rfl⟩ := List.exists_cons_of_ne_nil hname.ne_nil
      exact trimStart_cons_of_not (hname.of_mem (.head _)).1 _
    refine ⟨name ++ gap, trimEnd rest, ?_, ?_, ?_⟩
    . rw [trim, trimStart_append hlead, hstart, ← List.append_assoc, trimEnd_append_cons (by decide)]
      exact splitFirst?_append_cons hcolon _
    . rwa [← (hname.trimmed hgap).eq_trim]
    . rw [trim_trimEnd, ← hrest.eq_trim]
  . rintro ⟨name, rest, hsplit, hname, rfl⟩
    obtain ⟨before, after, hcs, hbefore, hafter⟩ := (trimmed_trim cs).around
    obtain ⟨lead, gap, hlead, hleadBlank, hgap⟩ := (trimmed_trim name).around
    have hblanks := allBlank_append.mpr ⟨hbefore, hleadBlank⟩
    have hline := LengthLine.intro hblanks hname hgap ((trimmed_trim rest).append hafter)
    have htext := calc before ++ lead ++ (trim name ++ (gap ++ ':' :: (rest ++ after)))
      _ = before ++ (lead ++ (trim name ++ gap) ++ ':' :: rest ++ after) := by simp
      _ = before ++ (name ++ ':' :: rest ++ after) := by rw [← hlead]
      _ = before ++ (trim cs ++ after) := by rw [(eq_of_splitFirst? hsplit).1]
      _ = cs := hcs.symm
    rwa [htext] at hline

namespace HeaderLine

/-- Blanks at the end of a line, such as a carriage return, change nothing. -/
theorem ofBytes_append (hafter : allBlank after) (cs : List Char) :
    ofBytes (encode (cs ++ after)) = ofBytes (encode cs) := by
  simp only [ofBytes, decode?_encode, trim_append hafter]

theorem ofBytes_of_allBlank (h : allBlank cs) : ofBytes (encode cs) = .blank := by
  simp only [ofBytes, decode?_encode, if_pos (trim_eq_nil_iff.mpr h)]

theorem ofBytes_of_lengthLine (h : LengthLine cs value) (hvalue : LengthNumeral value n) :
    ofBytes (encode cs) = .length n := by
  obtain ⟨name, rest, hsplit, hname, rfl⟩ := lengthLine_iff.mp h
  have hne : trim cs ≠ [] := by
    intro hnil
    rw [hnil] at hsplit
    cases hsplit
  have hlower : (trim name).map lowerLetter = "content-length".toList := hname.trans (by decide)
  rw [ofBytes, decode?_encode]
  simp only [if_neg hne, hsplit, if_pos hlower, hvalue.readUnsigned?]

/-- A line that does not name the length is passed over, with or without a colon. -/
theorem ofBytes_of_other (hblank : ¬ allBlank cs) (h : ∀ value, ¬ LengthLine cs value) :
    ofBytes (encode cs) = .other := by
  have hne : trim cs ≠ [] := fun hnil => hblank (trim_eq_nil_iff.mp hnil)
  simp only [ofBytes, decode?_encode, if_neg hne]
  split
  . rfl
  . next name rest hsplit =>
    rw [if_neg]
    intro hname
    exact h _ (lengthLine_iff.mpr ⟨name, rest, hsplit, hname.trans (by decide), rfl⟩)

end HeaderLine

end

inductive LineEnd where
  | feed
  | returnFeed

def LineEnd.lead : LineEnd → List Char
  | feed => []
  | returnFeed => ['\r']

/-- A line of a header as it is sent: text that is not blank, and an end. -/
structure HeaderText where
  text : List Char
  ending : LineEnd
  oneLine : '\n' ∉ text
  notBlank : ¬ allBlank text

def lineBytes (text : List Char) (ending : LineEnd) : Bytes :=
  encode (text ++ ending.lead ++ ['\n'])

namespace HeaderText

def NamesLength (l : HeaderText) : Prop :=
  ∃ value, LengthLine l.text value

instance (l : HeaderText) : Decidable l.NamesLength :=
  match hsplit : splitFirst? ':' (trim l.text) with
  | none =>
    isFalse (by
      rintro ⟨_, hline⟩
      obtain ⟨_, _, hsome, _⟩ := lengthLine_iff.mp hline
      cases hsplit.symm.trans hsome)
  | some (name, rest) =>
    decidable_of_iff (IsLengthName (trim name)) (by
      constructor
      . intro hname
        exact ⟨trim rest, lengthLine_iff.mpr ⟨name, rest, hsplit, hname, rfl⟩⟩
      . rintro ⟨_, hline⟩
        obtain ⟨_, _, hsome, hname, _⟩ := lengthLine_iff.mp hline
        cases hsplit.symm.trans hsome
        exact hname)

/-- The line names the length and gives `n` for it. -/
def Gives (l : HeaderText) (n : Nat) : Prop :=
  ∃ value, LengthLine l.text value ∧ LengthNumeral value n

/-- The bytes of the line. -/
def bytes (l : HeaderText) : Bytes :=
  lineBytes l.text l.ending

end HeaderText

/-- What comes before a body of `n` bytes: lines of which the last one that names the length gives `n`
and each one that names it gives some length, and then a blank line. -/
structure Preamble (n : Nat) where
  lines : List HeaderText
  blank : List Char
  ending : LineEnd
  last_gives : ∃ before l after, lines = before ++ l :: after ∧ l.Gives n
    ∧ ∀ m ∈ after, ¬ m.NamesLength
  all_give : ∀ l ∈ lines, l.NamesLength → ∃ k, l.Gives k
  blank_oneLine : '\n' ∉ blank
  blank_allBlank : allBlank blank

section

variable {closed first : Bool} {fuel : Nat} {length : Option Nat} {lines : List HeaderText}
  {text : List Char} {ending : LineEnd} {rest : Bytes}

theorem LineEnd.allBlank_lead (ending : LineEnd) : allBlank ending.lead := by
  cases ending <;> decide

theorem lineBytes_append (text : List Char) (ending : LineEnd) (rest : Bytes) :
    lineBytes text ending ++ rest = encode (text ++ ending.lead) ++ 10 :: rest := by
  rw [lineBytes, encode_append _ ['\n'], List.append_assoc]
  rfl

theorem readHeader_lineBytes (h : '\n' ∉ text) (ending : LineEnd) (rest : Bytes) :
    readHeader closed (fuel + 1) first length (lineBytes text ending ++ rest)
      =
    match HeaderLine.ofBytes (encode text) with
    | .blank => .done length rest
    | .length n => readHeader closed fuel false (some n) rest
    | .other => readHeader closed fuel false length rest
    | .error e => .error e := by
  have hfeed : 10 ∉ encode (text ++ ending.lead) := by
    apply not_mem_encode (by decide)
    rw [List.mem_append, not_or]
    refine ⟨h, ?_⟩
    cases ending <;> decide
  rewrite [lineBytes_append, readHeader_line hfeed, HeaderLine.ofBytes_append ending.allBlank_lead]
  rfl

theorem readHeader_gives {l : HeaderText} {n : Nat} (h : l.Gives n) (rest : Bytes) :
    readHeader closed (fuel + 1) first length (l.bytes ++ rest)
      =
    readHeader closed fuel false (some n) rest := by
  obtain ⟨value, hline, hvalue⟩ := h
  rw [HeaderText.bytes, readHeader_lineBytes l.oneLine, HeaderLine.ofBytes_of_lengthLine hline hvalue]

theorem readHeader_silent {l : HeaderText} (h : ¬ l.NamesLength) (rest : Bytes) :
    readHeader closed (fuel + 1) first length (l.bytes ++ rest)
      =
    readHeader closed fuel false length rest := by
  have hline : ∀ value, ¬ LengthLine l.text value := fun value hvalue => h ⟨value, hvalue⟩
  rw [HeaderText.bytes, readHeader_lineBytes l.oneLine, HeaderLine.ofBytes_of_other l.notBlank hline]

/-- Lines of which each one that names the length gives one are read to their end. The length found so
far stays when none of them names it. -/
theorem readHeader_lines (h : ∀ l ∈ lines, l.NamesLength → ∃ k, l.Gives k) (closed first : Bool)
    (length : Option Nat) :
    ∃ first' length',
      (∀ fuel rest, readHeader closed (fuel + lines.length) first length
        (lines.flatMap HeaderText.bytes ++ rest) = readHeader closed fuel first' length' rest)
      ∧ ((∀ l ∈ lines, ¬ l.NamesLength) → length' = length) := by
  induction lines generalizing first length with
  | nil => exact ⟨first, length, fun _ _ => rfl, fun _ => rfl⟩
  | cons l lines ih =>
    have ih := @ih fun m hm => h m (.tail _ hm)
    by_cases hnames : l.NamesLength
    . obtain ⟨k, hk⟩ := h l (.head _) hnames
      obtain ⟨first', length', heq, _⟩ := ih false (some k)
      refine ⟨first', length', ?_, fun hsilent => absurd hnames (hsilent l (.head _))⟩
      intro fuel rest
      rw [List.flatMap_cons, List.append_assoc, List.length_cons, ← Nat.add_assoc,
        readHeader_gives hk, heq]
    . obtain ⟨first', length', heq, hkept⟩ := ih false length
      refine ⟨first', length', ?_, fun hsilent => hkept fun m hm => hsilent m (.tail _ hm)⟩
      intro fuel rest
      rw [List.flatMap_cons, List.append_assoc, List.length_cons, ← Nat.add_assoc,
        readHeader_silent hnames, heq]

theorem readHeader_blank {blank : List Char} (hline : '\n' ∉ blank) (hblank : allBlank blank)
    (ending : LineEnd) (rest : Bytes) :
    readHeader closed (fuel + 1) first length (lineBytes blank ending ++ rest)
      =
    .done length rest := by
  rw [readHeader_lineBytes hline, HeaderLine.ofBytes_of_allBlank hblank]

end

theorem length_le_bytes (lines : List HeaderText) :
    lines.length ≤ (lines.flatMap HeaderText.bytes).length := by
  induction lines with
  | nil => simp
  | cons l lines ih =>
    have hpos : 0 < l.bytes.length := by
      have hfeed := lineBytes_append l.text l.ending []
      rw [List.append_nil] at hfeed
      rw [HeaderText.bytes, hfeed, List.length_append, List.length_cons]
      omega
    rw [List.flatMap_cons, List.length_append, List.length_cons]
    omega

namespace Preamble

variable {n : Nat}

/-- All bytes before the body. -/
def bytes (p : Preamble n) : Bytes :=
  p.lines.flatMap HeaderText.bytes ++ lineBytes p.blank p.ending

/-- A preamble is read to its end, and the length is the one that its last line about it gives. -/
theorem readHeader_bytes (p : Preamble n) (closed : Bool) {fuel : Nat} (hfuel : p.bytes.length < fuel)
    (rest : Bytes) :
    readHeader closed fuel true none (p.bytes ++ rest) = .done (some n) rest := by
  obtain ⟨before, l, after, hlines, hgives, hsilent⟩ := p.last_gives
  have hall := p.all_give
  obtain ⟨spare, rfl⟩ : ∃ spare, fuel = spare + 1 + after.length + 1 + before.length := by
    have hle := length_le_bytes p.lines
    rw [bytes, List.length_append] at hfuel
    rw [hlines, List.length_append, List.length_cons, ← hlines] at hle
    exact ⟨fuel - (1 + after.length + 1 + before.length), by omega⟩
  rw [hlines] at hall
  have hbytes : p.bytes ++ rest = before.flatMap HeaderText.bytes ++ (l.bytes
      ++ (after.flatMap HeaderText.bytes ++ (lineBytes p.blank p.ending ++ rest))) := by
    rw [bytes, hlines]
    simp
  obtain ⟨first₁, length₁, hbefore, _⟩ := readHeader_lines
    (fun m hm => hall m (List.mem_append_left _ hm)) closed true none
  obtain ⟨first₂, length₂, hafter, hkept⟩ := readHeader_lines
    (fun m hm hnames => absurd hnames (hsilent m hm)) closed false (some n)
  rw [hbytes, hbefore, readHeader_gives hgives, hafter, hkept hsilent,
    readHeader_blank p.blank_oneLine p.blank_allBlank]

end Preamble

section

variable {closed first : Bool} {fuel : Nat} {length found : Option Nat} {bytes rest : Bytes}
  {body : Json}

theorem length_lt_of_readHeader (h : readHeader closed fuel first length bytes = .done found rest) :
    rest.length < bytes.length := by
  induction fuel generalizing first length bytes with
  | zero => cases h
  | succ fuel ih =>
    unfold readHeader at h
    split at h
    . split at h
      . cases h
      . split at h <;> cases h
    . next hne =>
      dsimp only at h
      split at h
      . cases h
      . next line after hsome =>
        have hlt : after.length < bytes.length := by
          split at hsome
          . next hsplit =>
            cases hsome
            exact length_after_lt hsplit
          . split at hsome
            . cases hsome
              exact List.length_pos_iff.mpr hne
            . cases hsome
        split at h
        . cases h
          exact hlt
        . exact Nat.lt_trans (ih h) hlt
        . exact Nat.lt_trans (ih h) hlt
        . cases h

theorem length_lt_of_readFrame (h : readFrame closed bytes = .frame body rest) :
    rest.length < bytes.length := by
  unfold readFrame at h
  split at h
  . cases h
  . cases h
  . cases h
  . cases h
  . next hheader =>
    have hlt := length_lt_of_readHeader hheader
    split at h
    . cases h
    . split at h
      . split at h <;> cases h
      . split at h
        . cases h
          rw [List.length_drop]
          omega
        . cases h

/-- More steps than there are bytes change nothing, as each frame takes some. -/
theorem readFrames_of_lt (h : bytes.length < fuel) :
    readFrames closed fuel bytes = readFrames closed (bytes.length + 1) bytes := by
  induction fuel using Nat.strongRecOn generalizing bytes with
  | ind fuel ih =>
    obtain ⟨fuel, rfl⟩ := Nat.exists_eq_add_of_lt h
    unfold readFrames
    split
    . next body rest hframe =>
      have hlt := length_lt_of_readFrame hframe
      rw [ih (bytes.length + fuel) (by omega) (by omega), ih bytes.length (by omega) hlt]
    . rfl
    . rfl
    . rfl

end

namespace Preamble

variable {body : Bytes}

theorem readFrame_bytes (p : Preamble body.length) (hsize : body.length ≤ maxBodyLength)
    (closed : Bool) (rest : Bytes) :
    readFrame closed (p.bytes ++ (body ++ rest))
      =
    match bodyOf? body with
    | some message => .frame message rest
    | none => .error .bodyNotJson := by
  have hheader := p.readHeader_bytes closed
    (show p.bytes.length < (p.bytes ++ (body ++ rest)).length + 1 by
      rw [List.length_append]
      omega) (body ++ rest)
  rewrite [readFrame, hheader]
  dsimp only
  rewrite [if_neg (Nat.not_lt.mpr hsize), if_neg (by simp), List.take_left, List.drop_left]
  rfl

/-- Whatever the header lines are, they are read together with exactly the body that they announce, and
what follows is read as if it stood alone. -/
theorem one_frame_consumed (p : Preamble body.length) (hsize : body.length ≤ maxBodyLength)
    (closed : Bool) (rest : Bytes) :
    (∀ message, bodyOf? body = some message →
      readFrame closed (p.bytes ++ (body ++ rest)) = .frame message rest
        ∧ readFrames closed ((p.bytes ++ (body ++ rest)).length + 1) (p.bytes ++ (body ++ rest))
          =
        (message :: (readFrames closed (rest.length + 1) rest).1,
          (readFrames closed (rest.length + 1) rest).2))
      ∧ (bodyOf? body = none →
        readFrame closed (p.bytes ++ (body ++ rest)) = .error .bodyNotJson) := by
  have hframe := p.readFrame_bytes hsize closed rest
  constructor
  . intro message hbody
    rw [hbody] at hframe
    refine ⟨hframe, ?_⟩
    rw [readFrames, hframe]
    dsimp only
    rw [readFrames_of_lt (length_lt_of_readFrame hframe)]
  . intro hbody
    rw [hframe, hbody]

/-- Lines of which one has no colon and two give a length, with blanks around names and values. -/
def unusualLines : List HeaderText :=
  [⟨"no colon".toList, .feed, by decide, by decide⟩,
   ⟨"content-LENGTH: 99".toList, .returnFeed, by decide, by decide⟩,
   ⟨"\t Content-Length \u00a0:+02 ".toList, .feed, by decide, by decide⟩,
   ⟨"Content-Type: text; length: 7".toList, .returnFeed, by decide, by decide⟩]

/-- The preamble of these lines, with a blank line that is not empty. -/
def unusual : Preamble 2 where
  lines := unusualLines
  blank := [' ', '\u3000']
  ending := .returnFeed
  last_gives := by
    refine ⟨[_, _], _, [_], rfl, ⟨"+02".toList, ?_, ⟨"02".toList, by decide⟩, by decide⟩, by decide⟩
    exact lengthLine_iff.mpr ⟨_, _, rfl, by decide, by decide⟩
  all_give := by
    intro l hl hnames
    simp only [unusualLines, List.mem_cons, List.not_mem_nil, or_false] at hl
    rcases hl with rfl | rfl | rfl | rfl
    . exact absurd hnames (by decide)
    . refine ⟨99, "99".toList, ?_, ⟨"99".toList, by decide⟩, by decide⟩
      exact lengthLine_iff.mpr ⟨_, _, rfl, by decide, by decide⟩
    . refine ⟨2, "+02".toList, ?_, ⟨"02".toList, by decide⟩, by decide⟩
      exact lengthLine_iff.mpr ⟨_, _, rfl, by decide, by decide⟩
    . exact absurd hnames (by decide)
  blank_oneLine := by decide
  blank_allBlank := by decide

theorem one_frame_consumed_unusual :
    [91, 93].length ≤ maxBodyLength ∧ bodyOf? [91, 93] = some (.array [])
      ∧ readFrame true (unusual.bytes ++ ([91, 93] ++ [0xFF])) = .frame (.array []) [0xFF] := by
  have hsize : [91, 93].length ≤ maxBodyLength := by decide
  have hbody : bodyOf? [91, 93] = some (.array []) := by with_unfolding_all rfl
  obtain ⟨hframe, _⟩ := (@one_frame_consumed [91, 93] unusual hsize true [0xFF]).1 _ hbody
  exact ⟨hsize, hbody, hframe⟩

end Preamble

end InkServer
