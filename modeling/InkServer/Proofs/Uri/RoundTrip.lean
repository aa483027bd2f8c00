import InkServer.Proofs.Path.Inside
import InkServer.Proofs.Uri.Percent

/-!
This module contains the way back from the `file:` URI of a path. It leads to the same steps, and to
the same bytes but for a slash at the end where the path ends like a drive.
-/

namespace InkServer

open Text

theorem Text.map_joined {α β : Type} (f : α → β) (sep : α) (ps : List (List α)) :
    (joined sep ps).map f = joined (f sep) (ps.map (List.map f)) := by
  fun_induction joined sep ps with
  | case1 => rfl
  | case2 p => rfl
  | case3 p q ps ih => rw [List.map_append, List.map_cons, ih]; rfl

theorem Text.mem_joined {α : Type} {x sep : α} {ps : List (List α)} (h : x ∈ joined sep ps) :
    x = sep ∨ ∃ p ∈ ps, x ∈ p := by
  fun_induction joined sep ps with
  | case1 => cases h
  | case2 p => exact .inr ⟨p, .head _, h⟩
  | case3 p q ps ih =>
    rcases List.mem_append.mp h with h | h
    . exact .inr ⟨p, .head _, h⟩
    . rcases List.mem_cons.mp h with h | h
      . exact .inl h
      . rcases ih h with h | ⟨r, hr, hx⟩
        . exact .inl h
        . exact .inr ⟨r, .tail _ hr, hx⟩

namespace Uri

/-- The character that an ASCII byte stands for. -/
def charOf (b : UInt8) : Char :=
  Char.ofNat b.toNat

theorem toNat_charOf (b : UInt8) : (charOf b).toNat = b.toNat := by
  revert b
  exact forall_byte (by decide +kernel)

theorem encode_map_charOf {bytes : Bytes} (h : ∀ b ∈ bytes, b < 127) :
    encode (bytes.map charOf) = bytes := by
  induction bytes with
  | nil => rfl
  | cons b bytes ih =>
    have hb : b.toNat ≤ 127 := by
      have hlt := UInt8.lt_iff_toNat_lt.mp (h b (.head _))
      simp at hlt
      omega
    have hval : (charOf b).val.toNat = b.toNat := toNat_charOf b
    rw [List.map_cons, encode_cons, ih fun c hc => h c (.tail _ hc), String.utf8EncodeChar]
    rw [hval, if_pos hb, UInt8.ofNat_toNat, List.singleton_append]

def segmentOf (n : Name) : List Char :=
  (percentEncode isSpecialInName n).map charOf

/-- A name is written with visible characters, and with none that cuts a URI. -/
theorem of_mem_segmentOf {n : Name} {c : Char} (h : c ∈ segmentOf n) :
    32 < c.toNat ∧ c ≠ '/' ∧ c ≠ '\\' ∧ endsPath c = false := by
  have hchar : ∀ b : UInt8, IsWritten b → 32 < (charOf b).toNat ∧ charOf b ≠ '/'
      ∧ charOf b ≠ '\\' ∧ endsPath (charOf b) = false :=
    forall_byte (by decide +kernel)
  obtain ⟨b, hb, hc⟩ := List.mem_map.mp h
  rw [← hc]
  exact hchar b (isWritten_of_mem_percentEncode hb)

theorem percentDecode_percentEncode_name (n : Name) :
    percentDecode (percentEncode isSpecialInName n) = n := by
  have hone := @percentDecode_percentEncode isSpecialInName (by decide) n []
  rwa [List.append_nil, percentDecode, List.append_nil] at hone

theorem segmentOf_ne_nil {n : Name} (h : n ≠ []) : segmentOf n ≠ [] := by
  intro hnil
  rw [segmentOf, List.map_eq_nil_iff] at hnil
  have hn := percentDecode_percentEncode_name n
  rw [hnil] at hn
  exact h hn.symm

theorem isHereSegment_iff {cs : List Char} :
    isHereSegment cs = true
      ↔
    cs.map lowerLetter = ['.'] ∨ cs.map lowerLetter = ['%', '2', 'e'] := by
  unfold isHereSegment
  rw [List.contains_iff_mem]
  simp [← String.toList_inj]

theorem isUpSegment_iff {cs : List Char} :
    isUpSegment cs = true
      ↔
    cs.map lowerLetter = ['.', '.'] ∨ cs.map lowerLetter = ['.', '%', '2', 'e']
      ∨ cs.map lowerLetter = ['%', '2', 'e', '.']
      ∨ cs.map lowerLetter = ['%', '2', 'e', '%', '2', 'e'] := by
  unfold isUpSegment
  rw [List.contains_iff_mem]
  simp [← String.toList_inj]

theorem exists_rest_of_dot {bytes : Bytes} {cs : List Char}
    (h : (bytes.map charOf).map lowerLetter = '.' :: cs) :
    ∃ rest, (rest.map charOf).map lowerLetter = cs
      ∧ percentDecode bytes = dot :: percentDecode rest := by
  have hdot : ∀ b : UInt8, lowerLetter (charOf b) = '.' → b = dot := forall_byte (by decide +kernel)
  rw [List.map_map, List.map_eq_cons_iff] at h
  obtain ⟨b, rest, hbytes, hb, hrest⟩ := h
  refine ⟨rest, by rw [List.map_map, hrest], ?_⟩
  rw [hbytes, hdot b hb, percentDecode_cons (by decide)]

/-- The code of a dot is read as a dot, whatever the case of its digit. -/
theorem exists_rest_of_code {bytes : Bytes} {cs : List Char}
    (h : (bytes.map charOf).map lowerLetter = '%' :: '2' :: 'e' :: cs) :
    ∃ rest, (rest.map charOf).map lowerLetter = cs
      ∧ percentDecode bytes = dot :: percentDecode rest := by
  have hdigit : ∀ b : UInt8, lowerLetter (charOf b) = 'e' → hexValue? b = some 14 :=
    forall_byte (by decide +kernel)
  have hsame : ∀ b : UInt8, (lowerLetter (charOf b) = '%' → b = percent)
      ∧ (lowerLetter (charOf b) = '2' → b = 50) :=
    forall_byte (by decide +kernel)
  simp only [List.map_map, List.map_eq_cons_iff] at h
  obtain ⟨b, _, hbytes, hb, c, _, hbytes', hc, e, rest, hbytes'', he, hrest⟩ := h
  refine ⟨rest, by rw [List.map_map, hrest], ?_⟩
  rw [hbytes, hbytes', hbytes'', (hsame b).1 hb, (hsame c).2 hc, percentDecode, if_pos rfl,
    hdigit e he]
  rfl

/-- A name that is written like a step to the same folder or out of it is that step itself. -/
theorem IsName.segmentOf_is_ordinary {n : Name} (h : IsName n) :
    isUpSegment (segmentOf n) = false ∧ isHereSegment (segmentOf n) = false := by
  have hn := percentDecode_percentEncode_name n
  have hend : ∀ rest : Bytes, (rest.map charOf).map lowerLetter = [] → percentDecode rest = [] := by
    intro rest hrest
    rw [List.map_map, List.map_eq_nil_iff] at hrest
    rw [hrest]
    rfl
  rw [← Bool.not_eq_true, ← Bool.not_eq_true, isUpSegment_iff, isHereSegment_iff]
  unfold segmentOf
  constructor
  . intro hup
    have htwo : ∃ rest last, percentDecode (percentEncode isSpecialInName n) = dot :: percentDecode rest
        ∧ percentDecode rest = dot :: percentDecode last
        ∧ (last.map charOf).map lowerLetter = [] := by
      rcases hup with hup | hup | hup | hup
      . obtain ⟨rest, hrest, hfirst⟩ := exists_rest_of_dot hup
        obtain ⟨last, hlast, hsecond⟩ := exists_rest_of_dot hrest
        exact ⟨rest, last, hfirst, hsecond, hlast⟩
      . obtain ⟨rest, hrest, hfirst⟩ := exists_rest_of_dot hup
        obtain ⟨last, hlast, hsecond⟩ := exists_rest_of_code hrest
        exact ⟨rest, last, hfirst, hsecond, hlast⟩
      . obtain ⟨rest, hrest, hfirst⟩ := exists_rest_of_code hup
        obtain ⟨last, hlast, hsecond⟩ := exists_rest_of_dot hrest
        exact ⟨rest, last, hfirst, hsecond, hlast⟩
      . obtain ⟨rest, hrest, hfirst⟩ := exists_rest_of_code hup
        obtain ⟨last, hlast, hsecond⟩ := exists_rest_of_code hrest
        exact ⟨rest, last, hfirst, hsecond, hlast⟩
    obtain ⟨rest, last, hfirst, hsecond, hlast⟩ := htwo
    rw [hn, hsecond, hend last hlast] at hfirst
    exact h.ne_up hfirst
  . intro hhere
    have hone : ∃ rest, (rest.map charOf).map lowerLetter = []
        ∧ percentDecode (percentEncode isSpecialInName n) = dot :: percentDecode rest := by
      rcases hhere with hhere | hhere
      . exact exists_rest_of_dot hhere
      . exact exists_rest_of_code hhere
    obtain ⟨rest, hrest, hfirst⟩ := hone
    rw [hn, hend rest hrest] at hfirst
    exact h.ne_here hfirst

theorem percentDecode_segments (ns : List Name) :
    percentDecode (joined slash (ns.map (percentEncode isSpecialInName))) = joined slash ns := by
  have hspecial : isSpecialInName percent = true := by decide
  induction ns with
  | nil => rfl
  | cons n ns ih =>
    cases ns with
    | nil =>
      have hone := percentDecode_percentEncode hspecial n []
      rw [List.append_nil] at hone
      simpa [joined, percentDecode] using hone
    | cons m ns =>
      rw [List.map_cons, List.map_cons, joined, percentDecode_percentEncode hspecial,
        percentDecode_cons (by decide), ← List.map_cons, ih]
      rfl

theorem ofPath?_ofComponents {ns : List Name} (hns : ∀ n ∈ ns, IsName n) :
    ofPath? (.ofComponents (.root :: ns.map .name))
      =
    some ("file:///" ++ String.ofList (joined '/' (ns.map segmentOf))) := by
  have hcs := Path.components_ofComponents_root (Component.isStep_map_name hns)
  have hslash : charOf slash = '/' := by decide
  unfold ofPath?
  rw [hcs]
  dsimp only
  rw [List.map_map, ← hslash]
  change some ("file:///" ++ String.ofList ((joined slash _).map charOf)) = _
  rw [map_joined, List.map_map]
  rfl

theorem resolveSegments_of_ordinary {done segments : List (List Char)} (hne : segments ≠ [])
    (h : ∀ s ∈ segments, isUpSegment s = false ∧ isHereSegment s = false) :
    resolveSegments done segments = done.reverse ++ segments := by
  induction segments generalizing done with
  | nil => exact absurd rfl hne
  | cons s rest ih =>
    obtain ⟨hup, hhere⟩ := h s (.head _)
    unfold resolveSegments
    rw [hup, hhere]
    cases rest with
    | nil => simp
    | cons next more =>
      have hrest := @ih (s :: done) (by simp) fun t ht => h t (.tail _ ht)
      simpa using hrest

theorem of_mem_joined_segments {ns : List Name} {c : Char} (h : c ∈ joined '/' (ns.map segmentOf)) :
    32 < c.toNat ∧ c ≠ '\\' ∧ endsPath c = false := by
  rcases mem_joined h with rfl | ⟨segment, hsegment, hc⟩
  . decide
  . obtain ⟨n, _, hn⟩ := List.mem_map.mp hsegment
    rw [← hn] at hc
    obtain ⟨hlow, _, hback, hcut⟩ := of_mem_segmentOf hc
    exact ⟨hlow, hback, hcut⟩

/-- The path part of the URI is cut into the names as they are written there. -/
theorem pathSegments_joined {ns : List Name} (hns : ∀ n ∈ ns, IsName n) :
    pathSegments ('/' :: joined '/' (ns.map segmentOf)) = ns.map segmentOf := by
  have hchars := @of_mem_joined_segments ns
  have hwhole : ('/' :: joined '/' (ns.map segmentOf)).takeWhile (fun c => !endsPath c)
      = '/' :: joined '/' (ns.map segmentOf) := by
    have hall : ∀ c ∈ '/' :: joined '/' (ns.map segmentOf), !endsPath c := by
      intro c hc
      rcases List.mem_cons.mp hc with rfl | hc
      . decide
      . rw [(hchars hc).2.2]
        rfl
    have htake := @List.takeWhile_append_of_pos _ _ _ [] hall
    rwa [List.append_nil, List.takeWhile_nil, List.append_nil] at htake
  have hunified : (joined '/' (ns.map segmentOf)).map (fun c => if c = '\\' then '/' else c)
      = joined '/' (ns.map segmentOf) := by
    rw [List.map_congr_left fun c hc => if_neg (hchars hc).2.1, List.map_id']
  unfold pathSegments
  rw [hwhole]
  dsimp only
  rw [if_pos (by decide), hunified]
  cases ns with
  | nil => decide
  | cons n ns =>
    have hslash : ∀ s ∈ (n :: ns).map segmentOf, '/' ∉ s := by
      intro s hs hmem
      obtain ⟨m, _, hm⟩ := List.mem_map.mp hs
      rw [← hm] at hmem
      exact (of_mem_segmentOf hmem).2.1 rfl
    have hordinary : ∀ s ∈ (n :: ns).map segmentOf,
        isUpSegment s = false ∧ isHereSegment s = false := by
      intro s hs
      obtain ⟨m, hmem, hm⟩ := List.mem_map.mp hs
      rw [← hm]
      exact IsName.segmentOf_is_ordinary (hns m hmem)
    rw [pieces_joined (by simp) hslash, resolveSegments_of_ordinary (by simp) hordinary,
      List.reverse_nil, List.nil_append, List.map_cons, List.dropWhile_cons_of_neg]
    simpa using segmentOf_ne_nil (hns n (.head _)).ne_nil

theorem strip_of_visible {text : List Char} (h : ∀ c ∈ text, 32 < c.toNat) : strip text = text := by
  have hend : text.reverse.dropWhile (fun c => decide (c.toNat ≤ 32)) = text.reverse := by
    cases hrev : text.reverse with
    | nil => rfl
    | cons c cs =>
      have hc := h c (by rw [← List.mem_reverse, hrev]; exact .head _)
      rw [List.dropWhile_cons_of_neg]
      simpa using hc
  unfold strip
  rw [hend, List.reverse_reverse, List.filter_eq_self]
  intro c hc
  have hlow := h c hc
  have hne : ∀ d : Char, d.toNat ≤ 32 → c ≠ d := by
    rintro d hd rfl
    omega
  simp [hne '\t' (by decide), hne '\n' (by decide), hne '\r' (by decide)]

/-- A `file:` URI without a host is read as the path after it. -/
theorem toPath_file {body : List Char} (h : ∀ c ∈ body, 32 < c.toNat) :
    toPath ("file:///" ++ String.ofList body)
      =
    .ok (pathOfSegments (pathSegments ('/' :: body))) := by
  have htext : ("file:///" ++ String.ofList body).toList
      = ['f', 'i', 'l', 'e', ':', '/', '/', '/'] ++ body := by
    simp
  have hstrip : strip (['f', 'i', 'l', 'e', ':', '/', '/', '/'] ++ body)
      = ['f', 'i', 'l', 'e', ':', '/', '/', '/'] ++ body := by
    apply strip_of_visible
    intro c hc
    rcases List.mem_append.mp hc with hc | hc
    . have hstart : ['f', 'i', 'l', 'e', ':', '/', '/', '/'].all (fun c => decide (32 < c.toNat))
          = true := by decide
      exact of_decide_eq_true (List.all_eq_true.mp hstart c hc)
    . exact h c hc
  have hscheme : scheme? (['f', 'i', 'l', 'e', ':', '/', '/', '/'] ++ body)
      = some ['f', 'i', 'l', 'e'] := by
    simp [scheme?, splitFirst?, isLetter]
  have hpath : filePath (['/', '/', '/'] ++ body)
      = .ok (pathOfSegments (pathSegments ('/' :: body))) := by
    simp [filePath, isSeparator]
  unfold toPath
  dsimp only
  rw [htext, hstrip, hscheme]
  simp only [List.cons_append, hasDrive]
  rw [if_neg (by simp), if_neg (by simp), if_pos (by decide)]
  change (filePath (['/', '/', '/'] ++ body)).mapError _ = _
  rw [hpath]
  rfl

theorem percentDecode_joined_segments (ns : List Name) :
    percentDecode (encode (joined '/' (ns.map segmentOf))) = joined slash ns := by
  have hslash : charOf slash = '/' := by decide
  have hjoined := map_joined charOf slash (ns.map (percentEncode isSpecialInName))
  rw [List.map_map, hslash] at hjoined
  change _ = joined '/' (ns.map segmentOf) at hjoined
  rw [← hjoined, encode_map_charOf, percentDecode_segments]
  intro b hb
  rcases mem_joined hb with rfl | ⟨p, hp, hb⟩
  . decide
  . obtain ⟨n, _, hn⟩ := List.mem_map.mp hp
    rw [← hn] at hb
    exact (isWritten_of_mem_percentEncode hb).2.1

/-- The last two bytes are a letter and a colon or bar, as of a drive. -/
def EndsLikeDrive (bytes : Bytes) : Prop :=
  ∃ front c d, bytes = front ++ [c, d] ∧ isLetter (charOf c) = true ∧ (d = 58 ∨ d = 124)

theorem endsLikeDrive_iff {bytes front : Bytes} {c d : UInt8} (hrev : bytes.reverse = d :: c :: front) :
    EndsLikeDrive bytes ↔ isLetter (charOf c) = true ∧ (d = 58 ∨ d = 124) := by
  constructor
  . rintro ⟨_, _, _, rfl, hdrive⟩
    rw [List.reverse_append, List.reverse_cons, List.reverse_singleton, List.singleton_append,
      List.cons_append, List.singleton_append] at hrev
    cases hrev
    exact hdrive
  . intro hdrive
    refine ⟨front.reverse, c, d, ?_, hdrive⟩
    rw [← List.reverse_reverse bytes, hrev]
    simp

/-- A slash is added to the path of a URI where it ends like a drive, and nowhere else. -/
theorem pathOfSegments_segments (ns : List Name) :
    (EndsLikeDrive (slash :: joined slash ns) →
      pathOfSegments (ns.map segmentOf) = ⟨slash :: joined slash ns ++ [slash]⟩)
      ∧ (¬ EndsLikeDrive (slash :: joined slash ns) →
        pathOfSegments (ns.map segmentOf) = ⟨slash :: joined slash ns⟩) := by
  unfold pathOfSegments
  rw [percentDecode_joined_segments]
  dsimp only
  split
  . next d c x more hrev =>
    have hdrive : EndsLikeDrive (slash :: joined slash ns)
        ↔ (isLetter (charOf c) && (d = 58 || d = 124)) = true := by
      simp [endsLikeDrive_iff hrev]
    constructor
    . intro h
      exact if_pos (hdrive.mp h)
    . intro h
      exact if_neg fun hends => h (hdrive.mpr hends)
  . next hshort =>
    refine ⟨?_, fun _ => rfl⟩
    -- A path of less than three bytes has the slash before its last one.
    rintro ⟨front, c, d, hbytes, hletter, _⟩
    cases front with
    | nil =>
      rw [← (List.cons.inj hbytes).1] at hletter
      exact absurd hletter (by decide)
    | cons x front =>
      obtain ⟨y, more, hmore⟩ := List.exists_cons_of_ne_nil
        (show (x :: front).reverse ≠ [] by simp)
      exact absurd (by rw [hbytes, List.reverse_append, hmore]; rfl) (hshort d c y more)

theorem toPath_names {ns : List Name} (hns : ∀ n ∈ ns, IsName n) :
    toPath ("file:///" ++ String.ofList (joined '/' (ns.map segmentOf)))
      =
    .ok (pathOfSegments (ns.map segmentOf)) := by
  rw [toPath_file fun c hc => (of_mem_joined_segments hc).1, pathSegments_joined hns]

/-- The `file:` URI of a normal path leads back to that path, but for a slash where it ends like a
drive. -/
theorem exists_toPath_of_isAbsolute {p : Path} (habs : p.isAbsolute = true) (hn : p.normalize = p) :
    ∃ uri, ofPath? p = some uri
      ∧ (EndsLikeDrive p.bytes → toPath uri = .ok ⟨p.bytes ++ [slash]⟩)
      ∧ (¬ EndsLikeDrive p.bytes → toPath uri = .ok p) := by
  obtain ⟨ns, hns, hp⟩ := Path.exists_names_of_isAbsolute habs hn
  have hbytes : p.bytes = slash :: joined slash ns := by rw [hp, Path.bytes_ofComponents_root]
  obtain ⟨hdrive, hplain⟩ := pathOfSegments_segments ns
  refine ⟨_, by rw [hp]; exact ofPath?_ofComponents hns, ?_, ?_⟩
  . intro h
    rw [hbytes] at h ⊢
    rw [toPath_names hns, hdrive h]
  . intro h
    have hpath : p = ⟨slash :: joined slash ns⟩ := by rw [← hbytes]
    rw [hbytes] at h
    rw [toPath_names hns, hplain h, ← hpath]

-- A letter and a bar are a name like any other, and stay as they are.
example :
    ofPath? (.ofString "/C|/x") = some "file:///C|/x"
      ∧ (toPath "file:///C|/x").toOption = some (.ofString "/C|/x") := by
  decide +kernel

theorem components_append_slash {p : Path} (habs : p.isAbsolute = true) :
    (Path.mk (p.bytes ++ [slash])).components = p.components := by
  have hne : p.bytes ≠ [] := by
    intro hnil
    simp [Path.isAbsolute, hnil] at habs
  rw [Path.components_append_cons hne, Path.steps_nil, List.append_nil]

/-- The `file:` URI of a normal path leads back to that path. -/
theorem normalize_of_ofPath? {p : Path} {uri : String} (hn : p.normalize = p)
    (h : ofPath? p = some uri) : ∃ q, toPath uri = .ok q ∧ q.normalize = p := by
  have habs : p.isAbsolute = true := by
    unfold ofPath? at h
    split at h
    . next hcs =>
      apply Path.isAbsolute_of_root_mem
      rw [hcs]
      exact .head _
    . cases h
  obtain ⟨uri', huri, hdrive, hplain⟩ := exists_toPath_of_isAbsolute habs hn
  cases huri.symm.trans h
  by_cases hends : EndsLikeDrive p.bytes
  . refine ⟨_, hdrive hends, ?_⟩
    rw [Path.normalize, components_append_slash habs]
    exact hn
  . exact ⟨p, hplain hends, hn⟩

theorem EndsLikeDrive.exists_name {ns : List Name} (hns : ∀ n ∈ ns, IsName n)
    (h : EndsLikeDrive (slash :: joined slash ns)) : ∃ n, ns.getLast? = some n ∧ EndsLikeDrive n := by
  obtain ⟨front, c, d, hbytes, hletter, hd⟩ := h
  have hslash : c ≠ slash := by
    rintro rfl
    exact absurd hletter (by decide)
  cases hlast : ns.getLast? with
  | none =>
    rw [List.getLast?_eq_none_iff.mp hlast, joined] at hbytes
    exact absurd (congrArg List.length hbytes) (by simp)
  | some n =>
    obtain ⟨init, rfl⟩ := List.getLast?_eq_some_iff.mp hlast
    obtain ⟨start, hstart⟩ : ∃ start, slash :: joined slash (init ++ [n]) = start ++ slash :: n := by
      by_cases hinit : init = []
      . rw [hinit]
        exact ⟨[], rfl⟩
      . refine ⟨slash :: joined slash init, ?_⟩
        rw [joined_append slash hinit (List.cons_ne_nil n []), List.cons_append]
        rfl
    refine ⟨n, rfl, ?_⟩
    -- Neither of the two last bytes is the slash in front of the name.
    have hrev := congrArg List.reverse (hstart.symm.trans hbytes)
    simp only [List.reverse_append, List.reverse_cons, List.reverse_nil, List.nil_append,
      List.append_assoc, List.cons_append] at hrev
    cases hn : n.reverse with
    | nil => exact absurd (List.reverse_eq_nil_iff.mp hn) (hns n (by simp)).ne_nil
    | cons x rest =>
      rw [hn, List.cons_append, List.cons.injEq] at hrev
      cases rest with
      | nil => exact absurd (List.cons.inj hrev.2).1.symm hslash
      | cons y rest =>
        rw [List.cons_append, List.cons.injEq] at hrev
        obtain ⟨rfl, rfl, _⟩ := hrev
        exact (endsLikeDrive_iff hn).mpr ⟨hletter, hd⟩

theorem EndsLikeDrive.isDriveLetter {bytes : Bytes} (h : EndsLikeDrive bytes)
    (hlen : bytes.length ≤ 2) : Uri.isDriveLetter (bytes.map charOf) = true := by
  have hmark : ∀ d : UInt8, d = 58 ∨ d = 124 → (charOf d = ':' || charOf d = '|') = true :=
    forall_byte (by decide +kernel)
  obtain ⟨front, c, d, rfl, hletter, hd⟩ := h
  cases front with
  | nil =>
    rw [List.nil_append, List.map_cons, List.map_singleton, Uri.isDriveLetter, hletter, Bool.true_and]
    exact hmark d hd
  | cons x front => simp at hlen

/-- Every normal path from the root that has no drive among its names has a `file:` URI of its own,
from which it is read back. Only behind a longer name that ends like a drive a slash is added, which
is no step. -/
theorem path_returns_from_uri {p : Path} (habs : p.isAbsolute = true) (hn : p.normalize = p)
    (hdrive : ∀ n, .name n ∈ p.components → isDriveLetter (n.map charOf) = false) :
    ∃ uri q, ofPath? p = some uri ∧ toPath uri = .ok q ∧ q.sameSteps p = true
      ∧ (q ≠ p → ∃ n, p.components.getLast? = some (.name n) ∧ 2 < n.length ∧ EndsLikeDrive n)
      ∧ ∀ p' : Path, p'.isAbsolute = true → p'.normalize = p' → ofPath? p' = some uri → p' = p := by
  obtain ⟨uri, huri, hends, hplain⟩ := exists_toPath_of_isAbsolute habs hn
  have hunique : ∀ p' : Path, p'.isAbsolute = true → p'.normalize = p' → ofPath? p' = some uri →
      p' = p := by
    intro p' _ hp' hsame
    obtain ⟨q, hq, hqp⟩ := normalize_of_ofPath? hn huri
    obtain ⟨q', hq', hqp'⟩ := normalize_of_ofPath? hp' hsame
    cases hq.symm.trans hq'
    rw [← hqp, ← hqp']
  by_cases h : EndsLikeDrive p.bytes
  . refine ⟨uri, _, huri, hends h, ?_, ?_, hunique⟩
    . rw [Path.sameSteps, components_append_slash habs, decide_eq_true_eq]
    . intro _
      obtain ⟨ns, hns, hp⟩ := Path.exists_names_of_isAbsolute habs hn
      rw [hp, Path.bytes_ofComponents_root] at h
      obtain ⟨n, hlast, hname⟩ := h.exists_name hns
      have hcs : p.components = .root :: ns.map .name := by
        rw [hp, Path.components_ofComponents_root (Component.isStep_map_name hns)]
      have hmem := hdrive n (by simp [hcs, List.mem_of_getLast? hlast])
      refine ⟨n, ?_, Nat.lt_of_not_le fun hlen => ?_, hname⟩
      . rw [hcs, List.getLast?_cons, List.getLast?_map, hlast]
        rfl
      . simp [hname.isDriveLetter hlen] at hmem
  . refine ⟨uri, p, huri, hplain h, ?_, fun hne => absurd rfl hne, hunique⟩
    rw [Path.sameSteps, decide_eq_true_eq]

/-- A path with a name of reserved characters, a blank, a tab and a byte that is no text, and a name
that begins with dots and ends like a drive. -/
def oddPath : Path :=
  .ofComponents [.root, .name [37, 35, 63, 92, 32, 9, 0xFF], .name (bytesOf "..a:")]

theorem path_returns_from_uri_odd :
    oddPath.isAbsolute = true ∧ oddPath.normalize = oddPath
      ∧ (∀ n, .name n ∈ oddPath.components → isDriveLetter (n.map charOf) = false)
      ∧ ∃ uri q, ofPath? oddPath = some uri ∧ toPath uri = .ok q ∧ q.sameSteps oddPath = true := by
  have habs : oddPath.isAbsolute = true := by decide
  have hn : oddPath.normalize = oddPath := by decide
  have hcs : oddPath.components
      = [.root, .name [37, 35, 63, 92, 32, 9, 0xFF], .name (bytesOf "..a:")] := by decide
  have hdrive : ∀ n, .name n ∈ oddPath.components → isDriveLetter (n.map charOf) = false := by
    intro n hmem
    rw [hcs] at hmem
    simp only [List.mem_cons, reduceCtorEq, Component.name.injEq, List.not_mem_nil, or_false,
      false_or] at hmem
    rcases hmem with rfl | rfl
    . decide
    . decide
  obtain ⟨uri, q, huri, hq, hsame, _⟩ := path_returns_from_uri habs hn hdrive
  exact ⟨habs, hn, hdrive, uri, q, huri, hq, hsame⟩

end Uri

end InkServer
