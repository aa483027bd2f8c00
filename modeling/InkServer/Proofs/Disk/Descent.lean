import InkServer.Proofs.Disk.Change

/-!
This module contains lookups below a folder that may hold links. Names lead through real folders to the
place that they say, and what they find stays the same while the disk changes in a folder that no link
mentions.
-/

namespace InkServer

open Text

namespace Disk

variable {d d' : Disk} {loc l around : Location} {n : Node} {m name : Name} {ns ms : List Name}
  {follow : Bool} {links : Nat} {ps : List Bytes} {p : Path}

/-- The name can stand in a folder. -/
structure Holds (m : Name) : Prop extends IsName m where
  length_le : m.length ≤ maxName

theorem Holds.fits (h : Holds m) : Fits m :=
  ⟨h.ne_nil, h.ne_here, h.ne_up, h.length_le⟩

/-- Names that lead from folder to folder are walked without a link. -/
theorem walk_folders (hd : d.IsTree) (hns : ∀ m ∈ ns, Holds m)
    (hn : d.node? (loc ++ ns) = some .folder) :
    d.walk follow links loc (ns ++ ps) = d.walk follow links (loc ++ ns) ps := by
  induction ns generalizing loc with
  | nil => rw [List.append_nil, List.nil_append]
  | cons m ns ih =>
    have heq : loc ++ m :: ns = loc ++ [m] ++ ns := by simp
    rw [heq] at hn ⊢
    have hm : d.node? (loc ++ [m]) = some .folder := by
      cases ns with
      | nil => rwa [List.append_nil] at hn
      | cons k ks =>
        have hthere : d.node? (loc ++ [m] ++ k :: ks) ≠ none := by
          rw [hn]
          simp
        exact hd.folder_of_append (by simp) hthere
    rw [List.cons_append, walk_fits (hns m (.head _)).fits, hm]
    exact ih (fun k hk => hns k (.tail _ hk)) hn

def NoLinkNames (d : Disk) (name : Name) : Prop :=
  ∀ (l : Location) (target : Path), d.node? l = some (.link target) →
    name ∉ pieces slash target.bytes

theorem not_prefix_concat (hloc : ¬around ++ [name] <+: loc) (hm : m ≠ name) :
    ¬around ++ [name] <+: loc ++ [m] := by
  intro hpre
  rcases List.prefix_concat_iff.mp hpre with heq | hpre
  . exact hm (List.append_singleton_inj.mp heq).2.symm
  . exact hloc hpre

/-- A step is the same on two disks if the same stands there and the walk goes on in the same way. -/
theorem walk_step_congr {q : Bytes} (hq : Fits q) (hsame : d'.node? (loc ++ [q]) = d.node? (loc ++ [q]))
    (henter : d'.walk follow links (loc ++ [q]) ps = d.walk follow links (loc ++ [q]) ps)
    (hfollow : ∀ target left, d.node? (loc ++ [q]) = some (.link target) → links = left + 1 →
      d'.walk follow left (if target.isAbsolute then [] else loc) (pieces slash target.bytes ++ ps)
        =
      d.walk follow left (if target.isAbsolute then [] else loc) (pieces slash target.bytes ++ ps)) :
    d'.walk follow links loc (q :: ps) = d.walk follow links loc (q :: ps) := by
  rw [walk_fits hq, walk_fits hq, hsame]
  cases hn : d.node? (loc ++ [q]) with
  | none => rfl
  | some n =>
    cases n with
    | folder => exact henter
    | link target =>
      cases links with
      | zero => rfl
      | succ left =>
        dsimp only
        rw [hfollow target left hn rfl]
    | file content executable => rfl
    | sink => rfl

theorem walk_of_length (hm : IsName m) (hlen : ¬m.length ≤ maxName) :
    d.walk follow links loc (m :: ps) = .error .nameTooLong :=
  walk_too_long (by simp [hm.ne_nil, hm.ne_here]) hm.ne_up (by omega)

section Outside

variable (hout : ∀ {l}, ¬around ++ [name] <+: l → d'.node? l = d.node? l)
  (hlinks : d.NoLinkNames name)
include hout hlinks

/-- A walk that is not told to does not enter a folder, so what changes in there does not matter. -/
theorem walk_outside (hps : name ∉ ps) (hloc : ¬around ++ [name] <+: loc) :
    d'.walk follow links loc ps = d.walk follow links loc ps := by
  induction links using Nat.strongRecOn generalizing loc ps with
  | ind links ihlinks =>
    induction ps generalizing loc with
    | nil => rw [walk_nil, walk_nil]
    | cons p rest ih =>
      have hrest : name ∉ rest := fun h => hps (.tail _ h)
      by_cases hskip : p = [] ∨ p = [dot]
      . rw [walk_skip hskip, walk_skip hskip, ih hrest hloc]
      . by_cases hup : p = [dot, dot]
        . rw [hup, walk_up, walk_up, ih hrest fun h => hloc (h.trans loc.dropLast_prefix)]
        . by_cases hlen : p.length > maxName
          . rw [walk_too_long hskip hup hlen, walk_too_long hskip hup hlen]
          . have hnext : ¬around ++ [name] <+: loc ++ [p] :=
              not_prefix_concat hloc fun heq => hps (heq ▸ .head _)
            refine walk_step_congr (fits_of_not hskip hup hlen) (hout hnext) (ih hrest hnext) ?_
            intro target left hn hleft
            -- The link does not mention the name, and neither does the rest of the path.
            refine ihlinks left (by omega) ?_ ?_
            . rw [List.mem_append, not_or]
              exact ⟨hlinks _ target hn, hrest⟩
            . split
              . simp
              . exact hloc

/-- What a name finds in a folder outside is not changed either. -/
theorem walk_name_outside (hm : IsName m) (hloc : ¬around ++ [name] <+: loc)
    (hsame : d'.node? (loc ++ [m]) = d.node? (loc ++ [m])) :
    d'.walk follow links loc [m] = d.walk follow links loc [m] := by
  by_cases hlen : m.length ≤ maxName
  . refine walk_step_congr ⟨hm.ne_nil, hm.ne_here, hm.ne_up, hlen⟩ hsame (by rw [walk_nil, walk_nil]) ?_
    intro target left hn _
    refine walk_outside hout hlinks ?_ ?_
    . rw [List.append_nil]
      exact hlinks _ target hn
    . split
      . simp
      . exact hloc
  . rw [walk_of_length hm hlen, walk_of_length hm hlen]

end Outside

theorem walk_name (hm : Holds m) (hn : d.node? (loc ++ [m]) = some n)
    (hlink : follow = true → ∀ target, n ≠ .link target) :
    d.walk follow links loc [m] = .ok (.found (loc ++ [m]) n) := by
  rw [walk_fits hm.fits, hn]
  cases n with
  | folder =>
    exact walk_nil
  | link target =>
    dsimp only
    rw [if_pos]
    refine ⟨rfl, ?_⟩
    cases follow with
    | false => rfl
    | true => exact absurd rfl (hlink rfl target)
  | file content executable => rfl
  | sink => rfl

theorem Way.of_name (hm : IsName m) (h : Way d false links loc [m] (.found l n)) :
    m.length ≤ maxName ∧ l = loc ++ [m] ∧ d.node? (loc ++ [m]) = some n := by
  cases h with
  | skip hp => exact absurd hp (by simp [hm.ne_nil, hm.ne_here])
  | up => exact absurd rfl hm.ne_up
  | enter hp hn h =>
    cases h
    exact ⟨hp.length_le, rfl, hn⟩
  | stop hp hn => exact ⟨hp.length_le, rfl, hn⟩
  | follow _ _ hf => simp at hf
  | leaf hp hn => exact ⟨hp.length_le, rfl, hn⟩

theorem locate_of_isProper (hp : p.IsProper) :
    d.locate follow p = d.walk follow maxLinks (d.startOf p) (pieces slash p.bytes) := by
  have hlen := hp.length_le
  have hnul := hp.nul_not_mem
  rewrite [locate, if_neg hp.ne_nil, if_neg (by simpa using hnul), if_neg (by omega)]
  rfl

/-- Whatever the disk holds, nothing is found at a path that cannot be given to the system. -/
theorem exists_find_error (hp : ¬p.IsProper) :
    ∃ e, ∀ (d : Disk) (follow : Bool), d.find follow p = .error e := by
  unfold find locate
  by_cases hne : p.bytes = []
  . exact ⟨_, fun d follow => by rw [if_pos hne]⟩
  . by_cases hnul : p.bytes.contains 0 = true
    . exact ⟨_, fun d follow => by rw [if_neg hne, if_pos hnul]⟩
    . have hlen : p.bytes.length > maxPath := by
        refine Nat.lt_of_not_le fun hlen => hp ⟨hne, ?_, hlen⟩
        simpa using hnul
      exact ⟨_, fun d follow => by rw [if_neg hne, if_neg hnul, if_pos hlen]⟩

theorem exists_find_false (h : d.find true p = .ok (l, n)) :
    ∃ l' n', d.find false p = .ok (l', n') := by
  obtain ⟨hp, hway⟩ := find_eq_ok_iff_way.mp h
  obtain ⟨l', n', hway'⟩ := hway.of_follow
  exact ⟨l', n', find_eq_ok_iff_way.mpr ⟨hp, hway'⟩⟩

/-- An absolute normal path leads to a folder of the disk, perhaps by way of links. -/
structure Opens (d : Disk) (p : Path) (loc : Location) : Prop where
  isTree : d.IsTree
  isAbsolute : p.isAbsolute = true
  normal : p.normalize = p
  leads : d.find true p = .ok (loc, .folder)

namespace Opens

theorem node?_eq (h : d.Opens p loc) : d.node? loc = some .folder :=
  h.isTree.node?_of_find h.leads

theorem steady (h : d.Opens p loc) (hs : Steady d d') (hd : d'.IsTree) : d'.Opens p loc :=
  ⟨hd, h.isAbsolute, h.normal, hs.find_folder h.leads⟩

/-- What is put into a folder changes no way to another. -/
theorem put_new (h : d.Opens p loc) (hm : IsName m) (haround : d.node? around = some .folder)
    (hnone : d.node? (around ++ [m]) = none) (hlink : ∀ target, n ≠ .link target) :
    (d.put (around ++ [m]) n).Opens p loc :=
  h.steady (.put_new hnone hlink) (h.isTree.put_new hm haround hnone n)

/-- The names of the path lead from the root of the disk to the folder. -/
theorem exists_way (h : d.Opens p loc) :
    ∃ ks : List Name, (∀ k ∈ ks, IsName k) ∧ p = .ofComponents (.root :: ks.map .name)
      ∧ Way d true maxLinks [] ks (.found loc .folder) := by
  obtain ⟨ks, hks, hof⟩ := Path.exists_names_of_isAbsolute h.isAbsolute h.normal
  obtain ⟨_, hway⟩ := find_eq_ok_iff_way.mp h.leads
  refine ⟨ks, hks, hof, ?_⟩
  rw [startOf, if_pos h.isAbsolute] at hway
  by_cases hne : ks = []
  . rw [hof, hne] at hway
    cases hway with
    | skip _ hway =>
      cases hway with
      | skip _ hway => rwa [hne]
      | leaf hp => exact absurd rfl hp.ne_nil
      | enter hp => exact absurd rfl hp.ne_nil
      | follow hp => exact absurd rfl hp.ne_nil
    | enter hp => exact absurd rfl hp.ne_nil
    | follow hp => exact absurd rfl hp.ne_nil
  . rw [hof, Path.pieces_ofComponents_root hne hks, ← walk_eq_ok_iff, walk_skip (.inl rfl),
      walk_eq_ok_iff] at hway
    exact hway

/-- Names after the path are walked from the folder that it leads to. -/
theorem exists_walk_inside (h : d.Opens p loc) :
    ∃ left, ∀ d', Steady d d' → ∀ follow ns, ns ≠ [] → (∀ m ∈ ns, IsName m) →
      d'.walk follow maxLinks (d'.startOf (p.inside ns)) (pieces slash (p.inside ns).bytes)
        =
      d'.walk follow left loc ns := by
  obtain ⟨ks, hks, hof, hway⟩ := h.exists_way
  obtain ⟨left, hleft⟩ := hway.walk_through
  refine ⟨left, ?_⟩
  intro d' hs follow ns hne hns
  have hall : ∀ k ∈ ks ++ ns, IsName k := fun k hk =>
    (List.mem_append.mp hk).elim (hks k) (hns k)
  have habs : ∀ cs, (Path.ofComponents (.root :: cs)).isAbsolute = true := by
    intro cs
    rfl
  rw [hof, Path.inside_ofComponents_root hks hns, Path.pieces_ofComponents_root (by simp [hne]) hall,
    startOf, if_pos (habs _), walk_skip (.inl rfl)]
  exact hleft d' (fun _ => hs.folder) (fun _ _ => hs.link.mpr) follow ns hne

theorem exists_locate_child (h : d.Opens p loc) :
    ∃ left, ∀ d', Steady d d' → d'.IsTree → ∀ {ns m} follow,
      d.node? (loc ++ ns) = some .folder → (∀ k ∈ ns, Holds k) → IsName m →
      (p.inside (ns ++ [m])).IsProper →
      d'.locate follow (p.inside (ns ++ [m])) = d'.walk follow left (loc ++ ns) [m] := by
  obtain ⟨left, hleft⟩ := h.exists_walk_inside
  refine ⟨left, ?_⟩
  intro d' hs hd ns m follow hfolder hns hm hp
  have hnames : ∀ k ∈ ns ++ [m], IsName k := by
    intro k hk
    rcases List.mem_append.mp hk with hk | hk
    . exact (hns k hk).toIsName
    . rw [List.mem_singleton.mp hk]
      exact hm
  rw [locate_of_isProper hp, hleft d' hs follow _ (by simp) hnames,
    walk_folders hd hns (hs.folder hfolder)]

/-- What stands itself in a folder that was reached through real folders. -/
theorem find_child_iff (h : d.Opens p loc) (hfolder : d.node? (loc ++ ns) = some .folder)
    (hns : ∀ k ∈ ns, Holds k) (hm : IsName m) :
    d.find false (p.inside (ns ++ [m])) = .ok (l, n)
      ↔
    (p.inside (ns ++ [m])).IsProper ∧ m.length ≤ maxName ∧ l = loc ++ ns ++ [m]
      ∧ d.node? (loc ++ ns ++ [m]) = some n := by
  obtain ⟨left, hleft⟩ := h.exists_locate_child
  have hlocate := fun hp => hleft d (.refl d) h.isTree false hfolder hns hm hp
  rw [find_eq_ok_iff]
  constructor
  . intro hl
    have hp := (locate_eq_ok_iff.mp hl).1
    rw [hlocate hp, walk_eq_ok_iff] at hl
    exact ⟨hp, hl.of_name hm⟩
  . rintro ⟨hp, hlen, hl, hn⟩
    rw [hlocate hp, hl, walk_name ⟨hm, hlen⟩ hn (by simp)]

theorem find_child_of_node? (h : d.Opens p loc) (hfolder : d.node? (loc ++ ns) = some .folder)
    (hns : ∀ k ∈ ns, Holds k) (hm : Holds m) (hp : (p.inside (ns ++ [m])).IsProper)
    (hn : d.node? (loc ++ ns ++ [m]) = some n) (hlink : follow = true → ∀ target, n ≠ .link target) :
    d.find follow (p.inside (ns ++ [m])) = .ok (loc ++ ns ++ [m], n) := by
  obtain ⟨left, hleft⟩ := h.exists_locate_child
  rw [find_eq_ok_iff, hleft d (.refl d) h.isTree follow hfolder hns hm.toIsName hp,
    walk_name hm hn hlink]

/-- A lookup in a folder outside finds the same after a change in a folder that no link mentions. -/
theorem find_child_outside (h : d.Opens p loc) (hs : Steady d d') (hd : d'.IsTree)
    (hout : ∀ {l}, ¬around ++ [name] <+: l → d'.node? l = d.node? l) (hlinks : d.NoLinkNames name)
    (hfolder : d.node? (loc ++ ns) = some .folder) (hns : ∀ k ∈ ns, Holds k) (hm : IsName m)
    (hloc : ¬around ++ [name] <+: loc ++ ns)
    (hsame : d'.node? (loc ++ ns ++ [m]) = d.node? (loc ++ ns ++ [m])) :
    d'.find follow (p.inside (ns ++ [m])) = d.find follow (p.inside (ns ++ [m])) := by
  by_cases hp : (p.inside (ns ++ [m])).IsProper
  . obtain ⟨left, hleft⟩ := h.exists_locate_child
    unfold find
    rw [hleft d' hs hd follow hfolder hns hm hp, hleft d (.refl d) h.isTree follow hfolder hns hm hp,
      walk_name_outside hout hlinks hm hloc hsame]
  . obtain ⟨e, he⟩ := exists_find_error hp
    rw [he, he]

end Opens

end Disk

end InkServer
