import InkServer.Proofs.Disk.Operations
import InkServer.Proofs.Path.Inside

/-!
This module contains disks that are trees, and the paths into a folder below which there are no links:
they lead to the place that their names say.
-/

namespace InkServer

open Text

namespace Disk

variable {d d' : Disk} {loc l : Location} {n : Node} {m : Name} {ns ms : List Name} {follow : Bool}
  {links : Nat} {ps qs : List Bytes} {t : Target} {p : Path} {content : Bytes} {executable : Bool}

/-- Whatever stands on the disk has a name and stands in a folder, and relative paths start from a
folder. -/
structure IsTree (d : Disk) : Prop where
  isName : ∀ {loc : Location} {m : Name}, d.node? (loc ++ [m]) ≠ none → IsName m
  folder : ∀ {loc : Location} {m : Name}, d.node? (loc ++ [m]) ≠ none → d.node? loc = some .folder
  current : d.node? d.current = some .folder

theorem mem_of_node? (h : loc ≠ []) (hn : d.node? loc = some n) : (loc, n) ∈ d.nodes := by
  rw [node?, if_neg h, List.lookup_eq_some_iff] at hn
  obtain ⟨front, back, hnodes, _⟩ := hn
  rw [hnodes]
  simp

theorem isTree_of_mem (hcurrent : d.node? d.current = some .folder)
    (h : ∀ l n, (l, n) ∈ d.nodes →
      ∃ around m, l = around ++ [m] ∧ IsName m ∧ d.node? around = some .folder) : d.IsTree := by
  have hparts : ∀ loc m, d.node? (loc ++ [m]) ≠ none → IsName m ∧ d.node? loc = some .folder := by
    intro loc m hn
    obtain ⟨n, hn⟩ := Option.ne_none_iff_exists'.mp hn
    obtain ⟨around, k, heq, hk, haround⟩ := h _ n (mem_of_node? (by simp) hn)
    rw [List.append_singleton_inj] at heq
    rw [heq.1, heq.2]
    exact ⟨hk, haround⟩
  exact ⟨fun hn => (hparts _ _ hn).1, fun hn => (hparts _ _ hn).2, hcurrent⟩

theorem IsTree.folder_of_append (h : d.IsTree) (hns : ns ≠ []) (hn : d.node? (loc ++ ns) ≠ none) :
    d.node? loc = some .folder := by
  induction ns generalizing loc with
  | nil => exact absurd rfl hns
  | cons m ns ih =>
    cases ns with
    | nil => exact h.folder hn
    | cons k ns =>
      have hm : d.node? (loc ++ [m]) = some .folder := by
        apply ih (by simp)
        rw [List.append_assoc, List.singleton_append]
        exact hn
      exact @IsTree.folder d h loc m (by simp [hm])

theorem IsTree.node?_ne_none (h : d.IsTree) (hn : d.node? (loc ++ ns) ≠ none) :
    d.node? loc ≠ none := by
  cases ns with
  | nil =>
    rw [List.append_nil] at hn
    exact hn
  | cons m ns =>
    rw [h.folder_of_append (by simp) hn]
    simp

theorem IsTree.node?_dropLast (h : d.IsTree) (hloc : d.node? loc = some .folder) :
    d.node? loc.dropLast = some .folder := by
  rcases List.eq_nil_or_concat loc with hnil | ⟨front, m, hfront⟩
  . rw [hnil]
    rfl
  . rw [List.concat_eq_append] at hfront
    rw [hfront] at hloc
    rw [hfront, List.dropLast_concat]
    exact @IsTree.folder d h front m (by simp [hloc])

/-- What a way leads to stands there, also where nothing was looked up at its end. -/
theorem Way.node?_of_isTree (hd : d.IsTree) (hloc : d.node? loc = some .folder)
    (h : Way d follow links loc ps (.found l n)) : d.node? l = some n := by
  generalize ht : Target.found l n = t at h
  induction h with
  | done =>
    injection ht with hl hn
    rw [hl, hn, hloc]
  | skip _ _ ih => exact ih hloc ht
  | up _ ih => exact ih (hd.node?_dropLast hloc) ht
  | missing => cases ht
  | missingFolder => cases ht
  | enter _ hn _ ih => exact ih hn ht
  | stop _ hn =>
    injection ht with hl hn'
    rw [hl, hn', hn]
  | follow _ _ _ _ _ ih =>
    refine ih ?_ ht
    split
    . rfl
    . exact hloc
  | leaf _ hn =>
    injection ht with hl hn'
    rw [hl, hn', hn]

/-- A place where nothing stands yet lies directly in a folder. -/
theorem Way.missing_of_isTree (hd : d.IsTree) (hloc : d.node? loc = some .folder)
    (hps : ∀ p ∈ ps, slash ∉ p) (h : Way d follow links loc ps t)
    (ht : t = .missing l ∨ t = .missingFolder l) :
    ∃ around m, l = around ++ [m] ∧ IsName m ∧ d.node? around = some .folder := by
  induction h with
  | done => simp at ht
  | skip _ _ ih => exact ih hloc (fun q hq => hps q (.tail _ hq)) ht
  | up _ ih => exact ih (hd.node?_dropLast hloc) (fun q hq => hps q (.tail _ hq)) ht
  | @missing _ loc p hp _ =>
    simp only [Target.missing.injEq, reduceCtorEq, or_false] at ht
    exact ⟨loc, p, ht.symm, ⟨hp.ne_nil, hp.ne_here, hp.ne_up, hps p (.head _)⟩, hloc⟩
  | @missingFolder _ loc p _ hp _ =>
    simp only [Target.missingFolder.injEq, reduceCtorEq, false_or] at ht
    exact ⟨loc, p, ht.symm, ⟨hp.ne_nil, hp.ne_here, hp.ne_up, hps p (.head _)⟩, hloc⟩
  | enter _ hn _ ih => exact ih hn (fun q hq => hps q (.tail _ hq)) ht
  | stop => simp at ht
  | follow _ _ _ _ _ ih =>
    refine ih ?_ ?_ ht
    . split
      . rfl
      . exact hloc
    . intro q hq
      rcases List.mem_append.mp hq with hq | hq
      . exact not_mem_of_mem_pieces hq
      . exact hps q (.tail _ hq)
  | leaf => simp at ht

theorem IsTree.startOf (h : d.IsTree) (p : Path) : d.node? (d.startOf p) = some .folder := by
  unfold Disk.startOf
  split
  . rfl
  . exact h.current

theorem IsTree.node?_of_find (h : d.IsTree) (hf : d.find follow p = .ok (l, n)) :
    d.node? l = some n :=
  (find_eq_ok_iff_way.mp hf).2.node?_of_isTree h (h.startOf p)

theorem IsTree.put_new {around : Location} (h : d.IsTree) (hm : IsName m)
    (haround : d.node? around = some .folder) (hnone : d.node? (around ++ [m]) = none) (n : Node) :
    (d.put (around ++ [m]) n).IsTree := by
  have hkeep := fun l k (hl : d.node? l = some k) => @node?_put_of_some d _ l n k hnone hl
  have hput := fun l => @node?_put d (around ++ [m]) n (by simp) l
  constructor
  . intro loc k hk
    rw [hput] at hk
    split at hk
    . next heq =>
      rw [(List.append_singleton_inj.mp heq).2]
      exact hm
    . exact h.isName hk
  . intro loc k hk
    rw [hput] at hk
    split at hk
    . next heq =>
      rw [(List.append_singleton_inj.mp heq).1]
      exact hkeep _ _ haround
    . exact hkeep _ _ (h.folder hk)
  . exact hkeep _ _ h.current

theorem IsTree.put_missing (h : d.IsTree) (hl : d.locate follow p = .ok t)
    (ht : t = .missing l ∨ t = .missingFolder l) (n : Node) : (d.put l n).IsTree := by
  obtain ⟨_, hway⟩ := locate_eq_ok_iff.mp hl
  have hnone := hway.node?_eq_none ht
  obtain ⟨around, m, heq, hm, haround⟩ :=
    hway.missing_of_isTree h (h.startOf p) (fun q hq => not_mem_of_mem_pieces hq) ht
  rw [heq] at hnone ⊢
  exact h.put_new hm haround hnone n

theorem IsTree.put_file {content' : Bytes} {executable' : Bool} (h : d.IsTree)
    (hl : d.node? l = some (.file content executable)) :
    (d.put l (.file content' executable')).IsTree := by
  have hkeeps : Keeps d (d.put l (.file content' executable')) := .put_file hl
  have hthere : ∀ loc, (d.put l (.file content' executable')).node? loc ≠ none →
      d.node? loc ≠ none := by
    intro loc hn
    rw [node?_put (ne_nil_of_file hl)] at hn
    split at hn
    . next heq => simp [heq, hl]
    . exact hn
  constructor
  . exact fun hn => h.isName (hthere _ hn)
  . exact fun hn => hkeeps.folder (h.folder (hthere _ hn))
  . exact hkeeps.folder h.current

theorem IsTree.store (h : d.IsTree) (hs : d.store p content executable = .ok d') : d'.IsTree := by
  rcases store_eq_ok hs with ⟨l, mode, hd, _, hl⟩ | ⟨hd, _⟩
  . rw [hd]
    rcases hl with hl | ⟨before, hl⟩
    . exact h.put_missing hl (.inl rfl) _
    . exact h.put_file (h.node?_of_find (find_eq_ok_iff.mpr hl))
  . rw [hd]
    exact h

theorem IsTree.makeFolder (h : d.IsTree) (hm : d.makeFolder p = .ok d') : d'.IsTree := by
  obtain ⟨l, hd, _, _, hl⟩ := makeFolder_eq_ok hm
  rw [hd]
  rcases hl with hl | hl
  . exact h.put_missing hl (.inl rfl) _
  . exact h.put_missing hl (.inr rfl) _

theorem lookup_filter_below (loc l : Location) (nodes : List (Location × Node)) :
    (nodes.filter fun (k, _) => !loc.isPrefixOf k).lookup l
      =
    if loc <+: l then none else nodes.lookup l := by
  induction nodes with
  | nil => simp
  | cons entry nodes ih =>
    rcases entry with ⟨k, n⟩
    by_cases hk : loc <+: k
    . rw [List.filter_cons_of_neg (by simpa using hk), ih, List.lookup_cons]
      split
      . rfl
      . next hl =>
        have hne : (l == k) = false := by
          rw [beq_eq_false_iff_ne]
          intro heq
          exact hl (heq ▸ hk)
        rw [hne]
    . have hkept : loc.isPrefixOf k = false := by
        rw [← Bool.not_eq_true, List.isPrefixOf_iff_prefix]
        exact hk
      rw [List.filter_cons_of_pos (by simpa using hkept), List.lookup_cons, List.lookup_cons, ih]
      split
      . next heq =>
        rw [if_neg]
        rw [eq_of_beq heq]
        exact hk
      . rfl

theorem node?_erase (h : loc ≠ []) (l : Location) :
    (d.erase loc).node? l = if loc <+: l then none else d.node? l := by
  unfold node? erase
  split
  . next hl =>
    rw [hl, if_neg (by simpa using h)]
  . exact lookup_filter_below loc l d.nodes

theorem IsTree.eq_of_isPrefix (h : d.IsTree) (hn : d.node? loc = some n) (hne : n ≠ .folder)
    (hl : d.node? l ≠ none) (hpre : loc <+: l) : l = loc := by
  obtain ⟨rest, hrest⟩ := hpre
  rw [← hrest] at hl
  cases rest with
  | nil => simpa using hrest.symm
  | cons m rest =>
    have hfolder := h.folder_of_append (by simp) hl
    rw [hn, Option.some.injEq] at hfolder
    exact absurd hfolder hne

theorem ne_nil_of_not_folder (hn : d.node? loc = some n) (hne : n ≠ .folder) : loc ≠ [] := by
  intro hnil
  rw [hnil, node?_nil, Option.some.injEq] at hn
  exact hne hn.symm

theorem IsTree.node?_erase (h : d.IsTree) (hn : d.node? loc = some n) (hne : n ≠ .folder)
    (l : Location) : (d.erase loc).node? l = if l = loc then none else d.node? l := by
  rw [Disk.node?_erase (ne_nil_of_not_folder hn hne)]
  by_cases hl : l = loc
  . rw [if_pos hl, hl, if_pos List.prefix_rfl]
  . rw [if_neg hl]
    split
    . next hpre =>
      cases hnode : d.node? l with
      | none => rfl
      | some k => exact absurd (h.eq_of_isPrefix hn hne (by simp [hnode]) hpre) hl
    . rfl

theorem IsTree.erase (h : d.IsTree) (hn : d.node? loc = some n) (hne : n ≠ .folder) :
    (d.erase loc).IsTree := by
  have hthere : ∀ {l}, (d.erase loc).node? l ≠ none → d.node? l ≠ none := by
    intro l hl
    rw [h.node?_erase hn hne] at hl
    split at hl
    . exact absurd rfl hl
    . exact hl
  have hfolder : ∀ {l}, d.node? l = some .folder → (d.erase loc).node? l = some .folder := by
    intro l hl
    rw [h.node?_erase hn hne, if_neg, hl]
    intro heq
    rw [heq, hn, Option.some.injEq] at hl
    exact hne hl
  exact ⟨fun hl => h.isName (hthere hl), fun hl => hfolder (h.folder (hthere hl)),
    hfolder h.current⟩

/-- A way to a folder leads on from there, on every disk that has the same folders and links. -/
theorem Way.walk_through (h : Way d true links loc ps (.found l .folder)) :
    ∃ left, ∀ d' : Disk, (∀ k, d.node? k = some .folder → d'.node? k = some .folder) →
      (∀ k target, d.node? k = some (.link target) → d'.node? k = some (.link target)) →
      ∀ follow qs, qs ≠ [] → d'.walk follow links loc (ps ++ qs) = d'.walk follow left l qs := by
  generalize ht : Target.found l .folder = t at h
  induction h with
  | @done links loc =>
    injection ht with hl
    rw [hl]
    exact ⟨links, fun _ _ _ _ _ _ => rfl⟩
  | skip hp _ ih =>
    obtain ⟨left, hleft⟩ := ih ht
    refine ⟨left, ?_⟩
    intro d' hfolders hlinks follow qs hqs
    rw [List.cons_append, walk_skip hp, hleft d' hfolders hlinks follow qs hqs]
  | up _ ih =>
    obtain ⟨left, hleft⟩ := ih ht
    refine ⟨left, ?_⟩
    intro d' hfolders hlinks follow qs hqs
    rw [List.cons_append, walk_up, hleft d' hfolders hlinks follow qs hqs]
  | missing => cases ht
  | missingFolder => cases ht
  | enter hp hn _ ih =>
    obtain ⟨left, hleft⟩ := ih ht
    refine ⟨left, ?_⟩
    intro d' hfolders hlinks follow qs hqs
    rw [List.cons_append, walk_fits hp, hfolders _ hn]
    exact hleft d' hfolders hlinks follow qs hqs
  | stop _ _ hf => cases hf
  | follow hp hn _ htarget _ ih =>
    obtain ⟨left, hleft⟩ := ih ht
    refine ⟨left, ?_⟩
    intro d' hfolders hlinks follow qs hqs
    rw [List.cons_append, walk_fits hp, hlinks _ _ hn]
    dsimp only
    rw [if_neg (by simp [hqs]), if_neg htarget, ← List.append_assoc,
      hleft d' hfolders hlinks follow qs hqs]
  | leaf _ _ hfolder =>
    injection ht with _ hn
    exact absurd hn.symm hfolder

theorem Way.walk_append (h : Way d true links loc ps (.found l .folder)) :
    ∃ left, ∀ follow qs, qs ≠ [] →
      d.walk follow links loc (ps ++ qs) = d.walk follow left l qs := by
  obtain ⟨left, hleft⟩ := h.walk_through
  exact ⟨left, hleft d (fun _ hk => hk) fun _ _ hk => hk⟩

/-- The place at the end of names below a folder, with what stands there. -/
inductive Spot (d : Disk) (loc : Location) : Target → Prop where
  | found {n : Node} (h : d.node? loc = some n) : Spot d loc (.found loc n)
  | missing (h : d.node? loc = none) : Spot d loc (.missing loc)

/-- Without links below a folder, names lead from it to the place that they say. -/
theorem Way.spot (hloc : d.node? loc = some .folder)
    (hplain : ∀ ns target, d.node? (loc ++ ns) ≠ some (.link target))
    (hns : ∀ m ∈ ns, IsName m) (h : Way d follow links loc ns t) :
    (∀ m ∈ ns, m.length ≤ maxName) ∧ Spot d (loc ++ ns) t := by
  induction ns generalizing loc with
  | nil =>
    cases h
    rw [List.append_nil]
    exact ⟨by simp, .found hloc⟩
  | cons m ns ih =>
    have hm := hns m (.head _)
    have hlink := fun target => hplain [m] target
    cases h with
    | skip hp _ => exact absurd hp (by simp [hm.ne_nil, hm.ne_here])
    | up _ => exact absurd rfl hm.ne_up
    | missing hp hn => exact ⟨by simpa using hp.length_le, .missing hn⟩
    | missingFolder _ _ hne hrest =>
      obtain ⟨k, hk⟩ := List.exists_mem_of_ne_nil ns hne
      exact absurd (hrest k hk) (hns k (.tail _ hk)).ne_nil
    | enter hp hn h =>
      have hplain' : ∀ ks target, d.node? (loc ++ [m] ++ ks) ≠ some (.link target) := by
        intro ks target
        rw [List.append_assoc]
        exact hplain _ target
      obtain ⟨hlen, hspot⟩ := ih hn hplain' (fun k hk => hns k (.tail _ hk)) h
      rw [List.append_assoc, List.singleton_append] at hspot
      exact ⟨List.forall_mem_cons.mpr ⟨hp.length_le, hlen⟩, hspot⟩
    | stop _ hn _ => exact absurd hn (hlink _)
    | follow _ hn _ _ _ => exact absurd hn (hlink _)
    | leaf hp hn _ _ => exact ⟨by simpa using hp.length_le, .found hn⟩

theorem Way.of_node? (hd : d.IsTree)
    (hplain : ∀ ns target, d.node? (loc ++ ns) ≠ some (.link target))
    (hns : ∀ m ∈ ns, IsName m ∧ m.length ≤ maxName) (hn : d.node? (loc ++ ns) = some n) :
    ns ≠ [] → Way d follow links loc ns (.found (loc ++ ns) n) := by
  induction ns generalizing loc with
  | nil => exact fun hne => absurd rfl hne
  | cons m ns ih =>
    intro _
    obtain ⟨hm, hlen⟩ := hns m (.head _)
    have hfits : Fits m := ⟨hm.ne_nil, hm.ne_here, hm.ne_up, hlen⟩
    cases ns with
    | nil =>
      cases n with
      | folder => exact .enter hfits hn .done
      | link target => exact absurd hn (hplain [m] target)
      | file content executable => exact .leaf hfits hn (by simp) (by simp)
      | sink => exact .leaf hfits hn (by simp) (by simp)
    | cons k ks =>
      have heq : loc ++ m :: k :: ks = loc ++ [m] ++ k :: ks := by simp
      rw [heq] at hn ⊢
      have hthere : d.node? (loc ++ [m] ++ k :: ks) ≠ none := by
        rw [hn]
        simp
      refine .enter hfits (hd.folder_of_append (by simp) hthere) ?_
      refine ih ?_ (fun j hj => hns j (.tail _ hj)) hn (by simp)
      intro ks target
      rw [List.append_assoc]
      exact hplain _ target

end Disk

/-- The names can be given to the system after the path. -/
structure Path.Spans (p : Path) (ns : List Name) : Prop where
  isProper : (p.inside ns).IsProper
  length_le : ∀ n ∈ ns, n.length ≤ Disk.maxName

theorem Path.Spans.of_append {p : Path} {ns ms : List Name} (hp : p.IsNamed)
    (hns : ∀ n ∈ ns ++ ms, IsName n) (h : p.Spans (ns ++ ms)) : p.Spans ns := by
  have hnames := fun n hn => hns n (List.mem_append_left ms hn)
  have hnamed := hp.inside hnames
  have hmore := fun m hm => hns m (List.mem_append_right ns hm)
  have hproper := h.isProper
  rw [inside_append] at hproper
  refine ⟨⟨hnamed.ne_nil, ?_, ?_⟩, fun n hn => h.length_le n (List.mem_append_left ms hn)⟩
  . exact fun hnul => hproper.nul_not_mem (hnamed.mem_inside hmore hnul)
  . exact Nat.le_trans (hnamed.length_inside_le hmore) hproper.length_le

namespace Disk

variable {d d' : Disk} {loc l : Location} {n : Node} {m : Name} {ns ms : List Name} {follow : Bool}
  {t : Target} {p : Path}

/-- The path leads to a folder of the disk, and there are no links below it. -/
structure Roots (d : Disk) (p : Path) (loc : Location) : Prop where
  isTree : d.IsTree
  isNamed : p.IsNamed
  leads : d.find true p = .ok (loc, .folder)
  plain : ∀ (ns : List Name) (target : Path), d.node? (loc ++ ns) ≠ some (.link target)

namespace Roots

theorem node?_eq (h : d.Roots p loc) : d.node? loc = some .folder :=
  h.isTree.node?_of_find h.leads

theorem locate_inside (h : d.Roots p loc) (hne : ns ≠ []) (hns : ∀ m ∈ ns, IsName m)
    (hl : d.locate follow (p.inside ns) = .ok t) : p.Spans ns ∧ Spot d (loc ++ ns) t := by
  obtain ⟨hp, hway⟩ := locate_eq_ok_iff.mp hl
  obtain ⟨_, hlead⟩ := find_eq_ok_iff_way.mp h.leads
  obtain ⟨left, hleft⟩ := hlead.walk_append
  have hstart : d.startOf (p.inside ns) = d.startOf p := by
    unfold startOf
    rw [h.isNamed.isAbsolute_inside hns]
  rw [← walk_eq_ok_iff, hstart, h.isNamed.pieces_inside hns, hleft follow ns hne,
    walk_eq_ok_iff] at hway
  obtain ⟨hlen, hspot⟩ := hway.spot h.node?_eq h.plain hns
  exact ⟨⟨hp, hlen⟩, hspot⟩

theorem locate_found (h : d.Roots p loc) (hne : ns ≠ []) (hns : ∀ m ∈ ns, IsName m)
    (hp : p.Spans ns) (hn : d.node? (loc ++ ns) = some n) :
    d.locate follow (p.inside ns) = .ok (.found (loc ++ ns) n) := by
  obtain ⟨_, hlead⟩ := find_eq_ok_iff_way.mp h.leads
  obtain ⟨left, hleft⟩ := hlead.walk_append
  have hstart : d.startOf (p.inside ns) = d.startOf p := by
    unfold startOf
    rw [h.isNamed.isAbsolute_inside hns]
  rw [locate_eq_ok_iff]
  refine ⟨hp.isProper, ?_⟩
  rw [← walk_eq_ok_iff, hstart, h.isNamed.pieces_inside hns, hleft follow ns hne, walk_eq_ok_iff]
  exact .of_node? h.isTree h.plain (fun m hm => ⟨hns m hm, hp.length_le m hm⟩) hn hne

theorem find_inside_iff (h : d.Roots p loc) (hne : ns ≠ []) (hns : ∀ m ∈ ns, IsName m) :
    d.find follow (p.inside ns) = .ok (l, n)
      ↔
    p.Spans ns ∧ l = loc ++ ns ∧ d.node? (loc ++ ns) = some n := by
  rw [find_eq_ok_iff]
  constructor
  . intro hl
    obtain ⟨hp, hspot⟩ := h.locate_inside hne hns hl
    cases hspot with
    | found hn => exact ⟨hp, rfl, hn⟩
  . rintro ⟨hp, rfl, hn⟩
    exact h.locate_found hne hns hp hn

theorem find_true_inside_iff (h : d.Roots p loc) (hns : ∀ m ∈ ns, IsName m) :
    d.find true (p.inside ns) = .ok (l, n)
      ↔
    p.Spans ns ∧ l = loc ++ ns ∧ d.node? (loc ++ ns) = some n := by
  by_cases hne : ns = []
  . have hp : p.Spans [] := ⟨(find_eq_ok_iff_way.mp h.leads).1, by simp⟩
    rw [hne, Path.inside_nil, h.leads, List.append_nil, h.node?_eq, Except.ok.injEq, Prod.mk.injEq,
      Option.some.injEq]
    constructor
    . rintro ⟨hl, hn⟩
      exact ⟨hp, hl.symm, hn⟩
    . rintro ⟨_, hl, hn⟩
      exact ⟨hl.symm, hn⟩
  . exact h.find_inside_iff hne hns

end Roots

end Disk

end InkServer
