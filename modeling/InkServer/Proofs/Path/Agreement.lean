import InkServer.Proofs.Path.Legible
import InkServer.Proofs.Path.Relative
import InkServer.Workspace.Registry

/-!
This module contains the agreement of the two ways to resolve dots, on the segments of a text and on
the steps of a path. For paths that start at the root and are texts without backslashes both find the
same names, so that a workspace owns just the documents that have a place in its copy.
-/

namespace InkServer

open Text

theorem Text.encode_inj {cs ds : List Char} (h : encode cs = encode ds) : cs = ds := by
  rw [← decodeLossy_encode cs, h, decodeLossy_encode]

namespace LexicalPath

variable {segments resolved : List (List Char)} {segment : List Char}

def step (segment : List Char) : Component :=
  .name (encode segment)

theorem step_inj {s t : List Char} (h : step s = step t) : s = t :=
  encode_inj (Component.name.inj h)

/-- The steps of resolved segments below the root, innermost first. -/
def stack (resolved : List (List Char)) : List Component :=
  resolved.map step ++ [.root]

theorem ofPiece?_encode (segment : List Char) :
    Component.ofPiece? (encode segment)
      =
    if segment = [] ∨ segment = ['.'] then none
    else if segment = upSegment then some .up
    else some (step segment) := by
  have hiff : ∀ ds : List Char, encode segment = encode ds ↔ segment = ds :=
    fun ds => ⟨encode_inj, congrArg encode⟩
  have hnil : encode segment = [] ↔ segment = [] := hiff []
  have hhere : encode segment = [dot] ↔ segment = ['.'] := hiff ['.']
  have hup : encode segment = [dot, dot] ↔ segment = upSegment := hiff upSegment
  unfold Component.ofPiece?
  simp only [hnil, hhere, hup]
  rfl

theorem isOrdinary_addSegment (h : ∀ s ∈ resolved, IsOrdinary s) (segment : List Char) :
    ∀ s ∈ addSegment true resolved segment, IsOrdinary s := by
  have hresolved : IsResolved true resolved.reverse := isResolved_true_iff.mpr (by simpa using h)
  simpa using isResolved_true_iff.mp (hresolved.addSegment segment)

/-- A segment does to the segments before it what its step does to the steps before it. -/
theorem stack_addSegment (h : ∀ s ∈ resolved, IsOrdinary s) (segment : List Char) :
    stack (addSegment true resolved segment)
      =
    (Component.ofPiece? (encode segment)).toList.foldl Path.resolveStep (stack resolved) := by
  rw [ofPiece?_encode]
  unfold addSegment
  split
  . rfl
  . split
    . cases resolved with
      | nil => rfl
      | cons last before =>
        dsimp only
        rw [if_pos (h last (.head _)).2.2]
        rfl
    . rfl

theorem foldl_addSegment (h : ∀ s ∈ resolved, IsOrdinary s) :
    (∀ s ∈ segments.foldl (addSegment true) resolved, IsOrdinary s)
      ∧ stack (segments.foldl (addSegment true) resolved)
        =
      ((segments.map encode).filterMap Component.ofPiece?).foldl Path.resolveStep
        (stack resolved) := by
  induction segments generalizing resolved with
  | nil => exact ⟨h, rfl⟩
  | cons segment segments ih =>
    obtain ⟨hordinary, hstack⟩ := ih (isOrdinary_addSegment h segment)
    rw [stack_addSegment h, ← List.foldl_append] at hstack
    refine ⟨hordinary, ?_⟩
    rw [List.foldl_cons, hstack, List.map_cons, List.filterMap_cons]
    cases Component.ofPiece? (encode segment) with
    | none => rfl
    | some c => rfl

theorem anchor_ofText_slash (cs : List Char) : (ofText ('/' :: cs)).anchor = ⟨none, true⟩ := by
  simp [ofText, hasDrive_slash]

end LexicalPath

namespace Path

open LexicalPath

variable {p b : Path}

theorem IsLegible.exists_text (h : p.IsLegible) :
    ∃ cs, p.bytes = encode ('/' :: cs) ∧ '\\' ∉ cs := by
  obtain ⟨cs, hcs, hback⟩ := h.text
  have habs := h.absolute
  rcases p with ⟨_ | ⟨byte, rest⟩⟩
  . cases habs
  . obtain rfl : byte = slash := by simpa [isAbsolute] using habs
    have htext := congrArg decodeLossy hcs
    rw [decodeLossy_encode, decodeLossy_cons (by decide)] at htext
    rw [← htext] at hcs hback
    exact ⟨_, hcs, fun hmem => hback (.tail _ hmem)⟩

/-- The lexical form of a legible path has its names, from the root, for segments. -/
structure Spelled (p : Path) : Prop where
  anchor : (ofPath p).anchor = ⟨none, true⟩
  ordinary : ∀ s ∈ (ofPath p).segments, IsOrdinary s
  components : p.normalize.components = .root :: (ofPath p).segments.map step

theorem IsLegible.spelled (h : p.IsLegible) : p.Spelled := by
  obtain ⟨cs, hcs, hback⟩ := h.exists_text
  have hof : ofPath p = ofText ('/' :: cs) := by rw [ofPath, hcs, decodeLossy_encode]
  have hp : p = ⟨slash :: encode cs⟩ := congrArg Path.mk hcs
  obtain ⟨hordinary, hstack⟩ := @foldl_addSegment (pieces '/' cs) [] (by simp)
  have hsegments := segments_ofText_slash hback
  refine ⟨by rw [hof, anchor_ofText_slash], ?_, ?_⟩
  . intro s hs
    rw [hof, hsegments, List.mem_reverse] at hs
    exact hordinary s hs
  . rw [components_normalize, hof, hsegments, hp, components_root, steps, pieces_encode, resolve,
      List.foldl_cons]
    have hreverse := congrArg List.reverse hstack
    rw [stack, List.reverse_append, ← List.map_reverse] at hreverse
    exact hreverse.symm

theorem Spelled.isInside_iff (hp : p.Spelled) (hb : b.Spelled) :
    p.isInside b = true
      ↔
    ∃ first rest, (ofPath p).segments = (ofPath b).segments ++ first :: rest := by
  constructor
  . intro h
    obtain ⟨_, _, first, rest, _, hsegments⟩ := of_isInside h
    exact ⟨first, rest, hsegments⟩
  . rintro ⟨first, rest, hsegments⟩
    have hfirst : first ∈ (ofPath p).segments := by
      rw [hsegments]
      exact List.mem_append_right _ (.head _)
    refine isInside_of_segments (hp.anchor.trans hb.anchor.symm) ?_ (hp.ordinary _ hfirst).2.2
      hsegments
    exact fun hup => (hb.ordinary _ hup).2.2 rfl

theorem Spelled.relativeTo?_isSome_iff (hp : p.Spelled) (hb : b.Spelled) :
    (p.relativeTo? b).isSome = true
      ↔
    ∃ first rest, (ofPath p).segments = (ofPath b).segments ++ first :: rest := by
  rw [Option.isSome_iff_exists]
  constructor
  . rintro ⟨rel, hrel⟩
    obtain ⟨cs, hne, hcs, _⟩ := relativeTo?_eq_some_iff.mp hrel
    rw [hp.components, hb.components, List.cons_append, List.cons.injEq] at hcs
    obtain ⟨front, more, hsegments, hfront, hmore⟩ := List.map_eq_append_iff.mp hcs.2
    rw [List.map_inj_right fun s t => step_inj] at hfront
    rw [hfront] at hsegments
    cases more with
    | nil => exact absurd hmore.symm hne
    | cons first rest => exact ⟨first, rest, hsegments⟩
  . rintro ⟨first, rest, hsegments⟩
    refine ⟨_, relativeTo?_eq_some_iff.mpr ⟨(first :: rest).map step, by simp, ?_, rfl⟩⟩
    rw [hp.components, hb.components, hsegments, List.map_append, List.cons_append]

theorem IsLegible.isInside_iff (hp : p.IsLegible) (hb : b.IsLegible) :
    p.isInside b = true ↔ (p.relativeTo? b).isSome = true :=
  (hp.spelled.isInside_iff hb.spelled).trans (hp.spelled.relativeTo?_isSome_iff hb.spelled).symm

end Path

theorem Workspace.scratchPathFor?_isSome_iff {ws : Workspace} (h : ws.scratch.isSome = true)
    (p : Path) :
    (ws.scratchPathFor? p).isSome = true ↔ (p.relativeTo? ws.root).isSome = true := by
  obtain ⟨scratch, hscratch⟩ := Option.isSome_iff_exists.mp h
  unfold scratchPathFor?
  rw [hscratch]
  cases p.relativeTo? ws.root with
  | none => simp
  | some rel => simp

theorem Registry.isInside_of_findOwner? {r : Registry} {p : Path} {ws : Workspace}
    (h : r.findOwner? p = some ws) : p.isInside ws.root = true := by
  unfold findOwner? InkServer.findOwner? at h
  have hin := List.find?_some h
  exact hin

/-- The first workspace that has a place for a legible path is its owner, if it and those before it
have legible roots. -/
theorem Registry.findOwner?_of_first {r : Registry} {p : Path} {ws : Workspace}
    {before after : List Workspace} (hp : p.IsLegible) (hr : r.workspaces = before ++ ws :: after)
    (hroots : ∀ x ∈ before ++ [ws], x.root.IsLegible)
    (hbefore : ∀ x ∈ before, (p.relativeTo? x.root).isSome = false)
    (hws : (p.relativeTo? ws.root).isSome = true) : r.findOwner? p = some ws := by
  rw [findOwner?, InkServer.findOwner?, hr, List.find?_append, List.find?_eq_none.mpr, Option.none_or,
    List.find?_cons_of_pos]
  . exact (hp.isInside_iff (hroots ws (by simp))).mpr hws
  . intro x hx hin
    rw [hp.isInside_iff (hroots x (List.mem_append_left _ hx)), hbefore x hx] at hin
    cases hin

/-- Take a path that starts at the root and is a text without backslashes. It lies inside another one
of this kind by its text just when it has a relative location below it by its steps, and this location
is made of the only names that lead from the one to the other. So a workspace that owns the path has a
place for its copy once there is a scratch folder, and the first workspace that has a place for it is
its owner. -/
theorem Path.IsLegible.owned_as_placed {p : Path} (hp : p.IsLegible) :
    (∀ b : Path, b.IsLegible →
      (p.isInside b = true ↔ (p.relativeTo? b).isSome = true)
        ∧ ∀ rel, p.relativeTo? b = some rel →
          ∃ ns, p.Follows b ns ∧ rel = ofComponents (ns.map .name)
            ∧ ∀ ms, p.Follows b ms → ms = ns)
      ∧ ∀ r : Registry,
        (∀ ws, r.findOwner? p = some ws → ws.root.IsLegible → ws.scratch.isSome = true →
          (ws.scratchPathFor? p).isSome = true)
        ∧ ∀ before ws after, r.workspaces = before ++ ws :: after →
          (∀ x ∈ before ++ [ws], x.root.IsLegible) →
          (∀ x ∈ before, (p.relativeTo? x.root).isSome = false) →
          (p.relativeTo? ws.root).isSome = true → r.findOwner? p = some ws := by
  constructor
  . intro b hb
    refine ⟨hp.isInside_iff hb, ?_⟩
    intro rel hrel
    obtain ⟨ns, hfollows, hof⟩ := (relativeTo?_iff_follows hb.absolute).mp hrel
    exact ⟨ns, hfollows, hof, fun ms hms => hfollows.unique hms⟩
  . intro r
    constructor
    . intro ws hfound hroot hscratch
      rw [Workspace.scratchPathFor?_isSome_iff hscratch]
      exact (hp.isInside_iff hroot).mp (Registry.isInside_of_findOwner? hfound)
    . intro before ws after hr hroots hbefore hws
      exact Registry.findOwner?_of_first hp hr hroots hbefore hws

theorem Path.isLegible_ofString {s : String} (h : (ofString s).isAbsolute = true)
    (hback : '\\' ∉ s.toList) : (ofString s).IsLegible :=
  ⟨h, s.toList, rfl, hback⟩

/-- Two workspaces, one beside the other, of which the second was copied. -/
def siblingRegistry : Registry :=
  ⟨[("/u", ⟨.ofString "/u", .absent, 0⟩), ("/ü/..", ⟨.ofString "/", .ready (.ofString "/s"), 1⟩)]⟩

theorem Path.IsLegible.owned_as_placed_detour :
    let p := Path.ofString "/w/./x//../ü/a.ink"
    (p.isInside (.ofString "/v/../w/") = true
        ∧ p.relativeTo? (.ofString "/v/../w/") = some (.ofString "ü/a.ink"))
      ∧ ∃ ws, siblingRegistry.findOwner? p = some ws ∧ ws.uri = "/ü/.."
        ∧ (ws.scratchPathFor? p).isSome = true := by
  intro p
  have hp : p.IsLegible := isLegible_ofString (by decide) (by decide)
  obtain ⟨hpaths, howner⟩ := owned_as_placed hp
  have hrel : p.relativeTo? (.ofString "/v/../w/") = some (.ofString "ü/a.ink") := by decide
  have hbase : (Path.ofString "/v/../w/").IsLegible := isLegible_ofString (by decide) (by decide)
  have hroots : ∀ x ∈ siblingRegistry.workspaces, x.root.IsLegible := by
    intro x hx
    simp only [siblingRegistry, Registry.workspaces, List.map_cons, List.map_nil, List.mem_cons,
      List.not_mem_nil, or_false] at hx
    rcases hx with rfl | rfl
    . exact isLegible_ofString (by decide) (by decide)
    . exact isLegible_ofString (by decide) (by decide)
  obtain ⟨hplaced, hfirst⟩ := howner siblingRegistry
  have hfound := hfirst [⟨"/u", .ofString "/u", none⟩] ⟨"/ü/..", .ofString "/", some (.ofString "/s")⟩
    [] rfl hroots (by decide) (by decide)
  exact ⟨⟨(hpaths _ hbase).1.mpr (by rw [hrel]; rfl), hrel⟩, _, hfound, rfl,
    hplaced _ hfound (hroots _ (.tail _ (.head _))) rfl⟩

end InkServer
