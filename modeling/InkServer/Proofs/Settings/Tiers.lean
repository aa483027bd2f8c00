import InkServer.Settings.File

/-!
This module contains the law of the tiers of settings: each field has the value of the first tier that
says something about it, whether the tiers are put together first or resolved one over the other.
-/

namespace InkServer

open Text

/-- A text that says something has a character that is not blank. -/
def Telling (text : String) : Prop :=
  ∃ c ∈ text.toList, isBlank c = false

theorem isBlankText_eq_false_iff {text : String} : (!isBlankText text) = true ↔ Telling text := by
  simp [isBlankText, allBlank, Telling]

/-- Only a blank command says nothing. -/
def Shim.Telling : Shim → Prop
  | disabled => True
  | enabled => True
  | through command => InkServer.Telling command

theorem Shim.isInformative_iff {shim : Shim} : shim.isInformative = true ↔ shim.Telling := by
  cases shim with
  | disabled => simp [isInformative, Telling]
  | enabled => simp [isInformative, Telling]
  | through command => exact isBlankText_eq_false_iff

/-- The command that a shim stands for. -/
inductive Shim.Means : Shim → Option String → Prop where
  | disabled : Means disabled none
  | enabled : Means enabled (some "mono")
  | through (command : String) : Means (through command) (some command)

theorem Shim.means_command? (shim : Shim) : shim.Means shim.command? := by
  cases shim with
  | disabled => exact .disabled
  | enabled => exact .enabled
  | through command => exact .through command

/-- The first of the values that is present and says something is `x`. -/
inductive FirstTelling {α : Type} (telling : α → Prop) : List (Option α) → α → Prop where
  | here {x : α} {rest : List (Option α)} (hx : telling x) :
    FirstTelling telling (some x :: rest) x
  | absent {x : α} {rest : List (Option α)} (hrest : FirstTelling telling rest x) :
    FirstTelling telling (none :: rest) x
  | blank {x y : α} {rest : List (Option α)} (hy : ¬ telling y) (hrest : FirstTelling telling rest x) :
    FirstTelling telling (some y :: rest) x

section

variable {α : Type} {telling : α → Prop} {counts : α → Bool} {values : List (Option α)} {x : α}

theorem FirstTelling.tells (h : FirstTelling telling values x) : telling x := by
  induction h with
  | here hx => exact hx
  | absent _ ih => exact ih
  | blank _ _ ih => exact ih

/-- A value in front decides when it says something, and leaves the rest to decide when it does not. -/
theorem FirstTelling.cons (hcounts : ∀ {y : α}, counts y = true ↔ telling y)
    (h : FirstTelling telling values x) (value : Option α) :
    FirstTelling telling (value :: values) ((value.filter counts).getD x) := by
  cases value with
  | none => exact .absent h
  | some y =>
    rw [Option.filter_some]
    split
    . next hy => exact .here (hcounts.mp hy)
    . next hy => exact .blank (fun htelling => hy (hcounts.mpr htelling)) h

/-- The upper value if it counts, or else the lower one, counts exactly if one of the two does. -/
theorem filter_or_filter (counts : α → Bool) (upper lower : Option α) :
    ((upper.filter counts).or lower).filter counts = (upper.filter counts).or (lower.filter counts) := by
  cases upper with
  | none => rfl
  | some y =>
    rw [Option.filter_some]
    split
    . next hy => simp [hy]
    . rfl

end

attribute [ext] Settings

namespace SettingsTier

/-- The upper tier goes first, whichever two of three are put together first. -/
theorem or_assoc (a b c : SettingsTier) : (a.or b).or c = a.or (b.or c) := by
  simp only [or, informative?, informativeShim?, filter_or_filter, Option.or_assoc]

theorem resolve_shim (t : SettingsTier) (defaults : Settings) :
    (t.resolve defaults).shim = (t.informativeShim?.map Shim.command?).getD defaults.shim := by
  unfold resolve
  cases t.informativeShim? with
  | none => rfl
  | some shim => rfl

/-- To resolve two tiers put together is to resolve the upper one over what the lower one gives. -/
theorem resolve_or (a b : SettingsTier) (defaults : Settings) :
    (a.or b).resolve defaults = a.resolve (b.resolve defaults) := by
  have hshim : (a.or b).informativeShim? = a.informativeShim?.or b.informativeShim? := by
    apply filter_or_filter
  have htext : ∀ (upper lower : Option String) (default : String),
      (informative? ((informative? upper).or lower)).getD default
        = (informative? upper).getD ((informative? lower).getD default) := by
    intro upper lower default
    rw [informative?, informative?, filter_or_filter, Option.getD_or]
    rfl
  apply Settings.ext
  . apply htext
  . apply htext
  . rw [resolve_shim, resolve_shim, resolve_shim, hshim, Option.map_or, Option.getD_or]

/-- The tier with the settings of the platform. -/
def platform : SettingsTier :=
  ⟨some "main.ink", some "inklecate", some .disabled⟩

theorem resolve_empty (defaults : Settings) : empty.resolve defaults = defaults := by
  rfl

end SettingsTier

def Shim.expand (env : Environment) : Shim → Shim
  | disabled => disabled
  | enabled => enabled
  | through command => through (env.expandText command)

/-- The tier of a configuration file, with the variables of each field expanded. -/
def Configuration.tier (c : Configuration) (env : Environment) : SettingsTier where
  mainStory := (c.defaults.bind SettingsTier.mainStory).map env.expandText
  inklecate := (c.defaults.bind SettingsTier.inklecate).map env.expandText
  shim := (c.defaults.bind SettingsTier.shim).map (Shim.expand env)

theorem Configuration.settings_eq (c : Configuration) (env : Environment) :
    c.settings env = (c.tier env).resolve .platform := by
  unfold settings tier
  cases c.defaults with
  | none => exact (SettingsTier.resolve_empty _).symm
  | some t =>
    have hshim : (expandTier env t).shim = t.shim.map (Shim.expand env) := by
      apply Option.map_congr
      intro shim _
      cases shim with
      | disabled => rfl
      | enabled => rfl
      | through command => rfl
    have htier : expandTier env t
        = ⟨t.mainStory.map env.expandText, t.inklecate.map env.expandText,
          t.shim.map (Shim.expand env)⟩ := by
      rw [← hshim]
      rfl
    dsimp only [Option.bind_some]
    rw [htier]

namespace Settings

/-- Each field has the value of the first tier that says something about it. -/
structure ToldBy (tiers : List SettingsTier) (s : Settings) : Prop where
  mainStory : FirstTelling Telling (tiers.map SettingsTier.mainStory) s.mainStory
  inklecate : FirstTelling Telling (tiers.map SettingsTier.inklecate) s.inklecate
  shim : ∃ shim, FirstTelling Shim.Telling (tiers.map SettingsTier.shim) shim ∧ shim.Means s.shim

/-- No field is blank. -/
structure Sound (s : Settings) : Prop where
  mainStory : Telling s.mainStory
  inklecate : Telling s.inklecate
  shim : ∀ command, s.shim = some command → Telling command

section

variable {tiers : List SettingsTier} {s : Settings}

theorem toldBy_platform : ToldBy [.platform] .platform where
  mainStory := .here ⟨'m', by decide⟩
  inklecate := .here ⟨'i', by decide⟩
  shim := ⟨.disabled, .here trivial, .disabled⟩

/-- A tier that is resolved over settings comes before the tiers that these are told by. -/
theorem ToldBy.resolve (h : ToldBy tiers s) (t : SettingsTier) :
    ToldBy (t :: tiers) (t.resolve s) where
  mainStory := h.mainStory.cons isBlankText_eq_false_iff t.mainStory
  inklecate := h.inklecate.cons isBlankText_eq_false_iff t.inklecate
  shim := by
    obtain ⟨shim, hfirst, hmeans⟩ := h.shim
    refine ⟨_, hfirst.cons Shim.isInformative_iff t.shim, ?_⟩
    rw [SettingsTier.resolve_shim]
    change Shim.Means (t.informativeShim?.getD shim) _
    cases t.informativeShim? with
    | none => exact hmeans
    | some shim => exact shim.means_command?

theorem ToldBy.sound (h : ToldBy tiers s) : s.Sound where
  mainStory := h.mainStory.tells
  inklecate := h.inklecate.tells
  shim := by
    obtain ⟨shim, hfirst, hmeans⟩ := h.shim
    have htells := hfirst.tells
    intro command hcommand
    rw [hcommand] at hmeans
    cases hmeans with
    | enabled => exact ⟨'m', by decide⟩
    | through => exact htells

end

/-- The settings for a resource have each field from the first tier that says something about it, in
the order of resource, start of the session, configuration file and platform, and so none is blank.
Tiers may be put together in any grouping, and before or after they are resolved. -/
theorem merge_told_by_first (c : Configuration) (env : Environment)
    (resource initial : Option SettingsTier) :
    ToldBy [resource.getD .empty, initial.getD .empty, c.tier env, .platform]
        (merge resource initial (c.settings env))
      ∧ (merge resource initial (c.settings env)).Sound
      ∧ (∀ t u v : SettingsTier, (t.or u).or v = t.or (u.or v))
      ∧ (∀ (t u : SettingsTier) (defaults : Settings),
        (t.or u).resolve defaults = t.resolve (u.resolve defaults)) := by
  have htold : ToldBy [resource.getD .empty, initial.getD .empty, c.tier env, .platform]
      (merge resource initial (c.settings env)) := by
    rw [merge, SettingsTier.resolve_or, c.settings_eq]
    apply ToldBy.resolve
    apply ToldBy.resolve
    apply ToldBy.resolve
    exact toldBy_platform
  exact ⟨htold, htold.sound, SettingsTier.or_assoc, SettingsTier.resolve_or⟩

-- The variable of the file is unset, so its compiler is blank and that of the platform is taken.
example :
    merge (some ⟨some " ", none, some (.through "")⟩) none
        (Configuration.settings ⟨some ⟨some "a.ink", some "$\x7bTOOL\x7d", some .enabled⟩, none⟩ [])
      =
    ⟨"a.ink", "inklecate", some "mono"⟩ := by
  decide +kernel

end Settings

end InkServer
