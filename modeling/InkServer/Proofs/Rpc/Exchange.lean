import InkServer.Proofs.Association
import InkServer.Rpc.Pending

/-!
This module contains the exchange with the editor: requests are made at the same time in any number,
each of them step by step, while replies come in that may be late, repeated or made up. Every reply
goes to the request with its id, or to none.
-/

namespace InkServer

namespace Pending

variable {p : Pending} {id k deadline now : Nat} {body : Json}

theorem isWaiting_eq_true_iff : p.isWaiting id = true ↔ id ∈ p.waiting.map Prod.fst := by
  simp [isWaiting]

@[simp]
theorem isWaiting_enlist : (p.enlist id deadline).isWaiting k = (p.isWaiting k || id == k) := by
  simp [isWaiting, enlist]

@[simp]
theorem isWaiting_abandon : (p.abandon id).isWaiting k = (p.isWaiting k && k != id) := by
  rw [Bool.eq_iff_iff, Bool.and_eq_true, isWaiting_eq_true_iff, isWaiting_eq_true_iff]
  simp only [abandon, List.mem_map, List.mem_filter, bne_iff_ne]
  constructor
  . rintro ⟨a, ⟨ha, hne⟩, rfl⟩
    exact ⟨⟨a, ha, rfl⟩, hne⟩
  . rintro ⟨⟨a, ha, rfl⟩, hne⟩
    exact ⟨a, ⟨ha, hne⟩, rfl⟩

@[simp]
theorem isWaiting_resolve : (p.resolve id body).isWaiting k = (p.isWaiting k && k != id) := by
  unfold resolve
  split
  . exact isWaiting_abandon
  . next h =>
    by_cases hk : k = id
    . simp [hk, h]
    . simp [hk]

theorem resolve_of_not_isWaiting (h : p.isWaiting id = false) : p.resolve id body = p := by
  unfold resolve
  rw [h]
  rfl

theorem lookup_take : (p.take id).replies.lookup k = if k = id then none else p.replies.lookup k := by
  have heq : (p.take id).replies = eraseKey id p.replies := by
    apply List.filter_congr
    intro a _
    rw [Bool.eq_iff_iff]
    simp
  rw [heq, lookup_eraseKey]

theorem lookup_resolve :
    (p.resolve id body).replies.lookup k
      =
    (p.replies.lookup k).or (if p.isWaiting id = true ∧ k = id then some body else none) := by
  unfold resolve
  split
  . next h =>
    rw [List.lookup_append, lookup_cons_eq_ite]
    simp [abandon, h]
  . next h => simp [h]

theorem filter_of_lookup_eq_none {α : Type} {entries : List (Nat × α)} (h : entries.lookup id = none) :
    entries.filter (fun (i, _) => i != id) = entries := by
  rw [List.filter_eq_self]
  intro a ha
  rw [bne_iff_ne]
  rintro rfl
  rw [List.lookup_eq_none_iff] at h
  exact absurd (h a ha) (by simp)

theorem abandon_of_lookup_eq_none (h : p.waiting.lookup id = none) : p.abandon id = p := by
  unfold abandon
  rw [filter_of_lookup_eq_none h]

theorem take_of_lookup_eq_none (h : p.replies.lookup id = none) : p.take id = p := by
  unfold take
  rw [filter_of_lookup_eq_none h]

/-- A request that came to its end was answered, or there is no reply to it yet. -/
theorem complete?_eq_some {p' : Pending} {completion : Completion}
    (h : p.complete? id now = some (completion, p')) :
    (∃ body, completion = .reply body ∧ p.replies.lookup id = some body ∧ p' = p.take id)
      ∨ (completion = .expired ∧ p.replies.lookup id = none ∧ p' = p.abandon id) := by
  unfold complete? at h
  split at h
  . next body hbody =>
    cases h
    exact .inl ⟨body, rfl, hbody, rfl⟩
  . next hnone =>
    refine .inr ?_
    split at h
    . next deadline hdeadline =>
      split at h
      . cases h
        exact ⟨rfl, hnone, rfl⟩
      . cases h
    . next habsent =>
      cases h
      exact ⟨rfl, hnone, (abandon_of_lookup_eq_none habsent).symm⟩

end Pending

namespace Inquiry

/-- Why a request comes to its end without an answer. -/
inductive Fault where
  /-- The connection was closed before it was sent. -/
  | unsent
  | expired

/-- How far a request has come. -/
inductive Phase where
  /-- It has an id. -/
  | drawn
  /-- Replies are let through to it, and it is about to be sent. -/
  | listed
  | sent
  /-- It is about to be taken off the list. -/
  | leaving (why : Fault)
  | failed (why : Fault)
  | answered (body : Json)

def Phase.isFinished : Phase → Bool
  | failed _ => true
  | answered _ => true
  | _ => false

def Phase.isOpen : Phase → Bool
  | drawn => false
  | phase => !phase.isFinished

theorem Phase.isOpen_iff {phase : Phase} :
    phase.isOpen = true ↔ phase ≠ .drawn ∧ phase.isFinished = false := by
  cases phase <;> simp [isOpen, isFinished]

end Inquiry

/-- A request to the editor. -/
structure Inquiry where
  id : Nat
  phase : Inquiry.Phase

/-- The requests that were made, in their order, and those that wait for a reply. -/
structure Exchange where
  pending : Pending
  clock : Nat
  inquiries : List Inquiry

namespace Exchange

def start : Exchange :=
  ⟨.empty, 0, []⟩

/-- Something that happens: a step of a request, which is named by its place, or of the editor. -/
inductive Act where
  | draw
  | enlist (i : Nat)
  | send (i : Nat)
  /-- The request cannot be sent any more. -/
  | lose (i : Nat)
  | expire (i : Nat)
  | drop (i : Nat)
  | answer (i : Nat)
  /-- The editor sends a reply. -/
  | receive (id : Nat) (body : Json)
  | tick

namespace Act

def subject? : Act → Option Nat
  | enlist i => some i
  | send i => some i
  | lose i => some i
  | expire i => some i
  | drop i => some i
  | answer i => some i
  | _ => none

def enlists (i : Nat) : Act → Bool
  | enlist j => i = j
  | _ => false

def reply? (id : Nat) : Act → Option Json
  | receive k body => if k = id then some body else none
  | _ => none

theorem reply?_eq_some_iff {a : Act} {id : Nat} {body : Json} :
    a.reply? id = some body ↔ a = .receive id body := by
  cases a with
  | receive k b =>
    simp only [reply?, receive.injEq]
    split
    . next hk => simp [hk]
    . next hk => simp [hk]
  | _ => simp [reply?]

end Act

/-- The steps of the exchange. The reply to a request is looked at before the clock. -/
inductive Takes (x : Exchange) : Act → Exchange → Prop where
  | draw :
    Takes x .draw
      { x with pending := x.pending.draw.2, inquiries := x.inquiries ++ [⟨x.pending.draw.1, .drawn⟩] }
  | enlist {i id : Nat} (h : x.inquiries[i]? = some ⟨id, .drawn⟩) (deadline : Nat) :
    Takes x (.enlist i)
      { x with
        pending := x.pending.enlist id deadline
        inquiries := x.inquiries.set i ⟨id, .listed⟩ }
  | send {i id : Nat} (h : x.inquiries[i]? = some ⟨id, .listed⟩) :
    Takes x (.send i) { x with inquiries := x.inquiries.set i ⟨id, .sent⟩ }
  | lose {i id : Nat} (h : x.inquiries[i]? = some ⟨id, .listed⟩) :
    Takes x (.lose i) { x with inquiries := x.inquiries.set i ⟨id, .leaving .unsent⟩ }
  | expire {i id : Nat} {p : Pending} (h : x.inquiries[i]? = some ⟨id, .sent⟩)
    (hexpired : x.pending.complete? id x.clock = some (.expired, p)) :
    Takes x (.expire i) { x with inquiries := x.inquiries.set i ⟨id, .leaving .expired⟩ }
  | drop {i id : Nat} {why : Inquiry.Fault} (h : x.inquiries[i]? = some ⟨id, .leaving why⟩) :
    Takes x (.drop i)
      { x with
        pending := (x.pending.abandon id).take id
        inquiries := x.inquiries.set i ⟨id, .failed why⟩ }
  | answer {i id : Nat} {p : Pending} {body : Json} (h : x.inquiries[i]? = some ⟨id, .sent⟩)
    (hreply : x.pending.complete? id x.clock = some (.reply body, p)) :
    Takes x (.answer i)
      { x with pending := p, inquiries := x.inquiries.set i ⟨id, .answered body⟩ }
  | receive (id : Nat) (body : Json) :
    Takes x (.receive id body) { x with pending := x.pending.resolve id body }
  | tick : Takes x .tick { x with clock := x.clock + 1 }

/-- What happened so far, the latest first. -/
inductive Run : List Act → Exchange → Prop where
  | start : Run [] .start
  | step {acts : List Act} {a : Act} {x y : Exchange} (h : Run acts x) (ht : x.Takes a y) :
    Run (a :: acts) y

/-- The first reply to a request since it was put on the list. -/
def firstReply? (i id : Nat) : List Act → Option Json
  | [] => none
  | a :: acts =>
    (firstReply? i id acts).or (if acts.any (Act.enlists i) then a.reply? id else none)

/-- A reply to the request came in after it was put on the list. -/
def Resolved (i id : Nat) (acts : List Act) : Prop :=
  ∃ later before body, acts = later ++ .enlist i :: before ∧ .receive id body ∈ later

section

variable {i id : Nat} {a : Act} {acts between before : List Act} {body : Json}

theorem any_enlists_iff : acts.any (Act.enlists i) = true ↔ .enlist i ∈ acts := by
  rw [List.any_eq_true]
  constructor
  . rintro ⟨a, ha, henlists⟩
    cases a with
    | enlist j =>
      rw [of_decide_eq_true henlists]
      exact ha
    | _ => cases henlists
  . exact fun h => ⟨_, h, decide_eq_true rfl⟩

theorem firstReply?_cons (h : a.reply? id = none) :
    firstReply? i id (a :: acts) = firstReply? i id acts := by
  rw [firstReply?, h]
  simp

theorem firstReply?_of_not_mem (h : .enlist i ∉ acts) : firstReply? i id acts = none := by
  induction acts with
  | nil => rfl
  | cons a acts ih =>
    have hrest : .enlist i ∉ acts := fun hmem => h (.tail _ hmem)
    rw [firstReply?, ih hrest, if_neg (mt any_enlists_iff.mp hrest)]
    rfl

theorem not_mem_of_firstReply?_eq_none
    (h : firstReply? i id (between ++ .enlist i :: before) = none) (body : Json) :
    .receive id body ∉ between := by
  induction between with
  | nil => simp
  | cons a between ih =>
    have hany : (between ++ .enlist i :: before).any (Act.enlists i) = true := by
      rw [any_enlists_iff]
      simp
    rw [List.cons_append, firstReply?, hany, if_pos rfl, Option.or_eq_none_iff] at h
    rw [List.mem_cons, not_or]
    refine ⟨?_, ih h.1⟩
    rintro rfl
    simp [Act.reply?] at h

theorem firstReply?_eq_some (h : firstReply? i id acts = some body) :
    ∃ later between before,
      acts = later ++ .receive id body :: (between ++ .enlist i :: before)
        ∧ ∀ other, .receive id other ∉ between := by
  induction acts with
  | nil => cases h
  | cons a acts ih =>
    rw [firstReply?, Option.or_eq_some_iff] at h
    rcases h with h | ⟨hnone, h⟩
    . obtain ⟨later, between, before, heq, hbetween⟩ := ih h
      exact ⟨a :: later, between, before, by rw [heq]; rfl, hbetween⟩
    . split at h
      . next hany =>
        obtain ⟨between, before, heq⟩ := List.append_of_mem (any_enlists_iff.mp hany)
        rw [heq] at hnone
        rw [Act.reply?_eq_some_iff.mp h, heq]
        exact ⟨[], between, before, rfl, not_mem_of_firstReply?_eq_none hnone⟩
      . cases h

theorem resolved_iff : Resolved i id acts ↔ firstReply? i id acts ≠ none := by
  constructor
  . rintro ⟨later, before, body, rfl, hmem⟩ hnone
    exact not_mem_of_firstReply?_eq_none hnone body hmem
  . intro h
    obtain ⟨body, hbody⟩ := Option.ne_none_iff_exists'.mp h
    obtain ⟨later, between, before, heq, _⟩ := firstReply?_eq_some hbody
    refine ⟨later ++ .receive id body :: between, before, body, ?_, by simp⟩
    rw [heq]
    simp

end

/-- The list and the replies are as the phase of the request and the replies so far say. -/
structure Accounted (acts : List Act) (p : Pending) (i : Nat) (r : Inquiry) : Prop where
  listed : .enlist i ∈ acts ↔ r.phase ≠ .drawn
  waiting : p.isWaiting r.id = (r.phase.isOpen && (firstReply? i r.id acts).isNone)
  reply : p.replies.lookup r.id = if r.phase.isOpen then firstReply? i r.id acts else none
  answered : ∀ body, r.phase = .answered body → firstReply? i r.id acts = some body
  expired : .expire i ∈ acts → r.phase = .leaving .expired ∨ r.phase = .failed .expired

structure Sound (acts : List Act) (x : Exchange) : Prop where
  ascending : (x.inquiries.map Inquiry.id).Pairwise (· < ·)
  fresh : ∀ id ∈ x.inquiries.map Inquiry.id, id < x.pending.next
  accounted : ∀ i r, x.inquiries[i]? = some r → Accounted acts x.pending i r
  known : ∀ id, id ∉ x.inquiries.map Inquiry.id →
    x.pending.isWaiting id = false ∧ x.pending.replies.lookup id = none
  unborn : ∀ i, x.inquiries[i]? = none → .enlist i ∉ acts ∧ .expire i ∉ acts

section

variable {i id : Nat} {a : Act} {acts : List Act} {body : Json} {x y : Exchange} {p p' : Pending}
  {r : Inquiry} {phase phase' : Inquiry.Phase}

theorem Accounted.frame (h : Accounted acts p i r) (hreply : a.reply? r.id = none)
    (hsubject : a.subject? ≠ some i) (hwaiting : p'.isWaiting r.id = p.isWaiting r.id)
    (hlookup : p'.replies.lookup r.id = p.replies.lookup r.id) : Accounted (a :: acts) p' i r := by
  have hlisted : .enlist i ∈ a :: acts ↔ .enlist i ∈ acts := by
    rw [List.mem_cons, or_iff_right]
    rintro rfl
    exact hsubject rfl
  have hexpired : .expire i ∈ a :: acts ↔ .expire i ∈ acts := by
    rw [List.mem_cons, or_iff_right]
    rintro rfl
    exact hsubject rfl
  constructor
  . rw [hlisted]
    exact h.listed
  . rw [hwaiting, firstReply?_cons hreply]
    exact h.waiting
  . rw [hlookup, firstReply?_cons hreply]
    exact h.reply
  . rw [firstReply?_cons hreply]
    exact h.answered
  . rw [hexpired]
    exact h.expired

/-- A request goes on, and replies are still let through to it. -/
theorem Accounted.move (h : Accounted acts p i ⟨id, phase⟩) (hopen : phase.isOpen = true)
    (hopen' : phase'.isOpen = true) (hreply : ∀ k, a.reply? k = none)
    (hexpired : .expire i ∈ a :: acts → phase' = .leaving .expired) :
    Accounted (a :: acts) p i ⟨id, phase'⟩ := by
  have hlisted := h.listed.mpr (Inquiry.Phase.isOpen_iff.mp hopen).1
  constructor
  . exact iff_of_true (.tail _ hlisted) (Inquiry.Phase.isOpen_iff.mp hopen').1
  . have hwaiting := h.waiting
    dsimp only at hwaiting ⊢
    rw [hwaiting, hopen, hopen', firstReply?_cons (hreply id)]
  . have hlookup := h.reply
    dsimp only at hlookup ⊢
    rw [hlookup, hopen, hopen', firstReply?_cons (hreply id)]
  . intro body hbody
    have hbody : phase' = .answered body := hbody
    rw [hbody] at hopen'
    cases hopen'
  . exact fun hmem => .inl (hexpired hmem)

theorem Sound.eq_of_id_eq {j : Nat} {r' : Inquiry} (h : Sound acts x)
    (hr : x.inquiries[i]? = some r) (hr' : x.inquiries[j]? = some r') (hid : r.id = r'.id) :
    i = j := by
  have hnodup : (x.inquiries.map Inquiry.id).Nodup := h.ascending.imp Nat.ne_of_lt
  have hi : (x.inquiries.map Inquiry.id)[i]? = some r.id := by simp [hr]
  have hj : (x.inquiries.map Inquiry.id)[j]? = some r.id := by simp [hr', hid]
  obtain ⟨hlt, _⟩ := List.getElem?_eq_some_iff.mp hi
  exact (List.getElem?_inj hlt hnodup).mp (hi.trans hj.symm)

theorem Sound.put (h : Sound acts x) (hr : x.inquiries[i]? = some ⟨id, phase⟩)
    (hsubject : a.subject? = some i) (hnext : p.next = x.pending.next)
    (hothers : ∀ k, k ≠ id → p.isWaiting k = x.pending.isWaiting k
      ∧ p.replies.lookup k = x.pending.replies.lookup k)
    (hself : Accounted acts x.pending i ⟨id, phase⟩ → Accounted (a :: acts) p i ⟨id, phase'⟩) :
    Sound (a :: acts) { x with pending := p, inquiries := x.inquiries.set i ⟨id, phase'⟩ } := by
  have hids : (x.inquiries.set i ⟨id, phase'⟩).map Inquiry.id = x.inquiries.map Inquiry.id := by
    have hi : (x.inquiries.map Inquiry.id)[i]? = some id := by simp [hr]
    obtain ⟨hlt, hget⟩ := List.getElem?_eq_some_iff.mp hi
    calc (x.inquiries.set i ⟨id, phase'⟩).map Inquiry.id
      _ = (x.inquiries.map Inquiry.id).set i (x.inquiries.map Inquiry.id)[i] := by
        rw [List.map_set, hget]
      _ = x.inquiries.map Inquiry.id := List.set_getElem_self hlt
  have hreply : ∀ k, a.reply? k = none := by
    intro k
    cases a with
    | receive k b => cases hsubject
    | _ => rfl
  have hmem : id ∈ x.inquiries.map Inquiry.id :=
    List.mem_map.mpr ⟨_, List.mem_of_getElem? hr, rfl⟩
  constructor
  . rw [hids]
    exact h.ascending
  . rw [hids]
    dsimp only
    rw [hnext]
    exact h.fresh
  . intro j r' hr'
    by_cases hj : j = i
    . subst hj
      rw [List.getElem?_set_self (List.getElem?_eq_some_iff.mp hr).1, Option.some.injEq] at hr'
      rw [← hr']
      exact hself (h.accounted j _ hr)
    . rw [List.getElem?_set_ne (Ne.symm hj)] at hr'
      have hne : r'.id ≠ id := fun heq => hj (h.eq_of_id_eq hr' hr heq)
      refine (h.accounted j r' hr').frame (hreply _) ?_ (hothers _ hne).1 (hothers _ hne).2
      rw [hsubject]
      intro heq
      exact hj (Option.some.inj heq).symm
  . intro k hk
    rw [hids] at hk
    have hne : k ≠ id := fun heq => hk (heq ▸ hmem)
    dsimp only
    rw [(hothers k hne).1, (hothers k hne).2]
    exact h.known k hk
  . intro j hj
    have hlt : ¬ j < x.inquiries.length := by simpa using hj
    have hne : j ≠ i := by
      rintro rfl
      exact hlt (List.getElem?_eq_some_iff.mp hr).1
    obtain ⟨henlist, hexpire⟩ := h.unborn j (List.getElem?_eq_none (Nat.le_of_not_lt hlt))
    constructor
    . rw [List.mem_cons, not_or]
      refine ⟨?_, henlist⟩
      rintro rfl
      exact hne (Option.some.inj hsubject)
    . rw [List.mem_cons, not_or]
      refine ⟨?_, hexpire⟩
      rintro rfl
      exact hne (Option.some.inj hsubject)

theorem Sound.draw (h : Sound acts x) :
    Sound (.draw :: acts)
      { x with pending := x.pending.draw.2, inquiries := x.inquiries ++ [⟨x.pending.next, .drawn⟩] } := by
  have hnew : x.pending.next ∉ x.inquiries.map Inquiry.id :=
    fun hmem => Nat.lt_irrefl _ (h.fresh _ hmem)
  have hids : (x.inquiries ++ [Inquiry.mk x.pending.next .drawn]).map Inquiry.id
      = x.inquiries.map Inquiry.id ++ [x.pending.next] := List.map_append
  constructor
  . rw [hids, List.pairwise_append]
    refine ⟨h.ascending, List.pairwise_singleton _ _, ?_⟩
    intro k hk k' hk'
    rw [List.mem_singleton.mp hk']
    exact h.fresh k hk
  . intro k hk
    rw [hids, List.mem_append, List.mem_singleton] at hk
    rcases hk with hk | hk
    . exact Nat.lt_succ_of_lt (h.fresh k hk)
    . rw [hk]
      exact Nat.lt_succ_self _
  . intro i r hr
    rcases Nat.lt_or_ge i x.inquiries.length with hi | hi
    . rw [List.getElem?_append_left hi] at hr
      exact (h.accounted i r hr).frame rfl (by simp [Act.subject?]) rfl rfl
    . -- Nothing happened to the new request yet.
      obtain ⟨henlist, hexpire⟩ := h.unborn i (List.getElem?_eq_none hi)
      obtain ⟨hwaiting, hreply⟩ := h.known _ hnew
      rw [List.getElem?_append_right hi] at hr
      have hr : r = ⟨x.pending.next, .drawn⟩ := List.mem_singleton.mp (List.mem_of_getElem? hr)
      subst hr
      constructor
      . simp [henlist]
      . exact hwaiting
      . exact hreply
      . simp
      . simp [hexpire]
  . intro k hk
    rw [hids, List.mem_append, not_or] at hk
    exact h.known k hk.1
  . intro i hi
    have hle : x.inquiries.length + 1 ≤ i := by simpa using hi
    obtain ⟨henlist, hexpire⟩ := h.unborn i (List.getElem?_eq_none (by omega))
    exact ⟨by simp [henlist], by simp [hexpire]⟩

theorem Accounted.receive (h : Accounted acts p i r) (id : Nat) (body : Json) :
    Accounted (.receive id body :: acts) (p.resolve id body) i r := by
  by_cases hid : r.id = id
  . subst hid
    have hfirst : r.phase.isOpen = true → firstReply? i r.id (.receive r.id body :: acts)
        = (firstReply? i r.id acts).or (some body) := by
      intro hopen
      have hany : acts.any (Act.enlists i) = true := by
        rw [any_enlists_iff, h.listed]
        exact (Inquiry.Phase.isOpen_iff.mp hopen).1
      rw [firstReply?, if_pos hany]
      simp [Act.reply?]
    constructor
    . simpa using h.listed
    . rw [Pending.isWaiting_resolve]
      cases hopen : r.phase.isOpen with
      | false => simp
      | true => simp [hfirst hopen]
    . rw [Pending.lookup_resolve, h.reply, h.waiting]
      cases hopen : r.phase.isOpen with
      | false => simp
      | true =>
        rw [hfirst hopen]
        cases firstReply? i r.id acts with
        | none => simp
        | some first => simp
    . intro b hb
      rw [firstReply?, h.answered b hb]
      rfl
    . simpa using h.expired
  . refine h.frame (by simp [Act.reply?, Ne.symm hid]) (by simp [Act.subject?]) ?_ ?_
    . simp [hid]
    . simp [Pending.lookup_resolve, hid]

theorem Sound.receive (h : Sound acts x) (id : Nat) (body : Json) :
    Sound (.receive id body :: acts) { x with pending := x.pending.resolve id body } := by
  constructor
  . exact h.ascending
  . unfold Pending.resolve
    split
    . exact h.fresh
    . exact h.fresh
  . exact fun i r hr => (h.accounted i r hr).receive id body
  . intro k hk
    obtain ⟨hwaiting, hreply⟩ := h.known k hk
    refine ⟨by simp [hwaiting], ?_⟩
    rw [Pending.lookup_resolve, hreply, if_neg]
    . rfl
    . rintro ⟨hid, rfl⟩
      rw [hwaiting] at hid
      cases hid
  . simpa using h.unborn

theorem Sound.takes (h : Sound acts x) (ht : x.Takes a y) : Sound (a :: acts) y := by
  cases ht with
  | draw => exact h.draw
  | @enlist i id hr deadline =>
    refine h.put hr rfl rfl ?_ ?_
    . intro k hk
      exact ⟨by simp [Ne.symm hk], rfl⟩
    . intro hself
      have hnot : .enlist i ∉ acts := fun hmem => hself.listed.mp hmem rfl
      have hfirst : firstReply? i id (.enlist i :: acts) = none :=
        (firstReply?_cons rfl).trans (firstReply?_of_not_mem hnot)
      constructor
      . simp
      . rw [hfirst]
        simp [Inquiry.Phase.isOpen, Inquiry.Phase.isFinished]
      . rw [hfirst]
        exact hself.reply
      . simp
      . intro hmem
        rcases hself.expired (by simpa using hmem) with hp | hp
        . cases hp
        . cases hp
  | @send i id hr =>
    refine h.put hr rfl rfl (fun _ _ => ⟨rfl, rfl⟩) ?_
    intro hself
    refine hself.move rfl rfl (fun _ => rfl) ?_
    intro hmem
    rcases hself.expired (by simpa using hmem) with hp | hp
    . cases hp
    . cases hp
  | @lose i id hr =>
    refine h.put hr rfl rfl (fun _ _ => ⟨rfl, rfl⟩) ?_
    intro hself
    refine hself.move rfl rfl (fun _ => rfl) ?_
    intro hmem
    rcases hself.expired (by simpa using hmem) with hp | hp
    . cases hp
    . cases hp
  | @expire i id p hr hexpired =>
    refine h.put hr rfl rfl (fun _ _ => ⟨rfl, rfl⟩) ?_
    intro hself
    exact hself.move rfl rfl (fun _ => rfl) (fun _ => rfl)
  | @drop i id why hr =>
    refine h.put hr rfl rfl ?_ ?_
    . intro k hk
      refine ⟨?_, by rw [Pending.lookup_take, if_neg hk]; rfl⟩
      exact Pending.isWaiting_abandon.trans (by simp [hk])
    . intro hself
      constructor
      . simpa using hself.listed
      . exact Pending.isWaiting_abandon.trans (by simp [Inquiry.Phase.isOpen, Inquiry.Phase.isFinished])
      . exact Pending.lookup_take.trans (by simp [Inquiry.Phase.isOpen, Inquiry.Phase.isFinished])
      . simp
      . intro hmem
        rcases hself.expired (by simpa using hmem) with hp | hp
        . cases hp
          exact .inr rfl
        . cases hp
  | @answer i id p body hr hreply =>
    rcases Pending.complete?_eq_some hreply with ⟨_, heq, hlookup, rfl⟩ | ⟨heq, _⟩
    . cases heq
      refine h.put hr rfl rfl ?_ ?_
      . intro k hk
        exact ⟨rfl, by rw [Pending.lookup_take, if_neg hk]⟩
      . intro hself
        have hfirst : firstReply? i id acts = some body := hself.reply.symm.trans hlookup
        constructor
        . simpa using hself.listed
        . have hwaiting := hself.waiting
          rw [hfirst] at hwaiting
          exact hwaiting.trans (by simp [Inquiry.Phase.isOpen, Inquiry.Phase.isFinished])
        . exact Pending.lookup_take.trans (by simp [Inquiry.Phase.isOpen, Inquiry.Phase.isFinished])
        . intro b hb
          cases hb
          exact (firstReply?_cons rfl).trans hfirst
        . intro hmem
          rcases hself.expired (by simpa using hmem) with hp | hp
          . cases hp
          . cases hp
    . cases heq
  | receive id body => exact h.receive id body
  | tick =>
    exact ⟨h.ascending, h.fresh, fun i r hr => (h.accounted i r hr).frame rfl (by simp [Act.subject?]) rfl
      rfl, h.known, by simpa using h.unborn⟩

theorem Run.sound (h : Run acts x) : Sound acts x := by
  induction h with
  | start => exact ⟨.nil, by simp [Exchange.start], by simp [Exchange.start], fun _ _ => ⟨rfl, rfl⟩, by simp⟩
  | step _ ht ih => exact ih.takes ht

/-- Exactly those requests are on the list that were put on it, were not replied to since, and are not
finished. -/
theorem Sound.isWaiting_iff (h : Sound acts x) :
    x.pending.isWaiting id = true
      ↔
    ∃ i r, x.inquiries[i]? = some r ∧ r.id = id ∧ .enlist i ∈ acts ∧ ¬Resolved i id acts
      ∧ r.phase.isFinished = false := by
  constructor
  . intro hwaiting
    have hmem : id ∈ x.inquiries.map Inquiry.id := by
      apply Classical.byContradiction
      intro hnot
      rw [(h.known id hnot).1] at hwaiting
      cases hwaiting
    obtain ⟨r, hr, hid⟩ := List.mem_map.mp hmem
    obtain ⟨i, hi⟩ := List.getElem?_of_mem hr
    subst hid
    have hself := h.accounted i r hi
    rw [hself.waiting, Bool.and_eq_true, Option.isNone_iff_eq_none] at hwaiting
    obtain ⟨hdrawn, hfinished⟩ := Inquiry.Phase.isOpen_iff.mp hwaiting.1
    exact ⟨i, r, hi, rfl, hself.listed.mpr hdrawn, fun hr => resolved_iff.mp hr hwaiting.2, hfinished⟩
  . rintro ⟨i, r, hi, rfl, hlisted, hresolved, hfinished⟩
    have hself := h.accounted i r hi
    have hopen := Inquiry.Phase.isOpen_iff.mpr ⟨hself.listed.mp hlisted, hfinished⟩
    have hnone : firstReply? i r.id acts = none :=
      Classical.byContradiction fun hne => hresolved (resolved_iff.mpr hne)
    rw [hself.waiting, hopen, hnone]
    rfl

/-- Any number of requests are made at the same time, and the editor replies to them as it likes. The
list holds exactly the requests that were put on it, were not replied to since, and are not finished;
no two requests have one id; a request is answered with the first reply under its id since it was put
on the list, and only if its time was not over before; any other reply changes nothing; and a request
that is finished leaves nothing behind. -/
theorem Run.replies_reach_requests (h : Run acts x) :
    (∀ id, x.pending.isWaiting id = true ↔
        ∃ i r, x.inquiries[i]? = some r ∧ r.id = id ∧ .enlist i ∈ acts ∧ ¬Resolved i id acts
          ∧ r.phase.isFinished = false)
      ∧ (x.inquiries.map Inquiry.id).Nodup
      ∧ (∀ i (r : Inquiry) body, x.inquiries[i]? = some r → r.phase = .answered body →
        (∃ later between before,
            acts = later ++ .receive r.id body :: (between ++ .enlist i :: before)
              ∧ ∀ other, .receive r.id other ∉ between)
          ∧ .expire i ∉ acts)
      ∧ (∀ id body,
        (∀ i (r : Inquiry), x.inquiries[i]? = some r → r.id = id →
          .enlist i ∉ acts ∨ r.phase.isFinished = true ∨ Resolved i id acts) →
        x.pending.resolve id body = x.pending)
      ∧ ∀ (i : Nat) (r : Inquiry), x.inquiries[i]? = some r → r.phase.isFinished = true →
        x.pending.isWaiting r.id = false ∧ x.pending.replies.lookup r.id = none := by
  have hsound := h.sound
  refine ⟨fun id => hsound.isWaiting_iff, hsound.ascending.imp Nat.ne_of_lt, ?_, ?_, ?_⟩
  . intro i r body hr hbody
    have hself := hsound.accounted i r hr
    refine ⟨firstReply?_eq_some (hself.answered body hbody), ?_⟩
    intro hexpired
    rcases hself.expired hexpired with hp | hp
    . rw [hbody] at hp
      cases hp
    . rw [hbody] at hp
      cases hp
  . intro id body hnone
    apply Pending.resolve_of_not_isWaiting
    rw [Bool.eq_false_iff]
    intro hwaiting
    obtain ⟨i, r, hr, hid, hlisted, hresolved, hfinished⟩ := hsound.isWaiting_iff.mp hwaiting
    rcases hnone i r hr hid with hnot | hend | hreply
    . exact hnot hlisted
    . rw [hfinished] at hend
      cases hend
    . exact hresolved hreply
  . intro i r hr hfinished
    have hself := hsound.accounted i r hr
    have hopen : r.phase.isOpen = false := by
      rw [Bool.eq_false_iff]
      intro hopen
      rw [(Inquiry.Phase.isOpen_iff.mp hopen).2] at hfinished
      cases hfinished
    rw [hself.waiting, hself.reply, hopen]
    exact ⟨rfl, rfl⟩

/-- Two requests: a reply comes before there is a request, the first request gets two replies, and the
second one none in time. -/
def crossedActs : List Act :=
  [.drop 1, .answer 0, .receive 1 (.string "again"), .expire 1, .receive 1 (.string "reply"), .send 1,
    .send 0, .enlist 1, .enlist 0, .draw, .draw, .receive 1 (.string "early")]

theorem run_crossedActs :
    ∃ x, Run crossedActs x
      ∧ x.inquiries = [⟨1, .answered (.string "reply")⟩, ⟨2, .failed .expired⟩] := by
  have hdrawn : Run [.draw, .draw, .receive 1 (.string "early")] _ :=
    .step (.step (.step .start (.receive 1 _)) .draw) .draw
  have hlisted := (hdrawn.step (@Takes.enlist _ 0 1 rfl 9)).step (@Takes.enlist _ 1 2 rfl 0)
  have hsent := (hlisted.step (@Takes.send _ 0 1 rfl)).step (@Takes.send _ 1 2 rfl)
  have hexpired :=
    (hsent.step (.receive 1 (.string "reply"))).step (@Takes.expire _ 1 2 _ rfl rfl)
  have hanswered :=
    (hexpired.step (.receive 1 (.string "again"))).step (@Takes.answer _ 0 1 _ _ rfl rfl)
  exact ⟨_, hanswered.step (@Takes.drop _ 1 2 .expired rfl), rfl⟩

theorem replies_reach_requests_crossed :
    ∃ x, Run crossedActs x
      ∧ (∃ later between before,
        crossedActs = later ++ .receive 1 (.string "reply") :: (between ++ .enlist 0 :: before)
          ∧ ∀ other, .receive 1 other ∉ between)
      ∧ x.pending.isWaiting 1 = false
      ∧ x.pending.isWaiting 2 = false
      ∧ x.pending.resolve 2 (.string "late") = x.pending := by
  obtain ⟨x, h, hinquiries⟩ := run_crossedActs
  obtain ⟨_, _, hanswered, hnothing, hfinished⟩ := h.replies_reach_requests
  have hfirst : x.inquiries[0]? = some ⟨1, .answered (.string "reply")⟩ := by rw [hinquiries]; rfl
  have hsecond : x.inquiries[1]? = some ⟨2, .failed .expired⟩ := by rw [hinquiries]; rfl
  refine ⟨x, h, (hanswered 0 _ _ hfirst rfl).1, (hfinished 0 _ hfirst rfl).1,
    (hfinished 1 _ hsecond rfl).1, hnothing 2 _ ?_⟩
  intro i r hr hid
  refine .inr (.inl ?_)
  have hmem : r ∈ x.inquiries := List.mem_of_getElem? hr
  rw [hinquiries, List.mem_cons, List.mem_singleton] at hmem
  rcases hmem with rfl | rfl
  . cases hid
  . rfl

end

end Exchange

end InkServer
