import Dueca.Clients.Model
import Dueca.Entry.Counts
import Dueca.Lib.History
import Mathlib.Data.List.TakeWhile
import Mathlib.Data.List.Nodup

/-!
# Handling configuration changes

A deleted entry that a client is linked to is detached: that one link goes, and with it one read
access. When the client has links, but none to the deleted entry, the search for the link ends
with a null pointer, which is then used. And the quick skip of a client for one entry looks at the
first link only.
-/

namespace Dueca.Clients

open Dueca.Lib Dueca.Entry UChannelEntryData

variable {D : Type} {ch ch' : Channel D} {c c' : ClientHandle} {a : ℕ} {l : Link}
variable {cc : EntryConfigurationChange} {ccs : List EntryConfigurationChange}

/-! ### One step for each change -/

/-- The state between two changes; in the quick skip, and whether links have changed. -/
structure Handling (D : Type) where
  channel : Channel D
  client : ClientHandle
  quick : Bool := true
  changes : Bool := false

/-- Handle one change. -/
def handle (s : Handling D) (cc : EntryConfigurationChange) : Except Fault (Handling D) :=
  if s.quick && s.client.skips cc then .ok s
  else
    match processChange s.channel s.client cc with
    | .ok (channel, client, changed) => .ok ⟨channel, client, false, changed || s.changes⟩
    | .error e => .error e

variable {s t : Handling D}

theorem handle_skip (hq : s.quick = true) (hskip : s.client.skips cc = true) :
    handle s cc = .ok s := by
  rw [handle, hq, hskip]
  rfl

theorem handle_process (h : ¬ (s.quick && s.client.skips cc) = true) :
    handle s cc = .ok t ↔ ∃ channel client changed,
      processChange s.channel s.client cc = .ok (channel, client, changed) ∧
      t = ⟨channel, client, false, changed || s.changes⟩ := by
  rw [handle, if_neg h]
  split
  · rename_i channel client changed hp
    simp only [Except.ok.injEq, hp, Prod.mk.injEq]
    constructor
    · rintro rfl
      exact ⟨_, _, _, ⟨rfl, rfl, rfl⟩, rfl⟩
    · rintro ⟨_, _, _, ⟨rfl, rfl, rfl⟩, rfl⟩
      rfl
  · rename_i e hp
    simp [hp]

/-- Behind the quick skip, steps are those of the second loop. -/
theorem processChanges_of_exec {changes : Bool}
    (h : exec handle ⟨ch, c, false, changes⟩ ccs = .ok t) :
    processChanges ccs ch c changes = .ok (t.channel, t.client, t.changes) := by
  induction ccs generalizing ch c changes with
  | nil => exact Except.ok.inj h ▸ rfl
  | cons cc ccs ih =>
    obtain ⟨u, hu, hrest⟩ := exec_cons_eq_ok.mp h
    obtain ⟨channel, client, changed, hp, rfl⟩ := (handle_process (by simp)).mp hu
    simp only [processChanges, bind_eq_ok]
    exact ⟨_, hp, ih hrest⟩

/-- The steps are those of the two loops. -/
theorem refresh_eq_of_exec (h : exec handle ⟨ch, c, true, false⟩ c.pending = .ok t) :
    ∃ v, refreshClientHandleInner ch c = .ok ({ t.channel with configVersion := v },
      { t.client with pending := [] }, t.client.entry.isSome) := by
  have hloops : ∀ ccs, exec handle ⟨ch, c, true, false⟩ ccs = .ok t →
      processChanges (ccs.dropWhile c.skips) ch c false = .ok (t.channel, t.client, t.changes) := by
    intro ccs
    induction ccs with
    | nil => exact fun h => Except.ok.inj h ▸ rfl
    | cons cc ccs ih =>
      intro h
      obtain ⟨u, hu, hrest⟩ := exec_cons_eq_ok.mp h
      by_cases hskip : c.skips cc = true
      · rw [handle_skip rfl hskip] at hu
        rw [List.dropWhile_cons_of_pos hskip]
        exact ih (Except.ok.inj hu ▸ hrest)
      · rw [List.dropWhile_cons_of_neg hskip]
        obtain ⟨channel, client, changed, hp, rfl⟩ := (handle_process (by simp [hskip])).mp hu
        simp only [processChanges, bind_eq_ok]
        exact ⟨_, hp, processChanges_of_exec hrest⟩
  cases hch : t.changes with
  | true =>
    refine ⟨t.channel.configVersion + 1, bind_eq_ok.mpr ⟨_, hloops _ h, ?_⟩⟩
    simp only [hch, if_true, pure_eq_ok]
  | false =>
    refine ⟨t.channel.configVersion, bind_eq_ok.mpr ⟨_, hloops _ h, ?_⟩⟩
    simp only [hch, Bool.false_eq_true, if_false, pure_eq_ok]

/-! ### Deleted entries -/

/-- One link is taken from its entry, with its read access when it is sequential. -/
def Released (ch : Channel D) (l : Link) (ch' : Channel D) : Prop :=
  ∃ e cl heap, ch.entries l.entry = some e ∧ e.body.clients[l.client]? = some cl ∧
    (if cl.sequentialRead then
      ∃ r n, cl.readIndex = some r ∧ e.body.heap r = some n ∧ heap = store e.body.heap r n.decrement
    else heap = e.body.heap) ∧
    ch' = ch.set l.entry { e with body := { e.body with
      heap := heap
      clients := e.body.clients.set l.client { cl with linked := false } } }

/-- What the deletion of the entry `a` should do: nothing to a client that has no link to it;
otherwise this one link goes. -/
structure Detached (s : Handling D) (a : ℕ) (t : Handling D) : Prop where
  unlinked : (∀ l ∈ s.client.classLead, l.entry ≠ a) →
    t.channel = s.channel ∧ t.client = s.client ∧ t.changes = s.changes
  linked : ∀ before l after, s.client.classLead = before ++ l :: after → l.entry = a →
    Released s.channel l t.channel ∧ t.changes = true ∧ t.client = { s.client with
      classLead := before ++ after
      entry := if s.client.entry = some l then after.head? else s.client.entry }

/-- Deletions are as they should be. -/
def Claimed (s : Handling D) (cc : EntryConfigurationChange) (t : Handling D) : Prop :=
  cc.changetype = .deletedEntry → Detached s cc.entry t

/-- A deletion that the quick skip passes over is of an entry that is not linked; another one is
of an entry that is linked, or there are no links. -/
def DeletesLinked (s : Handling D) (cc : EntryConfigurationChange) : Prop :=
  cc.changetype = .deletedEntry →
    if s.quick && s.client.skips cc then ∀ l ∈ s.client.classLead, l.entry ≠ cc.entry
    else s.client.classLead = [] ∨ ∃ l ∈ s.client.classLead, l.entry = cc.entry

/-- The search for a link that is not there ends with a null pointer. -/
theorem detach_unlinked (h : ∀ l ∈ c.classLead, l.entry ≠ a) :
    detachReadClientFromEntry ch c a = .error .nullPointer := by
  have hnil : c.classLead.dropWhile (·.entry ≠ a) = [] :=
    List.dropWhile_eq_nil_iff.mpr fun l hl => decide_eq_true (h l hl)
  rw [detachReadClientFromEntry, hnil]
  rfl

/-- If a change was handled as it should be, its deletion is of a linked entry. -/
theorem deletesLinked_of_claimed (hstep : handle s cc = .ok t) (hclaimed : Claimed s cc t) :
    DeletesLinked s cc := by
  intro hdel
  split
  · rename_i hskip
    rw [Bool.and_eq_true] at hskip
    rw [handle_skip hskip.1 hskip.2] at hstep
    cases hstep
    intro l hl heq
    -- a skipped change leaves the link in its place
    obtain ⟨before, after, hsplit⟩ := List.append_of_mem hl
    obtain ⟨-, -, hclient⟩ := (hclaimed hdel).linked before l after hsplit heq
    have hlen := congrArg (fun c => c.classLead.length) hclient
    simp [hsplit] at hlen
  · rename_i hskip
    by_contra hnot
    rw [not_or] at hnot
    obtain ⟨channel, client, changed, hp, -⟩ := (handle_process hskip).mp hstep
    have hun : ∀ l ∈ s.client.classLead, l.entry ≠ cc.entry :=
      fun l hl heq => hnot.2 ⟨l, hl, heq⟩
    rw [processChange, hdel] at hp
    dsimp only at hp
    rw [if_pos hnot.1, detach_unlinked hun] at hp
    cases hp

/-! ### States -/

/-- The link has a record in its entry, and a sequential one holds a point. -/
def Attached (ch : Channel D) (l : Link) : Prop :=
  ∃ e cl, ch.entries l.entry = some e ∧ e.body.clients[l.client]? = some cl ∧ cl.linked = true ∧
    (cl.sequentialRead = true → ∃ r n, cl.readIndex = some r ∧ e.body.heap r = some n)

/-- The oldest point of an entry can be held. -/
def Latchable (e : UChannelEntry D) : Prop := ∃ n, e.heap e.oldest = some n ∧ n.readAccesses ≠ 0

/-- A client has one link for an entry, and its links are in order; a new entry among the changes
to come is there, and is not one that the client or an earlier change knows. -/
structure Sound (s : Handling D) (ccs : List EntryConfigurationChange) : Prop where
  distinct : (s.client.classLead.map Link.entry).Nodup
  links : ∀ l ∈ s.client.classLead, Attached s.channel l
  selected : ∀ l, s.client.entry = some l → l ∈ s.client.classLead
  new : ∀ cc ∈ ccs, cc.changetype = .newEntry →
    (∀ l ∈ s.client.classLead, l.entry ≠ cc.entry) ∧
    ∃ e, s.channel.entries cc.entry = some e ∧ Latchable e.body
  fresh : ccs.Pairwise fun a b => b.changetype = .newEntry → a.entry ≠ b.entry

@[simp] theorem Channel.set_self {e : ChannelEntry D} : (ch.set a e).entries a = some e :=
  Function.update_self ..

theorem Channel.set_of_ne {e : ChannelEntry D} {b : ℕ} (h : b ≠ a) :
    (ch.set a e).entries b = ch.entries b := Function.update_of_ne h ..

theorem Channel.find_eq_ok {e : ChannelEntry D} : ch.find a = .ok e ↔ ch.entries a = some e := by
  rw [Channel.find]
  cases ch.entries a <;> simp

/-- A link to another entry stays as it is. -/
theorem Attached.set {e : ChannelEntry D} (h : Attached ch l) (hne : l.entry ≠ a) :
    Attached (ch.set a e) l := by
  obtain ⟨e', cl, he, hrest⟩ := h
  exact ⟨e', cl, (Channel.set_of_ne hne).trans he, hrest⟩

/-- Detaching a linked entry does what it should. -/
theorem detach_linked {before after : List Link} (hnodup : (c.classLead.map Link.entry).Nodup)
    (hsplit : c.classLead = before ++ l :: after) (hl : l.entry = a) (hatt : Attached ch l) :
    ∃ ch', detachReadClientFromEntry ch c a = .ok (ch', { c with
        classLead := before ++ after
        entry := if c.entry = some l then after.head? else c.entry }, true) ∧
      Released ch l ch' := by
  have hbefore : ∀ x ∈ before, decide (x.entry ≠ a) = true := by
    intro x hx
    rw [hsplit, List.map_append, List.map_cons, List.nodup_append] at hnodup
    have hne := hnodup.2.2 x.entry (List.mem_map_of_mem hx) l.entry List.mem_cons_self
    exact decide_eq_true (hl ▸ hne)
  have hstop : ¬ (fun x : Link => decide (x.entry ≠ a)) l = true := by simp [hl]
  have htake : c.classLead.takeWhile (·.entry ≠ a) = before := by
    rw [hsplit, List.takeWhile_append_of_pos hbefore, List.takeWhile_cons_of_neg (p := fun x : Link => decide (x.entry ≠ a)) hstop,
      List.append_nil]
  have hdrop : c.classLead.dropWhile (·.entry ≠ a) = l :: after := by
    rw [hsplit, List.dropWhile_append_of_pos hbefore, List.dropWhile_cons_of_neg (p := fun x : Link => decide (x.entry ≠ a)) hstop]
  subst hl
  obtain ⟨e, cl, he, hcl, hlinked, hseq⟩ := hatt
  have hfind : ch.find l.entry = .ok e := Channel.find_eq_ok.mpr he
  rw [detachReadClientFromEntry, hdrop]
  dsimp only
  rw [htake]
  simp only [bind_eq_ok, hfind, Except.ok.injEq, exists_eq_left', withClient, hcl, hlinked,
    if_true]
  cases hs : cl.sequentialRead with
  | false =>
    have hdet : detach e.body cl = .ok (e.body.heap, { cl with linked := false }) := by
      unfold detach
      split
      · rename_i hs' _
        rw [hs] at hs'
        cases hs'
      · rfl
    refine ⟨_, ⟨_, ⟨_, hdet, rfl⟩, rfl⟩, e, cl, e.body.heap, he, hcl, ?_, rfl⟩
    rw [hs, if_neg Bool.false_ne_true]
  | true =>
    obtain ⟨r, n, hr, hn⟩ := hseq hs
    have hdet : detach e.body cl =
        .ok (store e.body.heap r n.decrement, { cl with linked := false }) := by
      rw [detach, hs, hr]
      simp only [bind_eq_ok, releaseReadAccess, modifyAt_eq_ok, pure_eq_ok]
      exact ⟨_, ⟨n, hn, rfl⟩, rfl⟩
    refine ⟨_, ⟨_, ⟨_, hdet, rfl⟩, rfl⟩, e, cl, _, he, hcl, ?_, rfl⟩
    rw [hs]
    exact ⟨r, n, hr, hn, rfl⟩

/-- Linking goes through for an entry that can be held, and makes one link. -/
theorem link_latchable {e : ChannelEntry D} (hnew : ∀ l ∈ c.classLead, l.entry ≠ a)
    (he : ch.entries a = some e) (hlatch : Latchable e.body) :
    ∃ e' k, linkReadClientToEntry ch c a = .ok (ch.set a e', { c with
        classLead := ⟨a, k⟩ :: c.classLead
        entry := c.entry.or (some ⟨a, k⟩) }) ∧ Attached (ch.set a e') ⟨a, k⟩ := by
  obtain ⟨n, hn, hacc⟩ := hlatch
  have hbody : ∃ body cl, link e.body (isSequentialRead c.readingMode e.body.eventtype)
        c.requestedSpan c.requestedDepth = .ok body ∧
      body.clients = e.body.clients ++ [cl] ∧ cl.linked = true ∧
      (cl.sequentialRead = true → ∃ r n, cl.readIndex = some r ∧ body.heap r = some n) := by
    unfold link
    split
    · have hlatched : latchSequentialRead e.body =
          .ok { e.body with heap := store e.body.heap e.body.oldest n.increment } := by
        simp only [latchSequentialRead, bind_eq_ok, deref_eq_ok]
        exact ⟨n, hn, by rw [if_neg hacc]; rfl⟩
      simp only [bind_eq_ok]
      refine ⟨_, _, ⟨_, hlatched, rfl⟩, rfl, rfl, fun _ => ?_⟩
      exact ⟨_, _, rfl, store_self ..⟩
    · exact ⟨_, _, rfl, rfl, rfl, nofun⟩
  obtain ⟨body, cl, hlink, hclients, hlinked, hseq⟩ := hbody
  have hreq : (c.classLead.all fun l => l.entry ≠ a) = true :=
    List.all_eq_true.mpr fun l hl => decide_eq_true (hnew l hl)
  refine ⟨{ e with body }, e.body.clients.length, ?_, ?_⟩
  · simp only [linkReadClientToEntry, bind_eq_ok, require_eq_ok, Channel.find_eq_ok]
    exact ⟨(), hreq, e, he, body, hlink, rfl⟩
  · refine ⟨_, cl, Channel.set_self, ?_, hlinked, hseq⟩
    show body.clients[e.body.clients.length]? = some cl
    rw [hclients, List.getElem?_concat_length]

/-- A new entry is linked, or it is not. -/
theorem processChange_new (hS : Sound s (cc :: ccs)) (hnew : cc.changetype = .newEntry) :
    ∃ ch' c' changed, processChange s.channel s.client cc = .ok (ch', c', changed) ∧
      (ch' = s.channel ∧ c' = s.client ∨ ∃ e' k, ch' = s.channel.set cc.entry e' ∧
        Attached ch' ⟨cc.entry, k⟩ ∧ c' = { s.client with
          classLead := ⟨cc.entry, k⟩ :: s.client.classLead
          entry := s.client.entry.or (some ⟨cc.entry, k⟩) }) := by
  obtain ⟨hun, e, he, hlatch⟩ := hS.new cc List.mem_cons_self hnew
  obtain ⟨e', k, hlink, hatt⟩ := link_latchable hun he hlatch
  have haspect : ∃ m, getTimeAspect s.channel s.client = .ok m := by
    unfold getTimeAspect
    cases hsel : s.client.entry with
    | none => exact ⟨_, rfl⟩
    | some l =>
      obtain ⟨el, _, hel, -⟩ := hS.links l (hS.selected l hsel)
      simp only [bind_eq_ok, Channel.find_eq_ok]
      exact ⟨_, el, hel, rfl⟩
  obtain ⟨m, hm⟩ := haspect
  have hfind : s.channel.find cc.entry = .ok e := Channel.find_eq_ok.mpr he
  rw [processChange, hnew]
  simp only [bind_eq_ok, hfind, Except.ok.injEq, exists_eq_left']
  split
  · simp only [hm, bind_eq_ok, Except.ok.injEq, exists_eq_left']
    split
    · exact ⟨_, _, true, by simp only [hlink]; rfl,
        .inr ⟨e', k, rfl, hatt, rfl⟩⟩
    · exact ⟨_, _, false, rfl, .inl ⟨rfl, rfl⟩⟩
  · exact ⟨_, _, false, rfl, .inl ⟨rfl, rfl⟩⟩

/-- A state with one more link is sound. -/
theorem Sound.link {e' : ChannelEntry D} {k : ℕ} {quick changes : Bool}
    (hS : Sound s (cc :: ccs)) (hnew : cc.changetype = .newEntry)
    (hatt : Attached (s.channel.set cc.entry e') ⟨cc.entry, k⟩) :
    Sound ⟨s.channel.set cc.entry e', { s.client with
      classLead := ⟨cc.entry, k⟩ :: s.client.classLead
      entry := s.client.entry.or (some ⟨cc.entry, k⟩) }, quick, changes⟩ ccs := by
  obtain ⟨hun, -⟩ := hS.new cc List.mem_cons_self hnew
  obtain ⟨hhead, hfresh⟩ := List.pairwise_cons.mp hS.fresh
  constructor
  case distinct =>
    refine List.nodup_cons.mpr ⟨fun hmem => ?_, hS.distinct⟩
    obtain ⟨l, hl, heq⟩ := List.mem_map.mp hmem
    exact hun l hl heq
  case links =>
    intro l hl
    rcases List.mem_cons.mp hl with rfl | hl
    · exact hatt
    · exact (hS.links l hl).set (hun l hl)
  case selected =>
    intro l hl
    rcases Option.or_eq_some_iff.mp hl with hl | ⟨-, hl⟩
    · exact List.mem_cons_of_mem _ (hS.selected l hl)
    · exact Option.some.inj hl ▸ List.mem_cons_self
  case new =>
    intro d hd hdnew
    obtain ⟨hdun, e, he, hlatch⟩ := hS.new d (List.mem_cons_of_mem _ hd) hdnew
    have hne : cc.entry ≠ d.entry := hhead d hd hdnew
    refine ⟨fun l hl => ?_, e, (Channel.set_of_ne hne.symm).trans he, hlatch⟩
    rcases List.mem_cons.mp hl with rfl | hl
    · exact hne
    · exact hdun l hl
  case fresh => exact hfresh

/-- A state with one link less is sound. -/
theorem Sound.detach {before after : List Link} {ch' : Channel D} {quick changes : Bool}
    (hS : Sound s (cc :: ccs)) (hsplit : s.client.classLead = before ++ l :: after)
    (hrel : Released s.channel l ch') :
    Sound ⟨ch', { s.client with
      classLead := before ++ after
      entry := if s.client.entry = some l then after.head? else s.client.entry },
      quick, changes⟩ ccs := by
  obtain ⟨e, cl, heap, -, -, -, rfl⟩ := hrel
  have hl : l ∈ s.client.classLead := hsplit ▸ List.mem_append_right _ List.mem_cons_self
  have hsub : (before ++ after).Sublist s.client.classLead := by
    rw [hsplit]
    exact (List.Sublist.refl before).append (List.sublist_cons_self l after)
  have hnodup := hS.distinct
  rw [hsplit, List.map_append, List.map_cons, List.nodup_middle, List.nodup_cons] at hnodup
  have hother : ∀ x ∈ before ++ after, x.entry ≠ l.entry := by
    intro x hx heq
    rw [← List.map_append] at hnodup
    exact hnodup.1 (heq ▸ List.mem_map_of_mem hx)
  constructor
  case distinct => exact List.map_append ▸ hnodup.2
  case links => exact fun x hx => (hS.links x (hsub.subset hx)).set (hother x hx)
  case selected =>
    intro x hx
    dsimp only at hx
    split at hx
    · exact List.mem_append_right _ (List.mem_of_mem_head? hx)
    · rename_i hne
      have hmem := hS.selected x hx
      rw [hsplit, List.mem_append, List.mem_cons] at hmem
      rw [List.mem_append]
      rcases hmem with hmem | rfl | hmem
      · exact .inl hmem
      · exact absurd hx hne
      · exact .inr hmem
  case new =>
    intro d hd hdnew
    obtain ⟨hdun, e', he', hlatch⟩ := hS.new d (List.mem_cons_of_mem _ hd) hdnew
    exact ⟨fun x hx => hdun x (hsub.subset hx), e',
      (Channel.set_of_ne (hdun l hl).symm).trans he', hlatch⟩
  case fresh => exact (List.pairwise_cons.mp hS.fresh).2

/-- An allowed change is handled as it should be, and the state stays sound. -/
theorem handle_sound (hS : Sound s (cc :: ccs)) (hok : DeletesLinked s cc) :
    ∃ t, handle s cc = .ok t ∧ Claimed s cc t ∧ Sound t ccs := by
  have hrest : ∀ quick changes, Sound ⟨s.channel, s.client, quick, changes⟩ ccs :=
    fun _ _ => ⟨hS.distinct, hS.links, hS.selected,
      fun d hd => hS.new d (List.mem_cons_of_mem _ hd), (List.pairwise_cons.mp hS.fresh).2⟩
  by_cases hskip : (s.quick && s.client.skips cc) = true
  · -- the quick skip
    rw [Bool.and_eq_true] at hskip
    refine ⟨s, handle_skip hskip.1 hskip.2, fun hdel => ⟨fun _ => ⟨rfl, rfl, rfl⟩, ?_⟩,
      hrest s.quick s.changes⟩
    intro before l after hsplit hl
    have hun := hok hdel
    rw [if_pos (by rw [hskip.1, hskip.2]; rfl)] at hun
    exact absurd hl (hun l (hsplit ▸ List.mem_append_right _ List.mem_cons_self))
  cases hcc : cc.changetype with
  | newEntry =>
    have hclaimed : ∀ t, Claimed s cc t := fun t hdel => by
      rw [hcc] at hdel
      cases hdel
    obtain ⟨ch', c', changed, hp, hcase⟩ := processChange_new hS hcc
    refine ⟨_, (handle_process hskip).mpr ⟨ch', c', changed, hp, rfl⟩, hclaimed _, ?_⟩
    rcases hcase with ⟨rfl, rfl⟩ | ⟨e', k, rfl, hatt, rfl⟩
    · exact hrest _ _
    · exact hS.link hcc hatt
  | deletedEntry =>
    have hcond := hok hcc
    rw [if_neg hskip] at hcond
    by_cases hnil : s.client.classLead = []
    · have hp : processChange s.channel s.client cc = .ok (s.channel, s.client, false) := by
        rw [processChange, hcc]
        simp [hnil, pure_eq_ok]
      refine ⟨_, (handle_process hskip).mpr ⟨_, _, _, hp, rfl⟩, fun _ => ⟨fun _ => ?_, ?_⟩,
        hrest _ _⟩
      · exact ⟨rfl, rfl, rfl⟩
      · intro before l after hsplit
        rw [hnil] at hsplit
        cases before <;> cases hsplit
    · obtain ⟨l, hl, heq⟩ := hcond.resolve_left hnil
      have hp : ∀ {ch' c'}, detachReadClientFromEntry s.channel s.client cc.entry =
          .ok (ch', c', true) → processChange s.channel s.client cc = .ok (ch', c', true) := by
        intro ch' c' h
        rw [processChange, hcc]
        simp only [if_pos hnil, h]
      obtain ⟨before, after, hsplit⟩ := List.append_of_mem hl
      obtain ⟨ch', hdet, hrel⟩ := detach_linked hS.distinct hsplit heq (hS.links l hl)
      refine ⟨_, (handle_process hskip).mpr ⟨_, _, _, hp hdet, rfl⟩,
        fun _ => ⟨fun hun => absurd heq (hun l hl), ?_⟩, hS.detach hsplit hrel⟩
      -- there is one way only to split at the link
      intro before' l' after' hsplit' heq'
      have hl' : l' ∈ s.client.classLead := hsplit' ▸ List.mem_append_right _ List.mem_cons_self
      obtain ⟨ch'', hdet', hrel'⟩ := detach_linked hS.distinct hsplit' heq' (hS.links l' hl')
      rw [hdet, Except.ok.injEq, Prod.mk.injEq, Prod.mk.injEq] at hdet'
      obtain ⟨rfl, hclient, -⟩ := hdet'
      exact ⟨hrel', rfl, hclient⟩

/-! ### All changes -/

/-- All pending changes are handled, and each as it should be, exactly if each deletion is one of
a linked entry, or finds no links. -/
theorem refresh_iff (hS : Sound ⟨ch, c, true, false⟩ c.pending) :
    ((∃ r, refreshClientHandleInner ch c = .ok r) ∧
      Throughout handle Claimed ⟨ch, c, true, false⟩ c.pending) ↔
    Allowed handle DeletesLinked ⟨ch, c, true, false⟩ c.pending := by
  constructor
  · rintro ⟨-, h⟩
    exact h.allowed fun s cc t hstep hclaimed => deletesLinked_of_claimed hstep hclaimed
  · intro hok
    have h : Throughout handle Claimed ⟨ch, c, true, false⟩ c.pending :=
      throughout_of_allowed (I := Sound) (fun _ _ _ hS hok => handle_sound hS hok) hS hok
    obtain ⟨t, ht⟩ := h.exec
    obtain ⟨v, hv⟩ := refresh_eq_of_exec ht
    exact ⟨⟨_, hv⟩, h⟩

/-- An entry with events of one class, at address 1, and one of another class, at address 2. -/
def sampleChannel : Channel ℕ where
  entries a :=
    if a = 1 then some { body := .create true true true 0, label := "", classes := ["Wind"] }
    else if a = 2 then some { body := .create true true true 0, label := "", classes := ["Rain"] }
    else none

/-- A client for all entries of the first class. -/
def sampleClient (pending : List EntryConfigurationChange) : ClientHandle where
  dataclassname := "Wind"
  requestedEntry := entryAny
  entrylabel := ""
  timeAspect := .events
  readingMode := .readAllData
  requestedSpan := 0
  requestedDepth := 0
  pending := pending

/-- Both entries appear, and the client links to the first one. Then the second one is deleted. -/
theorem not_refresh_unlinked :
    ∃ ch c, refreshClientHandleInner sampleChannel
        (sampleClient [⟨.newEntry, 1⟩, ⟨.newEntry, 2⟩]) = .ok (ch, c, true) ∧
      c.classLead = [⟨1, 0⟩] ∧ c.entry = some ⟨1, 0⟩ ∧
      refreshClientHandleInner ch { c with pending := [⟨.deletedEntry, 2⟩] } =
        .error .nullPointer := by
  exact ⟨_, _, rfl, rfl, rfl, rfl⟩

theorem latchable_create (writer eventtype fullpackmode : Bool) (nreservations : ℕ) :
    Latchable (UChannelEntry.create writer eventtype fullpackmode nreservations :
      UChannelEntry D) := by
  refine ⟨_, rfl, ?_⟩
  split <;> exact Nat.succ_ne_zero _

theorem sound_sampleChannel :
    Sound ⟨sampleChannel, sampleClient [], true, false⟩ [⟨.newEntry, 1⟩, ⟨.deletedEntry, 1⟩] where
  distinct := List.nodup_nil
  links _ hl := absurd hl List.not_mem_nil
  selected _ hl := nomatch hl
  new cc hcc hnew := by
    refine ⟨fun _ hl => absurd hl List.not_mem_nil, ?_⟩
    rcases List.mem_cons.mp hcc with rfl | hcc
    · exact ⟨_, rfl, latchable_create ..⟩
    · cases List.mem_singleton.mp hcc
      cases hnew
  fresh := by simp

/-- The client links to the first entry, which is then deleted. -/
theorem refresh_iff_sampleClient :
    ∃ ch c, linkReadClientToEntry sampleChannel (sampleClient [⟨.deletedEntry, 1⟩]) 1 =
        .ok (ch, c) ∧
      (((∃ r, refreshClientHandleInner ch c = .ok r) ∧
        Throughout handle Claimed ⟨ch, c, true, false⟩ c.pending) ↔
      Allowed handle DeletesLinked ⟨ch, c, true, false⟩ c.pending) := by
  have hnone : ∀ l ∈ (sampleClient [⟨.deletedEntry, 1⟩]).classLead, l.entry ≠ 1 :=
    fun _ hl => absurd hl List.not_mem_nil
  have hentry : sampleChannel.entries 1 =
      some { body := .create true true true 0, label := "", classes := ["Wind"] } := rfl
  obtain ⟨e', k, hlink, hatt⟩ := link_latchable hnone hentry (latchable_create ..)
  refine ⟨_, _, hlink, refresh_iff ?_⟩
  obtain ⟨hdistinct, hlinks, hselected, hnew, hfresh⟩ :
      Sound ⟨_, _, true, false⟩ [⟨.deletedEntry, 1⟩] := sound_sampleChannel.link rfl hatt
  exact ⟨hdistinct, hlinks, hselected, hnew, hfresh⟩

end Dueca.Clients
