import Dueca.Clients.Joined
import Mathlib.Data.List.Perm.Subperm

/-!
# Runs of a client of several entries

What each step of a run should do for a token on all entries, and when it does so.
-/

namespace Dueca.Clients

open Dueca.Lib Dueca.Entry

variable {D : Type} {s s' : Joining D} {l : Link} {links : List Link}

/-! ### Iteration -/

/-- The links behind a link. -/
def behind (links : List Link) (l : Link) : List Link := (links.dropWhile (· ≠ l)).tail

theorem behind_eq {before after : List Link} (h : l ∉ before) :
    behind (before ++ l :: after) l = after := by
  have hbefore : ∀ x ∈ before, decide (x ≠ l) = true :=
    fun x hx => decide_eq_true fun heq => h (heq ▸ hx)
  rw [behind, List.dropWhile_append_of_pos hbefore, List.dropWhile_cons_of_neg (by simp),
    List.tail_cons]

/-- Links that stay keep their order. -/
theorem behind_sublist {olds : List Link} (hnodup : links.Nodup) (h : olds.Sublist links)
    (hl : l ∈ olds) :
    (behind olds l).Sublist (behind links l) ∧
      ∀ x ∈ olds, x ∈ behind links l → x ∈ behind olds l := by
  obtain ⟨before, after, rfl⟩ := List.append_of_mem (h.subset hl)
  obtain ⟨hb, ha, hdisj⟩ := List.nodup_append.mp hnodup
  have hlb : l ∉ before := fun hx => hdisj l hx l List.mem_cons_self rfl
  have hla : l ∉ after := (List.nodup_cons.mp ha).1
  obtain ⟨o₁, o₂, rfl, h₁, h₂⟩ := List.sublist_append_iff.mp h
  have hlo : l ∉ o₁ := fun hx => hlb (h₁.subset hx)
  have hl₂ : l ∈ o₂ := (List.mem_append.mp hl).resolve_left hlo
  rcases List.sublist_cons_iff.mp h₂ with h₂ | ⟨o₃, rfl, h₃⟩
  · exact absurd (h₂.subset hl₂) hla
  · rw [behind_eq hlb, behind_eq hlo]
    refine ⟨h₃, fun x hx hxa => ?_⟩
    rcases List.mem_append.mp hx with hx | hx
    · exact absurd rfl (hdisj x (h₁.subset hx) x (List.mem_cons_of_mem _ hxa))
    · rcases List.mem_cons.mp hx with rfl | hx
      · exact absurd hxa hla
      · exact hx

/-- An iteration visits links that were there at its start, each once; those that are still there
were visited, or come behind the last one. -/
structure Visiting (links : List Link) (v : Visit) : Prop where
  nodup : v.visited.Nodup
  subset : ∀ l ∈ v.visited, l ∈ v.started
  ahead : v.finished = false → ∃ l, v.visited.getLast? = some l ∧ (l ∈ links →
    (∀ x ∈ behind links l, x ∉ v.visited ∧ x ∈ v.started) ∧
    ∀ x ∈ v.started, x ∈ links → x ∈ v.visited ∨ x ∈ behind links l)
  done : v.finished = true → ∀ x ∈ v.started, x ∈ links → x ∈ v.visited

/-- Links that go, and links that come in front, leave an iteration as it is. -/
theorem Visiting.follows {news olds : List Link} {v : Visit} (hV : Visiting links v)
    (hnodup : links.Nodup) (hsub : olds.Sublist links) (hnew : ∀ l ∈ news, l ∉ v.started) :
    Visiting (news ++ olds) v := by
  have hold : ∀ x ∈ v.started, x ∈ news ++ olds → x ∈ olds := fun x hx hmem =>
    (List.mem_append.mp hmem).resolve_left fun h => hnew x h hx
  refine ⟨hV.nodup, hV.subset, fun hf => ?_, fun hf x hx hmem =>
    hV.done hf x hx (hsub.subset (hold x hx hmem))⟩
  obtain ⟨l, hlast, hl⟩ := hV.ahead hf
  refine ⟨l, hlast, fun hmem => ?_⟩
  have hstarted : l ∈ v.started := hV.subset l (List.mem_of_getLast? hlast)
  have hlo := hold l hstarted hmem
  obtain ⟨h₁, h₂⟩ := hl (hsub.subset hlo)
  obtain ⟨hbs, hbm⟩ := behind_sublist hnodup hsub hlo
  have hbehind : behind (news ++ olds) l = behind olds l := by
    have hpass : ∀ x ∈ news, decide (x ≠ l) = true := fun x hx =>
      decide_eq_true fun heq => hnew x hx (heq ▸ hstarted)
    rw [behind, behind, List.dropWhile_append_of_pos hpass]
  rw [hbehind]
  refine ⟨fun x hx => h₁ x (hbs.subset hx), fun x hx hmem => ?_⟩
  rcases h₂ x hx (hsub.subset (hold x hx hmem)) with h | h
  · exact .inl h
  · exact .inr (hbm x (hold x hx hmem) h)

/-- An iteration starts at the first link. -/
theorem visiting_first (hnodup : links.Nodup) :
    Visiting links ⟨links, links.head?.toList, links.head?.isNone⟩ := by
  cases links with
  | nil => exact ⟨List.nodup_nil, nofun, nofun, fun _ => nofun⟩
  | cons l rest =>
    have hbehind : behind (l :: rest) l = rest := @behind_eq l [] rest List.not_mem_nil
    refine ⟨List.nodup_singleton l, fun x hx => ?_, fun _ => ⟨l, rfl, fun _ => ?_⟩, nofun⟩
    · rw [List.mem_singleton.mp hx]
      exact List.mem_cons_self
    · rw [hbehind]
      refine ⟨fun x hx => ⟨fun hmem => ?_, List.mem_cons_of_mem _ hx⟩, fun x hx _ => ?_⟩
      · rw [List.mem_singleton.mp hmem] at hx
        exact (List.nodup_cons.mp hnodup).1 hx
      · rcases List.mem_cons.mp hx with rfl | hx
        · exact .inl (List.mem_singleton_self _)
        · exact .inr hx

/-- An iteration goes on to the link behind the last one, or is finished. -/
theorem Visiting.next {v : Visit} (hV : Visiting links v) (hnodup : links.Nodup)
    (hf : v.finished = false) (hlast : v.visited.getLast? = some l) (hl : l ∈ links) :
    Visiting links { v with
      visited := v.visited ++ (nextLink links l).toList
      finished := (nextLink links l).isNone } := by
  obtain ⟨l', hlast', hahead⟩ := hV.ahead hf
  obtain rfl := Option.some.inj (hlast.symm.trans hlast')
  obtain ⟨h₁, h₂⟩ := hahead hl
  have hnext : nextLink links l = (behind links l).head? := rfl
  rw [hnext]
  cases hb : behind links l with
  | nil =>
    rw [hb] at h₂
    refine ⟨?_, ?_, nofun, fun _ x hx hmem => ?_⟩
    · simpa using hV.nodup
    · simpa using hV.subset
    · simpa using h₂ x hx hmem
  | cons y rest =>
    rw [hb] at h₁ h₂
    obtain ⟨hy, hys⟩ := h₁ y List.mem_cons_self
    obtain ⟨before, after, hsplit⟩ := List.append_of_mem hl
    have hndp := List.nodup_append.mp (hsplit ▸ hnodup)
    have hlb : l ∉ before := fun hx => hndp.2.2 l hx l List.mem_cons_self rfl
    rw [hsplit, behind_eq hlb] at hb
    have hyb : y ∉ before ++ [l] := by
      have hnd := hsplit ▸ hnodup
      rw [hb, ← List.singleton_append, ← List.append_assoc] at hnd
      exact fun hx => (List.nodup_append.mp hnd).2.2 y hx y List.mem_cons_self rfl
    have hbehind : behind links y = rest := by
      rw [hsplit, hb, ← List.singleton_append, ← List.append_assoc]
      exact behind_eq hyb
    have hnd : (y :: rest).Nodup := hb ▸ (List.nodup_cons.mp hndp.2.1).2
    refine ⟨?_, fun x hx => ?_, fun _ => ⟨y, ?_, fun _ => ?_⟩, nofun⟩
    · rw [List.head?_cons, Option.toList_some, List.nodup_append]
      refine ⟨hV.nodup, List.nodup_singleton y, fun a ha b hb' => ?_⟩
      rw [List.mem_singleton.mp hb']
      exact fun heq => hy (heq ▸ ha)
    · rcases List.mem_append.mp hx with hx | hx
      · exact hV.subset x hx
      · rw [List.mem_singleton.mp hx]
        exact hys
    · simp
    · rw [hbehind]
      refine ⟨fun x hx => ⟨fun hmem => ?_, (h₁ x (List.mem_cons_of_mem _ hx)).2⟩,
        fun x hx hmem => ?_⟩
      · rcases List.mem_append.mp hmem with h | h
        · exact (h₁ x (List.mem_cons_of_mem _ hx)).1 h
        · rw [List.mem_singleton.mp h] at hx
          exact (List.nodup_cons.mp hnd).1 hx
      · rcases h₂ x hx hmem with h | h
        · exact .inl (List.mem_append_left _ h)
        · rcases List.mem_cons.mp h with rfl | h
          · exact .inl (List.mem_append_right _ (List.mem_singleton_self _))
          · exact .inr h

/-! ### Steps -/

/-- Each point that came for a link went once, in order, or is still to read. -/
def Accounts (s : Joining D) : Prop :=
  ∀ l ∈ s.links, s.arrived l.entry =
    (s.gone l.entry).map Prod.snd ++ unread s.station.channel l

/-- A read has data exactly if there are visible sets: the first unread point of a link, and no
other point goes. Without data, no first point is visible. -/
def ReadComplete (s : Joining D) (t : ℕ) (s' : Joining D) : Prop :=
  ∃ res q v, s'.answer = .data res ∧ joinStep s (.haveVisibleSets t) = .ok q ∧
    q.answer = .flag v ∧ res.isSome = v ∧ q.links = s'.links ∧
    match res with
    | none => ∀ l ∈ s'.links, ¬ HeadVisible s'.station.channel t l
    | some (ts, d) => ∃ l ∈ s'.links, ts.1 ≤ t ∧
        unread q.station.channel l = (ts, some d) :: unread s'.station.channel l ∧
        ∀ l' ∈ s'.links, l' ≠ l → unread s'.station.channel l' = unread q.station.channel l'

/-- An iteration that goes on visits a link more, that was there when it started and was not
visited, or it has visited all links that are still there, and no entry is selected. -/
def NextComplete (s s' : Joining D) : Prop :=
  ∀ v, s.visit = some v → v.finished = false → ∃ w, s'.visit = some w ∧ w.started = v.started ∧
    ((∃ l ∈ s'.links, l ∈ v.started ∧ l ∉ v.visited ∧ s'.station.client.entry = some l ∧
        w.visited = v.visited ++ [l] ∧ w.finished = false) ∨
      s'.station.client.entry = none ∧ w.visited = v.visited ∧ w.finished = true ∧
        ∀ l ∈ v.started, l ∈ s'.links → l ∈ v.visited)

/-- What a step should do. -/
structure Complete (s : Joining D) (op : JoinOp D) (s' : Joining D) : Prop where
  accounts : Accounts s'
  read : ∀ t, op = .read t → ReadComplete s t s'
  first : op = .selectFirstEntry →
    s'.visit = some ⟨s'.links, s'.links.head?.toList, s'.links.head?.isNone⟩ ∧
      s'.station.client.entry = s'.links.head?
  next : op = .selectNextEntry → NextComplete s s'
  visited : ∀ v, s'.visit = some v → v.visited.Nodup ∧ (∀ l ∈ v.visited, l ∈ v.started) ∧
    v.visited.length ≤ v.started.length
  valid : op = .isValid → s'.answer = .flag (s'.links ≠ [] || s'.zeroEntriesAcceptable)
  visible : ∀ t, op = .haveVisibleSets t → ∃ v, s'.answer = .flag v ∧
    ∀ o, ∃ q, (s'.station.select o).haveVisibleSets t = .ok (q, v)
  number : ∀ t, op = .getNumVisibleSets t → ∃ n, s'.answer = .number n ∧
    ∀ o, ∃ q, (s'.station.select o).getNumVisibleSets t = .ok (q, n)

/-- The condition on an operation of the client, when the changes are handled. -/
def Asked (s : Joining D) : JoinOp D → Prop
  | .read t => (∃ l ∈ s.links, HeadVisible s.station.channel t l) →
    ∃ l ∈ s.links, StandsAtGap s.station.channel l = false ∧ HeadVisible s.station.channel t l
  | .selectNextEntry => ∀ v, s.visit = some v → v.finished = false →
    s.station.client.entry = v.visited.getLast?
  | .isValid => s.station.client.entry = none → s.links = [] ∨ s.zeroEntriesAcceptable = true
  | .flushOlderSets | .flushOlderSetsBefore _ =>
    ∀ l ∈ s.links, unread s.station.channel l ≠ []
  | _ => True

/-- The condition on a step. Entries are added with an id, removed when they are there, and
written fewer times than there are ids; a deleted entry is a linked one. -/
def Attentive (s : Joining D) : JoinOp D → Prop
  | .addEntry _ _ entryId _ _ _ _ => entryId ≠ entryEnd
  | .removeEntry a => ∃ e, s.station.channel.entries a = some e ∧ e.body.valid = true
  | .write a _ _ _ => ∃ e, s.station.channel.entries a = some e ∧ e.body.lastId + 1 < 4294967296
  | op =>
    Allowed handle DeletesLinked ⟨s.station.channel, s.station.client, true, false⟩
      s.station.client.pending ∧
    ∀ st b, s.station.refreshClientHandle = .ok (st, b) → Asked (s.linkedTo st) op

/-- What holds between steps. -/
structure Kept (s : Joining D) : Prop where
  tidy : Tidy s.station.channel s.station.client s.station.client.pending
  below : ∀ a e, s.station.channel.entries a = some e → a < s.fresh
  pending : ∀ cc ∈ s.station.client.pending, cc.entry < s.fresh
  accounts : Accounts s
  visiting : ∀ v, s.visit = some v → Visiting s.links v
  known : ∀ v, s.visit = some v → ∀ l ∈ v.started, l.entry < s.fresh ∧
    ∀ cc ∈ s.station.client.pending, cc.changetype = .newEntry → cc.entry ≠ l.entry

theorem Kept.nodup (hK : Kept s) : s.links.Nodup := List.Nodup.of_map _ hK.tidy.distinct

/-- The link of an entry is found by its address. -/
theorem find_link (hnodup : (links.map Link.entry).Nodup) (hl : l ∈ links) :
    links.find? (·.entry = l.entry) = some l := by
  cases hf : links.find? (·.entry = l.entry) with
  | none =>
    rw [List.find?_eq_none] at hf
    exact absurd (decide_eq_true rfl) (hf l hl)
  | some x =>
    have hx := List.find?_some hf
    exact congrArg some (List.inj_on_of_nodup_map hnodup (List.mem_of_find?_eq_some hf) hl
      (of_decide_eq_true hx))

/-- The history goes on for the links that were there, and starts for the others. -/
theorem kept_linkedTo (hK : Kept s)
    (hok : Allowed handle DeletesLinked ⟨s.station.channel, s.station.client, true, false⟩
      s.station.client.pending) :
    ∃ st, s.station.refreshClientHandle = .ok (st, st.client.entry.isSome) ∧ Calm st ∧
      Kept (s.linkedTo st) := by
  obtain ⟨st, hst, hC, ⟨news, olds, hlinks, holds, hnews⟩, hun, habsent⟩ :=
    refresh_tidy hK.tidy hok
  refine ⟨st, hst, hC, ?_⟩
  have hnone : st.client.pending = [] := hC.settled
  constructor
  case tidy =>
    show Tidy st.channel st.client st.client.pending
    rw [hnone]
    exact hC.tidy
  case below =>
    intro a e he
    by_contra hge
    have hnone : s.station.channel.entries a = none := by
      cases hx : s.station.channel.entries a with
      | none => rfl
      | some x => exact absurd (hK.below a x hx) hge
    have he : st.channel.entries a = some e := he
    rw [habsent a hnone] at he
    cases he
  case pending =>
    intro cc hcc
    have hcc : cc ∈ st.client.pending := hcc
    rw [hnone] at hcc
    cases hcc
  case accounts =>
    intro l hl
    have hl : l ∈ st.client.classLead := hl
    by_cases hold : s.links.any (·.entry = l.entry) = true
    · -- the link was there
      have hls : l ∈ s.links := by
        obtain ⟨x, hx, heq⟩ := List.any_eq_true.mp hold
        rw [hlinks] at hl
        rcases List.mem_append.mp hl with hl | hl
        · exact absurd (of_decide_eq_true heq) ((hnews l hl).1 x hx)
        · exact holds.subset hl
      have harr : (s.linkedTo st).arrived l.entry = s.arrived l.entry := by
        simp only [Joining.linkedTo, hold, if_true]
      have hgone : (s.linkedTo st).gone l.entry = s.gone l.entry := by
        simp only [Joining.linkedTo, hold, if_true, Option.isSome_none, Bool.false_eq_true,
          if_false]
      rw [harr, hgone]
      show _ = _ ++ unread st.channel l
      rw [hun l hls hl]
      exact hK.accounts l hls
    · have hfind := find_link hC.tidy.distinct hl
      have harr : (s.linkedTo st).arrived l.entry = unread st.channel l := by
        have hfind : st.links.find? (·.entry = l.entry) = some l := hfind
        simp only [Joining.linkedTo, hold, Bool.false_eq_true, if_false, hfind]
      have hgone : (s.linkedTo st).gone l.entry = [] := by
        have hfind : st.links.find? (·.entry = l.entry) = some l := hfind
        simp only [Joining.linkedTo, hold, Bool.false_eq_true, if_false, hfind,
          Option.isSome_some, if_true]
      rw [harr, hgone]
      rfl
  case visiting =>
    intro v hv
    have hV := (hK.visiting v hv).follows hK.nodup holds fun l hl hmem => by
      obtain ⟨-, cc, hcc, hnew, heq⟩ := hnews l hl
      exact (hK.known v hv l hmem).2 cc hcc hnew heq
    rw [← hlinks] at hV
    exact hV
  case known =>
    intro v hv l hl
    refine ⟨(hK.known v hv l hl).1, fun cc hcc => ?_⟩
    have hcc : cc ∈ st.client.pending := hcc
    rw [hnone] at hcc
    cases hcc

/-- A state without changes to handle, with the same entries and links. -/
theorem Kept.of_calm (hK : Kept s) (hC : Calm s'.station) (hno : NoNew s.station s'.station)
    (hfresh : s'.fresh = s.fresh) (hacc : Accounts s')
    (hvisit : ∀ v, s'.visit = some v →
      Visiting s'.links v ∧ ∀ l ∈ v.started, l.entry < s'.fresh) : Kept s' where
  tidy := by
    rw [hC.settled]
    exact hC.tidy
  below a e he := by
    by_contra hge
    have hnone : s.station.channel.entries a = none := by
      cases hx : s.station.channel.entries a with
      | none => rfl
      | some x => exact absurd (hK.below a x hx) (hfresh ▸ hge)
    rw [hno a hnone] at he
    cases he
  pending cc hcc := by
    rw [hC.settled] at hcc
    cases hcc
  accounts := hacc
  visiting v hv := (hvisit v hv).1
  known v hv l hl := by
    refine ⟨(hvisit v hv).2 l hl, fun cc hcc => ?_⟩
    rw [hC.settled] at hcc
    cases hcc

/-- The iteration does not change. -/
theorem Kept.same_visit (hK : Kept s) (hfresh : s'.fresh = s.fresh) (hlinks : s'.links = s.links)
    (hv : s'.visit = s.visit) :
    ∀ v, s'.visit = some v → Visiting s'.links v ∧ ∀ l ∈ v.started, l.entry < s'.fresh := by
  intro v h
  rw [hv] at h
  rw [hlinks, hfresh]
  exact ⟨hK.visiting v h, fun l hl => (hK.known v h l hl).1⟩

theorem Kept.link_lt (hK : Kept s) (hl : l ∈ s.links) : l.entry < s.fresh := by
  obtain ⟨e, r, hlinked, -⟩ := hK.tidy.linked l hl
  exact hK.below _ _ hlinked.entry

/-- A flush takes unread points away, and keeps the account of them. -/
theorem kept_flushedTo {st : Station D} {n : ℕ} (hK : Kept s) (hC : Calm st)
    (hno : NoNew s.station st) (hlinks : st.links = s.links)
    (hun : ∀ l ∈ s.links, unread st.channel l <:+ unread s.station.channel l) :
    Kept (s.flushedTo st n) := by
  refine hK.of_calm hC hno rfl (fun l hl => ?_) (hK.same_visit rfl hlinks rfl)
  have hl : l ∈ s.links := hlinks ▸ hl
  obtain ⟨taken, htaken⟩ := hun l hl
  have hgone : (s.flushedTo st n).gone l.entry =
      s.gone l.entry ++ taken.map (Fate.flushed, ·) := by
    have hfind : s.links.find? (·.entry = l.entry) = some l := find_link hK.tidy.distinct hl
    simp only [Joining.flushedTo, hfind, ← htaken, List.length_append, Nat.add_sub_cancel,
      List.take_left]
  rw [hgone]
  show s.arrived l.entry = _ ++ unread st.channel l
  rw [hK.accounts l hl, ← htaken, List.map_append, List.map_map, List.append_assoc]
  congr 2
  exact (List.map_id taken).symm

/-- A read takes the point that it returns, and keeps the account of it. -/
theorem kept_readTo {st : Station D} {ts : ℕ × ℕ} {d : D} (hK : Kept s) (hC : Calm st)
    (hno : NoNew s.station st) (hlinks : st.links = s.links) (hl : l ∈ s.links)
    (hsel : st.client.entry = some l)
    (hcons : unread s.station.channel l = (ts, some d) :: unread st.channel l)
    (hother : ∀ l' ∈ s.links, l' ≠ l → unread st.channel l' = unread s.station.channel l') :
    Kept (s.readTo st (some (ts, d))) := by
  refine hK.of_calm hC hno rfl (fun x hx => ?_) (hK.same_visit rfl hlinks rfl)
  have hx : x ∈ s.links := hlinks ▸ hx
  have hgone : (s.readTo st (some (ts, d))).gone =
      Function.update s.gone l.entry (s.gone l.entry ++ [(.returned, (ts, some d))]) := by
    simp only [Joining.readTo, hsel]
  show s.arrived x.entry = _ ++ unread st.channel x
  rw [hK.accounts x hx, hgone]
  by_cases hxl : x = l
  · subst hxl
    rw [Function.update_self, hcons, List.map_append, List.append_assoc]
    rfl
  · have hne : x.entry ≠ l.entry := fun heq =>
      hxl (List.inj_on_of_nodup_map hK.tidy.distinct hx hl heq)
    rw [Function.update_of_ne hne, hother x hx hxl]

theorem next_calm {st : Station D} (hC : Calm st) :
    ∃ o, st.getNextEntry = .ok (st.select o) ∧ Calm (st.select o) ∧
      o = st.client.entry.bind (nextLink st.links) := by
  cases hsel : st.client.entry with
  | none =>
    have hsame : st.select none = st := by rw [Station.select, ← hsel]
    refine ⟨none, ?_, hsame ▸ hC, rfl⟩
    rw [hsame, Station.getNextEntry]
    refine bind_eq_ok.mpr ⟨_, hC.refresh, ?_⟩
    simp only [hsel, Option.isSome_none, Bool.false_eq_true, if_false]
    rfl
  | some l =>
    have hl := hC.tidy.selected l hsel
    obtain ⟨before, after, hsplit⟩ := List.append_of_mem hl
    have hnext := nextLink_eq hC.nodup hsplit
    refine ⟨nextLink st.links l, ?_, hC.select fun x hx => ?_, rfl⟩
    · rw [hnext]
      exact hC.next hsel hsplit
    · exact (List.dropWhile_sublist _).subset (List.mem_of_mem_tail (List.mem_of_mem_head? hx))

theorem anyVisible_select {st : Station D} {o : Option Link} {t : ℕ} (ls : List Link) :
    (st.select o).anyVisible t ls = st.anyVisible t ls := by
  induction ls with
  | nil => rfl
  | cons l ls ih =>
    rw [Station.anyVisible, Station.anyVisible, ih]
    rfl

theorem sumVisible_select {st : Station D} {o : Option Link} {t : ℕ} (ls : List Link) :
    (st.select o).sumVisible t ls = st.sumVisible t ls := by
  induction ls with
  | nil => rfl
  | cons l ls ih =>
    rw [Station.sumVisible, Station.sumVisible, ih]
    rfl

/-- A token for all entries gives the same answers with any selection. -/
theorem refresh_select {st : Station D} {o : Option Link} (hC : Calm st) :
    (st.select o).refreshClientHandle = .ok (st.select o, o.isSome) ∧
      ∀ b, (st.select o).visibleLinks b = st.links := by
  constructor
  · rw [Station.refreshClientHandle, if_neg (not_not.mpr (show (st.select o).client.pending = []
      from hC.settled))]
    rfl
  · intro b
    rw [Station.visibleLinks, if_pos (show (st.select o).client.requestedEntry = entryAny
      from hC.tidy.token.all)]
    rfl

variable {op : JoinOp D}

theorem Kept.visited (hK : Kept s) :
    ∀ v, s.visit = some v → v.visited.Nodup ∧ (∀ l ∈ v.visited, l ∈ v.started) ∧
      v.visited.length ≤ v.started.length := by
  intro v hv
  obtain ⟨hnodup, hsub, -, -⟩ := hK.visiting v hv
  exact ⟨hnodup, hsub, (List.subperm_of_subset hnodup hsub).length_le⟩

/-- Whatever the operation answers, a client that moves no read position is kept. -/
theorem Kept.answered {st : Station D} {answer : Answer D} (hK : Kept (s.linkedTo st))
    (hC : Calm st) : Kept { s.linkedTo st with station := st, answer := answer } :=
  hK.of_calm hC (fun _ h => h) rfl hK.accounts (hK.same_visit rfl rfl rfl)

theorem complete_read {t : ℕ} (hK : Kept s) (hok : Attentive s (.read t)) :
    ∃ s', joinStep s (.read t) = .ok s' ∧ Complete s (.read t) s' ∧ Kept s' := by
  obtain ⟨st, hst, hC, hKq⟩ := kept_linkedTo hK hok.1
  have hask : Asked (s.linkedTo st) (.read t) := hok.2 _ _ hst
  obtain ⟨v, hv, hiff⟩ := (@haveVisibleSets_calm _ _ t) hC
  have hq : joinStep s (.haveVisibleSets t) =
      .ok { s.linkedTo st with station := st, answer := .flag v } :=
    bind_eq_ok.mpr ⟨_, hst, bind_eq_ok.mpr ⟨_, hv, rfl⟩⟩
  obtain ⟨st', res, hread, hC', hno, hlinks, hcase⟩ := (@read_calm _ _ t) hC
  refine ⟨(s.linkedTo st).readTo st' res, bind_eq_ok.mpr ⟨_, hst, bind_eq_ok.mpr ⟨_, hread, rfl⟩⟩,
    ?_⟩
  have hvisible : v = true ↔ ∃ l ∈ st.links, HeadVisible st.channel t l := by
    rw [hiff]
    constructor
    · rintro ⟨l, hl, -, h⟩
      exact ⟨l, hl, h⟩
    · exact hask
  have hKept : Kept ((s.linkedTo st).readTo st' res) := by
    rcases hcase with ⟨rfl, hun, -⟩ | ⟨ts, d, l, hl, rfl, hsel, -, hcons, hother⟩
    · refine hKq.of_calm hC' hno rfl (fun l hl => ?_) (hKq.same_visit rfl hlinks rfl)
      have hl : l ∈ st.links := hlinks ▸ hl
      show (s.linkedTo st).arrived l.entry = _ ++ unread st'.channel l
      rw [hun l hl]
      exact hKq.accounts l hl
    · exact kept_readTo hKq hC' hno hlinks hl hsel hcons hother
  refine ⟨⟨hKept.accounts, ?_, nofun, nofun, hKept.visited, nofun, nofun, nofun⟩, hKept⟩
  rintro _ ⟨⟩
  refine ⟨res, _, v, rfl, hq, rfl, ?_, hlinks.symm, ?_⟩
  · rcases hcase with ⟨rfl, -, hnot⟩ | ⟨ts, d, l, hl, rfl, -, hle, hcons, -⟩
    · have : v = false := by
        rw [← Bool.not_eq_true, hvisible]
        rintro ⟨l, hl, h⟩
        exact hnot l hl h
      rw [this]
      rfl
    · have : v = true := hvisible.mpr ⟨l, hl, (ts, some d), by rw [hcons]; rfl, hle⟩
      rw [this]
      rfl
  · rcases hcase with ⟨rfl, hun, hnot⟩ | ⟨ts, d, l, hl, rfl, -, hle, hcons, hother⟩
    · intro l hl
      have hl : l ∈ st.links := hlinks ▸ hl
      rintro ⟨p, hp, hpt⟩
      have hp : p ∈ (unread st'.channel l).head? := hp
      rw [hun l hl] at hp
      exact hnot l hl ⟨p, hp, hpt⟩
    · have hl' : l ∈ st'.links := hlinks.symm ▸ hl
      refine ⟨l, hl', hle, hcons, fun l' hl' hne => ?_⟩
      have hl' : l' ∈ st'.links := hl'
      exact hother l' (hlinks ▸ hl') hne

theorem complete_first (hK : Kept s) (hok : Attentive s .selectFirstEntry) :
    ∃ s', joinStep s .selectFirstEntry = .ok s' ∧ Complete s .selectFirstEntry s' ∧ Kept s' := by
  obtain ⟨st, hst, hC, hKq⟩ := kept_linkedTo hK hok.1
  let st' := st.select st.links.head?
  refine ⟨(s.linkedTo st).firstTo st',
    bind_eq_ok.mpr ⟨_, hst, bind_eq_ok.mpr ⟨_, hC.first, rfl⟩⟩, ?_⟩
  have hKept : Kept ((s.linkedTo st).firstTo st') := by
    refine hKq.of_calm hC.select_first (fun _ h => h) rfl hKq.accounts ?_
    rintro v ⟨⟩
    exact ⟨visiting_first hC.nodup, fun l hl => hKq.link_lt hl⟩
  exact ⟨⟨hKept.accounts, nofun, fun _ => ⟨rfl, rfl⟩, nofun, hKept.visited, nofun, nofun, nofun⟩,
    hKept⟩

theorem complete_next (hK : Kept s) (hok : Attentive s .selectNextEntry) :
    ∃ s', joinStep s .selectNextEntry = .ok s' ∧ Complete s .selectNextEntry s' ∧ Kept s' := by
  obtain ⟨st, hst, hC, hKq⟩ := kept_linkedTo hK hok.1
  have hask : ∀ v, s.visit = some v → v.finished = false →
    st.client.entry = v.visited.getLast? := hok.2 _ _ hst
  obtain ⟨o, hnext, hC', ho⟩ := next_calm hC
  refine ⟨(s.linkedTo st).nextTo (st.select o),
    bind_eq_ok.mpr ⟨_, hst, bind_eq_ok.mpr ⟨_, hnext, rfl⟩⟩, ?_⟩
  -- the iteration goes on from the link that it visited last
  have hgoes : ∀ v, s.visit = some v → v.finished = false →
      ((s.linkedTo st).nextTo (st.select o)).visit =
        some { v with visited := v.visited ++ o.toList, finished := o.isNone } ∧
      Visiting st.links { v with visited := v.visited ++ o.toList, finished := o.isNone } := by
    intro v hv hf
    have hV : Visiting st.links v := hKq.visiting v hv
    obtain ⟨l, hlast, -⟩ := hV.ahead hf
    have hsel : st.client.entry = some l := (hask v hv hf).trans hlast
    have ho : o = nextLink st.links l := by rw [ho, hsel, Option.bind_some]
    constructor
    · have hv : (s.linkedTo st).visit = some v := hv
      simp only [Joining.nextTo, hv, hf, Bool.false_eq_true, if_false]
      rfl
    · rw [ho]
      exact hV.next hC.nodup hf hlast (hC.tidy.selected l hsel)
  have hKept : Kept ((s.linkedTo st).nextTo (st.select o)) := by
    refine hKq.of_calm hC' (fun _ h => h) rfl hKq.accounts fun w hw => ?_
    cases hv : s.visit with
    | none =>
      have hv : (s.linkedTo st).visit = none := hv
      simp only [Joining.nextTo, hv] at hw
      cases hw
    | some v =>
      cases hf : v.finished with
      | true =>
        have hv : (s.linkedTo st).visit = some v := hv
        simp only [Joining.nextTo, hv, hf, if_true] at hw
        cases hw
      | false =>
        obtain ⟨hvisit, hV⟩ := hgoes v hv hf
        obtain rfl := Option.some.inj (hvisit.symm.trans hw)
        exact ⟨hV, fun l hl => (hK.known v hv l hl).1⟩
  refine ⟨⟨hKept.accounts, nofun, nofun, fun _ v hv hf => ?_, hKept.visited, nofun, nofun, nofun⟩,
    hKept⟩
  obtain ⟨hvisit, hV⟩ := hgoes v hv hf
  refine ⟨_, hvisit, rfl, ?_⟩
  cases o with
  | none =>
    refine .inr ⟨rfl, List.append_nil _, rfl, fun l hl hmem => ?_⟩
    exact (List.append_nil v.visited) ▸ hV.done rfl l hl hmem
  | some l =>
    refine .inl ⟨l, hC'.tidy.selected l rfl, hV.subset l (by simp), fun hmem => ?_, rfl, rfl, rfl⟩
    have hnd := hV.nodup
    rw [List.nodup_append] at hnd
    exact hnd.2.2 l hmem l (by simp) rfl

theorem complete_isValid (hK : Kept s) (hok : Attentive s .isValid) :
    ∃ s', joinStep s .isValid = .ok s' ∧ Complete s .isValid s' ∧ Kept s' := by
  obtain ⟨st, hst, hC, hKq⟩ := kept_linkedTo hK hok.1
  have hask : st.client.entry = none → st.links = [] ∨ s.zeroEntriesAcceptable = true :=
    hok.2 _ _ hst
  let b := st.client.entry.isSome || s.zeroEntriesAcceptable
  have hvalid : st.isValid s.zeroEntriesAcceptable = .ok (st, b) :=
    bind_eq_ok.mpr ⟨_, hC.refresh, rfl⟩
  refine ⟨{ s.linkedTo st with station := st, answer := .flag b },
    bind_eq_ok.mpr ⟨_, hst, bind_eq_ok.mpr ⟨_, hvalid, rfl⟩⟩, ?_⟩
  have hKept := (@Kept.answered _ _ _ (.flag b)) hKq hC
  refine ⟨⟨hKept.accounts, nofun, nofun, nofun, hKept.visited, fun _ => ?_, nofun, nofun⟩, hKept⟩
  show Answer.flag b = .flag (decide (st.links ≠ []) || s.zeroEntriesAcceptable)
  congr 1
  cases hsel : st.client.entry with
  | some l =>
    have hne : st.links ≠ [] := List.ne_nil_of_mem (hC.tidy.selected l hsel)
    simp only [b, hsel, Option.isSome_some, hne, ne_eq, not_false_eq_true, decide_true]
  | none =>
    rcases hask hsel with h | h
    · simp only [b, hsel, Option.isSome_none, h, ne_eq, not_true_eq_false, decide_false]
    · simp only [b, hsel, h, Bool.or_true]

theorem complete_visible {t : ℕ} (hK : Kept s) (hok : Attentive s (.haveVisibleSets t)) :
    ∃ s', joinStep s (.haveVisibleSets t) = .ok s' ∧ Complete s (.haveVisibleSets t) s' ∧
      Kept s' := by
  obtain ⟨st, hst, hC, hKq⟩ := kept_linkedTo hK hok.1
  obtain ⟨v, hv, -⟩ := (@anyVisible_calm _ _ t) hC fun _ h => h
  have hany : ∀ o, (st.select o).haveVisibleSets t = .ok (st.select o, v) := by
    intro o
    obtain ⟨hrefresh, hlinks⟩ := (@refresh_select _ _ o) hC
    refine bind_eq_ok.mpr ⟨_, hrefresh, ?_⟩
    dsimp only
    rw [hlinks, anyVisible_select]
    exact bind_eq_ok.mpr ⟨v, hv, rfl⟩
  refine ⟨{ s.linkedTo st with station := st, answer := .flag v },
    bind_eq_ok.mpr ⟨_, hst, bind_eq_ok.mpr ⟨_, hany st.client.entry, rfl⟩⟩, ?_⟩
  have hKept := (@Kept.answered _ _ _ (.flag v)) hKq hC
  refine ⟨⟨hKept.accounts, nofun, nofun, nofun, hKept.visited, nofun, ?_, nofun⟩, hKept⟩
  rintro _ ⟨⟩
  exact ⟨v, rfl, fun o => ⟨_, hany o⟩⟩

theorem complete_number {t : ℕ} (hK : Kept s) (hok : Attentive s (.getNumVisibleSets t)) :
    ∃ s', joinStep s (.getNumVisibleSets t) = .ok s' ∧ Complete s (.getNumVisibleSets t) s' ∧
      Kept s' := by
  obtain ⟨st, hst, hC, hKq⟩ := kept_linkedTo hK hok.1
  obtain ⟨n, hn⟩ := (@sumVisible_calm _ _ t) hC fun _ h => h
  have hsum : ∀ o, (st.select o).getNumVisibleSets t = .ok (st.select o, n) := by
    intro o
    obtain ⟨hrefresh, hlinks⟩ := (@refresh_select _ _ o) hC
    refine bind_eq_ok.mpr ⟨_, hrefresh, ?_⟩
    dsimp only
    rw [hlinks, sumVisible_select]
    exact bind_eq_ok.mpr ⟨n, hn, rfl⟩
  refine ⟨{ s.linkedTo st with station := st, answer := .number n },
    bind_eq_ok.mpr ⟨_, hst, bind_eq_ok.mpr ⟨_, hsum st.client.entry, rfl⟩⟩, ?_⟩
  have hKept := (@Kept.answered _ _ _ (.number n)) hKq hC
  refine ⟨⟨hKept.accounts, nofun, nofun, nofun, hKept.visited, nofun, nofun, ?_⟩, hKept⟩
  rintro _ ⟨⟩
  exact ⟨n, rfl, fun o => ⟨_, hsum o⟩⟩

/-- Flushing is complete when it leaves the last unread points of each link. -/
theorem complete_flush {op : JoinOp D} {flush : Station D → Except Fault (Station D × ℕ)}
    (hK : Kept s) (hstep : ∀ {st b}, s.station.refreshClientHandle = .ok (st, b) → ∀ {st' n},
      flush st = .ok (st', n) → joinStep s op = .ok ((s.linkedTo st).flushedTo st' n))
    (hflush : ∀ st, Calm st → (s.station.refreshClientHandle = .ok (st, st.client.entry.isSome)) →
      ∃ st' n, flush st = .ok (st', n) ∧ Calm st' ∧ NoNew st st' ∧ st'.links = st.links ∧
        ∀ l ∈ st.links, unread st'.channel l <:+ unread st.channel l)
    (hallowed : Allowed handle DeletesLinked
      ⟨s.station.channel, s.station.client, true, false⟩ s.station.client.pending)
    (hop : op = .flushTotalAvailableSets ∨ op = .flushOlderSets ∨
      (∃ t, op = .flushOlderSetsBefore t) ∨ op = .flushOne) :
    ∃ s', joinStep s op = .ok s' ∧ Complete s op s' ∧ Kept s' := by
  obtain ⟨st, hst, hC, hKq⟩ := kept_linkedTo hK hallowed
  obtain ⟨st', n, hf, hC', hno, hlinks, hun⟩ := hflush st hC hst
  have hKept := (@kept_flushedTo _ (s.linkedTo st) st' n) hKq hC' hno hlinks hun
  refine ⟨_, hstep hst hf, ?_, hKept⟩
  rcases hop with rfl | rfl | ⟨t, rfl⟩ | rfl <;>
    exact ⟨hKept.accounts, nofun, nofun, nofun, hKept.visited, nofun, nofun, nofun⟩

/-! ### Entries and writes -/

theorem Alive.append {e : ChannelEntry D} {a : ℕ} {ccs more : List EntryConfigurationChange}
    (h : Alive e a ccs) : Alive e a (ccs ++ more) :=
  h.imp id (List.mem_append_left _)

theorem kept_addEntry {e : ChannelEntry D} (hK : Kept s) (hW : Whole e.body)
    (hv : e.body.valid = true) : Kept (s.addEntry e) := by
  have hother {a : ℕ} (ha : a < s.fresh) :
      (s.addEntry e).station.channel.entries a = s.station.channel.entries a :=
    Function.update_of_ne ha.ne ..
  have hself : (s.addEntry e).station.channel.entries s.fresh = some e :=
    Function.update_self ..
  have hT := hK.tidy
  constructor
  case tidy =>
    refine ⟨⟨hT.token.all, hT.token.sequential⟩, fun a x hx => ?_, hT.distinct, hT.selected,
      fun l hl => ?_, fun cc hcc hnew => ?_, ?_⟩
    · by_cases ha : a = s.fresh
      · subst ha
        rw [hself] at hx
        cases hx
        exact hW
      · have hx : Function.update s.station.channel.entries s.fresh (some e) a = some x := hx
        rw [Function.update_of_ne ha] at hx
        exact hT.whole a x hx
    · obtain ⟨x, r, hx, hxa⟩ := hT.linked l hl
      exact ⟨x, r, hx.congr (hother (hK.link_lt hl)) rfl, hxa.append⟩
    · rcases List.mem_append.mp hcc with hcc | hcc
      · obtain ⟨hun, x, hx, hxa⟩ := hT.new cc hcc hnew
        exact ⟨hun, x, (hother (hK.pending cc hcc)).trans hx, hxa.append⟩
      · rw [List.mem_singleton.mp hcc]
        exact ⟨fun l hl => (hK.link_lt hl).ne, e, hself, .inl hv⟩
    · refine List.pairwise_append.mpr ⟨hT.fresh, List.pairwise_singleton _ _, ?_⟩
      intro cc hcc d hd _
      rw [List.mem_singleton.mp hd]
      exact (hK.pending cc hcc).ne
  case below =>
    intro a x hx
    show a < s.fresh + 1
    by_cases ha : a = s.fresh
    · omega
    · have hx : Function.update s.station.channel.entries s.fresh (some e) a = some x := hx
      rw [Function.update_of_ne ha] at hx
      have := hK.below a x hx
      omega
  case pending =>
    intro cc hcc
    show cc.entry < s.fresh + 1
    rcases List.mem_append.mp hcc with hcc | hcc
    · have := hK.pending cc hcc
      omega
    · rw [List.mem_singleton.mp hcc]
      exact Nat.lt_succ_self _
  case accounts =>
    intro l hl
    rw [unread_congr (hother (hK.link_lt hl))]
    exact hK.accounts l hl
  case visiting => exact hK.visiting
  case known =>
    intro v hv l hl
    obtain ⟨hlt, hne⟩ := hK.known v hv l hl
    refine ⟨Nat.lt_succ_of_lt hlt, fun cc hcc hnew => ?_⟩
    rcases List.mem_append.mp hcc with hcc | hcc
    · exact hne cc hcc hnew
    · rw [List.mem_singleton.mp hcc]
      exact hlt.ne'

theorem complete_addEntry {label : String} {classes : List String} {entryId nreservations : ℕ}
    {writer eventtype fullpackmode : Bool} (hK : Kept s) (hid : entryId ≠ entryEnd) :
    ∃ s', joinStep s
        (.addEntry label classes entryId writer eventtype fullpackmode nreservations) = .ok s' ∧
      Complete s (.addEntry label classes entryId writer eventtype fullpackmode nreservations) s' ∧
      Kept s' := by
  have hKept := (@kept_addEntry D s
    ⟨{ (UChannelEntry.create writer eventtype fullpackmode nreservations : UChannelEntry D) with
      entryId, valid := true }, label, classes⟩) hK (whole_create ..) rfl
  refine ⟨_, ?_, ⟨hKept.accounts, nofun, nofun, nofun, hKept.visited, nofun, nofun, nofun⟩, hKept⟩
  exact bind_eq_ok.mpr ⟨(), require_eq_ok.mpr (decide_eq_true hid), rfl⟩

theorem complete_removeEntry {a : ℕ} {e : ChannelEntry D} (hK : Kept s)
    (he : s.station.channel.entries a = some e) (hv : e.body.valid = true) :
    ∃ s', joinStep s (.removeEntry a) = .ok s' ∧ Complete s (.removeEntry a) s' ∧ Kept s' := by
  have hT := hK.tidy
  let ch' := s.station.channel.set a { e with body := { e.body with valid := false } }
  have hother {b : ℕ} (hb : b ≠ a) : ch'.entries b = s.station.channel.entries b :=
    Channel.set_of_ne hb
  have hself : ch'.entries a = some { e with body := { e.body with valid := false } } :=
    Channel.set_self
  have hdel : (⟨.deletedEntry, a⟩ : EntryConfigurationChange) ∈
      s.station.client.pending ++ [⟨.deletedEntry, a⟩] :=
    List.mem_append_right _ (List.mem_singleton_self _)
  have hun : ∀ l ∈ s.links, unread ch' l = unread s.station.channel l := by
    intro l hl
    obtain ⟨x, r, hx, -⟩ := hT.linked l hl
    by_cases hla : l.entry = a
    · have hxe : x = e := by
        have := hx.entry
        rw [hla, he] at this
        exact (Option.some.inj this).symm
      subst hxe
      obtain ⟨cl, hR⟩ := hx.reads
      have hnew : LinkedTo ch' s.station.client l { x with body := { x.body with valid := false } }
          r := ⟨hla ▸ hself, ⟨cl, hR.record, hR.sequential, hR.linked, hR.index, hR.idle, hR.pos⟩,
        hx.compatible⟩
      rw [unread_eq hnew, unread_eq hx]
      rfl
    · exact unread_congr (hother hla)
  have hKept : Kept { s with
      station :=
        { channel := { ch' with configVersion := ch'.configVersion + 1 }
          client := { s.station.client with
            pending := s.station.client.pending ++ [⟨.deletedEntry, a⟩] } }
      answer := .nothing } := by
    constructor
    case tidy =>
      refine ⟨⟨hT.token.all, hT.token.sequential⟩, fun b x hx => ?_, hT.distinct, hT.selected,
        fun l hl => ?_, fun cc hcc hnew => ?_, ?_⟩
      · have hx : ch'.entries b = some x := hx
        by_cases hb : b = a
        · subst hb
          rw [hself] at hx
          cases hx
          exact (hT.whole _ _ he).invalid
        · rw [hother hb] at hx
          exact hT.whole b x hx
      · obtain ⟨x, r, hx, hxa⟩ := hT.linked l hl
        by_cases hla : l.entry = a
        · have hxe : x = e := by
            have := hx.entry
            rw [hla, he] at this
            exact (Option.some.inj this).symm
          subst hxe
          obtain ⟨cl, hR⟩ := hx.reads
          have hself' : ch'.entries l.entry =
              some { x with body := { x.body with valid := false } } := by
            rw [hla]
            exact hself
          exact ⟨_, r, ⟨hself', ⟨cl, hR.record, hR.sequential, hR.linked, hR.index, hR.idle,
            hR.pos⟩, hx.compatible⟩, .inr (hla ▸ hdel)⟩
        · exact ⟨x, r, hx.congr (hother hla) rfl, hxa.append⟩
      · rcases List.mem_append.mp hcc with hcc | hcc
        · obtain ⟨hnot, x, hx, hxa⟩ := hT.new cc hcc hnew
          by_cases hca : cc.entry = a
          · exact ⟨hnot, _, hca ▸ hself, .inr (hca ▸ hdel)⟩
          · exact ⟨hnot, x, (hother hca).trans hx, hxa.append⟩
        · rw [List.mem_singleton.mp hcc] at hnew
          cases hnew
      · refine List.pairwise_append.mpr ⟨hT.fresh, List.pairwise_singleton _ _, ?_⟩
        intro cc _ d hd hnew
        rw [List.mem_singleton.mp hd] at hnew
        cases hnew
    case below =>
      intro b x hx
      have hx : ch'.entries b = some x := hx
      by_cases hb : b = a
      · exact hb ▸ hK.below a e he
      · rw [hother hb] at hx
        exact hK.below b x hx
    case pending =>
      intro cc hcc
      rcases List.mem_append.mp hcc with hcc | hcc
      · exact hK.pending cc hcc
      · rw [List.mem_singleton.mp hcc]
        exact hK.below a e he
    case accounts =>
      intro l hl
      show s.arrived l.entry = _ ++ unread ch' l
      rw [hun l hl]
      exact hK.accounts l hl
    case visiting => exact hK.visiting
    case known =>
      intro v hv l hl
      obtain ⟨hlt, hne⟩ := hK.known v hv l hl
      refine ⟨hlt, fun cc hcc hnew => ?_⟩
      rcases List.mem_append.mp hcc with hcc | hcc
      · exact hne cc hcc hnew
      · rw [List.mem_singleton.mp hcc] at hnew
        cases hnew
  refine ⟨_, ?_, ⟨hKept.accounts, nofun, nofun, nofun, hKept.visited, nofun, nofun, nofun⟩, hKept⟩
  exact bind_eq_ok.mpr ⟨e, Channel.find_eq_ok.mpr he, bind_eq_ok.mpr ⟨(), require_eq_ok.mpr hv,
    rfl⟩⟩

theorem complete_write {a : ℕ} {e : ChannelEntry D} {data : D} {t : DataTimeSpec} {current : Bool}
    (hK : Kept s) (he : s.station.channel.entries a = some e)
    (hid : e.body.lastId + 1 < 4294967296) :
    ∃ s', joinStep s (.write a data t current) = .ok s' ∧
      Complete s (.write a data t current) s' ∧ Kept s' := by
  have hT := hK.tidy
  have hW := hT.whole _ _ he
  obtain ⟨body, work, hnew, hWb, hclients, hvalid, hev, hpoints⟩ :=
    (@newData_reads D e.body data t current) hW hid
  let ch' := s.station.channel.set a { e with body }
  have hother {b : ℕ} (hb : b ≠ a) : ch'.entries b = s.station.channel.entries b :=
    Channel.set_of_ne hb
  have hself : ch'.entries a = some { e with body } := Channel.set_self
  have hlinked : ∀ l ∈ s.links, l.entry = a → ∃ r, LinkedTo s.station.channel s.station.client l
      e r ∧ LinkedTo ch' s.station.client l { e with body } r ∧
        unread ch' l = unread s.station.channel l ++ accepted e.body (.newData data t current) ∧
        Alive e l.entry s.station.client.pending := by
    intro l hl hla
    obtain ⟨x, r, hx, hxa⟩ := hT.linked l hl
    have hxe : x = e := by
      have := hx.entry
      rw [hla, he] at this
      exact (Option.some.inj this).symm
    subst hxe
    obtain ⟨cl, hR⟩ := hx.reads
    have hnew : LinkedTo ch' s.station.client l { x with body } r :=
      ⟨hla ▸ hself, ⟨cl, hR.of_clients hclients⟩, by
        show areClientAndEntryTimingCompatible _ body.eventtype = true
        rw [hev]
        exact hx.compatible⟩
    refine ⟨r, hx, hnew, ?_, hxa⟩
    rw [unread_eq hnew, unread_eq hx]
    exact hpoints _ _ _ hR
  have halive {x : ℕ} (h : Alive e x s.station.client.pending) :
      Alive { e with body } x s.station.client.pending := h.imp (fun h => hvalid.trans h) id
  have hKept : Kept { s with
      station := { s.station with channel := ch' }
      answer := .nothing
      arrived :=
        if s.links.any (·.entry = a) then
          Function.update s.arrived a (s.arrived a ++ accepted e.body (.newData data t current))
        else s.arrived } := by
    constructor
    case tidy =>
      refine ⟨hT.token, fun b x hx => ?_, hT.distinct, hT.selected, fun l hl => ?_,
        fun cc hcc hnew => ?_, hT.fresh⟩
      · by_cases hb : b = a
        · subst hb
          rw [hself] at hx
          cases hx
          exact hWb
        · rw [hother hb] at hx
          exact hT.whole b x hx
      · by_cases hla : l.entry = a
        · obtain ⟨r, -, hnew, -, hxa⟩ := hlinked l hl hla
          exact ⟨_, r, hnew, halive hxa⟩
        · obtain ⟨x, r, hx, hxa⟩ := hT.linked l hl
          exact ⟨x, r, hx.congr (hother hla) rfl, hxa⟩
      · obtain ⟨hnot, x, hx, hxa⟩ := hT.new cc hcc hnew
        by_cases hca : cc.entry = a
        · have hxe : x = e := by
            rw [hca, he] at hx
            exact (Option.some.inj hx).symm
          subst hxe
          exact ⟨hnot, _, hca ▸ hself, halive hxa⟩
        · exact ⟨hnot, x, (hother hca).trans hx, hxa⟩
    case below =>
      intro b x hx
      by_cases hb : b = a
      · exact hb ▸ hK.below a e he
      · have hx : ch'.entries b = some x := hx
        rw [hother hb] at hx
        exact hK.below b x hx
    case pending => exact hK.pending
    case accounts =>
      intro l hl
      have hl : l ∈ s.links := hl
      show (if _ then _ else _ : ℕ → List (Point D)) l.entry = (s.gone l.entry).map _ ++ unread ch' l
      by_cases hla : l.entry = a
      · obtain ⟨r, -, -, hun, -⟩ := hlinked l hl hla
        have hany : s.links.any (·.entry = a) = true :=
          List.any_eq_true.mpr ⟨l, hl, decide_eq_true hla⟩
        have hacc := hK.accounts l hl
        rw [if_pos hany, hun, hla, Function.update_self, ← List.append_assoc]
        rw [hla] at hacc
        rw [hacc]
      · have harr : (if s.links.any (·.entry = a) then Function.update s.arrived a
            (s.arrived a ++ accepted e.body (.newData data t current)) else s.arrived) l.entry =
            s.arrived l.entry := by
          split
          · exact Function.update_of_ne hla ..
          · rfl
        rw [harr, unread_congr (hother hla)]
        exact hK.accounts l hl
    case visiting => exact hK.visiting
    case known => exact hK.known
  refine ⟨_, ?_, ⟨hKept.accounts, nofun, nofun, nofun, hKept.visited, nofun, nofun, nofun⟩, hKept⟩
  exact bind_eq_ok.mpr ⟨e, Channel.find_eq_ok.mpr he, bind_eq_ok.mpr ⟨_, hnew, rfl⟩⟩

/-! ### Runs -/

/-- A step under the condition does what it should. -/
theorem complete_step {op : JoinOp D} (hK : Kept s) (hok : Attentive s op) :
    ∃ s', joinStep s op = .ok s' ∧ Complete s op s' ∧ Kept s' := by
  cases op with
  | addEntry => exact complete_addEntry hK hok
  | removeEntry a =>
    obtain ⟨e, he, hv⟩ := hok
    exact complete_removeEntry hK he hv
  | write a data t current =>
    obtain ⟨e, he, hid⟩ := hok
    exact complete_write hK he hid
  | read t => exact complete_read hK hok
  | selectFirstEntry => exact complete_first hK hok
  | selectNextEntry => exact complete_next hK hok
  | isValid => exact complete_isValid hK hok
  | haveVisibleSets t => exact complete_visible hK hok
  | getNumVisibleSets t => exact complete_number hK hok
  | flushTotalAvailableSets =>
    have hflush : Flushes (D := D) flushAll fun _ => True :=
      fun _ _ _ _ hW hR _ => flushAll_reads hW hR
    exact complete_flush hK (fun hst _ _ hf => bind_eq_ok.mpr ⟨_, hst, bind_eq_ok.mpr ⟨_, hf, rfl⟩⟩)
      (fun st hC _ => flush_calm hC hflush fun _ _ => trivial) hok.1 (.inl rfl)
  | flushOlderSets =>
    have hflush : Flushes (D := D) spinToLast (· ≠ []) :=
      fun _ _ _ _ hW hR hun => spinToLast_reads hW hR hun
    exact complete_flush hK (fun hst _ _ hf => bind_eq_ok.mpr ⟨_, hst, bind_eq_ok.mpr ⟨_, hf, rfl⟩⟩)
      (fun st hC hst => flush_calm hC hflush (hok.2 st _ hst)) hok.1 (.inr (.inl rfl))
  | flushOlderSetsBefore t =>
    have hflush : Flushes (D := D) (fun e c => spinToLastBefore e c t) (· ≠ []) :=
      fun _ _ _ _ hW hR hun => spinToLastBefore_reads hW hR hun
    exact complete_flush hK (fun hst _ _ hf => bind_eq_ok.mpr ⟨_, hst, bind_eq_ok.mpr ⟨_, hf, rfl⟩⟩)
      (fun st hC hst => flush_calm hC hflush (hok.2 st _ hst)) hok.1 (.inr (.inr (.inl ⟨t, rfl⟩)))
  | flushOne =>
    exact complete_flush hK (fun hst _ _ hf => bind_eq_ok.mpr ⟨_, hst, bind_eq_ok.mpr ⟨_, hf, rfl⟩⟩)
      (fun st hC _ => flushOne_calm hC) hok.1 (.inr (.inr (.inr rfl)))

/-- A channel without entries, and a new client. -/
def Joining.start (c : ClientHandle) (zeroEntriesAcceptable : Bool) : Joining D where
  station := ⟨⟨fun _ => none, 0⟩, { c with classLead := [], entry := none, pending := [] }⟩
  zeroEntriesAcceptable := zeroEntriesAcceptable

theorem kept_start {c : ClientHandle} {zero : Bool} (hc : AllSequential c) :
    Kept (Joining.start c zero : Joining D) where
  tidy := ⟨⟨hc.all, hc.sequential⟩, nofun, .nil, nofun, nofun, nofun, .nil⟩
  below := nofun
  pending := nofun
  accounts := nofun
  visiting := nofun
  known := nofun

/-- In an attentive run of a token for all entries, every step does what it should. -/
theorem complete_of_run {c : ClientHandle} {zero : Bool} {ops : List (JoinOp D)}
    (hc : AllSequential c) (hok : Allowed joinStep Attentive (.start c zero) ops) :
    Throughout joinStep Complete (.start c zero) ops :=
  throughout_of_allowed (I := fun s _ => Kept s) (fun _ _ _ hK hok => complete_step hK hok)
    (kept_start hc) hok

/-- A test for the condition on an operation of the client. -/
def askedTest (s : Joining D) : JoinOp D → Bool
  | .read t =>
    let seen (l : Link) := (unread s.station.channel l).head?.any (·.1.1 ≤ t)
    !s.links.any seen || s.links.any fun l => !StandsAtGap s.station.channel l && seen l
  | .selectNextEntry =>
    s.visit.all fun v => v.finished || s.station.client.entry = v.visited.getLast?
  | .isValid => s.station.client.entry.isSome || s.links = [] || s.zeroEntriesAcceptable
  | .flushOlderSets | .flushOlderSetsBefore _ =>
    s.links.all fun l => !(unread s.station.channel l).isEmpty
  | _ => true

instance (s : Handling D) (cc : EntryConfigurationChange) : Decidable (DeletesLinked s cc) :=
  inferInstanceAs (Decidable (cc.changetype = .deletedEntry →
    if s.quick && s.client.skips cc then ∀ l ∈ s.client.classLead, l.entry ≠ cc.entry
    else s.client.classLead = [] ∨ ∃ l ∈ s.client.classLead, l.entry = cc.entry))

/-- A test for the condition on a step. -/
def attentiveTest (s : Joining D) : JoinOp D → Bool
  | .addEntry _ _ entryId _ _ _ _ => entryId ≠ entryEnd
  | .removeEntry a => (s.station.channel.entries a).any (·.body.valid)
  | .write a _ _ _ => (s.station.channel.entries a).any (·.body.lastId + 1 < 4294967296)
  | op =>
    checks handle (fun s cc => decide (DeletesLinked s cc)) ⟨s.station.channel, s.station.client, true, false⟩
      s.station.client.pending &&
    match s.station.refreshClientHandle with
    | .ok (st, _) => askedTest (s.linkedTo st) op
    | .error _ => true

theorem headVisible_iff {ch : Channel D} {t : ℕ} :
    HeadVisible ch t l ↔ (unread ch l).head?.any (·.1.1 ≤ t) = true := by
  rw [HeadVisible, Option.any_eq_true]
  simp only [decide_eq_true_eq, Option.mem_def]

theorem asked_of_askedTest {op : JoinOp D} (h : askedTest s op = true) : Asked s op := by
  cases op with
  | read t =>
    intro ⟨l, hl, hv⟩
    rw [headVisible_iff] at hv
    have hany : s.links.any (fun l => (unread s.station.channel l).head?.any (·.1.1 ≤ t)) = true :=
      List.any_eq_true.mpr ⟨l, hl, hv⟩
    simp only [askedTest, hany, Bool.not_true, Bool.false_or, List.any_eq_true, Bool.and_eq_true,
      Bool.not_eq_true'] at h
    obtain ⟨x, hx, hgap, hxv⟩ := h
    exact ⟨x, hx, hgap, headVisible_iff.mpr hxv⟩
  | selectNextEntry =>
    intro v hv hf
    simp only [askedTest, hv, Option.all_some, hf, Bool.false_or, decide_eq_true_eq] at h
    exact h
  | isValid =>
    intro hnone
    simp only [askedTest, hnone, Option.isSome_none, Bool.false_or, Bool.or_eq_true,
      decide_eq_true_eq] at h
    exact h
  | flushOlderSets =>
    intro l hl
    have := List.all_eq_true.mp h l hl
    simpa using this
  | flushOlderSetsBefore t =>
    intro l hl
    have := List.all_eq_true.mp h l hl
    simpa using this
  | addEntry | removeEntry | write | selectFirstEntry | haveVisibleSets | getNumVisibleSets
  | flushTotalAvailableSets | flushOne => trivial

theorem attentive_of_attentiveTest (s : Joining D) (op : JoinOp D)
    (h : attentiveTest s op = true) : Attentive s op := by
  have client (hop : attentiveTest s op = true →
      checks handle (fun s cc => decide (DeletesLinked s cc))
        ⟨s.station.channel, s.station.client, true, false⟩ s.station.client.pending = true ∧
      (match s.station.refreshClientHandle with
        | .ok (st, _) => askedTest (s.linkedTo st) op
        | .error _ => true) = true) :
      Allowed handle DeletesLinked ⟨s.station.channel, s.station.client, true, false⟩
        s.station.client.pending ∧
      ∀ st b, s.station.refreshClientHandle = .ok (st, b) → Asked (s.linkedTo st) op := by
    obtain ⟨h₁, h₂⟩ := hop h
    refine ⟨allowed_of_checks (fun _ _ h => of_decide_eq_true h) h₁, fun st b hst => ?_⟩
    rw [hst] at h₂
    exact asked_of_askedTest h₂
  cases op with
  | addEntry label classes entryId =>
    have h : decide (entryId ≠ entryEnd) = true := h
    have hne : entryId ≠ entryEnd := of_decide_eq_true h
    exact hne
  | removeEntry a =>
    have h : (s.station.channel.entries a).any (·.body.valid) = true := h
    rw [Option.any_eq_true] at h
    obtain ⟨e, he, hv⟩ := h
    exact ⟨e, he, hv⟩
  | write a data t current =>
    have h : (s.station.channel.entries a).any (·.body.lastId + 1 < 4294967296) = true := h
    rw [Option.any_eq_true] at h
    obtain ⟨e, he, hv⟩ := h
    exact ⟨e, he, of_decide_eq_true hv⟩
  | read | selectFirstEntry | selectNextEntry | isValid | haveVisibleSets | getNumVisibleSets
  | flushTotalAvailableSets | flushOlderSets | flushOlderSetsBefore | flushOne =>
    exact client fun h => (Bool.and_eq_true _ _).mp h

/-- A token for all streams of a class. -/
def streamClient : ClientHandle where
  dataclassname := "Wind"
  requestedEntry := entryAny
  entrylabel := ""
  timeAspect := .continuous
  readingMode := .readAllData
  requestedSpan := 0
  requestedDepth := 0

/-- Two entries, an iteration over them, reads of one and then of the other. -/
def twoEntries : List (JoinOp ℕ) :=
  [.addEntry "a" ["Wind"] 1 true false true 0, .addEntry "b" ["Wind"] 2 true false true 0,
    .write 0 5 (.of 0 10 zero_ten) true, .write 1 6 (.of 0 10 zero_ten) true, .isValid,
    .selectFirstEntry, .selectNextEntry, .selectNextEntry, .read 5, .removeEntry 1, .read 5,
    .read 5, .write 0 7 (.of 10 20 ten_twenty) true, .flushOlderSets, .flushTotalAvailableSets]

theorem complete_twoEntries :
    Throughout joinStep Complete (.start streamClient false) twoEntries :=
  complete_of_run ⟨rfl, by decide⟩
    (allowed_of_checks attentive_of_attentiveTest (by decide +kernel))

/-- A point behind a gap: there are no visible sets, and a read has data. -/
theorem not_complete_gap :
    ¬ Throughout joinStep Complete (.start streamClient false) ([
      .addEntry "a" ["Wind"] 1 true false true 0, .write 0 5 (.of 0 10) true, .read 5,
      .write 0 6 (.of 20 30) true] ++ [.read 25] : List (JoinOp ℕ)) := by
  intro h
  obtain ⟨t, u, ht, hu, hP⟩ := h.last
  obtain ⟨t', ht', htest⟩ := exists_of_endsIn joinStep (.start streamClient false)
    [.addEntry "a" ["Wind"] 1 true false true 0, .write 0 5 (.of 0 10) true, .read 5,
      .write 0 6 (.of 20 30) true]
    (fun s => (match joinStep s (.read 25) with
      | .ok s => decide (s.answer = .data (some ((20, 30), 6)))
      | .error _ => false) && (match joinStep s (.haveVisibleSets 25) with
      | .ok s => decide (s.answer = .flag false)
      | .error _ => false)) (by decide +kernel)
  obtain rfl := Except.ok.inj (ht.symm.trans ht')
  obtain ⟨res, q, v, hres, hq, hflag, hsome, -⟩ := hP.read 25 rfl
  rw [hu, hq, Bool.and_eq_true, decide_eq_true_eq, decide_eq_true_eq, hres, hflag] at htest
  obtain ⟨hdata, hfalse⟩ := htest
  cases hdata
  cases hfalse
  cases hsome

end Dueca.Clients
