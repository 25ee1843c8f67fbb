import Dueca.End.Model
import Dueca.Lib.Linked
import Mathlib.Data.List.Count
import Mathlib.Data.List.Perm.Subperm

/-!
# The list of configuration changes

Each read client has a pointer into the list of configuration changes and steps
it over the changes it has handled; `tocheck` counts the readers that a change
still waits for. Handled records are moved from the front of the list to behind
its latest record and are used again.

`Tracked` is the invariant of the list: its addresses, those of the spare records
behind it, where the pointers are, and what the counters say.
-/

namespace Dueca.End

open Dueca.Lib

/-! ### The list and the pointers into it -/

/-- The record behind a record. -/
def ChangeList.next (cl : ChangeList) (p : ℕ) : Option ℕ := (cl.record p).next

/-- A change list on which the changes at `pend` are published and the records at
`spare` can be used again, with pointers `cursors` of the read clients. -/
structure Tracked (cl : ChangeList) (cursors pend spare : List ℕ) : Prop where
  segment : Segment cl.next (pend ++ cl.latest :: spare) none
  nodup : (pend ++ cl.latest :: spare).Nodup
  allocated : ∀ p ∈ pend ++ cl.latest :: spare, p < cl.allocated
  first : (pend ++ [cl.latest]).head? = some cl.first
  cursor : ∀ c ∈ cursors, c ∈ pend ++ [cl.latest]
  /-- A change waits for the clients whose pointer is at it or before it. -/
  tocheck : ∀ a p b, pend = a ++ p :: b →
    (cl.record p).tocheck = cursors.countP (· ∈ a ++ [p])

/-- What the records at these addresses say. -/
def contents (cl : ChangeList) (pend : List ℕ) : List Change :=
  pend.map fun q => (cl.record q).toChange

/-- The changes that a client with pointer `p` has not handled. -/
def awaiting (cl : ChangeList) (pend : List ℕ) (p : ℕ) : List Change :=
  contents cl (pend.dropWhile (· ≠ p))

variable {cl cl' : ChangeList} {cursors pend spare : List ℕ}

theorem contents_cons (p : ℕ) (l : List ℕ) :
    contents cl (p :: l) = (cl.record p).toChange :: contents cl l := rfl

theorem tracked_init : Tracked {} [] [] [] := by
  constructor <;> simp [ChangeList.next]

theorem Tracked.latest_not_mem (h : Tracked cl cursors pend spare) : cl.latest ∉ pend :=
  fun hmem => (List.nodup_append.mp h.nodup).2.2 _ hmem _ List.mem_cons_self rfl

theorem Tracked.pend_nodup (h : Tracked cl cursors pend spare) : pend.Nodup :=
  (List.nodup_append.mp h.nodup).1

/-- The list is empty when both pointers meet. -/
theorem Tracked.pend_eq_cons (h : Tracked cl cursors pend spare) (hne : cl.first ≠ cl.latest) :
    ∃ rest, pend = cl.first :: rest := by
  cases pend with
  | nil =>
    have := h.first
    simp only [List.nil_append, List.head?_cons, Option.some.injEq] at this
    exact absurd this.symm hne
  | cons p rest =>
    have := h.first
    simp only [List.cons_append, List.head?_cons, Option.some.injEq] at this
    exact ⟨rest, by rw [this]⟩

/-- No pointer rests on a first change that waits for nobody. -/
theorem Tracked.first_free {p : ℕ} (h : Tracked cl cursors (p :: pend) spare)
    (hzero : (cl.record p).tocheck = 0) : p ∉ cursors := by
  intro hmem
  have hcount := h.tocheck [] p pend rfl
  rw [hzero, eq_comm, List.countP_eq_zero] at hcount
  exact hcount p hmem (by simp)

/-- The first change is handled: move its record behind the latest. -/
theorem Tracked.recycle {p : ℕ} (h : Tracked cl cursors (p :: pend) spare)
    (hzero : (cl.record p).tocheck = 0) :
    ∃ cl', cl.recycle = .ok cl' ∧ Tracked cl' cursors pend (p :: spare) ∧
      cl'.latest = cl.latest ∧ cl'.allocated = cl.allocated ∧
      ∀ q, (cl'.record q).toChange = (cl.record q).toChange ∧
        (cl'.record q).tocheck = (cl.record q).tocheck := by
  have hfirst : cl.first = p := by simpa using h.first.symm
  have hnext : (cl.record p).next = (pend ++ [cl.latest]).head? := by
    refine Eq.trans h.segment.1 ?_
    cases pend <;> simp
  obtain ⟨n, hn⟩ : ∃ n, (pend ++ [cl.latest]).head? = some n := by
    cases pend
    · exact ⟨_, rfl⟩
    · exact ⟨_, rfl⟩
  have hnodup : p ≠ cl.latest ∧ p ∉ pend ∧ p ∉ spare ∧ (pend ++ cl.latest :: spare).Nodup := by
    obtain ⟨hnot, hrest⟩ := List.nodup_cons.mp h.nodup
    have hnot' : p ∉ pend ++ cl.latest :: spare := hnot
    simp only [List.mem_append, List.mem_cons, not_or] at hnot'
    exact ⟨hnot'.2.1, hnot'.1, hnot'.2.2, hrest⟩
  obtain ⟨hpl, hpp, hps, hrest⟩ := hnodup
  have hlp : cl.latest ∉ pend := fun hmem => h.latest_not_mem (List.mem_cons_of_mem p hmem)
  have hls : cl.latest ∉ spare := (List.nodup_cons.mp (List.nodup_append.mp hrest).2.1).1
  have hcursor := h.first_free hzero
  refine ⟨{ cl.insert cl.latest cl.first with first := n }, ?_, ?_, rfl, rfl, ?_⟩
  · simp only [ChangeList.recycle, hfirst, hnext, hn]
  · constructor
    · refine Segment.splice h.segment.2 ?_ ?_ ?_
      · intro q hq
        have hql : q ≠ cl.latest := by
          rintro rfl
          rcases List.mem_append.mp hq with hq | hq
          · exact hlp hq
          · exact hls hq
        have hqp : q ≠ p := by
          rintro rfl
          rcases List.mem_append.mp hq with hq | hq
          · exact hpp hq
          · exact hps hq
        simp [ChangeList.next, ChangeList.insert, ChangeList.modify, hfirst, hql, hqp]
      · simp [ChangeList.next, ChangeList.insert, ChangeList.modify, hfirst, hpl]
      · simp [ChangeList.next, ChangeList.insert, ChangeList.modify, hfirst]
    · change (pend ++ cl.latest :: p :: spare).Nodup
      rw [List.append_cons] at hrest ⊢
      refine List.nodup_middle.mpr (List.nodup_cons.mpr ⟨?_, hrest⟩)
      simp [hpl, hpp, hps]
    · intro q hq
      refine h.allocated q ?_
      simp only [ChangeList.insert, ChangeList.modify, List.mem_append, List.mem_cons,
        List.cons_append] at hq ⊢
      tauto
    · exact hn
    · intro c hc
      have hmem := h.cursor c hc
      rw [List.cons_append, List.mem_cons] at hmem
      exact hmem.resolve_left fun heq => hcursor (heq ▸ hc)
    · intro a q b hsplit
      have hcount := h.tocheck (p :: a) q b (by rw [hsplit]; rfl)
      have hql : q ≠ cl.latest := by
        rintro rfl
        exact hlp (by simp [hsplit])
      have hqp : q ≠ p := by
        rintro rfl
        exact hpp (by simp [hsplit])
      have hsame : ((cl.insert cl.latest cl.first).record q).tocheck = (cl.record q).tocheck := by
        simp [ChangeList.insert, ChangeList.modify, hfirst, hql, hqp]
      rw [hsame, hcount]
      refine List.countP_congr fun c hc => ?_
      have hcp : c ≠ p := fun heq => hcursor (heq ▸ hc)
      simp [hcp]
  · intro q
    by_cases hql : q = cl.latest
    · subst hql
      simp [ChangeList.insert, ChangeList.modify, hfirst, Ne.symm hpl]
    · by_cases hqp : q = p
      · subst hqp
        simp [ChangeList.insert, ChangeList.modify, hfirst, hql]
      · simp [ChangeList.insert, ChangeList.modify, hfirst, hql, hqp]

/-- Records keep what they say and whom they wait for. -/
def SameContent (cl cl' : ChangeList) : Prop :=
  ∀ q, (cl'.record q).toChange = (cl.record q).toChange ∧
    (cl'.record q).tocheck = (cl.record q).tocheck

theorem SameContent.contents (h : SameContent cl cl') (pend : List ℕ) :
    contents cl' pend = contents cl pend := by
  simp only [Dueca.End.contents, (h _).1]

theorem awaiting_cons_of_ne {p q : ℕ} (h : p ≠ q) :
    awaiting cl (p :: pend) q = awaiting cl pend q := by
  simp [awaiting, h]

theorem dropWhile_ne_append {l r : List ℕ} {p : ℕ} (h : p ∉ l) :
    (l ++ r).dropWhile (· ≠ p) = r.dropWhile (· ≠ p) := by
  refine List.dropWhile_append_of_pos fun q hq => ?_
  simp only [decide_eq_true_eq]
  rintro rfl
  exact h hq

theorem awaiting_latest (h : Tracked cl cursors pend spare) : awaiting cl pend cl.latest = [] := by
  have hdrop := dropWhile_ne_append (r := []) h.latest_not_mem
  rw [List.append_nil] at hdrop
  rw [awaiting, hdrop]
  rfl

/-- What recycling does to a tracked list: some changes that every client has
handled are gone from its front. -/
structure Recycled (cl cl' : ChangeList) (cursors pend pend' spare' : List ℕ) : Prop where
  tracked : Tracked cl' cursors pend' spare'
  suffix : pend' <:+ pend
  content : SameContent cl cl'
  latest : cl'.latest = cl.latest
  allocated : cl'.allocated = cl.allocated
  awaiting : ∀ p ∈ cursors, awaiting cl' pend' p = awaiting cl pend p

theorem Recycled.refl (h : Tracked cl cursors pend spare) :
    Recycled cl cl cursors pend pend spare :=
  ⟨h, List.suffix_rfl, fun _ => ⟨rfl, rfl⟩, rfl, rfl, fun _ _ => rfl⟩

theorem Recycled.trans {cl₂ : ChangeList} {pend₂ spare₂ pend₃ spare₃ : List ℕ}
    (h₁ : Recycled cl cl' cursors pend pend₂ spare₂)
    (h₂ : Recycled cl' cl₂ cursors pend₂ pend₃ spare₃) :
    Recycled cl cl₂ cursors pend pend₃ spare₃ where
  tracked := h₂.tracked
  suffix := h₂.suffix.trans h₁.suffix
  content q := ⟨(h₂.content q).1.trans (h₁.content q).1, (h₂.content q).2.trans (h₁.content q).2⟩
  latest := h₂.latest.trans h₁.latest
  allocated := h₂.allocated.trans h₁.allocated
  awaiting p hp := (h₂.awaiting p hp).trans (h₁.awaiting p hp)

/-- One record is recycled. -/
theorem Tracked.recycled (h : Tracked cl cursors pend spare) (hne : cl.first ≠ cl.latest)
    (hzero : (cl.record cl.first).tocheck = 0) :
    ∃ cl' pend' spare', cl.recycle = .ok cl' ∧ pend = cl.first :: pend' ∧
      Recycled cl cl' cursors pend pend' spare' := by
  obtain ⟨rest, rfl⟩ := h.pend_eq_cons hne
  obtain ⟨cl', hrec, htr, hlat, hall, hsame⟩ := h.recycle hzero
  refine ⟨cl', rest, cl.first :: spare, hrec, rfl, htr, List.suffix_cons _ _, hsame, hlat, hall, ?_⟩
  intro p hp
  have hpf : cl.first ≠ p := fun heq => h.first_free hzero (heq ▸ hp)
  rw [awaiting, SameContent.contents hsame, ← awaiting, awaiting_cons_of_ne hpf]

theorem bind_eq_ok {ε α β : Type*} {x : Except ε α} {f : α → Except ε β} {b : β} :
    x.bind f = .ok b ↔ ∃ a, x = .ok a ∧ f a = .ok b := by
  cases x with
  | error e => simp [Except.bind]
  | ok a => simp [Except.bind]

/-- `recycleConfigChanges` leaves all deletions on the list. -/
theorem recycleLoop_spec (n : ℕ) (h : Tracked cl cursors pend spare) (hn : pend.length < n) :
    ∃ cl' pend' spare', ChangeList.recycleLoop n cl = .ok cl' ∧
      Recycled cl cl' cursors pend pend' spare' ∧
      ∀ change, change.changetype = .deletedEntry →
        (contents cl' pend').count change = (contents cl pend).count change := by
  induction n generalizing cl pend spare with
  | zero => exact absurd hn (Nat.not_lt_zero _)
  | succ n ih =>
    unfold ChangeList.recycleLoop
    split
    · rename_i hcond
      obtain ⟨cl₁, pend₁, spare₁, hrec, rfl, hr₁⟩ := h.recycled hcond.1 hcond.2.2
      obtain ⟨cl₂, pend₂, spare₂, hloop, hr₂, hdel⟩ := ih hr₁.tracked (by simpa using hn)
      refine ⟨cl₂, pend₂, spare₂, ?_, hr₁.trans hr₂, fun change hchange => ?_⟩
      · rw [hrec]
        exact hloop
      · have hne : (cl.record cl.first).toChange ≠ change := by
          rintro rfl
          exact hcond.2.1 hchange
        rw [hdel change hchange, SameContent.contents hr₁.content, contents_cons,
          List.count_cons_of_ne hne]
    · exact ⟨cl, pend, spare, rfl, .refl h, fun _ _ => rfl⟩

/-- The list is never longer than the number of records made. -/
theorem Tracked.length_lt (h : Tracked cl cursors pend spare) : pend.length < cl.allocated := by
  have hsub : pend ++ cl.latest :: spare ⊆ List.range cl.allocated := fun p hp =>
    List.mem_range.mpr (h.allocated p hp)
  have hlen := (List.Nodup.subperm h.nodup hsub).length_le
  simp only [List.length_append, List.length_cons, List.length_range] at hlen
  omega

theorem recycleConfigChanges_spec (h : Tracked cl cursors pend spare) :
    ∃ cl' pend' spare', cl.recycleConfigChanges = .ok cl' ∧
      Recycled cl cl' cursors pend pend' spare' ∧
      ∀ change, change.changetype = .deletedEntry →
        (contents cl' pend').count change = (contents cl pend).count change :=
  recycleLoop_spec _ h (Nat.lt_succ_of_lt h.length_lt)

/-! ### Publishing -/

/-- There is a record behind the latest, and the list is otherwise as it was. -/
theorem Tracked.reserve (h : Tracked cl cursors pend spare) :
    ∃ nxt spare', Tracked cl.reserve cursors pend (nxt :: spare') ∧
      cl.reserve.latest = cl.latest ∧ ∀ q ∈ pend, cl.reserve.record q = cl.record q := by
  have hnext : (cl.record cl.latest).next = spare.head? := by
    simpa [ChangeList.next] using Segment.next_eq h.segment
  unfold ChangeList.reserve
  cases spare with
  | cons nxt spare' =>
    rw [if_neg (by simp [hnext])]
    exact ⟨nxt, spare', h, rfl, fun _ _ => rfl⟩
  | nil =>
    rw [if_pos (by simp [hnext])]
    -- the new record is at an address that is not on the list
    have hfresh : ∀ p ∈ pend ++ [cl.latest], p ≠ cl.allocated := fun p hp =>
      Nat.ne_of_lt (h.allocated p hp)
    have hlat : cl.latest ≠ cl.allocated := hfresh _ (by simp)
    have hpend : ∀ q ∈ pend, q ≠ cl.allocated ∧ q ≠ cl.latest := fun q hq =>
      ⟨hfresh q (List.mem_append_left _ hq), fun heq => h.latest_not_mem (heq ▸ hq)⟩
    have hrec : ∀ q ∈ pend, Function.update (Function.update cl.record cl.allocated {}) cl.latest
        { cl.record cl.latest with next := some cl.allocated } q = cl.record q := by
      intro q hq
      simp [hpend q hq]
    refine ⟨cl.allocated, [], ⟨?_, ?_, ?_, h.first, h.cursor, ?_⟩, rfl, hrec⟩
    · refine Segment.splice h.segment ?_ ?_ ?_
      · intro q hq
        rw [List.append_nil] at hq
        simp only [ChangeList.next, hrec q hq]
      · simp [ChangeList.next, hnext, hlat.symm]
      · simp [ChangeList.next]
    · change (pend ++ [cl.latest, cl.allocated]).Nodup
      rw [List.append_cons]
      refine List.nodup_append.mpr ⟨h.nodup, List.nodup_singleton _, fun p hp q hq => ?_⟩
      rw [List.mem_singleton.mp hq]
      exact hfresh p hp
    · intro p hp
      change p ∈ pend ++ [cl.latest, cl.allocated] at hp
      change p < cl.allocated + 1
      rw [List.append_cons, List.mem_append, List.mem_singleton] at hp
      rcases hp with hp | rfl
      · exact Nat.lt_succ_of_lt (h.allocated p hp)
      · exact Nat.lt_succ_self _
    · intro a p b hsplit
      simp only [hrec p (by simp [hsplit])]
      exact h.tocheck a p b hsplit

/-- A change is published for all readers: it is at the end of the list, and every
client waits for it. -/
theorem Tracked.publish (h : Tracked cl cursors pend spare) (change : Change) :
    ∃ cl' spare', cl.publish change cursors.length = .ok cl' ∧
      Tracked cl' cursors (pend ++ [cl.latest]) spare' ∧
      contents cl' (pend ++ [cl.latest]) = contents cl pend ++ [change] ∧
      ∀ p ∈ cursors, awaiting cl' (pend ++ [cl.latest]) p = awaiting cl pend p ++ [change] := by
  obtain ⟨nxt, spare', h', hlat, hsame⟩ := h.reserve
  have hnext : (cl.reserve.record cl.latest).next = some nxt := by
    rw [← hlat]
    simpa [ChangeList.next] using Segment.next_eq h'.segment
  have hnot : cl.latest ∉ pend := h.latest_not_mem
  have hnodup := h'.nodup
  rw [hlat, List.append_cons] at hnodup
  have hrec : ∀ q ∈ pend, (cl.reserve.modify cl.latest fun r =>
      { r with toChange := change, tocheck := cursors.length }).record q = cl.record q := by
    intro q hq
    have hql : q ≠ cl.latest := fun heq => hnot (heq ▸ hq)
    simp [ChangeList.modify, hql, hsame q hq]
  have hcursors : ∀ p ∈ cursors, p ∈ pend ++ [cl.latest] := h.cursor
  have hcontents : ∀ l ⊆ pend, contents (cl.reserve.modify cl.latest fun r =>
      { r with toChange := change, tocheck := cursors.length }) (l ++ [cl.latest]) =
        contents cl l ++ [change] := by
    intro l hl
    simp only [contents, List.map_append, List.map_singleton]
    congr 1
    · exact List.map_congr_left fun q hq =>
        congrArg EntryConfigurationChange.toChange (hrec q (hl hq))
    · simp [ChangeList.modify]
  refine ⟨{ cl.reserve.modify cl.latest (fun r =>
    { r with toChange := change, tocheck := cursors.length }) with latest := nxt }, spare',
    ?_, ⟨?_, hnodup, ?_, ?_, ?_, ?_⟩, hcontents pend (fun _ => id), ?_⟩
  · simp only [ChangeList.publish, hlat, hnext]
  · have hseg := h'.segment
    rw [hlat, List.append_cons] at hseg
    refine hseg.congr fun q _ => ?_
    by_cases hql : q = cl.latest <;> simp [ChangeList.next, ChangeList.modify, hql]
  · intro p hp
    have hp' : p ∈ pend ++ cl.reserve.latest :: nxt :: spare' := by
      rw [hlat, List.append_cons]
      exact hp
    exact h'.allocated p hp'
  · have hfirst := h'.first
    rw [hlat] at hfirst
    rw [List.head?_append, hfirst]
    rfl
  · intro c hc
    exact List.mem_append_left _ (hcursors c hc)
  · intro a p b hsplit
    rcases List.eq_nil_or_concat b with rfl | ⟨b', q, rfl⟩
    · -- the new change waits for everybody
      obtain ⟨rfl, hp⟩ := List.append_inj' hsplit rfl
      obtain rfl : cl.latest = p := by simpa using hp
      simp only [ChangeList.modify, Function.update_self]
      exact (List.countP_eq_length.mpr fun c hc => by simpa using hcursors c hc).symm
    · have hsplit' : pend ++ [cl.latest] = (a ++ p :: b') ++ [q] := by simpa using hsplit
      obtain ⟨rfl, -⟩ := List.append_inj' hsplit' rfl
      rw [hrec p (by simp)]
      exact h.tocheck a p b' rfl
  · intro p hp
    have hlast : ∀ l : List ℕ, p ∈ l ++ [cl.latest] →
        (l ++ [cl.latest]).dropWhile (· ≠ p) = l.dropWhile (· ≠ p) ++ [cl.latest] := by
      intro l
      induction l with
      | nil => simp +contextual
      | cons x xs ih =>
        intro hmem
        by_cases hx : x = p
        · simp [hx]
        · simp only [List.cons_append, List.mem_cons] at hmem
          simpa [hx] using ih (hmem.resolve_left (Ne.symm hx))
    rw [awaiting, hlast pend (hcursors p hp)]
    exact hcontents _ (List.dropWhile_suffix _).subset

/-! ### Handling -/

/-- Two places in one list: the same, the second behind the first, or before it. -/
theorem split_cases {a b a' b' : List ℕ} {p q : ℕ} (h : a ++ p :: b = a' ++ q :: b') :
    (q = p ∧ a' = a) ∨ (∃ c, a' = a ++ p :: c ∧ b = c ++ q :: b') ∨
      ∃ c, a = a' ++ q :: c ∧ b' = c ++ p :: b := by
  rcases List.append_eq_append_iff.mp h with ⟨c, ha', hb⟩ | ⟨c, ha, hb⟩
  · cases c with
    | nil =>
      simp only [List.nil_append, List.cons.injEq] at hb
      exact .inl ⟨hb.1.symm, by simpa using ha'⟩
    | cons d c =>
      simp only [List.cons_append, List.cons.injEq] at hb
      obtain ⟨rfl, hb⟩ := hb
      exact .inr (.inl ⟨c, ha', hb⟩)
  · cases c with
    | nil =>
      simp only [List.nil_append, List.cons.injEq] at hb
      exact .inl ⟨hb.1, by simpa using ha.symm⟩
    | cons d c =>
      simp only [List.cons_append, List.cons.injEq] at hb
      obtain ⟨rfl, hb⟩ := hb
      exact .inr (.inr ⟨c, ha, hb⟩)

/-- A client counts itself off a change and steps its pointer to the next one. -/
theorem Tracked.advance {x y : List ℕ} {p : ℕ}
    (h : Tracked cl (x ++ p :: y) pend spare) (hp : p ≠ cl.latest) :
    ∃ cl' n, cl.markHandled p = .ok (cl', n) ∧ Tracked cl' (x ++ n :: y) pend spare ∧
      cl'.latest = cl.latest ∧ cl'.allocated = cl.allocated ∧
      (∀ q, (cl'.record q).toChange = (cl.record q).toChange) ∧
      awaiting cl pend p = (cl.record p).toChange :: awaiting cl' pend n := by
  have hmem : p ∈ pend := by
    have := h.cursor p (by simp)
    rw [List.mem_append, List.mem_singleton] at this
    exact this.resolve_right hp
  obtain ⟨a, b, hpend⟩ := List.append_of_mem hmem
  obtain ⟨n, hn⟩ : ∃ n, (b ++ [cl.latest]).head? = some n := by
    cases b
    · exact ⟨_, rfl⟩
    · exact ⟨_, rfl⟩
  have hnext : (cl.record p).next = some n := by
    have hseg := h.segment
    rw [hpend, List.append_assoc, List.cons_append] at hseg
    rw [← hn]
    refine (Segment.next_eq hseg).trans ?_
    cases b <;> simp
  have hnb : n ∈ b ++ [cl.latest] := List.mem_of_mem_head? hn
  have hnodup : (a ++ p :: (b ++ [cl.latest])).Nodup := by
    have := h.nodup
    rw [List.append_cons] at this
    have := (List.nodup_append.mp this).1
    simpa [hpend] using this
  have hpa : p ∉ a := fun hm =>
    (List.nodup_append.mp hnodup).2.2 p hm p List.mem_cons_self rfl
  have hna : n ∉ a := fun hm =>
    (List.nodup_append.mp hnodup).2.2 n hm n (List.mem_cons_of_mem _ hnb) rfl
  have hnp : n ≠ p := by
    rintro rfl
    exact (List.nodup_cons.mp (List.nodup_append.mp hnodup).2.1).1 hnb
  have hpos : (cl.record p).tocheck ≠ 0 := by
    rw [h.tocheck a p b hpend]
    exact Nat.pos_iff_ne_zero.mp (List.countP_pos_iff.mpr ⟨p, by simp, by simp⟩)
  have htc : ∀ q, ((cl.modify p ChangeList.countOff).record q).tocheck =
      (cl.record q).tocheck - if q = p then 1 else 0 := by
    intro q
    by_cases hq : q = p
    · simp [ChangeList.modify, ChangeList.countOff, hq, hpos]
    · simp [ChangeList.modify, hq]
  have hcontent : ∀ q, ((cl.modify p ChangeList.countOff).record q).toChange =
      (cl.record q).toChange := by
    intro q
    by_cases hq : q = p <;> simp [ChangeList.modify, ChangeList.countOff, hq]
  refine ⟨cl.modify p ChangeList.countOff, n, by simp only [ChangeList.markHandled, hnext], ⟨?_, h.nodup, h.allocated, h.first,
    ?_, ?_⟩, rfl, rfl, hcontent, ?_⟩
  · refine h.segment.congr fun q _ => ?_
    by_cases hq : q = p <;> simp [ChangeList.next, ChangeList.modify, ChangeList.countOff, hq]
  · intro c hc
    have hcase : c = n ∨ c ∈ x ++ p :: y := by
      simp only [List.mem_append, List.mem_cons] at hc ⊢
      tauto
    rcases hcase with rfl | hc
    · rw [hpend, List.append_assoc, List.cons_append]
      exact List.mem_append_right _ (List.mem_cons_of_mem _ hnb)
    · exact h.cursor c hc
  · intro a' q b' hsplit
    rw [htc, h.tocheck a' q b' hsplit]
    simp only [List.countP_append, List.countP_cons]
    -- compare the place of `q` with that of the pointer
    rw [hpend] at hsplit
    rcases split_cases hsplit with ⟨rfl, rfl⟩ | ⟨c, rfl, hb⟩ | ⟨c, rfl, -⟩
    · have hn' : n ∉ a' ++ [q] := by simp [hna, hnp]
      simp [hn']
    · have hqp : q ≠ p := by
        rintro rfl
        exact (List.nodup_cons.mp (List.nodup_append.mp hnodup).2.1).1 (by simp [hb])
      have hn' : n ∈ c ++ [q] := by
        rw [hb] at hn
        cases c <;> simp_all
      have hp'' : p ∈ a ++ p :: c ++ [q] := by simp
      have hn'' : n ∈ a ++ p :: c ++ [q] := by
        rw [List.append_assoc]
        exact List.mem_append_right _ (List.mem_cons_of_mem _ hn')
      simp only [hp'', hn'', hqp, decide_true, if_true, if_false, Nat.sub_zero]
    · have hsub : ∀ z ∈ a' ++ [q], z ∈ a' ++ q :: c := by
        intro z hz
        simp only [List.mem_append, List.mem_cons] at hz ⊢
        tauto
      have hp' : p ∉ a' ++ [q] := fun hm => hpa (hsub p hm)
      have hn' : n ∉ a' ++ [q] := fun hm => hna (hsub n hm)
      have hqp : q ≠ p := by
        rintro rfl
        exact hp' (by simp)
      simp [hp', hn', hqp]
  · have hdrop : (a ++ p :: b).dropWhile (· ≠ p) = p :: b := by
      rw [dropWhile_ne_append hpa]
      simp
    have hb : pend.dropWhile (· ≠ n) = b := by
      rw [hpend, List.append_cons, dropWhile_ne_append (by simp [hna, hnp])]
      cases b with
      | nil => rfl
      | cons d b =>
        simp only [List.cons_append, List.head?_cons, Option.some.injEq] at hn
        simp [hn]
    simp only [awaiting, contents, hcontent, hb]
    rw [hpend, hdrop, List.map_cons]

/-- A client joins at the latest record. -/
theorem Tracked.add (h : Tracked cl cursors pend spare) :
    Tracked cl (cursors ++ [cl.latest]) pend spare where
  segment := h.segment
  nodup := h.nodup
  allocated := h.allocated
  first := h.first
  cursor c hc := by
    rcases List.mem_append.mp hc with hc | hc
    · exact h.cursor c hc
    · rw [List.mem_singleton.mp hc]
      simp
  tocheck a p b hsplit := by
    have hnot : cl.latest ∉ a ++ [p] := by
      intro hm
      refine h.latest_not_mem ?_
      rw [hsplit]
      simp only [List.mem_append, List.mem_cons, List.not_mem_nil, or_false] at hm ⊢
      tauto
    rw [List.countP_append, ← h.tocheck a p b hsplit]
    simp only [List.countP_singleton, hnot, decide_false, Bool.false_eq_true, if_false,
      Nat.add_zero]

/-- A client leaves from the latest record. -/
theorem Tracked.remove {x y : List ℕ} (h : Tracked cl (x ++ cl.latest :: y) pend spare) :
    Tracked cl (x ++ y) pend spare where
  segment := h.segment
  nodup := h.nodup
  allocated := h.allocated
  first := h.first
  cursor c hc := by
    refine h.cursor c ?_
    simp only [List.mem_append, List.mem_cons] at hc ⊢
    tauto
  tocheck a p b hsplit := by
    have hnot : cl.latest ∉ a ++ [p] := by
      intro hm
      refine h.latest_not_mem ?_
      rw [hsplit]
      simp only [List.mem_append, List.mem_cons, List.not_mem_nil, or_false] at hm ⊢
      tauto
    rw [h.tocheck a p b hsplit]
    simp only [List.countP_append, List.countP_cons, hnot, decide_false, Bool.false_eq_true,
      if_false, Nat.add_zero]

/-! ### Catching up -/

/-- The quick loop of a refresh passes over this change. -/
def UCClientHandle.SkipsChange (c : UCClientHandle) (change : Change) : Prop :=
  c.requestedEntry ≤ entryBylabel ∧ ∃ lead ∈ c.classLead.head?, change.entry ≠ some lead.entry

/-- One of the two loops takes the client over a change. -/
def UCClientHandle.Handles (reg : DataClassRegistry) (obj : ℕ → UChannelEntry)
    (c : UCClientHandle) (change : Change) (d : UCClientHandle) : Prop :=
  (c.SkipsChange change ∧ d = c) ∨ c.processChange reg obj change = .ok d

/-- The client gets from `c` to the last argument by handling a list of changes. -/
inductive Caught (reg : DataClassRegistry) (obj : ℕ → UChannelEntry) (c : UCClientHandle) :
    List Change → UCClientHandle → Prop
  | start : Caught reg obj c [] c
  | step {l : List Change} {d d' : UCClientHandle} {change : Change} (n : ℕ) :
      Caught reg obj c l d → d.Handles reg obj change d' →
        Caught reg obj c (l ++ [change]) { d' with configChange := n }

/-- What is true of a client between two steps of a refresh, when it started as `c`
with the list `cl`, and `x`, `y` are the pointers of the other clients. -/
structure Refreshing (reg : DataClassRegistry) (obj : ℕ → UChannelEntry) (cl : ChangeList)
    (c : UCClientHandle) (x y pend spare : List ℕ) (r : Refresh) : Prop where
  tracked : Tracked r.changes (x ++ r.client.configChange :: y) pend spare
  latest : r.changes.latest = cl.latest
  allocated : r.changes.allocated = cl.allocated
  content : ∀ q, (r.changes.record q).toChange = (cl.record q).toChange
  handled : r.handled ++ awaiting cl pend r.client.configChange =
    awaiting cl pend c.configChange
  caught : Caught reg obj c r.handled r.client
  same : r.client.toReadSpec = c.toReadSpec ∧ r.client.handle = c.handle

variable {reg : DataClassRegistry} {obj : ℕ → UChannelEntry}
variable {c : UCClientHandle} {x y : List ℕ} {r : Refresh}

theorem contents_congr (h : ∀ q, (cl'.record q).toChange = (cl.record q).toChange)
    (pend : List ℕ) : contents cl' pend = contents cl pend := by
  simp only [contents, h]

theorem awaiting_congr {p : ℕ} (h : ∀ q, (cl'.record q).toChange = (cl.record q).toChange) :
    awaiting cl' pend p = awaiting cl pend p :=
  contents_congr h _

/-- Linking leaves the client's pointer and what it asked for alone. -/
theorem linkReadClientToEntry_same {e : ℕ} {d : UCClientHandle}
    (h : c.linkReadClientToEntry obj e = .ok d) :
    d.configChange = c.configChange ∧ d.toReadSpec = c.toReadSpec ∧ d.handle = c.handle := by
  simp only [UCClientHandle.linkReadClientToEntry] at h
  split at h
  · cases h
  · cases h
    exact ⟨rfl, rfl, rfl⟩

/-- And so does detaching. -/
theorem detachReadClientFromEntry_same {e : ℕ} {d : UCClientHandle}
    (h : c.detachReadClientFromEntry e = .ok d) :
    d.configChange = c.configChange ∧ d.toReadSpec = c.toReadSpec ∧ d.handle = c.handle := by
  simp only [UCClientHandle.detachReadClientFromEntry] at h
  split at h
  · cases h
    exact ⟨rfl, rfl, rfl⟩
  · cases h

theorem processChange_same {change : Change} {d : UCClientHandle}
    (h : c.processChange reg obj change = .ok d) :
    d.configChange = c.configChange ∧ d.toReadSpec = c.toReadSpec ∧ d.handle = c.handle := by
  have hself : ∀ {d}, Except.ok c = (.ok d : Except Fault UCClientHandle) →
      d.configChange = c.configChange ∧ d.toReadSpec = c.toReadSpec ∧ d.handle = c.handle := by
    rintro d ⟨⟩
    exact ⟨rfl, rfl, rfl⟩
  simp only [UCClientHandle.processChange] at h
  split at h
  · split at h
    · split at h
      · exact linkReadClientToEntry_same h
      · exact hself h
    · exact hself h
  · cases h
  · split at h
    · exact hself h
    · exact detachReadClientFromEntry_same h
  · split at h
    · exact hself h
    · cases h
  · exact hself h

theorem processChange_ne_endless (reg : DataClassRegistry) (obj : ℕ → UChannelEntry)
    (c : UCClientHandle) (change : Change) : c.processChange reg obj change ≠ .error .endless := by
  simp only [UCClientHandle.processChange, UCClientHandle.linkReadClientToEntry,
    UCClientHandle.detachReadClientFromEntry]
  repeat' split
  all_goals simp

theorem UCClientHandle.Handles.same {change : Change} {d : UCClientHandle}
    (h : c.Handles reg obj change d) :
    d.configChange = c.configChange ∧ d.toReadSpec = c.toReadSpec ∧ d.handle = c.handle := by
  rcases h with ⟨-, rfl⟩ | h
  · exact ⟨rfl, rfl, rfl⟩
  · exact processChange_same h

/-- One step of the client's pointer goes through, and there is one change less to
handle. -/
theorem Refreshing.advance {d : UCClientHandle} (h : Refreshing reg obj cl c x y pend spare r)
    (hne : r.client.configChange ≠ r.changes.latest)
    (hd : r.client.Handles reg obj r.current.toChange d) :
    ∃ r', Refresh.advance { r with client := d } = .ok r' ∧
      Refreshing reg obj cl c x y pend spare r' ∧
      (awaiting cl pend r.client.configChange).length =
        (awaiting cl pend r'.client.configChange).length + 1 := by
  obtain ⟨hcc, hspec, hhandle⟩ := hd.same
  obtain ⟨cl₁, n, hmark, htr, hlat, hall, hcont, haw⟩ := h.tracked.advance hne
  rw [awaiting_congr h.content, awaiting_congr (fun q => (hcont q).trans (h.content q)),
    h.content] at haw
  refine ⟨⟨cl₁, { d with configChange := n }, r.handled ++ [r.current.toChange]⟩, ?_,
    ⟨htr, hlat.trans h.latest, hall.trans h.allocated, fun q => (hcont q).trans (h.content q), ?_,
      h.caught.step n hd, hspec.trans h.same.1, hhandle.trans h.same.2⟩, ?_⟩
  · simp only [Refresh.advance, hcc, hmark, Refresh.current]
  · rw [← h.handled, haw, List.append_assoc, List.singleton_append]
    simp only [Refresh.current, h.content]
  · rw [haw, List.length_cons]

theorem Refresh.skips_spec (h : r.skips = true) :
    r.client.configChange ≠ r.changes.latest ∧ r.client.SkipsChange r.current.toChange := by
  simp only [Refresh.skips] at h
  split at h
  · cases h
  · rename_i lead rest hlead
    simp only [Bool.and_eq_true, bne_iff_ne, decide_eq_true_eq] at h
    exact ⟨h.1.1, h.1.2, lead, by simp [hlead], h.2⟩

/-- The quick loop ends, with the client somewhere on the list. -/
theorem Refreshing.skipLoop (n : ℕ) (h : Refreshing reg obj cl c x y pend spare r)
    (hn : (awaiting cl pend r.client.configChange).length < n) :
    ∃ r', Refresh.skipLoop n r = .ok r' ∧ Refreshing reg obj cl c x y pend spare r' := by
  induction n generalizing r with
  | zero => exact absurd hn (Nat.not_lt_zero _)
  | succ n ih =>
    rw [Refresh.skipLoop]
    split
    · rename_i hskip
      obtain ⟨hne, hsk⟩ := Refresh.skips_spec hskip
      obtain ⟨r₁, hadv, hr₁, hlen⟩ := h.advance hne (.inl ⟨hsk, rfl⟩)
      obtain ⟨r₂, hloop, hr₂⟩ := ih hr₁ (by omega)
      refine ⟨r₂, ?_, hr₂⟩
      rw [hadv]
      exact hloop
    · exact ⟨r, rfl, h⟩

/-- The second loop ends at the latest record, or in a fault of some change. -/
theorem Refreshing.processLoop (n : ℕ) (h : Refreshing reg obj cl c x y pend spare r)
    (hn : (awaiting cl pend r.client.configChange).length < n) :
    (∃ r', Refresh.processLoop reg obj n r = .ok r' ∧ Refreshing reg obj cl c x y pend spare r' ∧
      r'.client.configChange = cl.latest) ∨
    ∃ f, Refresh.processLoop reg obj n r = .error f ∧ f ≠ .endless := by
  induction n generalizing r with
  | zero => exact absurd hn (Nat.not_lt_zero _)
  | succ n ih =>
    rw [Refresh.processLoop]
    split
    · rename_i heq
      exact .inl ⟨r, rfl, h, heq.trans h.latest⟩
    · rename_i hne
      cases hproc : r.client.processChange reg obj r.current.toChange with
      | error f =>
        refine .inr ⟨f, rfl, fun hf => ?_⟩
        exact processChange_ne_endless reg obj _ _ (hf ▸ hproc)
      | ok d =>
        obtain ⟨r₂, hadv, hr₂, hlen⟩ := h.advance hne (.inr hproc)
        simp only [hadv, Except.bind]
        exact ih hr₂ (by omega)

end Dueca.End
