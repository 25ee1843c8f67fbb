import Dueca.Entry.Readers
import Mathlib.Data.List.Range

/-!
# The chain of points of an entry

The heap never reuses an address, so the chain of an entry is an interval of
addresses from `cleanup` to `latest`, and each point leads to the next and the
previous address. On such a chain the loops of `newData` end, and a write has a
closed form: it frees some points and retires some, fills the sentinel, perhaps
behind a gap, attaches packer clients and lets go of the saveup latch.
-/

namespace Dueca.Entry

open Dueca.Lib UChannelEntryData

variable {D : Type} {e : UChannelEntry D}

/-- The points form a chain that is linked both ways, from `cleanup` to `latest`,
with `oldest` in it and `cleanup` strictly before. -/
structure Linked (e : UChannelEntry D) : Prop where
  cleanup_lt : e.cleanup < e.oldest
  oldest_le : e.oldest ≤ e.latest
  fresh_eq : e.fresh = e.latest + 1
  live : ∀ a, (e.heap a).isSome ↔ e.cleanup ≤ a ∧ a ≤ e.latest
  newer_eq : ∀ a n, e.heap a = some n → n.newer = if a = e.latest then none else some (a + 1)
  older_eq : ∀ a n, e.heap a = some n → e.cleanup < a → n.older = some (a - 1)

/-- There are no more packer clients than transporters, and none for an entry
that is not written here. -/
structure Manned (e : UChannelEntry D) : Prop where
  packers_le : e.pclients.length ≤ e.transporters
  no_packers : e.writer = false → e.pclients = []

namespace Linked

variable {a : ℕ} {n : UChannelEntryData D}

theorem exists_node (hL : Linked e) (h₁ : e.cleanup ≤ a) (h₂ : a ≤ e.latest) :
    ∃ n, e.heap a = some n :=
  Option.isSome_iff_exists.mp ((hL.live a).mpr ⟨h₁, h₂⟩)

theorem mem_range (hL : Linked e) (h : e.heap a = some n) : e.cleanup ≤ a ∧ a ≤ e.latest :=
  (hL.live a).mp (by simp [h])

theorem exists_latest (hL : Linked e) : ∃ l, e.heap e.latest = some l :=
  hL.exists_node (by have := hL.cleanup_lt; have := hL.oldest_le; omega) le_rfl

theorem newer_of_lt (hL : Linked e) (h : e.heap a = some n) (ha : a < e.latest) :
    n.newer = some (a + 1) := by
  rw [hL.newer_eq a n h, if_neg (by omega)]

end Linked

/-! ### Clean-up -/

/-- The entry with the points before `c` freed. -/
def UChannelEntry.freed (e : UChannelEntry D) (c : ℕ) : UChannelEntry D :=
  { e with heap := fun a => if a < c then none else e.heap a, cleanup := c }

/-- The entry after a clean-up that frees the points before `c` and retires those
before `o`. -/
def UChannelEntry.cleaned (e : UChannelEntry D) (c o : ℕ) : UChannelEntry D :=
  { e.freed c with oldest := o }

/-- The clean-up retires the point `a`, if it gets there: the point is obsolete
and there are enough points behind it. -/
def retirable (e : UChannelEntry D) (now : ℕ) (a : ℕ) : Bool :=
  match e.heap a, e.heap e.latest with
  | some n, some l =>
    (match obsolete e.heap n now e.span with
      | .ok old => old
      | .error _ => false) && e.depth < idDifference l.seqId n.seqId
  | _, _ => false

theorem Linked.freed (hL : Linked e) {c : ℕ} (h₁ : e.cleanup ≤ c) (h₂ : c < e.oldest) :
    Linked (e.freed c) where
  cleanup_lt := h₂
  oldest_le := hL.oldest_le
  fresh_eq := hL.fresh_eq
  live a := by
    by_cases ha : a < c
    · simp [UChannelEntry.freed, ha]
    · have := hL.live a
      simp only [UChannelEntry.freed, if_neg ha, this]
      omega
  newer_eq a n h := by
    have hn : e.heap a = some n := by
      simp only [UChannelEntry.freed] at h
      split at h
      · cases h
      · exact h
    exact hL.newer_eq a n hn
  older_eq a n h ha := by
    have hn : e.heap a = some n := by
      simp only [UChannelEntry.freed] at h
      split at h
      · cases h
      · exact h
    exact hL.older_eq a n hn (lt_of_le_of_lt h₁ ha)

theorem freed_cleanup (hL : Linked e) : e.freed e.cleanup = e := by
  have : (fun a => if a < e.cleanup then none else e.heap a) = e.heap := by
    funext a
    split
    · have := (hL.live a).not.mpr (by omega)
      exact (by simpa using this : e.heap a = none).symm
    · rfl
  simp only [UChannelEntry.freed, this]

theorem freed_succ (hL : Linked e) :
    ({ e with heap := Function.update e.heap e.cleanup none, cleanup := e.cleanup + 1 } :
      UChannelEntry D) = e.freed (e.cleanup + 1) := by
  have : Function.update e.heap e.cleanup none =
      fun a => if a < e.cleanup + 1 then none else e.heap a := by
    funext a
    rw [Function.update_apply]
    split
    · simp_all
    · split
      · have := (hL.live a).not.mpr (by omega)
        simpa using this
      · rfl
  simp only [UChannelEntry.freed, this]

theorem freed_freed {c c' : ℕ} (h : c ≤ c') : (e.freed c).freed c' = e.freed c' := by
  have : (fun a => if a < c' then none else (e.freed c).heap a) =
      fun a => if a < c' then none else e.heap a := by
    funext a
    simp only [UChannelEntry.freed]
    split
    · rfl
    · rw [if_neg (by omega)]
  simp only [UChannelEntry.freed] at this ⊢
  rw [this]

theorem recycle_eq {fuel : ℕ} (hL : Linked e) (hf : e.oldest - e.cleanup ≤ fuel) :
    ∃ c, e.cleanup ≤ c ∧ c < e.oldest ∧ recycle fuel e = .ok (e.freed c) ∧
      ∀ a n, e.cleanup ≤ a → a < c → e.heap a = some n → n.readAccesses = 1 := by
  have hlt := hL.cleanup_lt
  have hle := hL.oldest_le
  induction fuel generalizing e with
  | zero => omega
  | succ fuel ih =>
    obtain ⟨n, hn⟩ := hL.exists_node (a := e.cleanup) le_rfl (by omega)
    have hnewer := hL.newer_of_lt hn (by omega)
    have hd : deref e.heap e.cleanup = .ok n := deref_eq_ok.mpr hn
    by_cases hgo : e.cleanup + 1 ≠ e.oldest ∧ n.readAccesses = 1
    · have hL' := hL.freed (c := e.cleanup + 1) (by omega) (by omega)
      obtain ⟨c, hc₁, hc₂, hrec, hfree⟩ := ih hL' (by simp only [UChannelEntry.freed]; omega)
        hL'.cleanup_lt hL'.oldest_le
      have hc₁ : e.cleanup + 1 ≤ c := hc₁
      refine ⟨c, by omega, hc₂, ?_, fun a m ha hac hm => ?_⟩
      · rw [freed_freed hc₁] at hrec
        simp only [recycle, hd, hnewer, tryRecycle, bind, Except.bind, follow, freed_succ hL]
        simpa [hgo] using hrec
      · by_cases hae : a = e.cleanup
        · subst hae
          rw [hn] at hm
          cases hm
          exact hgo.2
        · exact hfree a m (show e.cleanup + 1 ≤ a by omega) hac
            ((if_neg (show ¬ a < e.cleanup + 1 by omega)).trans hm)
    · refine ⟨e.cleanup, le_rfl, hlt, ?_, fun a _ h₁ h₂ => by omega⟩
      rw [freed_cleanup hL]
      simp only [recycle, hd, hnewer, tryRecycle, bind, Except.bind]
      rw [if_neg (by simpa using hgo)]
      rfl

theorem obsolete_eq_ok (hL : Linked e) {a : ℕ} {n : UChannelEntryData D}
    (h : e.heap a = some n) (now span : ℕ) :
    ∃ old, obsolete e.heap n now span = .ok old ∧ (old = true → a < e.latest) := by
  rw [obsolete]
  split
  · rw [hL.newer_eq a n h]
    by_cases ha : a = e.latest
    · exact ⟨false, by simp [ha, pure, Except.pure], nofun⟩
    · have hr := hL.mem_range h
      obtain ⟨m, hm⟩ := hL.exists_node (a := a + 1) (by omega) (by omega)
      refine ⟨m.data.isSome || m.seqId = 0, ?_, fun _ => by omega⟩
      simp [ha, deref_eq_ok.mpr hm, bind, Except.bind, pure, Except.pure]
  · exact ⟨false, rfl, nofun⟩

theorem retire_eq {fuel : ℕ} {now : ℕ} (hL : Linked e) (hf : e.latest - e.oldest < fuel) :
    ∃ o, e.oldest ≤ o ∧ o ≤ e.latest ∧ retire fuel now e = .ok { e with oldest := o } ∧
      (∀ a, e.oldest ≤ a → a < o → retirable e now a = true) ∧ retirable e now o = false := by
  have hlt := hL.cleanup_lt
  have hle := hL.oldest_le
  induction fuel generalizing e with
  | zero => omega
  | succ fuel ih =>
    obtain ⟨n, hn⟩ := hL.exists_node (a := e.oldest) (by omega) hle
    obtain ⟨l, hl⟩ := hL.exists_latest
    obtain ⟨old, hold, hlast⟩ := obsolete_eq_ok hL hn now e.span
    have hret : retirable e now e.oldest = (old && e.depth < idDifference l.seqId n.seqId) := by
      simp only [retirable, hn, hl, hold]
    by_cases hgo : retirable e now e.oldest = true
    · have hlt' : e.oldest < e.latest := hlast (by simp_all)
      have hL' : Linked { e with oldest := e.oldest + 1 } :=
        { hL with
          cleanup_lt := Nat.lt_succ_of_lt hlt
          oldest_le := hlt' }
      obtain ⟨o, ho₁, ho₂, hrec, hall, hstop⟩ := ih hL' (show e.latest - (e.oldest + 1) < fuel by omega)
        hL'.cleanup_lt hL'.oldest_le
      have ho₁ : e.oldest + 1 ≤ o := ho₁
      refine ⟨o, by omega, ho₂, ?_, fun a ha hao => ?_, hstop⟩
      · simp only [retire, deref_eq_ok.mpr hn, deref_eq_ok.mpr hl, hold, bind, Except.bind,
          hL.newer_of_lt hn hlt', follow]
        rw [if_pos (hret ▸ hgo)]
        exact hrec
      · by_cases hae : a = e.oldest
        · exact hae ▸ hgo
        · exact hall a (show e.oldest + 1 ≤ a by omega) hao
    · refine ⟨e.oldest, le_rfl, hle, ?_, fun a h₁ h₂ => by omega, by simpa using hgo⟩
      simp only [retire, deref_eq_ok.mpr hn, deref_eq_ok.mpr hl, hold, bind, Except.bind]
      rw [if_neg (hret ▸ hgo)]
      rfl

theorem retirable_freed {c a : ℕ} {now : ℕ} (hL : Linked e) (hc : c ≤ a)
    (ha : c ≤ e.latest) : retirable (e.freed c) now a = retirable e now a := by
  have h₁ : (e.freed c).heap a = e.heap a := by simp [UChannelEntry.freed, show ¬ a < c by omega]
  have h₂ : (e.freed c).heap e.latest = e.heap e.latest := by
    simp [UChannelEntry.freed, show ¬ e.latest < c by omega]
  simp only [retirable, h₁]
  cases hn : e.heap a with
  | none => rfl
  | some n =>
    have hobs (span : ℕ) : obsolete (e.freed c).heap n now span = obsolete e.heap n now span := by
      simp only [obsolete, hL.newer_eq a n hn]
      by_cases hal : a = e.latest
      · simp [hal]
      · simp [hal, deref, UChannelEntry.freed, show ¬ a + 1 < c by omega]
    obtain ⟨l, hl⟩ := hL.exists_latest
    rw [show (e.freed c).heap (e.freed c).latest = some l from h₂.trans hl, hl]
    simp only [hobs]
    rfl

theorem Linked.cleaned (hL : Linked e) {c o : ℕ} (hc₁ : e.cleanup ≤ c) (hc₂ : c < e.oldest)
    (ho₁ : e.oldest ≤ o) (ho₂ : o ≤ e.latest) : Linked (e.cleaned c o) :=
  { hL.freed hc₁ hc₂ with
    cleanup_lt := lt_of_lt_of_le hc₂ ho₁
    oldest_le := ho₂ }

/-- What a clean-up frees and retires. -/
structure Cleaning (e : UChannelEntry D) (now : ℕ) (c o : ℕ) : Prop where
  cleanup_le : e.cleanup ≤ c
  lt_oldest : c < e.oldest
  oldest_le : e.oldest ≤ o
  le_latest : o ≤ e.latest
  unused : ∀ a n, e.cleanup ≤ a → a < c → e.heap a = some n → n.readAccesses = 1
  retired : ∀ a, e.oldest ≤ a → a < o → retirable e now a = true
  stays : retirable e now o = false

/-- The clean-up of a write. -/
theorem cleanUp_eq (hL : Linked e) (now : ℕ) :
    ∃ c o, Cleaning e now c o ∧ cleanUp e now = .ok (e.cleaned c o) := by
  have hlt := hL.cleanup_lt
  have hle := hL.oldest_le
  have hfr := hL.fresh_eq
  obtain ⟨c, hc₁, hc₂, hrec, hfree⟩ := (@recycle_eq _ _ (e.fresh + 1)) hL (by omega)
  have hL' := hL.freed hc₁ hc₂
  obtain ⟨o, ho₁, ho₂, hret, hall, hstop⟩ :=
    (@retire_eq _ _ ((e.freed c).fresh + 1) now) hL'
      (show e.latest - e.oldest < e.fresh + 1 by omega)
  have ho₁ : e.oldest ≤ o := ho₁
  have ho₂ : o ≤ e.latest := ho₂
  refine ⟨c, o, ⟨hc₁, hc₂, ho₁, ho₂, hfree, fun a ha hao => ?_, ?_⟩, ?_⟩
  · rw [← retirable_freed (c := c) hL (by omega) (by omega)]
    exact hall a ha hao
  · rw [← retirable_freed (c := c) hL (by omega) (by omega)]
    exact hstop
  · simp only [cleanUp, hrec, bind, Except.bind]
    exact hret

/-! ### Packer clients -/

/-- `k` more accesses to the point `a`. -/
def bump (h : Heap D) (a k : ℕ) : Heap D := fun b =>
  if b = a then (h a).map fun n => { n with readAccesses := n.readAccesses + k } else h b

/-- The sequence ids of the points from `a` until `b`, without the gaps. -/
def idsBetween (h : Heap D) (a b : ℕ) : List ℕ :=
  (List.range' a (b - a)).filterMap fun x =>
    (h x).bind fun n => if n.seqId = 0 then none else some n.seqId

/-- A packer client that starts at the point `o`. -/
def newPacker (o : ℕ) (ids : List ℕ) : PackerClient where
  handle := { sequentialRead := true, readIndex := some o }
  seqId := ids.getLast?.getD 0

/-- The entry with `k` packer clients more, and the work for them: the points from
`oldest` until `stop`. -/
def UChannelEntry.staffedBy (e : UChannelEntry D) (k stop : ℕ) :
    UChannelEntry D × List PackUnit :=
  let ids := idsBetween e.heap e.oldest stop
  ({ e with
      heap := bump e.heap e.oldest k
      pclients := e.pclients ++ List.replicate k (newPacker e.oldest ids) },
    (List.range' e.pclients.length k).flatMap fun idx => ids.map (PackUnit.mk idx))

/-- The number of transporters without a packer client. -/
def UChannelEntry.vacancies (e : UChannelEntry D) : ℕ :=
  if e.writer then e.transporters - e.pclients.length else 0

/-- The entry with packer clients for all transporters. -/
def UChannelEntry.staffed (e : UChannelEntry D) (stop : ℕ) : UChannelEntry D × List PackUnit :=
  e.staffedBy e.vacancies stop

/-- The entry with its configuration refreshed, when that is needed. -/
def UChannelEntry.attached (e : UChannelEntry D) (stop : ℕ) : UChannelEntry D × List PackUnit :=
  if e.channelVersion ≠ e.configVersion then
    ({ (e.staffed stop).1 with configVersion := e.channelVersion }, (e.staffed stop).2)
  else (e, [])

/-- The points from `oldest` on lead to the next address until `latest`. -/
structure Walkable (e : UChannelEntry D) : Prop where
  oldest_le : e.oldest ≤ e.latest
  lt_fresh : e.latest < e.fresh
  next : ∀ x, e.oldest ≤ x → x < e.latest → ∃ n, e.heap x = some n ∧ n.newer = some (x + 1)
  exists_oldest : ∃ n, e.heap e.oldest = some n

theorem bump_of_ne {h : Heap D} {a b k : ℕ} (hb : b ≠ a) : bump h a k b = h b := by
  simp [bump, hb]

theorem bump_self {h : Heap D} {a k : ℕ} {n : UChannelEntryData D} (hn : h a = some n) :
    bump h a k a = some { n with readAccesses := n.readAccesses + k } := by
  simp [bump, hn]

theorem bump_zero (h : Heap D) (a : ℕ) : bump h a 0 = h := by
  funext b
  by_cases hb : b = a
  · subst hb
    cases hn : h b <;> simp [bump, hn]
  · exact bump_of_ne hb

theorem bump_bump (h : Heap D) (a j k : ℕ) : bump (bump h a j) a k = bump h a (j + k) := by
  funext b
  by_cases hb : b = a
  · subst hb
    cases hn : h b <;> simp [bump, hn, Nat.add_assoc]
  · simp [bump, hb]

theorem bump_seqId (h : Heap D) (a k x : ℕ) :
    (bump h a k x).map (·.seqId) = (h x).map (·.seqId) := by
  by_cases hx : x = a
  · subst hx
    cases hn : h x <;> simp [bump, hn]
  · rw [bump_of_ne hx]

theorem idsBetween_congr {h h' : Heap D} {a b : ℕ}
    (heq : ∀ x, a ≤ x → x < b → (h' x).map (·.seqId) = (h x).map (·.seqId)) :
    idsBetween h' a b = idsBetween h a b := by
  refine List.filterMap_congr fun x hx => ?_
  rw [List.mem_range'_1] at hx
  have := heq x (by omega) (by omega)
  cases hn : h x <;> cases hn' : h' x <;> simp_all

theorem idsBetween_bump (h : Heap D) (o k a b : ℕ) :
    idsBetween (bump h o k) a b = idsBetween h a b :=
  idsBetween_congr fun x _ _ => bump_seqId h o k x

theorem idsBetween_self (h : Heap D) (a : ℕ) : idsBetween h a a = [] := by
  simp [idsBetween]

theorem idsBetween_succ {h : Heap D} {a b : ℕ} {n : UChannelEntryData D} (hab : a < b)
    (hn : h a = some n) : idsBetween h a b =
      if n.seqId = 0 then idsBetween h (a + 1) b else n.seqId :: idsBetween h (a + 1) b := by
  rw [idsBetween, show b - a = (b - (a + 1)) + 1 by omega, List.range'_succ]
  by_cases hz : n.seqId = 0 <;> simp [hn, hz, idsBetween]

theorem pendingSeqIds_eq {h : Heap D} {a b fuel : ℕ} (hab : a ≤ b) (hf : b - a < fuel)
    (hnext : ∀ x, a ≤ x → x < b → ∃ n, h x = some n ∧ n.newer = some (x + 1)) :
    pendingSeqIds h b fuel (some a) = .ok (idsBetween h a b) := by
  induction fuel generalizing a with
  | zero => omega
  | succ fuel ih =>
    by_cases hlast : a = b
    · subst hlast
      simp [pendingSeqIds, idsBetween_self, pure, Except.pure]
    · obtain ⟨n, hn, hnewer⟩ := hnext a le_rfl (by omega)
      have hrec := ih (a := a + 1) (by omega) (by omega) fun x h₁ h₂ => hnext x (by omega) h₂
      have hids := idsBetween_succ (b := b) (by omega) hn
      simp only [pendingSeqIds, if_neg hlast, deref_eq_ok.mpr hn, hnewer, hrec, bind, Except.bind,
        hids]
      rfl

theorem Walkable.staffedBy (hW : Walkable e) (k stop : ℕ) : Walkable (e.staffedBy k stop).1 where
  oldest_le := hW.oldest_le
  lt_fresh := hW.lt_fresh
  next x h₁ h₂ := by
    obtain ⟨n, hn, hnewer⟩ := hW.next x h₁ h₂
    by_cases hx : x = e.oldest
    · subst hx
      exact ⟨_, bump_self hn, hnewer⟩
    · exact ⟨n, (bump_of_ne hx).trans hn, hnewer⟩
  exists_oldest := by
    obtain ⟨n, hn⟩ := hW.exists_oldest
    exact ⟨_, bump_self hn⟩

theorem addPacker_eq (hW : Walkable e)
    (hpos : ∀ n, e.heap e.oldest = some n → n.readAccesses ≠ 0) :
    addPacker e = .ok (e.staffedBy 1 e.latest) := by
  obtain ⟨n, hn⟩ := hW.exists_oldest
  have hheap : store e.heap e.oldest n.increment = bump e.heap e.oldest 1 := by
    funext b
    by_cases hb : b = e.oldest
    · subst hb
      rw [store_self, bump_self hn]
      rfl
    · rw [store_of_ne hb, bump_of_ne hb]
  have hle := hW.oldest_le
  have hlt := hW.lt_fresh
  have hpend := (@pendingSeqIds_eq _ (bump e.heap e.oldest 1) _ _ (e.fresh + 1))
    hW.oldest_le (by omega) (hW.staffedBy 1 e.latest).next
  rw [idsBetween_bump] at hpend
  simp only [addPacker, latchSequentialRead, deref_eq_ok.mpr hn, hheap, bind, Except.bind,
    if_neg (hpos n hn), pure, Except.pure, UChannelEntry.staffedBy]
  by_cases hlast : e.latest = e.oldest
  · simp [hlast, idsBetween_self, newPacker]
  · simp [hlast, hpend, newPacker]

theorem addPackers_eq {k : ℕ} (hW : Walkable e)
    (hpos : ∀ n, e.heap e.oldest = some n → n.readAccesses ≠ 0) :
    addPackers k e = .ok (e.staffedBy k e.latest) := by
  induction k generalizing e with
  | zero => simp [addPackers, UChannelEntry.staffedBy, bump_zero, pure, Except.pure]
  | succ k ih =>
    have hpos' : ∀ n, (e.staffedBy 1 e.latest).1.heap (e.staffedBy 1 e.latest).1.oldest = some n →
        n.readAccesses ≠ 0 := by
      intro n hn
      obtain ⟨m, hm⟩ := hW.exists_oldest
      have hn : bump e.heap e.oldest 1 e.oldest = some n := hn
      rw [bump_self hm] at hn
      cases hn
      exact Nat.succ_ne_zero _
    simp only [addPackers, addPacker_eq hW hpos, bind, Except.bind,
      ih (hW.staffedBy 1 e.latest) hpos']
    simp only [UChannelEntry.staffedBy, idsBetween_bump, bump_bump, Nat.add_comm 1 k,
      List.length_append, List.append_assoc, List.replicate_succ,
      List.range'_succ, List.flatMap_cons, pure, Except.pure]
    simp

/-- When packers are added, the oldest point can be locked. -/
theorem lockable_of_addPackers {k : ℕ} {r : UChannelEntry D × List PackUnit} (hk : k ≠ 0)
    (h : addPackers k e = .ok r) : ∀ n, e.heap e.oldest = some n → n.readAccesses ≠ 0 := by
  intro n hn hz
  obtain ⟨k, rfl⟩ := Nat.exists_eq_succ_of_ne_zero hk
  simp only [addPackers, addPacker, latchSequentialRead, deref_eq_ok.mpr hn, hz, bind,
    Except.bind] at h
  exact absurd h (by simp [throw, throwThe, MonadExceptOf.throw])

/-- The oldest point can be locked, if that is needed for new packers. -/
def Lockable (e : UChannelEntry D) : Prop :=
  e.vacancies ≠ 0 → ∀ n, e.heap e.oldest = some n → n.readAccesses ≠ 0

/-- The configuration can be refreshed. -/
def Attachable (e : UChannelEntry D) : Prop :=
  e.channelVersion ≠ e.configVersion → Lockable e

theorem staffedBy_zero (e : UChannelEntry D) (stop : ℕ) : e.staffedBy 0 stop = (e, []) := by
  simp [UChannelEntry.staffedBy, bump_zero]

theorem refreshTransporters_eq (hW : Walkable e) (hM : Manned e) (hL : Lockable e) :
    refreshTransporters e = .ok (e.staffed e.latest) := by
  have hle := hM.packers_le
  rw [refreshTransporters, UChannelEntry.staffed]
  by_cases hw : e.writer = true
  · by_cases hall : e.pclients.length = e.transporters
    · rw [if_pos hw, if_pos hall, UChannelEntry.vacancies, if_pos hw, hall, Nat.sub_self,
        staffedBy_zero]
      rfl
    · have hvac : e.vacancies = e.transporters - e.pclients.length := by
        rw [UChannelEntry.vacancies, if_pos hw]
      have hreq : require (decide (e.pclients.length < e.transporters)) = .ok () :=
        require_eq_ok.mpr (by simpa using Nat.lt_of_le_of_ne hle hall)
      simp only [if_pos hw, if_neg hall, hreq, bind, Except.bind]
      rw [hvac]
      exact addPackers_eq hW (hL (by omega))
  · have hnil := hM.no_packers (by simpa using hw)
    simp [hw, hnil, UChannelEntry.vacancies, staffedBy_zero, require, bind, Except.bind, pure,
      Except.pure]

theorem lockable_of_refreshTransporters {r : UChannelEntry D × List PackUnit} (hM : Manned e)
    (h : refreshTransporters e = .ok r) : Lockable e := by
  intro hvac
  have hle := hM.packers_le
  rw [UChannelEntry.vacancies] at hvac
  split at hvac
  · rename_i hw
    rw [refreshTransporters, if_pos hw, if_neg (by omega)] at h
    obtain ⟨_, _, h⟩ := bind_eq_ok.mp h
    exact lockable_of_addPackers hvac h
  · exact absurd rfl hvac

theorem refreshTransporters_ok {r : UChannelEntry D × List PackUnit} (hW : Walkable e)
    (hM : Manned e) (h : refreshTransporters e = .ok r) : r = e.staffed e.latest := by
  have := refreshTransporters_eq hW hM (lockable_of_refreshTransporters hM h)
  exact Except.ok.inj (h.symm.trans this)

theorem refreshEntryConfig_ok {r : UChannelEntry D × List PackUnit} (hW : Walkable e)
    (hM : Manned e) (h : refreshEntryConfig e = .ok r) : r = e.attached e.latest := by
  rw [refreshEntryConfig] at h
  rw [UChannelEntry.attached]
  split at h
  · rename_i hver
    obtain ⟨s, hs, h⟩ := bind_eq_ok.mp h
    obtain rfl := refreshTransporters_ok hW hM hs
    rw [if_pos hver]
    exact (Except.ok.inj h).symm
  · rename_i hver
    rw [if_neg hver]
    exact (Except.ok.inj h).symm

theorem refreshEntryConfig_eq (hW : Walkable e) (hM : Manned e) (hL : Attachable e) :
    refreshEntryConfig e = .ok (e.attached e.latest) := by
  rw [refreshEntryConfig, UChannelEntry.attached]
  split
  · rename_i hver
    simp only [refreshTransporters_eq hW hM (hL hver), bind, Except.bind]
    rfl
  · rfl

/-! ### Writing -/

/-- A sentinel appended behind the point `a`. -/
def UChannelEntry.appended (e : UChannelEntry D) (ts a : ℕ) (n : UChannelEntryData D) :
    UChannelEntry D :=
  { e with
    heap := store (store e.heap a { n with newer := some e.fresh }) e.fresh (sentinel ts a n)
    fresh := e.fresh + 1
    latest := e.fresh }

/-- The sentinel `l` with a time and data. -/
def UChannelEntryData.fill (l : UChannelEntryData D) (start : ℕ) (data : D) :
    UChannelEntryData D :=
  { l with timeOrTimeEnd := start, data := some data }

/-- The entry with another last point. -/
def UChannelEntry.withLast (e : UChannelEntry D) (n : UChannelEntryData D) : UChannelEntry D :=
  { e with heap := store e.heap e.latest n }

/-- The entry with the sentinel `l` as a gap and a point `n` behind it. -/
def UChannelEntry.withGap (e : UChannelEntry D) (l n : UChannelEntryData D) : UChannelEntry D :=
  { e with
    heap := store (store e.heap e.latest { l with seqId := 0, newer := some e.fresh }) e.fresh n
    fresh := e.fresh + 1 }

/-- The entry with the sentinel `l` filled. -/
def UChannelEntry.filled (e : UChannelEntry D) (l : UChannelEntryData D) (start : ℕ) (data : D)
    (ts : ℕ) : UChannelEntry D :=
  (e.withLast (l.fill start data)).appended ts e.latest (l.fill start data)

/-- The entry with the sentinel `l` as a gap, and data behind it. -/
def UChannelEntry.gapped (e : UChannelEntry D) (l : UChannelEntryData D) (start : ℕ) (data : D)
    (ts : ℕ) : UChannelEntry D :=
  let n := withData start (some data) (some e.latest) l.seqId
  (e.withGap l n).appended ts e.fresh n

/-- The write as it changes the chain; none when the write is rejected. -/
def UChannelEntry.written (e : UChannelEntry D) (l : UChannelEntryData D) (data : D)
    (t : DataTimeSpec) : Option (UChannelEntry D) :=
  if e.eventtype then some (e.filled l t.validityStart data 0)
  else if l.seqId = 1 then some (e.filled l t.validityStart data t.validityEnd)
  else if l.timeOrTimeEnd < t.validityStart then
    some (e.gapped l t.validityStart data t.validityEnd)
  else if l.timeOrTimeEnd < t.validityEnd then
    some (e.filled l l.timeOrTimeEnd data t.validityEnd)
  else none

/-- The saveup latch goes, when it is to go and all clients are up to date. -/
def UChannelEntry.unlatched (e : UChannelEntry D) (current : Bool) : UChannelEntry D :=
  if e.saveup = .saveUpTryRemove ∧ current then
    { e with
      heap := fun a => if a = e.oldest then (e.heap a).map decrement else e.heap a
      saveup := .noSaveUp }
  else e

/-- What an accepted write ends with: packers, saveup latch and transport. -/
def UChannelEntry.settled (e : UChannelEntry D) (stop seqId : ℕ) (current : Bool) :
    UChannelEntry D × List PackUnit :=
  let r := e.attached stop
  let r' := r.1.unlatched current
  (r', r.2 ++ if r'.writer && r'.pclients.length ≠ 0 then thereIsNewTransportWork r' seqId else [])

theorem bump_store {h : Heap D} {a o k fresh ts : ℕ} {n n' : UChannelEntryData D}
    (hn : h a = some n) (hn' : bump h o k a = some n') (ha : a ≠ fresh) (ho : o ≠ fresh) :
    store (store (bump h o k) a { n' with newer := some fresh }) fresh (sentinel ts a n') =
      bump (store (store h a { n with newer := some fresh }) fresh (sentinel ts a n)) o k := by
  have hseq : n'.seqId = n.seqId := by
    have := bump_seqId h o k a
    simpa [hn, hn'] using this
  funext b
  by_cases hb : b = fresh
  · subst hb
    rw [store_self, bump_of_ne (Ne.symm ho), store_self]
    simp only [sentinel, nextSeqId, hseq]
  · rw [store_of_ne hb]
    by_cases hba : b = a
    · subst hba
      rw [store_self]
      by_cases hbo : b = o
      · subst hbo
        rw [bump_self hn] at hn'
        rw [bump_self (n := { n with newer := some fresh })
          (by rw [store_of_ne ha, store_self])]
        cases hn'
        rfl
      · rw [bump_of_ne hbo] at hn' ⊢
        rw [store_of_ne hb, store_self]
        cases hn.symm.trans hn'
        rfl
    · rw [store_of_ne hba]
      by_cases hbo : b = o
      · subst hbo
        simp [bump, store_of_ne hba, store_of_ne hb]
      · rw [bump_of_ne hbo, bump_of_ne hbo, store_of_ne hb, store_of_ne hba]

/-- Packers are attached before the new sentinel is there, which comes to the same. -/
theorem appendSentinel_attached {a ts stop : ℕ} {n : UChannelEntryData D}
    (ha : e.heap a = some n) (hfr : a < e.fresh) (ho : e.oldest < e.fresh) (hs : stop ≤ a) :
    appendSentinel (e.attached stop).1 ts a = .ok ((e.appended ts a n).attached stop).1 ∧
      (e.attached stop).2 = ((e.appended ts a n).attached stop).2 := by
  have hids : idsBetween (e.appended ts a n).heap e.oldest stop =
      idsBetween e.heap e.oldest stop := by
    refine idsBetween_congr fun x _ hx => ?_
    simp only [UChannelEntry.appended]
    rw [store_of_ne (by omega), store_of_ne (by omega)]
  by_cases hver : e.channelVersion = e.configVersion
  · simp only [UChannelEntry.attached, hver, ne_eq, not_true_eq_false, if_false, appendSentinel,
      deref_eq_ok.mpr ha, bind, Except.bind, UChannelEntry.appended]
    exact ⟨rfl, trivial⟩
  · obtain ⟨n', hn'⟩ : ∃ n', bump e.heap e.oldest e.vacancies a = some n' := by
      by_cases hao : a = e.oldest
      · rw [hao] at ha ⊢
        exact ⟨_, bump_self ha⟩
      · exact ⟨n, (bump_of_ne hao).trans ha⟩
    have hheap : (e.attached stop).1.heap = bump e.heap e.oldest e.vacancies := by
      rw [UChannelEntry.attached, if_pos hver]
      rfl
    have hd : deref (e.attached stop).1.heap a = .ok n' := by
      rw [deref_eq_ok, hheap, hn']
    have hcomm := (@bump_store _ _ _ _ _ _ ts) ha hn' (Nat.ne_of_lt hfr) (Nat.ne_of_lt ho)
    constructor
    · rw [appendSentinel, hheap]
      rw [hheap] at hd
      simp only [hd, bind, Except.bind]
      simp only [UChannelEntry.attached, UChannelEntry.staffed, UChannelEntry.staffedBy,
        UChannelEntry.vacancies, UChannelEntry.appended, ne_eq, hver, not_false_eq_true, if_true]
        at hids hcomm ⊢
      rw [hids, hcomm]
      rfl
    · simp only [UChannelEntry.attached, UChannelEntry.staffed, UChannelEntry.staffedBy,
        UChannelEntry.vacancies, UChannelEntry.appended, ne_eq, hver, not_false_eq_true, if_true]
        at hids ⊢
      rw [hids]
      rfl

theorem attachable_of_refreshEntryConfig {r : UChannelEntry D × List PackUnit} (hM : Manned e)
    (h : refreshEntryConfig e = .ok r) : Attachable e := by
  intro hver
  rw [refreshEntryConfig, if_pos hver] at h
  obtain ⟨s, hs, _⟩ := bind_eq_ok.mp h
  exact lockable_of_refreshTransporters hM hs

theorem Linked.walkable (hL : Linked e) : Walkable e where
  oldest_le := hL.oldest_le
  lt_fresh := by
    have := hL.fresh_eq
    omega
  next x h₁ h₂ := by
    have := hL.cleanup_lt
    obtain ⟨n, hn⟩ := hL.exists_node (a := x) (by omega) (by omega)
    exact ⟨n, hn, hL.newer_of_lt hn h₂⟩
  exists_oldest := hL.exists_node hL.cleanup_lt.le hL.oldest_le

section Writing

variable {l : UChannelEntryData D} {data : D} {ts start : ℕ}

theorem Linked.walkable_withLast (hL : Linked e) (n : UChannelEntryData D) :
    Walkable (e.withLast n) where
  oldest_le := hL.oldest_le
  lt_fresh := hL.walkable.lt_fresh
  next x h₁ h₂ := by
    obtain ⟨m, hm, hnewer⟩ := hL.walkable.next x h₁ h₂
    have h₂ : x < e.latest := h₂
    exact ⟨m, (store_of_ne (by omega)).trans hm, hnewer⟩
  exists_oldest := by
    by_cases ho : e.oldest = e.latest
    · exact ⟨n, by simp [UChannelEntry.withLast, ho]⟩
    · obtain ⟨m, hm⟩ := hL.walkable.exists_oldest
      exact ⟨m, (store_of_ne ho).trans hm⟩

theorem Linked.walkable_withGap (hL : Linked e) (l n : UChannelEntryData D) :
    Walkable (e.withGap l n) := by
  have hW := hL.walkable_withLast { l with seqId := 0, newer := some e.fresh }
  have hfr := hL.fresh_eq
  have hle := hL.oldest_le
  refine ⟨hle, show e.latest < e.fresh + 1 by omega, fun x h₁ h₂ => ?_, ?_⟩
  · obtain ⟨k, hk, hnewer⟩ := hW.next x h₁ h₂
    have h₂ : x < e.latest := h₂
    exact ⟨k, (store_of_ne (by omega)).trans hk, hnewer⟩
  · obtain ⟨k, hk⟩ := hW.exists_oldest
    exact ⟨k, (store_of_ne (show e.oldest ≠ e.fresh by omega)).trans hk⟩

theorem attached_latest (e : UChannelEntry D) (stop : ℕ) : (e.attached stop).1.latest = e.latest := by
  rw [UChannelEntry.attached]
  split <;> rfl

/-- Refreshing the configuration in the middle of a write and appending the
sentinel: the same as appending it first. -/
theorem refresh_append_eq_ok {a : ℕ} {n : UChannelEntryData D}
    {r : UChannelEntry D × List PackUnit} (hW : Walkable e) (hM : Manned e)
    (ha : e.heap a = some n) (hfr : a < e.fresh) (hs : e.latest ≤ a) :
    (do let s ← refreshEntryConfig e
        let e' ← appendSentinel s.1 ts a
        pure (e', s.2)) = .ok r ↔
      Attachable e ∧ (e.appended ts a n).attached e.latest = r := by
  obtain ⟨happ, hwork⟩ := (@appendSentinel_attached _ _ _ ts e.latest) ha hfr
    (lt_of_le_of_lt hW.oldest_le hW.lt_fresh) hs
  constructor
  · intro h
    obtain ⟨s, hs, h⟩ := bind_eq_ok.mp h
    refine ⟨attachable_of_refreshEntryConfig hM hs, ?_⟩
    obtain rfl := refreshEntryConfig_ok hW hM hs
    obtain ⟨e', he', h⟩ := bind_eq_ok.mp h
    obtain rfl := Except.ok.inj (happ.symm.trans he')
    rw [← Except.ok.inj h, hwork]
  · rintro ⟨hatt, rfl⟩
    simp only [bind, Except.bind, refreshEntryConfig_eq hW hM hatt, happ, hwork]
    rfl

theorem fillSentinel_eq_ok {start : Option ℕ} {r : UChannelEntry D × List PackUnit}
    (hL : Linked e) (hM : Manned e) (hl : e.heap e.latest = some l) :
    fillSentinel e start data ts = .ok r ↔
      Attachable (e.withLast (l.fill (start.getD l.timeOrTimeEnd) data)) ∧
      (e.filled l (start.getD l.timeOrTimeEnd) data ts).attached e.latest = r := by
  have hW := hL.walkable_withLast (l.fill (start.getD l.timeOrTimeEnd) data)
  have hM' : Manned (e.withLast (l.fill (start.getD l.timeOrTimeEnd) data)) := ⟨hM.1, hM.2⟩
  refine Iff.trans ?_ ((@refresh_append_eq_ok _ _ ts) hW hM'
    (store_self e.heap e.latest _) hL.walkable.lt_fresh le_rfl)
  rw [fillSentinel]
  simp only [deref_eq_ok.mpr hl, bind, Except.bind]
  -- the refresh leaves `latest` where it is
  cases href : refreshEntryConfig (e.withLast (l.fill (start.getD l.timeOrTimeEnd) data)) with
  | error _ =>
    simp only [UChannelEntry.withLast, fill] at href
    simp only [href]
  | ok s =>
    have hlatest : s.1.latest = e.latest := by
      rw [refreshEntryConfig_ok hW hM' href, attached_latest]
      rfl
    simp only [UChannelEntry.withLast, fill] at href
    simp only [href, hlatest]

theorem fillBehindGap_eq_ok {r : UChannelEntry D × List PackUnit}
    (hL : Linked e) (hM : Manned e) (hl : e.heap e.latest = some l) :
    fillBehindGap e start data ts = .ok r ↔
      Attachable (e.withGap l (withData start (some data) (some e.latest) l.seqId)) ∧
      (e.gapped l start data ts).attached e.latest = r := by
  have hfr := hL.fresh_eq
  refine Iff.trans ?_ ((@refresh_append_eq_ok _ _ ts e.fresh)
    (hL.walkable_withGap l (withData start (some data) (some e.latest) l.seqId)) ⟨hM.1, hM.2⟩
    (store_self _ e.fresh _) (show e.fresh < e.fresh + 1 by omega) (show e.latest ≤ e.fresh by omega))
  rw [fillBehindGap]
  simp only [deref_eq_ok.mpr hl, bind, Except.bind]
  rfl

theorem unlatched_eq {m : UChannelEntry D} {n : UChannelEntryData D} {current : Bool}
    (hn : m.heap m.oldest = some n) :
    (if m.saveup = .saveUpTryRemove then saveupRemoveInner m current else pure m) =
      .ok (m.unlatched current) := by
  rw [UChannelEntry.unlatched]
  by_cases hs : m.saveup = .saveUpTryRemove
  · cases current
    · simp [hs, saveupRemoveInner, pure, Except.pure]
    · have hheap : store m.heap m.oldest n.decrement =
          fun a => if a = m.oldest then (m.heap a).map decrement else m.heap a := by
        funext a
        rw [store_apply]
        split
        · rename_i ha
          simp [ha, hn]
        · rfl
      simp [hs, saveupRemoveInner, releaseReadAccess, modifyAt, deref_eq_ok.mpr hn, hheap, bind,
        Except.bind, pure, Except.pure]
  · simp [hs, pure, Except.pure]

theorem afterWrite_eq {m : UChannelEntry D} {n : UChannelEntryData D} {seqId : ℕ} {current : Bool}
    {work : List PackUnit} (hn : m.heap m.oldest = some n) :
    afterWrite m seqId current work =
      .ok (m.unlatched current, work ++
        if (m.unlatched current).writer && (m.unlatched current).pclients.length ≠ 0 then
          thereIsNewTransportWork (m.unlatched current) seqId else []) := by
  have hun := (@unlatched_eq _ _ _ current) hn
  rw [afterWrite]
  by_cases hs : m.saveup = .saveUpTryRemove
  · rw [if_pos hs] at hun
    rw [if_pos hs, hun]
    rfl
  · rw [if_neg hs] at hun
    rw [if_neg hs, hun]
    rfl

end Writing

/-! ### The closed form of a write -/

section Cases

variable {data : D} {t : DataTimeSpec} {current : Bool}

theorem Linked.cleaned_latest {l : UChannelEntryData D} {now c o : ℕ} (hL : Linked e)
    (hC : Cleaning e now c o) (hl : e.heap e.latest = some l) :
    (e.cleaned c o).heap e.latest = some l := by
  have := hC.lt_oldest
  have := hL.oldest_le
  simp [UChannelEntry.cleaned, UChannelEntry.freed, show ¬ e.latest < c by omega, hl]

/-- The oldest point is still there after a write. -/
theorem exists_oldest_attached {m : UChannelEntry D} {stop : ℕ}
    (h : ∃ n, m.heap m.oldest = some n) :
    ∃ n, (m.attached stop).1.heap (m.attached stop).1.oldest = some n := by
  obtain ⟨n, hn⟩ := h
  rw [UChannelEntry.attached]
  split
  · exact ⟨_, bump_self hn⟩
  · exact ⟨n, hn⟩

theorem exists_oldest_written {l : UChannelEntryData D} {m : UChannelEntry D} (hL : Linked e)
    (hw : e.written l data t = some m) : ∃ n, m.heap m.oldest = some n := by
  have hfr := hL.fresh_eq
  have hle := hL.oldest_le
  obtain ⟨n, hn⟩ := hL.walkable.exists_oldest
  have key (h : Heap D) (a b : ℕ) (x y : UChannelEntryData D) (hx : ∃ n, h e.oldest = some n) :
      ∃ n, store (store h a x) b y e.oldest = some n := by
    simp only [store_apply]
    split
    · exact ⟨y, rfl⟩
    · split
      · exact ⟨x, rfl⟩
      · exact hx
  have keep (a : ℕ) (x : UChannelEntryData D) : ∃ n, store e.heap a x e.oldest = some n := by
    rw [store_apply]
    split
    · exact ⟨x, rfl⟩
    · exact ⟨n, hn⟩
  simp only [UChannelEntry.written] at hw
  split at hw
  · cases hw
    exact key _ _ _ _ _ (keep _ _)
  · split at hw
    · cases hw
      exact key _ _ _ _ _ (keep _ _)
    · split at hw
      · cases hw
        exact key _ _ _ _ _ (key _ _ _ _ _ ⟨n, hn⟩)
      · split at hw
        · cases hw
          exact key _ _ _ _ _ (keep _ _)
        · cases hw

/-- The new sentinel, the packers and the rest of a write. -/
theorem settled_of_attached {m e' : UChannelEntry D} {r : UChannelEntry D × List PackUnit}
    {work : List PackUnit} {stop seqId : ℕ} (ho : ∃ n, m.heap m.oldest = some n)
    (hr : m.attached stop = r) :
    afterWrite r.1 seqId current r.2 = .ok (e', work) ↔
      m.settled stop seqId current = (e', work) := by
  obtain ⟨n, hn⟩ := (@exists_oldest_attached _ _ stop) ho
  subst hr
  rw [afterWrite_eq hn, Except.ok.injEq]
  rfl

theorem writeData_cases {l : UChannelEntryData D} {e' : UChannelEntry D} {work : List PackUnit}
    (hL : Linked e) (hM : Manned e) (hl : e.heap e.latest = some l)
    (h : writeData e l data t current = .ok (e', work)) :
    match e.written l data t with
    | none => e' = e ∧ work = []
    | some m => m.settled e.latest l.seqId current = (e', work) := by
  have settle {m : UChannelEntry D} (hm : e.written l data t = some m)
      {r : UChannelEntry D × List PackUnit} (hr : m.attached e.latest = r)
      (h : afterWrite r.1 l.seqId current r.2 = .ok (e', work)) :
      match e.written l data t with
      | none => e' = e ∧ work = []
      | some m => m.settled e.latest l.seqId current = (e', work) := by
    rw [hm]
    exact (settled_of_attached (exists_oldest_written hL hm) hr).mp h
  rw [writeData] at h
  split at h
  · rename_i hev
    obtain ⟨r, hr, h⟩ := bind_eq_ok.mp h
    exact settle (if_pos hev) ((fillSentinel_eq_ok hL hM hl).mp hr).2 h
  rename_i hev
  split at h
  · rename_i hfirst
    obtain ⟨r, hr, h⟩ := bind_eq_ok.mp h
    exact settle (by simp [UChannelEntry.written, hev, hfirst])
      ((fillSentinel_eq_ok hL hM hl).mp hr).2 h
  rename_i hfirst
  split at h
  · rename_i hgap
    obtain ⟨r, hr, h⟩ := bind_eq_ok.mp h
    exact settle (by simp [UChannelEntry.written, hev, hfirst, hgap])
      ((fillBehindGap_eq_ok hL hM hl).mp hr).2 h
  rename_i hgap
  split at h
  · rename_i hconn
    obtain ⟨r, hr, h⟩ := bind_eq_ok.mp h
    exact settle (by simp [UChannelEntry.written, hev, hfirst, hgap, hconn])
      ((fillSentinel_eq_ok hL hM hl).mp hr).2 h
  · rename_i hconn
    simp only [pure_eq_ok, Prod.mk.injEq] at h
    simp [UChannelEntry.written, hev, hfirst, hgap, hconn, h.1.symm, h.2.symm]

/-- The closed form of a write. -/
theorem newData_cases {e' : UChannelEntry D} {work : List PackUnit} (hL : Linked e)
    (hM : Manned e) (h : newData e data t current = .ok (e', work)) :
    ∃ c o l, Cleaning e t.validityStart c o ∧ e.heap e.latest = some l ∧
      match (e.cleaned c o).written l data t with
      | none => e' = e.cleaned c o ∧ work = []
      | some m => m.settled e.latest l.seqId current = (e', work) := by
  obtain ⟨c, o, hC, hclean⟩ := cleanUp_eq hL t.validityStart
  obtain ⟨l, hl⟩ := hL.exists_latest
  have hl' := hL.cleaned_latest hC hl
  rw [newData] at h
  obtain ⟨m, hm, h⟩ := bind_eq_ok.mp h
  obtain rfl := Except.ok.inj (hclean.symm.trans hm)
  obtain ⟨l', hd, h⟩ := bind_eq_ok.mp h
  obtain rfl : l = l' := Option.some.inj (hl'.symm.trans (deref_eq_ok.mp hd))
  refine ⟨c, o, l, hC, hl, ?_⟩
  exact writeData_cases (hL.cleaned hC.cleanup_le hC.lt_oldest hC.oldest_le hC.le_latest)
    ⟨hM.1, hM.2⟩ hl' h

/-- A write goes through when every point counts an access. -/
theorem writeData_total {l : UChannelEntryData D} (hL : Linked e) (hM : Manned e)
    (hl : e.heap e.latest = some l)
    (hpos : ∀ a n, e.heap a = some n → n.readAccesses ≠ 0) :
    ∃ r, writeData e l data t current = .ok r := by
  have hfr := hL.fresh_eq
  have hle := hL.oldest_le
  have hatt (n' : UChannelEntryData D) (hn' : n'.readAccesses = l.readAccesses) :
      Attachable (e.withLast n') := by
    intro _ _ n hn
    have hn : store e.heap e.latest n' e.oldest = some n := hn
    rw [store_apply] at hn
    split at hn
    · cases hn
      exact hn' ▸ hpos _ _ hl
    · exact hpos _ _ hn
  have hgap (n' : UChannelEntryData D) : Attachable (e.withGap l n') := by
    intro _ _ n hn
    have hn : store (store e.heap e.latest { l with seqId := 0, newer := some e.fresh }) e.fresh n'
      e.oldest = some n := hn
    rw [store_of_ne (by omega), store_apply] at hn
    split at hn
    · cases hn
      exact hpos e.latest l hl
    · exact hpos _ _ hn
  have go {m : UChannelEntry D} {x : Except Fault (UChannelEntry D × List PackUnit)}
      (hm : e.written l data t = some m) (hx : x = .ok (m.attached e.latest)) :
      ∃ r, (do let s ← x
               afterWrite s.1 l.seqId current s.2) = .ok r := by
    refine ⟨m.settled e.latest l.seqId current, bind_eq_ok.mpr ⟨_, hx, ?_⟩⟩
    exact (settled_of_attached (exists_oldest_written hL hm) rfl).mpr rfl
  rw [writeData]
  split
  · rename_i hev
    exact go (if_pos hev) ((fillSentinel_eq_ok hL hM hl).mpr ⟨hatt _ rfl, rfl⟩)
  rename_i hev
  split
  · rename_i hfirst
    exact go (by simp [UChannelEntry.written, hev, hfirst])
      ((fillSentinel_eq_ok hL hM hl).mpr ⟨hatt _ rfl, rfl⟩)
  rename_i hfirst
  split
  · rename_i hnot
    exact go (by simp [UChannelEntry.written, hev, hfirst, hnot])
      ((fillBehindGap_eq_ok hL hM hl).mpr ⟨hgap _, rfl⟩)
  rename_i hnot
  split
  · rename_i hconn
    exact go (by simp [UChannelEntry.written, hev, hfirst, hnot, hconn])
      ((fillSentinel_eq_ok hL hM hl).mpr ⟨hatt _ rfl, rfl⟩)
  · exact ⟨_, rfl⟩

theorem newData_total (hL : Linked e) (hM : Manned e)
    (hpos : ∀ a n, e.heap a = some n → n.readAccesses ≠ 0) :
    ∃ r, newData e data t current = .ok r := by
  obtain ⟨c, o, hC, hclean⟩ := cleanUp_eq hL t.validityStart
  obtain ⟨l, hl⟩ := hL.exists_latest
  have hl' := hL.cleaned_latest hC hl
  have hpos' : ∀ a n, (e.cleaned c o).heap a = some n → n.readAccesses ≠ 0 := by
    intro a n hn
    have hn : (if a < c then none else e.heap a) = some n := hn
    split at hn
    · cases hn
    · exact hpos a n hn
  obtain ⟨r, hr⟩ := (@writeData_total _ _ data t current)
    (hL.cleaned hC.cleanup_le hC.lt_oldest hC.oldest_le hC.le_latest) ⟨hM.1, hM.2⟩ hl' hpos'
  refine ⟨r, ?_⟩
  rw [newData]
  exact bind_eq_ok.mpr ⟨_, hclean, bind_eq_ok.mpr ⟨l, deref_eq_ok.mpr hl', hr⟩⟩

end Cases

end Dueca.Entry
