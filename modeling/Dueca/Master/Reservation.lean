import Dueca.Master.Bookkeeping
import Mathlib.Data.List.Nodup
import Mathlib.Data.List.Perm.Basic

/-!
# Reservation accounting

A writer may ask for a number of reservations: data are saved up until that many
reservation clients have been counted for its entry, and then the master sends a
`RemoveSaveupCmd`. Clients are counted from two sides, by `takeReservations` when
an entry arrives after its clients and by `serveClient` when a client arrives
after its entries.

An `Audit` runs the master and keeps a ledger beside it: per entry id the page of
its current life (reservations requested, clients counted, commands sent), and per
client the entries it has been counted for. `Accounted` is what the ledger should
show. It holds along every run in which each step is `Accountable`; the two steps
that are not are a client whose reservation falls to a deleted entry, and a new
entry that takes a single-entry client already counted elsewhere: the client
record in the list is a copy, made before the reservation was marked used.
-/

namespace Dueca.Master

open Dueca.Lib UnifiedChannelMaster

variable {reg : DataClassRegistry}

/-! ### What the two loops count -/

/-- The client's reservation applies to the entry. -/
def ClientData.applies (reg : DataClassRegistry) (c : ClientData) (o : EntryData) (handle : ℕ) :
    Bool :=
  c.reservation && !c.reservationUsed && o.takesReservations && c.selects reg o handle

theorem matches_fst (c : ClientData) (o : EntryData) (handle : ℕ) :
    (c.matches reg o handle).1 = c.applies reg o handle := by
  unfold ClientData.matches ClientData.applies
  cases c.reservation <;> cases c.reservationUsed <;> cases o.takesReservations <;>
    cases c.selects reg o handle <;> simp
  split <;> rfl

theorem matches_snd (c : ClientData) (o : EntryData) (handle : ℕ) :
    (c.matches reg o handle).2 =
      { c with reservationUsed := c.reservationUsed ||
          (c.applies reg o handle && c.requestEntry != entryAny) } := by
  unfold ClientData.matches ClientData.applies
  cases hr : c.reservation <;> cases hu : c.reservationUsed <;> cases o.takesReservations <;>
    cases c.selects reg o handle <;> cases ha : c.requestEntry == entryAny <;>
    simp [ha, bne] <;> cases c <;> simp_all

theorem applies_reservation {c : ClientData} {o : EntryData} {handle : ℕ}
    (h : c.applies reg o handle = true) : c.reservation = true := by
  simp only [ClientData.applies, Bool.and_eq_true] at h
  exact h.1.1.1

/-- The counted clients of the first loop: the first `left` whose reservation applies. -/
theorem takeReservations_counted (o : EntryData) (newid : ℕ) (cs : List ClientData) (left : ℕ) :
    (takeReservations reg o newid cs left).2.2 =
      ((cs.filter (·.applies reg o newid)).map (·.origin)).take left := by
  induction cs generalizing left with
  | nil => simp [takeReservations]
  | cons c cs ih =>
    simp only [takeReservations, matches_fst, matches_snd]
    cases happ : c.applies reg o newid with
    | false => simp [happ, ih]
    | true =>
      cases left with
      | zero => simp [ih]
      | succ left => simp [happ, applies_reservation happ, ih]

/-- The reservations that remain after the first loop. -/
theorem takeReservations_left (o : EntryData) (newid : ℕ) (cs : List ClientData) (left : ℕ) :
    (takeReservations reg o newid cs left).2.1 =
      left - (cs.filter (·.applies reg o newid)).length := by
  induction cs generalizing left with
  | nil => simp [takeReservations]
  | cons c cs ih =>
    simp only [takeReservations, matches_fst, matches_snd]
    cases happ : c.applies reg o newid with
    | false => simp [happ, ih]
    | true =>
      cases left with
      | zero => simp [ih]
      | succ left => simp [happ, applies_reservation happ, ih]

/-- The first loop only marks reservations as used. -/
theorem takeReservations_clients (o : EntryData) (newid : ℕ) (cs : List ClientData) (left : ℕ) :
    (takeReservations reg o newid cs left).1 = cs.map fun c => (c.matches reg o newid).2 := by
  induction cs generalizing left with
  | nil => rfl
  | cons c cs ih =>
    simp only [takeReservations, List.map_cons]
    split <;> simp [ih]

/-- The clients an effect list counts for one entry. -/
def clientsCounted (out : List Effect) (entry : ℕ) : List ℕ :=
  out.filterMap fun
    | .count c h => if h = entry then some c else none
    | .send _ => none

/-- The entries an effect list counts one client for. -/
def entriesCounted (out : List Effect) (client : ℕ) : List ℕ :=
  out.filterMap fun
    | .count c h => if c = client then some h else none
    | .send _ => none

/-- The number of `RemoveSaveupCmd`s an effect list sends for one entry. -/
def removals (out : List Effect) (entry : ℕ) : ℕ := out.count (entryCommand .removeSaveupCmd entry)

theorem clientsCounted_append (o₁ o₂ : List Effect) (h : ℕ) :
    clientsCounted (o₁ ++ o₂) h = clientsCounted o₁ h ++ clientsCounted o₂ h :=
  List.filterMap_append

theorem entriesCounted_append (o₁ o₂ : List Effect) (c : ℕ) :
    entriesCounted (o₁ ++ o₂) c = entriesCounted o₁ c ++ entriesCounted o₂ c :=
  List.filterMap_append

theorem removals_append (o₁ o₂ : List Effect) (h : ℕ) :
    removals (o₁ ++ o₂) h = removals o₁ h + removals o₂ h :=
  List.count_append

/-- What the loop of a `NewClientNotif` did to the entries `es` below `n`. -/
structure ClientServed (reg : DataClassRegistry) (n : ℕ) (c : ClientData) (es es' : List EntryData)
    (out : List Effect) : Prop where
  /-- Counted entries lose a reservation, and nothing else changes. -/
  entries : ∀ h : ℕ, es'[h]? = (es[h]?).map fun e =>
    { e with reservations := e.reservations - (clientsCounted out h).length }
  /-- An entry counts this client once, if it has a reservation left that applies; for a
  single-entry client it is the highest such entry. -/
  counted : ∀ h : ℕ, clientsCounted out h = [] ∨
    clientsCounted out h = [c.origin] ∧ h < n ∧ ∃ e, es[h]? = some e ∧ e.reservations ≠ 0 ∧
      c.applies reg e h = true ∧
      (c.requestEntry ≠ entryAny →
        ∀ h' e', h < h' → h' < n → es[h']? = some e' → c.applies reg e' h' = false)
  /-- The last reservation of an entry takes its saveup away. -/
  removed : ∀ h : ℕ, removals out h =
    if clientsCounted out h ≠ [] ∧ (es[h]?).any (·.reservations == 1) then 1 else 0
  others : ∀ c', c' ≠ c.origin → entriesCounted out c' = []
  single : c.requestEntry ≠ entryAny → (entriesCounted out c.origin).length ≤ 1
  used : c.reservationUsed = true → out = []

theorem applies_of_used {c : ClientData} {o : EntryData} {h : ℕ} (hu : c.reservationUsed = true) :
    c.applies reg o h = false := by
  simp [ClientData.applies, hu]

theorem ClientServed.nil (n : ℕ) (c : ClientData) (es : List EntryData) :
    ClientServed reg n c es es [] where
  entries h := by cases es[h]? <;> simp [clientsCounted]
  counted h := .inl rfl
  removed h := by simp [removals, clientsCounted]
  others c' _ := rfl
  single _ := by simp [entriesCounted]
  used _ := rfl

/-- Handle `n` is not counted: the loop goes on with the same record, or with one
that is marked used. -/
theorem ClientServed.skip {n : ℕ} {c : ClientData} {es es' : List EntryData} {out : List Effect}
    (h : ClientServed reg n { c with reservationUsed := c.reservationUsed ||
      ((es[n]?).any (c.applies reg · n) && c.requestEntry != entryAny) } es es' out) :
    ClientServed reg (n + 1) c es es' out where
  entries := h.entries
  counted k := by
    rcases h.counted k with hk | ⟨hk, hlt, e, he, hres, happ, htop⟩
    · exact .inl hk
    · right
      have hnot : ((es[n]?).any (c.applies reg · n) && c.requestEntry != entryAny) = false := by
        by_contra hne
        rw [applies_of_used (by simp [hne])] at happ
        cases happ
      simp only [hnot, Bool.or_false] at happ htop
      refine ⟨hk, Nat.lt_succ_of_lt hlt, e, he, hres, happ, fun hany k' e' hkk' hk'n he' => ?_⟩
      rcases Nat.lt_succ_iff_lt_or_eq.mp hk'n with hk'n | rfl
      · exact htop hany k' e' hkk' hk'n he'
      · simpa [he', hany] using hnot
  removed := h.removed
  others := h.others
  single := h.single
  used hu := h.used (by simp [hu])

/-- Handle `n` is counted. -/
theorem ClientServed.count {n : ℕ} {c : ClientData} {es es' : List EntryData} {out : List Effect}
    {e : EntryData} (he : es[n]? = some e) (happ : c.applies reg e n = true)
    (hres : e.reservations ≠ 0)
    (h : ClientServed reg n { c with reservationUsed := c.reservationUsed ||
      c.requestEntry != entryAny } (es.set n { e with reservations := e.reservations - 1 }) es' out) :
    ClientServed reg (n + 1) c es es' (.count c.origin n ::
      (if e.reservations - 1 = 0 then [entryCommand .removeSaveupCmd n] else []) ++ out) := by
  obtain ⟨hlt, rfl⟩ := List.getElem?_eq_some_iff.mp he
  -- the rest of the loop stays below `n`
  have hrest : clientsCounted out n = [] := by
    rcases h.counted n with hn | ⟨-, hn, -⟩
    · exact hn
    · exact absurd hn (Nat.lt_irrefl n)
  have hcmd : ∀ k, clientsCounted (if es[n].reservations - 1 = 0
      then [entryCommand .removeSaveupCmd n] else []) k = [] := by
    intro k
    split <;> simp [clientsCounted, entryCommand]
  have hcount : ∀ k, clientsCounted (.count c.origin n ::
      (if es[n].reservations - 1 = 0 then [entryCommand .removeSaveupCmd n] else []) ++ out) k =
        if n = k then [c.origin] else clientsCounted out k := by
    intro k
    rw [← List.singleton_append, List.append_assoc, clientsCounted_append, clientsCounted_append,
      hcmd]
    by_cases hk : n = k
    · subst hk
      simp [clientsCounted] at hrest ⊢
      exact hrest
    · simp [clientsCounted, hk]
  have hunused : c.reservationUsed = false := by
    cases hu : c.reservationUsed with
    | false => rfl
    | true => rw [applies_of_used hu] at happ; cases happ
  have hsilent : c.requestEntry ≠ entryAny → out = [] := fun hany => h.used (by simp [hany])
  constructor
  · intro k
    rw [h.entries, hcount]
    by_cases hk : n = k
    · subst hk
      simp [hlt, hrest]
    · simp [hk]
  · intro k
    rw [hcount]
    by_cases hk : n = k
    · subst hk
      exact .inr ⟨if_pos rfl, Nat.lt_succ_self n, _, he, hres, happ,
        fun _ k' _ h₁ h₂ => absurd h₁ (by omega)⟩
    · rw [if_neg hk]
      rcases h.counted k with hk' | ⟨hk', hkn, e', he', hres', happ', -⟩
      · exact .inl hk'
      · right
        have hany : c.requestEntry = entryAny := by
          by_contra hne
          rw [hsilent hne] at hk'
          cases hk'
        refine ⟨hk', Nat.lt_succ_of_lt hkn, e', ?_, hres', ?_, fun hne => absurd hany hne⟩
        · rwa [List.getElem?_set_ne hk] at he'
        · simpa [hany, hunused, ClientData.applies, ClientData.selects] using happ'
  · intro k
    rw [hcount, ← List.singleton_append, List.append_assoc, removals_append, removals_append,
      h.removed]
    have hone : removals [.count c.origin n] k = 0 := by simp [removals, entryCommand]
    by_cases hk : n = k
    · subst hk
      rw [hone, hrest, if_pos rfl]
      by_cases hlast : es[n].reservations - 1 = 0
      · have : es[n].reservations = 1 := by omega
        simp [removals, this, hlt]
      · have : es[n].reservations ≠ 1 := by omega
        simp [removals, hlast, this, hlt]
    · have hother : removals (if es[n].reservations - 1 = 0
          then [entryCommand .removeSaveupCmd n] else []) k = 0 := by
        split <;> simp [removals, entryCommand, hk]
      rw [hone, hother, if_neg hk, List.getElem?_set_ne hk]
      simp
  · intro c' hc'
    rw [← List.singleton_append, List.append_assoc, entriesCounted_append, entriesCounted_append,
      h.others c' hc']
    split <;> simp [entriesCounted, entryCommand, Ne.symm hc']
  · intro hany
    rw [hsilent hany]
    split <;> simp [entriesCounted, entryCommand]
  · intro hu
    rw [hunused] at hu
    cases hu

/-- The loop of a `NewClientNotif`. -/
theorem serveClient_spec (reg : DataClassRegistry) (n : ℕ) (c : ClientData) (es : List EntryData) :
    ClientServed reg n c es (serveClient reg n c es).1 (serveClient reg n c es).2 := by
  induction n generalizing c es with
  | zero => exact .nil 0 c es
  | succ n ih =>
    simp only [serveClient]
    cases he : es[n]? with
    | none =>
      refine .skip ?_
      simpa [he] using ih c es
    | some e =>
      simp only [matches_fst, matches_snd]
      cases happ : c.applies reg e n with
      | false =>
        refine .skip ?_
        simpa [he, happ] using ih c es
      | true =>
        by_cases hres : e.reservations = 0
        · refine .skip ?_
          simpa [he, happ, hres] using ih _ es
        · simp only [Bool.true_and, ne_eq, hres, not_false_eq_true, decide_true, if_true]
          exact .count he happ hres (ih _ _)

/-! ### The ledger -/

/-- One life of an entry: the reservations its writer asked for, the clients
counted so far and the `RemoveSaveupCmd`s sent. -/
structure Page where
  requested : ℕ := 0
  counted : List ℕ := []
  removals : ℕ := 0
  deriving DecidableEq

/-- The master with a ledger beside it. -/
structure Audit where
  master : UnifiedChannelMaster := {}
  /-- The page of each id's current life. -/
  page : ℕ → Page := fun _ => {}
  /-- The entries each client has been counted for, in all its lifetime. -/
  tally : ℕ → List ℕ := fun _ => []
  /-- The clients that have called in. -/
  seen : List ℕ := []
  /-- Those among them that asked for one entry, by label or id. -/
  singles : List ℕ := []
  /-- The `RemoveSaveupCmd`s sent for each id while its entry was not active. -/
  strays : ℕ → ℕ := fun _ => 0

/-- A request that stored a new record starts a new life of its id. -/
def newLife (out : List Effect) : Input → Option (ℕ × ℕ)
  | .sweep => none
  | .request r =>
    if r.type = .newEntryReq then
      match out with
      | .send c :: _ => some (c.data0, r.data0)
      | _ => none
    else none

/-- Enter the effects of one input in the ledger. -/
def Audit.enter (a : Audit) (i : Input) (m' : UnifiedChannelMaster) (out : List Effect) : Audit :=
  let opened : ℕ → Page := match newLife out i with
    | some (id, n) => Function.update a.page id { requested := n }
    | none => a.page
  { master := m'
    page := fun h => { opened h with
      counted := (opened h).counted ++ clientsCounted out h
      removals := (opened h).removals + Dueca.Master.removals out h }
    tally := fun c => a.tally c ++ entriesCounted out c
    seen := match i with
      | .request r => if r.type = .newClientNotif then r.data1 :: a.seen else a.seen
      | .sweep => a.seen
    singles := match i with
      | .request r =>
        if r.type = .newClientNotif ∧ r.data0 ≠ entryAny then r.data1 :: a.singles else a.singles
      | .sweep => a.singles
    strays := fun h => a.strays h +
      if (m'.entries[h]?).any (·.active) then 0 else Dueca.Master.removals out h }

/-- Run the master and keep the ledger. -/
def auditStep (reg : DataClassRegistry) (a : Audit) (i : Input) : Except Fault Audit :=
  match respond reg a.master i with
  | .error f => .error f
  | .ok (m', out) => .ok (a.enter i m' out)

/-- A page agrees with the record of its entry: the reservations left and the
clients counted add up to those requested, no client is counted twice, and a
`RemoveSaveupCmd` has been sent, once, if and only if all have been counted. -/
structure PageOk (e : EntryData) (p : Page) : Prop where
  sum : e.reservations + p.counted.length = p.requested
  takes : e.takesReservations = decide (p.requested ≠ 0)
  nodup : p.counted.Nodup
  removed : p.removals = if p.requested ≠ 0 ∧ p.counted.length = p.requested then 1 else 0

/-- The invariant of the ledger. -/
structure Balanced (a : Audit) : Prop where
  page : ∀ (h : ℕ) (e : EntryData), a.master.entries[h]? = some e → PageOk e (a.page h)
  countedSeen : ∀ h, ∀ c ∈ (a.page h).counted, c ∈ a.seen
  clientsNodup : (a.master.clients.map (·.origin)).Nodup
  clientsSeen : ∀ c ∈ a.master.clients, c.origin ∈ a.seen
  clientsSingle : ∀ c ∈ a.master.clients, c.requestEntry ≠ entryAny ↔ c.origin ∈ a.singles
  tallySeen : ∀ c, a.tally c ≠ [] → c ∈ a.seen
  singlesSeen : ∀ c ∈ a.singles, c ∈ a.seen
  tallySingle : ∀ c ∈ a.singles, (a.tally c).length ≤ 1
  strays : ∀ h, a.strays h = 0

theorem balanced_init : Balanced {} where
  page h e he := by simp at he
  countedSeen h c hc := by simp at hc
  clientsNodup := by simp
  clientsSeen c hc := by simp at hc
  clientsSingle c hc := by simp at hc
  tallySeen c hc := by simp at hc
  singlesSeen c hc := by simp at hc
  tallySingle c hc := by simp at hc
  strays h := rfl

/-! ### Steps that leave the reservations alone -/

/-- An effect list that counts nobody and takes no saveup away. -/
def Quiet (out : List Effect) : Prop :=
  ∀ eff ∈ out, ∃ msg, eff = .send msg ∧ msg.type ≠ .removeSaveupCmd

theorem Quiet.clientsCounted {out : List Effect} (hq : Quiet out) (h : ℕ) :
    clientsCounted out h = [] := by
  refine List.filterMap_eq_nil_iff.mpr fun eff heff => ?_
  obtain ⟨msg, rfl, -⟩ := hq eff heff
  rfl

theorem Quiet.entriesCounted {out : List Effect} (hq : Quiet out) (c : ℕ) :
    entriesCounted out c = [] := by
  refine List.filterMap_eq_nil_iff.mpr fun eff heff => ?_
  obtain ⟨msg, rfl, -⟩ := hq eff heff
  rfl

theorem Quiet.removals {out : List Effect} (hq : Quiet out) (h : ℕ) : removals out h = 0 := by
  refine List.count_eq_zero.mpr fun hmem => ?_
  obtain ⟨msg, hmsg, htype⟩ := hq _ hmem
  simp only [entryCommand, Effect.send.injEq] at hmsg
  exact htype (by rw [← hmsg])

theorem quiet_sendNewEntryConf (m : UnifiedChannelMaster) (id : ℕ) :
    Quiet (m.sendNewEntryConf id) := by
  intro eff heff
  unfold sendNewEntryConf at heff
  split at heff
  · cases heff
  · split at heff
    · exact ⟨_, List.mem_singleton.mp heff, by simp⟩
    · cases heff

/-- A quiet step of which the entry records keep their reservations keeps the
ledger balanced. -/
theorem Balanced.quiet {a : Audit} {i : Input} {m' : UnifiedChannelMaster} {out : List Effect}
    (hB : Balanced a) (hq : Quiet out) (hlife : newLife out i = none)
    (hclient : ∀ r, i = .request r → r.type ≠ .newClientNotif)
    (hent : ∀ (h : ℕ) (e' : EntryData), m'.entries[h]? = some e' →
      ∃ e : EntryData, a.master.entries[h]? = some e ∧
        e'.reservations = e.reservations ∧ e'.takesReservations = e.takesReservations)
    (hcl : m'.clients.Sublist a.master.clients) : Balanced (a.enter i m' out) := by
  have hpage : ∀ h, (a.enter i m' out).page h = a.page h := by
    intro h
    simp only [Audit.enter, hlife, hq.clientsCounted, hq.removals, List.append_nil, Nat.add_zero]
  have htally : ∀ c, (a.enter i m' out).tally c = a.tally c := by
    intro c
    simp only [Audit.enter, hq.entriesCounted, List.append_nil]
  have hseen : (a.enter i m' out).seen = a.seen := by
    cases i with
    | sweep => rfl
    | request r => simp only [Audit.enter, if_neg (hclient r rfl)]
  have hsingles : (a.enter i m' out).singles = a.singles := by
    cases i with
    | sweep => rfl
    | request r => simp only [Audit.enter, hclient r rfl, false_and, if_false]
  constructor
  · intro h e' he'
    obtain ⟨e, he, hr, ht⟩ := hent h e' he'
    obtain ⟨hs, htk, hn, hrm⟩ := hB.page h e he
    rw [hpage]
    exact ⟨by rw [hr]; exact hs, by rw [ht]; exact htk, hn, hrm⟩
  · intro h c hc
    rw [hpage] at hc
    rw [hseen]
    exact hB.countedSeen h c hc
  · exact hB.clientsNodup.sublist (hcl.map _)
  · intro c hc
    rw [hseen]
    exact hB.clientsSeen c (hcl.subset hc)
  · intro c hc
    rw [hsingles]
    exact hB.clientsSingle c (hcl.subset hc)
  · intro c hc
    rw [htally] at hc
    rw [hseen]
    exact hB.tallySeen c hc
  · intro c hc
    rw [hsingles] at hc
    rw [hseen]
    exact hB.singlesSeen c hc
  · intro c hc
    rw [hsingles] at hc
    rw [htally]
    exact hB.tallySingle c hc
  · intro h
    simp only [Audit.enter, hq.removals, ite_self, hB.strays h]

/-! ### A new entry -/

/-- The id that the next accepted entry gets. -/
def nextId (m : UnifiedChannelMaster) : ℕ := m.reusable.head?.getD m.entries.length

/-- The waiting clients whose reservation applies to the entry of request `r`. -/
def applicants (reg : DataClassRegistry) (m : UnifiedChannelMaster) (r : UChannelCommRequest) :
    List ClientData :=
  m.clients.filter (·.applies reg (newRecord r) (nextId m))

theorem issueId_cases {m m' : UnifiedChannelMaster} {o : EntryData} {id : ℕ}
    (h : issueId m o = .ok (some (id, m'))) :
    id = nextId m ∧ (∀ k : ℕ, m'.entries[k]? = if k = id then some o else m.entries[k]?) ∧
      m'.clients = m.clients := by
  unfold issueId at h
  unfold nextId
  cases hr : m.reusable with
  | nil =>
    simp only [hr] at h
    split at h
    · cases h
      refine ⟨rfl, fun k => ?_, rfl⟩
      by_cases hk : k = m.entries.length
      · simp [hk]
      · rw [if_neg hk]
        rcases Nat.lt_or_gt_of_ne hk with hlt | hgt
        · exact List.getElem?_append_left hlt
        · rw [List.getElem?_eq_none (by simp; omega), List.getElem?_eq_none (by omega)]
    · cases h
  | cons newid rest =>
    simp only [hr] at h
    split at h
    · cases h
    · rename_i old hold
      split at h
      · cases h
      · cases h
        obtain ⟨hlt, -⟩ := List.getElem?_eq_some_iff.mp hold
        refine ⟨rfl, fun k => ?_, rfl⟩
        by_cases hk : k = id
        · simp [hk, hlt]
        · simp only [if_neg hk]
          exact List.getElem?_set_ne (Ne.symm hk)

theorem applies_of_not_takes {c : ClientData} {o : EntryData} {h : ℕ}
    (ho : o.takesReservations = false) : c.applies reg o h = false := by
  simp [ClientData.applies, ho]

/-- What an accepted `NewEntryReq` did. -/
structure EntryMade (reg : DataClassRegistry) (m m' : UnifiedChannelMaster)
    (r : UChannelCommRequest) (out : List Effect) : Prop where
  entries : ∀ k : ℕ, m'.entries[k]? =
    if k = nextId m then
      some { newRecord r with reservations := r.data0 - (applicants reg m r).length }
    else m.entries[k]?
  clients : m'.clients = m.clients.map fun c => (c.matches reg (newRecord r) (nextId m)).2
  out : ∃ conf, conf.data0 = nextId m ∧ conf.type = .newEntryConf ∧
    out = .send conf :: ((((applicants reg m r).take r.data0).map (·.origin)).map
      (.count · (nextId m)) ++
        if r.data0 ≠ 0 ∧ r.data0 ≤ (applicants reg m r).length
        then [entryCommand .removeSaveupCmd (nextId m)] else [])

theorem sendNewEntryConf_active {m : UnifiedChannelMaster} {id : ℕ} {e : EntryData}
    (he : m.entries[id]? = some e) (hact : e.active = true) :
    ∃ conf, conf.data0 = id ∧ conf.type = .newEntryConf ∧ m.sendNewEntryConf id = [.send conf] := by
  simp only [sendNewEntryConf, he, hact, if_true]
  exact ⟨_, rfl, rfl, rfl⟩

/-- A `NewEntryReq` is refused, or makes an entry under the next id. -/
theorem newEntryReq_made {m m' : UnifiedChannelMaster} {r : UChannelCommRequest}
    {out : List Effect} (h : m.newEntryReq reg r = .ok (m', out)) :
    (out = [] ∧ m'.entries = m.entries ∧ m'.clients = m.clients) ∨ EntryMade reg m m' r out := by
  unfold newEntryReq at h
  split at h
  · cases h
  · cases harity : m.checkArity r with
    | none =>
      simp only [harity] at h
      cases h
      exact .inl ⟨rfl, rfl, rfl⟩
    | some arity =>
      simp only [harity] at h
      split at h
      · cases h
      · cases h
        exact .inl ⟨rfl, rfl, rfl⟩
      · rename_i newid m₁ hissue
        right
        obtain ⟨rfl, hent, hcl⟩ := issueId_cases hissue
        -- the arity plays no part in the next id
        have hid : nextId { m with arity := arity } = nextId m := rfl
        have hclients : m₁.clients = m.clients := hcl
        rw [hid] at h hent
        obtain ⟨conf, hc₀, hct, hconf⟩ :=
          sendNewEntryConf_active (m := m₁) (by rw [hent, if_pos rfl]) rfl
        split at h
        · rename_i hzero
          have hno : ∀ c : ClientData, c.applies reg (newRecord r) (nextId m) = false :=
            fun c => applies_of_not_takes (by simp [newRecord, hzero])
          cases h
          refine ⟨fun k => ?_, ?_, conf, hc₀, hct, ?_⟩
          · rw [hent]
            simp [hzero, newRecord]
          · simp [hclients, matches_snd, hno]
          · simp [hconf, hzero]
        · rename_i hpos
          cases h
          refine ⟨fun k => ?_, ?_, conf, hc₀, hct, ?_⟩
          · by_cases hk : k = nextId m
            · subst hk
              have hlt := (List.getElem?_eq_some_iff.mp ((hent (nextId m)).trans (if_pos rfl))).1
              simp [hlt, takeReservations_left, hclients, applicants]
            · simp only [List.getElem?_set_ne (Ne.symm hk), hent, if_neg hk]
          · rw [takeReservations_clients, hclients]
          · rw [hconf, takeReservations_counted, takeReservations_left, hclients]
            simp [applicants, hpos, Nat.sub_eq_zero_iff_le, List.map_take]

theorem clientsCounted_map_count (cs : List ℕ) (id h : ℕ) :
    clientsCounted (cs.map (.count · id)) h = if id = h then cs else [] := by
  by_cases hid : id = h <;> simp [clientsCounted, List.filterMap_map, hid]

theorem length_entriesCounted_map_count (cs : List ℕ) (id c : ℕ) :
    (entriesCounted (cs.map (.count · id)) c).length = cs.count c := by
  simp only [entriesCounted, List.filterMap_map, Function.comp_def]
  induction cs with
  | nil => rfl
  | cons x xs ih => by_cases hx : x = c <;> simp [hx, ih]

section EntryMade

variable {m m' : UnifiedChannelMaster} {r : UChannelCommRequest} {out : List Effect}

/-- The clients that an accepted `NewEntryReq` counts. -/
def counts (reg : DataClassRegistry) (m : UnifiedChannelMaster) (r : UChannelCommRequest) :
    List ℕ :=
  ((applicants reg m r).take r.data0).map (·.origin)

theorem EntryMade.clientsCounted (h : EntryMade reg m m' r out) (k : ℕ) :
    clientsCounted out k = if nextId m = k then counts reg m r else [] := by
  obtain ⟨conf, -, -, rfl⟩ := h.out
  rw [← List.singleton_append, clientsCounted_append, clientsCounted_append,
    clientsCounted_map_count]
  split <;> split <;> simp [Dueca.Master.clientsCounted, entryCommand, counts]

theorem EntryMade.length_entriesCounted (h : EntryMade reg m m' r out) (c : ℕ) :
    (entriesCounted out c).length = (counts reg m r).count c := by
  obtain ⟨conf, -, -, rfl⟩ := h.out
  rw [← List.singleton_append, entriesCounted_append, entriesCounted_append, List.length_append,
    List.length_append, length_entriesCounted_map_count]
  split <;> simp [entriesCounted, entryCommand, counts]

theorem EntryMade.removals (h : EntryMade reg m m' r out) (k : ℕ) :
    removals out k = if nextId m = k ∧ r.data0 ≠ 0 ∧ r.data0 ≤ (applicants reg m r).length
      then 1 else 0 := by
  obtain ⟨conf, -, hct, rfl⟩ := h.out
  have hconf : Dueca.Master.removals [.send conf] k = 0 := by
    refine List.count_eq_zero.mpr fun hmem => ?_
    simp only [entryCommand, List.mem_singleton, Effect.send.injEq] at hmem
    rw [← hmem] at hct
    cases hct
  have hcount : ∀ cs : List ℕ, Dueca.Master.removals (cs.map (.count · (nextId m))) k = 0 := by
    intro cs
    refine List.count_eq_zero.mpr fun hmem => ?_
    obtain ⟨c, -, hc⟩ := List.mem_map.mp hmem
    cases hc
  rw [← List.singleton_append, removals_append, removals_append, hconf, hcount]
  by_cases hk : nextId m = k
  · split <;> simp_all [Dueca.Master.removals]
  · split <;> simp [Dueca.Master.removals, entryCommand, hk]

theorem EntryMade.newLife (h : EntryMade reg m m' r out) (htype : r.type = .newEntryReq) :
    newLife out (.request r) = some (nextId m, r.data0) := by
  obtain ⟨conf, hc₀, -, rfl⟩ := h.out
  simp [Dueca.Master.newLife, htype, hc₀]

theorem counts_sublist : (counts reg m r).Sublist (m.clients.map (·.origin)) :=
  ((List.take_sublist _ _).trans List.filter_sublist).map _

theorem length_counts : (counts reg m r).length = min r.data0 (applicants reg m r).length := by
  simp [counts]

/-- Clients that wait for one entry are counted for it the first time, and the
ledger stays balanced. -/
theorem Balanced.entryMade {a : Audit} (hB : Balanced a) (h : EntryMade reg a.master m' r out)
    (htype : r.type = .newEntryReq)
    (hfirst : ∀ c ∈ (applicants reg a.master r).take r.data0, c.requestEntry ≠ entryAny →
      a.tally c.origin = []) :
    Balanced (a.enter (.request r) m' out) := by
  have hpage : ∀ k, (a.enter (.request r) m' out).page k =
      if nextId a.master = k then
        { requested := r.data0, counted := counts reg a.master r
          removals := if r.data0 ≠ 0 ∧ r.data0 ≤ (applicants reg a.master r).length
            then 1 else 0 }
      else a.page k := by
    intro k
    simp only [Audit.enter, h.newLife htype, h.clientsCounted, h.removals]
    by_cases hk : nextId a.master = k
    · subst hk
      simp
    · simp [hk, Function.update_of_ne (Ne.symm hk)]
  have hseen : (a.enter (.request r) m' out).seen = a.seen := by
    simp only [Audit.enter, htype, reduceCtorEq, if_false]
  have hsingles : (a.enter (.request r) m' out).singles = a.singles := by
    simp only [Audit.enter, htype, reduceCtorEq, false_and, if_false]
  have hnodup : (counts reg a.master r).Nodup := hB.clientsNodup.sublist counts_sublist
  -- every client in the list keeps its id and what it asked for
  have hclient : ∀ c ∈ m'.clients, ∃ c₀ ∈ a.master.clients, c.origin = c₀.origin ∧
      c.requestEntry = c₀.requestEntry := by
    intro c hc
    rw [h.clients] at hc
    obtain ⟨c₀, hc₀, rfl⟩ := List.mem_map.mp hc
    exact ⟨c₀, hc₀, by simp only [matches_snd], by simp only [matches_snd]⟩
  have hcountsSeen : ∀ c ∈ counts reg a.master r, c ∈ a.seen := by
    intro c hc
    obtain ⟨c₀, hc₀, rfl⟩ := List.mem_map.mp (counts_sublist.subset hc)
    exact hB.clientsSeen c₀ hc₀
  have htallyMem : ∀ c, entriesCounted out c ≠ [] → c ∈ counts reg a.master r := by
    intro c hc
    rw [← List.count_pos_iff, ← h.length_entriesCounted]
    exact List.length_pos_iff.mpr hc
  constructor
  · intro k e he
    rw [hpage]
    have he' : m'.entries[k]? = some e := he
    rw [h.entries] at he'
    by_cases hk : nextId a.master = k
    · rw [if_pos hk.symm] at he'
      rw [if_pos hk]
      cases he'
      refine ⟨?_, rfl, hnodup, ?_⟩
      · simp only [length_counts]
        omega
      · simp only [length_counts]
        split <;> split <;> first | rfl | omega
    · rw [if_neg (Ne.symm hk)] at he'
      rw [if_neg hk]
      exact hB.page k e he'
  · intro k c hc
    rw [hpage] at hc
    rw [hseen]
    split at hc
    · exact hcountsSeen c hc
    · exact hB.countedSeen k c hc
  · have : m'.clients.map (·.origin) = a.master.clients.map (·.origin) := by
      simp [h.clients, matches_snd]
    change (m'.clients.map (·.origin)).Nodup
    rw [this]
    exact hB.clientsNodup
  · intro c hc
    obtain ⟨c₀, hc₀, ho, -⟩ := hclient c hc
    rw [hseen, ho]
    exact hB.clientsSeen c₀ hc₀
  · intro c hc
    obtain ⟨c₀, hc₀, ho, hreq⟩ := hclient c hc
    rw [hsingles, ho, hreq]
    exact hB.clientsSingle c₀ hc₀
  · intro c hc
    rw [hseen]
    by_cases hnew : entriesCounted out c = []
    · exact hB.tallySeen c (by simpa [Audit.enter, hnew] using hc)
    · exact hcountsSeen c (htallyMem c hnew)
  · intro c hc
    rw [hsingles] at hc
    rw [hseen]
    exact hB.singlesSeen c hc
  · intro c hc
    rw [hsingles] at hc
    have hlen := h.length_entriesCounted c
    have hone : (counts reg a.master r).count c ≤ 1 := List.nodup_iff_count_le_one.mp hnodup c
    simp only [Audit.enter, List.length_append]
    by_cases hnew : entriesCounted out c = []
    · rw [hnew]
      exact hB.tallySingle c hc
    · obtain ⟨c₀, hc₀, rfl⟩ := List.mem_map.mp (htallyMem c hnew)
      have hmem : c₀ ∈ a.master.clients :=
        List.mem_of_mem_filter (List.mem_of_mem_take hc₀)
      rw [hfirst c₀ hc₀ ((hB.clientsSingle c₀ hmem).mpr hc)]
      simp only [List.length_nil]
      omega
  · intro k
    simp only [Audit.enter, hB.strays, h.removals, h.entries]
    by_cases hk : nextId a.master = k
    · subst hk
      simp [newRecord]
    · simp [hk]

end EntryMade

/-! ### A new client -/

section NewClient

variable {a : Audit} {r : UChannelCommRequest}

/-- The entries as the loop of a `NewClientNotif` leaves them. -/
theorem newClientNotif_served (reg : DataClassRegistry) (m : UnifiedChannelMaster)
    (r : UChannelCommRequest) :
    ClientServed reg m.entries.length (newClient r) m.entries (m.newClientNotif reg r).1.entries
      (m.newClientNotif reg r).2 := by
  unfold newClientNotif
  split
  · exact serveClient_spec reg _ _ _
  · exact .nil _ _ _

theorem newClientNotif_clients (reg : DataClassRegistry) (m : UnifiedChannelMaster)
    (r : UChannelCommRequest) :
    (m.newClientNotif reg r).1.clients = m.clients ++ [newClient r] := by
  unfold newClientNotif
  split <;> rfl

/-- A client that calls in for the first time, and whose reservation falls to
active entries only, keeps the ledger balanced. -/
theorem Balanced.newClient (hB : Balanced a) (htype : r.type = .newClientNotif)
    (hnew : r.data1 ∉ a.seen)
    (hactive : ∀ (h : ℕ) (e : EntryData), a.master.entries[h]? = some e → e.active = false →
      e.reservations ≠ 0 → (newClient r).applies reg e h = true →
        r.data0 ≠ entryAny ∧ ∃ (h' : ℕ) (e' : EntryData), h < h' ∧
          a.master.entries[h']? = some e' ∧ (newClient r).applies reg e' h' = true) :
    Balanced (a.enter (.request r) (a.master.newClientNotif reg r).1
      (a.master.newClientNotif reg r).2) := by
  have hs := newClientNotif_served reg a.master r
  have hcl := newClientNotif_clients reg a.master r
  generalize a.master.newClientNotif reg r = p at hs hcl ⊢
  obtain ⟨m', out⟩ := p
  simp only at hs hcl ⊢
  have hlife : newLife out (.request r) = none := by simp [newLife, htype]
  have hseen : (a.enter (.request r) m' out).seen = r.data1 :: a.seen := by
    simp only [Audit.enter, htype, if_true]
  have hsingles : ∀ c, c ∈ (a.enter (.request r) m' out).singles ↔
      (c = r.data1 ∧ r.data0 ≠ entryAny) ∨ c ∈ a.singles := by
    intro c
    simp only [Audit.enter, htype, true_and]
    split <;> simp_all
  -- an entry that counts the client is active and had reservations left
  have hcounted : ∀ (h : ℕ) (e : EntryData), a.master.entries[h]? = some e →
      clientsCounted out h = [] ∨
        clientsCounted out h = [r.data1] ∧ e.reservations ≠ 0 ∧ e.active = true := by
    intro h e he
    rcases hs.counted h with hnil | ⟨hone, hlt, e₀, he₀, hres, happ, htop⟩
    · exact .inl hnil
    · right
      obtain rfl : e = e₀ := Option.some.inj (he.symm.trans he₀)
      refine ⟨hone, hres, ?_⟩
      by_contra hina
      obtain ⟨hany, h', e', hlt', he', happ'⟩ :=
        hactive h e he (Bool.eq_false_iff.mpr hina) hres happ
      have := htop hany h' e' hlt' (List.getElem?_eq_some_iff.mp he').1 he'
      rw [happ'] at this
      cases this
  have hnone : ∀ h : ℕ, a.master.entries[h]? = none → clientsCounted out h = [] := by
    intro h hn
    rcases hs.counted h with hnil | ⟨-, -, e, he, -⟩
    · exact hnil
    · rw [hn] at he
      cases he
  constructor
  · intro h e' he'
    have hent := hs.entries h
    rw [show m'.entries[h]? = some e' from he'] at hent
    obtain ⟨e, he, rfl⟩ := Option.map_eq_some_iff.mp hent.symm
    obtain ⟨hsum, htakes, hnodup, hrem⟩ := hB.page h e he
    have hremoved := hs.removed h
    have hnot : r.data1 ∉ (a.page h).counted := fun hmem => hnew (hB.countedSeen h _ hmem)
    have hpage : (a.enter (.request r) m' out).page h = { a.page h with
        counted := (a.page h).counted ++ clientsCounted out h
        removals := (a.page h).removals + Dueca.Master.removals out h } := by
      simp only [Audit.enter, hlife]
    rw [hpage]
    rcases hcounted h e he with hnil | ⟨hone, hres, -⟩
    · rw [hnil] at hremoved ⊢
      simp only [ne_eq, not_true_eq_false, false_and, if_false] at hremoved
      rw [hremoved]
      simpa using PageOk.mk hsum htakes hnodup hrem
    · rw [hone] at hremoved ⊢
      refine ⟨?_, htakes, ?_, ?_⟩
      · simp only [List.length_append, List.length_singleton]
        omega
      · exact List.nodup_append.mpr ⟨hnodup, List.nodup_singleton _, fun x hx y hy hxy => by
          rw [List.mem_singleton.mp hy] at hxy
          exact hnot (hxy ▸ hx)⟩
      · simp only [hremoved, hrem, he, Option.any_some, List.length_append, List.length_singleton,
          ne_eq, List.cons_ne_self, not_false_eq_true, true_and, beq_iff_eq]
        split_ifs <;> omega
  · intro h c hc
    rw [hseen]
    simp only [Audit.enter, hlife, List.mem_append] at hc
    rcases hc with hc | hc
    · exact List.mem_cons_of_mem _ (hB.countedSeen h c hc)
    · rcases hs.counted h with hnil | ⟨hone, -⟩
      · rw [hnil] at hc
        cases hc
      · rw [hone] at hc
        exact List.mem_cons.mpr (.inl (List.mem_singleton.mp hc))
  · simp only [Audit.enter, hcl, List.map_append, List.map_singleton]
    refine List.nodup_append.mpr ⟨hB.clientsNodup, List.nodup_singleton _, fun x hx y hy hxy => ?_⟩
    obtain ⟨c, hc, rfl⟩ := List.mem_map.mp hx
    rw [List.mem_singleton.mp hy] at hxy
    have := hB.clientsSeen c hc
    rw [hxy] at this
    exact hnew this
  · intro c hc
    rw [hseen]
    rw [show (a.enter (.request r) m' out).master.clients = _ from hcl] at hc
    rcases List.mem_append.mp hc with hc | hc
    · exact List.mem_cons_of_mem _ (hB.clientsSeen c hc)
    · rw [List.mem_singleton.mp hc]
      exact List.mem_cons_self
  · intro c hc
    rw [hsingles]
    rw [show (a.enter (.request r) m' out).master.clients = _ from hcl] at hc
    rcases List.mem_append.mp hc with hc | hc
    · have hne : c.origin ≠ r.data1 := fun heq => hnew (heq ▸ hB.clientsSeen c hc)
      simp only [hne, false_and, false_or]
      exact hB.clientsSingle c hc
    · rw [List.mem_singleton.mp hc]
      have hno : r.data1 ∉ a.singles := fun hmem => hnew (hB.singlesSeen _ hmem)
      simp [UnifiedChannelMaster.newClient, hno]
  · intro c hc
    rw [hseen]
    by_cases hcr : c = r.data1
    · exact List.mem_cons.mpr (.inl hcr)
    · simp only [Audit.enter, hs.others c hcr, List.append_nil] at hc
      exact List.mem_cons_of_mem _ (hB.tallySeen c hc)
  · intro c hc
    rw [hseen]
    rcases (hsingles c).mp hc with ⟨rfl, -⟩ | hc
    · exact List.mem_cons_self
    · exact List.mem_cons_of_mem _ (hB.singlesSeen c hc)
  · intro c hc
    have hfresh : a.tally r.data1 = [] := by
      by_contra hne
      exact hnew (hB.tallySeen _ hne)
    simp only [Audit.enter]
    rcases (hsingles c).mp hc with ⟨rfl, hany⟩ | hc
    · rw [hfresh]
      exact hs.single hany
    · have hcr : c ≠ r.data1 := fun heq => hnew (heq ▸ hB.singlesSeen c hc)
      rw [hs.others c hcr, List.append_nil]
      exact hB.tallySingle c hc
  · intro h
    have hent := hs.entries h
    have hremoved := hs.removed h
    simp only [Audit.enter, hB.strays, hent, hremoved]
    cases he : a.master.entries[h]? with
    | none => simp [hnone h he]
    | some e =>
      rcases hcounted h e he with hnil | ⟨-, -, hact⟩
      · simp [hnil]
      · simp [hact]

end NewClient

/-! ### Accountable runs -/

/-- The inputs that keep the ledger in order. A new entry takes, of the clients
that wait for one entry, only such as were not counted before. A client calls in
under an id of its own, and a deleted entry takes its reservation only when the
client asks for one entry and one with a higher id takes it first. -/
def Accountable (reg : DataClassRegistry) (a : Audit) : Input → Prop
  | .sweep => True
  | .request r => match r.type with
    | .newEntryReq => ∀ c ∈ (applicants reg a.master r).take r.data0,
        c.requestEntry ≠ entryAny → a.tally c.origin = []
    | .newClientNotif => r.data1 ∉ a.seen ∧
        ∀ (h : ℕ) (e : EntryData), a.master.entries[h]? = some e → e.active = false →
          e.reservations ≠ 0 → (newClient r).applies reg e h = true →
            r.data0 ≠ entryAny ∧ ∃ (h' : ℕ) (e' : EntryData), h < h' ∧
              a.master.entries[h']? = some e' ∧ (newClient r).applies reg e' h' = true
    | _ => True

/-- A quiet request that leaves entries and clients as they are. -/
theorem Balanced.same {a : Audit} {i : Input} {m' : UnifiedChannelMaster} {out : List Effect}
    (hB : Balanced a) (hq : Quiet out) (hlife : newLife out i = none)
    (hclient : ∀ r, i = .request r → r.type ≠ .newClientNotif)
    (hes : m'.entries = a.master.entries) (hcs : m'.clients = a.master.clients) :
    Balanced (a.enter i m' out) :=
  hB.quiet hq hlife hclient (fun _ e he => ⟨e, hes ▸ he, rfl, rfl⟩) (hcs ▸ List.Sublist.refl _)

theorem quiet_nil : Quiet [] := fun eff heff => absurd heff (by simp)

theorem quiet_entryCommand {type : UChannelMessageType} (h : type ≠ .removeSaveupCmd) (id : ℕ) :
    Quiet [entryCommand type id] := by
  intro eff heff
  exact ⟨_, List.mem_singleton.mp heff, h⟩

theorem quiet_newEndJoins (m : UnifiedChannelMaster) (r : UChannelCommRequest) :
    Quiet (m.newEndJoins r).2 := by
  intro eff heff
  rcases List.mem_cons.mp heff with rfl | heff
  · exact ⟨_, rfl, by simp⟩
  · obtain ⟨id, -, hid⟩ := List.mem_flatMap.mp heff
    exact quiet_sendNewEntryConf _ id eff hid

theorem newLife_of_ne {r : UChannelCommRequest} {out : List Effect} (h : r.type ≠ .newEntryReq) :
    newLife out (.request r) = none := by
  simp [newLife, h]

theorem Balanced.deleteEntryReq {a : Audit} {r : UChannelCommRequest} {m' : UnifiedChannelMaster}
    {out : List Effect} (hB : Balanced a) (htype : r.type = .deleteEntryReq)
    (h : a.master.deleteEntryReq r = .ok (m', out)) : Balanced (a.enter (.request r) m' out) := by
  have hlife : newLife out (.request r) = none := newLife_of_ne (by simp [htype])
  have hclient : ∀ r', Input.request r = .request r' → r'.type ≠ .newClientNotif := by
    rintro r' ⟨⟩
    simp [htype]
  unfold UnifiedChannelMaster.deleteEntryReq at h
  split at h
  · cases h
    exact hB.same quiet_nil hlife hclient rfl rfl
  · rename_i handle hfind
    split at h
    · cases h
    · rename_i e he
      split at h
      · cases h
      · cases h
        refine hB.quiet (quiet_entryCommand (by simp) handle) hlife hclient (fun k e' he' => ?_)
          (List.Sublist.refl _)
        by_cases hk : handle = k
        · subst hk
          obtain ⟨hlt, -⟩ := List.getElem?_eq_some_iff.mp he
          simp only [List.getElem?_set_self hlt, Option.some.injEq] at he'
          exact ⟨e, he, by rw [← he'], by rw [← he']⟩
        · rw [List.getElem?_set_ne hk] at he'
          exact ⟨e', he', rfl, rfl⟩

theorem Balanced.cleanEntryConf {a : Audit} {r : UChannelCommRequest} {m' : UnifiedChannelMaster}
    {out : List Effect} (hB : Balanced a) (htype : r.type = .cleanEntryConf)
    (h : a.master.cleanEntryConf r = .ok (m', out)) : Balanced (a.enter (.request r) m' out) := by
  have hlife : newLife out (.request r) = none := newLife_of_ne (by simp [htype])
  have hclient : ∀ r', Input.request r = .request r' → r'.type ≠ .newClientNotif := by
    rintro r' ⟨⟩
    simp [htype]
  unfold UnifiedChannelMaster.cleanEntryConf at h
  split at h
  · cases h
  · split at h
    · dsimp only at h
      split at h
      · cases h
        exact hB.same (quiet_entryCommand (by simp) _) hlife hclient rfl rfl
      · cases h
        exact hB.same quiet_nil hlife hclient rfl rfl
    · cases h
      exact hB.same quiet_nil hlife hclient rfl rfl

theorem Balanced.leaveClientNotif {a : Audit} {r : UChannelCommRequest}
    {m' : UnifiedChannelMaster} {out : List Effect} (hB : Balanced a)
    (htype : r.type = .leaveClientNotif) (h : a.master.leaveClientNotif r = .ok (m', out)) :
    Balanced (a.enter (.request r) m' out) := by
  unfold UnifiedChannelMaster.leaveClientNotif at h
  split at h
  · cases h
    refine hB.quiet quiet_nil (newLife_of_ne (by simp [htype])) ?_
      (fun k e' he' => ⟨e', he', rfl, rfl⟩) List.eraseP_sublist
    rintro r' ⟨⟩
    simp [htype]
  · cases h

/-- An accountable step keeps the ledger balanced. -/
theorem Balanced.step {a a' : Audit} {i : Input} (hB : Balanced a) (hok : Accountable reg a i)
    (h : auditStep reg a i = .ok a') : Balanced a' := by
  unfold auditStep at h
  cases hres : respond reg a.master i with
  | error f =>
    rw [hres] at h
    cases h
  | ok p =>
    obtain ⟨m', out⟩ := p
    rw [hres] at h
    cases h
    cases i with
    | sweep =>
      have hsweep : a.master.sweep = (m', out) := Except.ok.inj hres
      refine hB.same ?_ rfl (by rintro r ⟨⟩) ?_ ?_
      all_goals
        unfold sweep at hsweep
        split at hsweep
        all_goals cases hsweep
      · exact quiet_nil
      · rintro eff heff
        exact ⟨_, List.mem_singleton.mp heff, by simp⟩
      all_goals rfl
    | request r =>
      have hclient : ∀ {t}, r.type = t → t ≠ .newClientNotif →
          ∀ r', Input.request r = .request r' → r'.type ≠ .newClientNotif := by
        rintro t rfl ht r' ⟨⟩
        exact ht
      simp only [respond, processOne] at hres
      cases htype : r.type with
      | newEntryReq =>
        simp only [htype] at hres
        rcases newEntryReq_made hres with ⟨rfl, hes, hcs⟩ | hmade
        · exact hB.same quiet_nil (by simp [newLife]) (hclient htype (by simp)) hes hcs
        · refine hB.entryMade hmade htype ?_
          simpa only [Accountable, htype] using hok
      | newClientNotif =>
        simp only [htype, Except.ok.injEq] at hres
        simp only [Accountable, htype] at hok
        have hnew := hB.newClient htype hok.1 hok.2
        rwa [hres] at hnew
      | deleteEntryReq => exact hB.deleteEntryReq htype (by simpa only [htype] using hres)
      | cleanEntryConf => exact hB.cleanEntryConf htype (by simpa only [htype] using hres)
      | leaveClientNotif => exact hB.leaveClientNotif htype (by simpa only [htype] using hres)
      | newEndJoins =>
        simp only [htype, Except.ok.injEq] at hres
        have hq := quiet_newEndJoins a.master r
        rw [hres] at hq
        refine hB.same hq (newLife_of_ne (by simp [htype])) (hclient htype (by simp)) ?_ ?_
        · rw [← show (a.master.newEndJoins r).1 = m' by rw [hres]]
          rfl
        · rw [← show (a.master.newEndJoins r).1 = m' by rw [hres]]
          rfl
      | _ =>
        simp only [htype] at hres
        cases hres
        exact hB.same quiet_nil (by simp [newLife]) (hclient htype (by simp)) rfl rfl

/-- What the ledger should show: in its current life, an entry has had its saveup
taken away at most once, and exactly when as many different clients have been
counted as its writer had asked for; never while it was not active; and a client
that asks for one entry has been counted for at most one. -/
structure Accounted (a : Audit) : Prop where
  once : ∀ h < a.master.entries.length, (a.page h).removals ≤ 1
  exact : ∀ h < a.master.entries.length, (a.page h).removals = 1 ↔
    (a.page h).requested ≠ 0 ∧ (a.page h).counted.length = (a.page h).requested
  distinct : ∀ h < a.master.entries.length, (a.page h).counted.Nodup
  active : ∀ h, a.strays h = 0
  single : ∀ c ∈ a.singles, (a.tally c).length ≤ 1

theorem Balanced.accounted {a : Audit} (hB : Balanced a) : Accounted a := by
  have hpage : ∀ h < a.master.entries.length, ∃ e, PageOk e (a.page h) := fun h hh =>
    ⟨_, hB.page h _ (List.getElem?_eq_getElem hh)⟩
  refine ⟨fun h hh => ?_, fun h hh => ?_, fun h hh => ?_, hB.strays, hB.tallySingle⟩
  · obtain ⟨e, he⟩ := hpage h hh
    rw [he.removed]
    split <;> simp
  · obtain ⟨e, he⟩ := hpage h hh
    rw [he.removed]
    split <;> simp_all
  · obtain ⟨e, he⟩ := hpage h hh
    exact he.nodup

/-- After every run of accountable inputs the reservations are accounted for. -/
theorem accounted_of_allowed (reg : DataClassRegistry) (inputs : List Input) (a : Audit)
    (hok : Allowed (auditStep reg) (Accountable reg) {} inputs)
    (hexec : exec (auditStep reg) {} inputs = .ok a) : Accounted a :=
  (exec_invariant (fun _ _ _ hB hacc h => Balanced.step hB hacc h) balanced_init hok hexec).accounted

/-- A writer that asks for one reservation. -/
def writerRequest (label : String) : Input :=
  .request { type := .newEntryReq, data0 := 1, data1 := 1, origin := ⟨0, 1⟩
             dataclassname := "D", entrylabel := label }

/-- A reservation client for the entry with this label. -/
def readerNotif (label : String) (id : ℕ) : Input :=
  .request { type := .newClientNotif, extra := 1, data0 := entryBylabel, data1 := id
             dataclassname := "D", entrylabel := label }

/-- One writer and its reader: the reservation is counted and the saveup taken away. -/
theorem accounted_one_entry :
    ∃ a, exec (auditStep flatRegistry) {} [writerRequest "L", readerNotif "L" 7] = .ok a ∧
      (a.page 0).removals = 1 ∧ Accounted a := by
  refine ⟨_, rfl, by decide +kernel, accounted_of_allowed flatRegistry
    [writerRequest "L", readerNotif "L" 7] _ ?_ rfl⟩
  refine (allowed_cons_ok rfl).mpr ⟨?_, (allowed_cons_ok rfl).mpr ⟨?_, trivial⟩⟩
  · intro c hc
    simp [applicants] at hc
  · refine ⟨by decide +kernel, fun h e he hact => ?_⟩
    obtain ⟨hlt, rfl⟩ := List.getElem?_eq_some_iff.mp he
    obtain rfl : h = 0 := Nat.lt_one_iff.mp hlt
    cases hact

/-- A second writer under the same label: the reader of the first is counted again,
since the record in the client list was copied before it was marked used. -/
theorem not_accounted_second_label :
    ¬ ∀ (reg : DataClassRegistry) (inputs : List Input) (a : Audit),
      exec (auditStep reg) {} inputs = .ok a → Accounted a := by
  intro h
  have hone := (h flatRegistry [writerRequest "L", readerNotif "L" 7, writerRequest "L"] _
    rfl).single 7 (by decide +kernel)
  exact absurd hone (by decide +kernel)

end Dueca.Master
