import Dueca.Entry.Access

/-!
# Transport work

Each data point of an entry is announced once to each transporter: the points that are
there when the packer client is made all at once, and later points when they are written.
The first kind is announced in the middle of a write, before the new sentinel is there.
-/

namespace Dueca.Entry

open Dueca.Lib UChannelEntryData

variable {D B : Type} {e e' : UChannelEntry D} {conv : DataSetConverter D B}
variable {data : D} {t : DataTimeSpec} {current : Bool} {l : UChannelEntryData D}

/-- The sequence ids announced to the transporter `idx`. -/
def notified (idx : ℕ) (work : List PackUnit) : List ℕ :=
  (work.filter fun u => u.idx = idx).map PackUnit.tick

theorem notified_append (idx : ℕ) (work work' : List PackUnit) :
    notified idx (work ++ work') = notified idx work ++ notified idx work' := by
  simp [notified]

theorem notified_map (idx i : ℕ) (ids : List ℕ) :
    notified idx (ids.map (PackUnit.mk i)) = if i = idx then ids else [] := by
  induction ids with
  | nil => simp [notified]
  | cons id ids ih =>
    rw [List.map_cons, ← List.singleton_append, notified_append, ih]
    by_cases h : i = idx <;> simp [notified, h]

/-- New packers are told all ids, and no others. -/
theorem notified_newcomers (idx n k : ℕ) (ids : List ℕ) :
    notified idx ((List.range' n k).flatMap fun i => ids.map (PackUnit.mk i)) =
      if n ≤ idx ∧ idx < n + k then ids else [] := by
  induction k generalizing n with
  | zero =>
    rw [if_neg (by omega)]
    rfl
  | succ k ih =>
    rw [List.range'_succ, List.flatMap_cons, notified_append, notified_map, ih]
    by_cases h : n = idx
    · rw [if_pos h, if_neg (by omega), if_pos (by omega), List.append_nil]
    · rw [if_neg h, List.nil_append]
      exact if_congr (by omega) rfl rfl

theorem notified_all (idx n id : ℕ) :
    notified idx ((List.range n).map fun i => ⟨i, id⟩) = if idx < n then [id] else [] := by
  have := notified_newcomers idx 0 n [id]
  simp only [List.map_cons, List.map_nil, Nat.zero_le, true_and, Nat.zero_add] at this
  rw [List.range_eq_range', ← this, ← List.flatMap_pure_eq_map]
  rfl

/-! ### The ids of the chain -/

theorem idsBetween_append (h : Heap D) {a b c : ℕ} (hab : a ≤ b) (hbc : b ≤ c) :
    idsBetween h a c = idsBetween h a b ++ idsBetween h b c := by
  rw [idsBetween, idsBetween, idsBetween, show c - a = (b - a) + (c - b) by omega,
    ← List.range'_append_1, List.filterMap_append, show a + (b - a) = b by omega]

/-- The id of the first point from `a` on. -/
def UChannelEntry.nextId (e : UChannelEntry D) (a : ℕ) : ℕ :=
  (idsBetween e.heap a (e.latest + 1)).head?.getD 0

theorem isChain_succ_eq_range' {ids : List ℕ} (h : ids.IsChain fun i j => j = i + 1) :
    ids = List.range' (ids.head?.getD 0) ids.length := by
  induction ids with
  | nil => rfl
  | cons i ids ih =>
    cases ids with
    | nil => rfl
    | cons j ids =>
      obtain ⟨hj, hrest⟩ := List.isChain_cons_cons.mp h
      have := ih hrest
      simp only [List.head?_cons, Option.getD_some, List.length_cons] at this ⊢
      rw [List.range'_succ, this, hj]

/-- From any point the ids count up to the id of the sentinel. -/
theorem idsBetween_eq_range' {a : ℕ} (hL : Linked e) (hO : Ordered e) (hc : e.cleanup ≤ a)
    (ha : a ≤ e.latest) :
    e.nextId a ≤ e.lastId ∧
      idsBetween e.heap a e.latest = List.range' (e.nextId a) (e.lastId - e.nextId a) := by
  obtain ⟨l, hl⟩ := hL.exists_latest
  have hnz := (hO.last l hl).2.1
  have hsplit := idsBetween_append e.heap ha (Nat.le_succ e.latest)
  rw [idsBetween_succ (Nat.lt_succ_self _) hl, if_neg hnz, idsBetween_self] at hsplit
  have hrange := isChain_succ_eq_range' (idsBetween_isChain hL hO hc)
  rw [← UChannelEntry.nextId] at hrange
  have hlen : (idsBetween e.heap a (e.latest + 1)).length =
      (idsBetween e.heap a e.latest).length + 1 := by
    rw [hsplit]
    simp
  rw [hlen, List.range'_concat, Nat.one_mul] at hrange
  rw [hsplit] at hrange
  obtain ⟨h₁, h₂⟩ := List.append_inj' hrange rfl
  have h₂ : l.seqId = e.nextId a + (idsBetween e.heap a e.latest).length := by simpa using h₂
  rw [lastId_eq hl]
  refine ⟨by omega, ?_⟩
  rw [h₂, Nat.add_sub_cancel_left]
  exact h₁

theorem idsBetween_moves {h h' : Heap D} {src dst taken : List ℕ} (hm : Moves h h' src dst taken)
    (a b : ℕ) : idsBetween h' a b = idsBetween h a b :=
  idsBetween_congr fun x _ _ => by
    cases hn : h x with
    | none => rw [((hm x).1 hn).1]
    | some n =>
      obtain ⟨k, hk, -⟩ := (hm x).2 n hn
      rw [hk]
      rfl

/-! ### The work of a write -/

/-- The packers of an entry are those of the transporters, when its configuration is
that of the channel. -/
structure Staffed (e : UChannelEntry D) : Prop where
  version_le : e.configVersion ≤ e.channelVersion
  packers : e.writer = true → e.configVersion = e.channelVersion →
    e.pclients.length = e.transporters

/-- What an accepted write announces: to new packers the points so far, then to all the
new point. -/
structure Announces (e : UChannelEntry D) (id : ℕ) (e' : UChannelEntry D)
    (work : List PackUnit) : Prop where
  work : work = ((List.range' e.pclients.length e.newcomers).flatMap fun i =>
      (idsBetween e'.heap e'.oldest e.latest).map (PackUnit.mk i)) ++
    if e.writer && e'.pclients.length ≠ 0 then (List.range e.transporters).map fun i => ⟨i, id⟩
    else []
  packers : e'.pclients.length = e.pclients.length + e.newcomers
  version : e'.configVersion = e.channelVersion
  lastId : e'.lastId = (id + 1) % 4294967296
  oldest_le : e'.oldest ≤ e.latest
  latest_le : e.latest ≤ e'.latest
  /-- Behind the former sentinel there is the new point only. -/
  ids : id ≠ 0 → idsBetween e'.heap e.latest e'.latest = [id]

/-- The parts of an entry that no write changes. -/
structure SameChannel (e e' : UChannelEntry D) : Prop where
  writer : e'.writer = e.writer
  eventtype : e'.eventtype = e.eventtype
  transporters : e'.transporters = e.transporters
  channelVersion : e'.channelVersion = e.channelVersion

/-- A write adds one id. -/
theorem idsBetween_written {m : UChannelEntry D} (hL : Linked e)
    (hw : e.written l data t = some m) : e.latest ≤ m.latest ∧
      (l.seqId ≠ 0 → idsBetween m.heap e.latest m.latest = [l.seqId]) := by
  have hfr := hL.fresh_eq
  rcases written_cases hw with ⟨start, ts, rfl, -⟩ | ⟨rfl, -⟩
  · have hlatest : (e.filled l start data ts).latest = e.latest + 1 := hfr
    rw [hlatest, idsBetween_succ (Nat.lt_succ_self _) (filled_heap_latest hL), idsBetween_self]
    exact ⟨Nat.le_succ _, fun hnz => if_neg hnz⟩
  · have hlatest : (e.gapped l t.validityStart data t.validityEnd).latest = e.latest + 2 := by
      show e.fresh + 1 = _
      omega
    rw [hlatest, idsBetween_succ (by omega) (gapped_heap_latest hL), if_pos rfl,
      idsBetween_succ (by omega) (gapped_heap_succ hL), idsBetween_self]
    exact ⟨by omega, fun hnz => if_neg hnz⟩

theorem announces_settled {m : UChannelEntry D} {work : List PackUnit} {stop id : ℕ}
    (ho : ∃ n, m.heap m.oldest = some n) (hid : m.lastId = (id + 1) % 4294967296)
    (hframe : m.pclients = e.pclients ∧ m.writer = e.writer ∧ m.transporters = e.transporters ∧
      m.channelVersion = e.channelVersion ∧ m.configVersion = e.configVersion)
    (hstop : stop = e.latest) (hold : m.oldest ≤ e.latest)
    (hids : id ≠ 0 → idsBetween m.heap e.latest m.latest = [id])
    (hlate : e.latest ≤ m.latest) (h : m.settled stop id current = (e', work)) :
    Announces e id e' work := by
  have hm := (@settled_moves _ _ stop id current) ho
  have hf := settled_frame m stop id current
  rw [h] at hm hf
  obtain ⟨hp, hw, ht, hch, hcfg⟩ := hframe
  have hnew : m.newcomers = e.newcomers := by
    simp only [UChannelEntry.newcomers, UChannelEntry.vacancies, hp, hw, ht, hch, hcfg]
  have hsofar : idsBetween m.heap m.oldest stop = idsBetween e'.heap e'.oldest e.latest := by
    rw [idsBetween_moves hm, hf.oldest, hstop]
  have hatt : (m.attached stop).2 = ((List.range' e.pclients.length e.newcomers).flatMap fun i =>
      (idsBetween e'.heap e'.oldest e.latest).map (PackUnit.mk i)) ∧
      (m.attached stop).1.pclients.length = e.pclients.length + e.newcomers ∧
      (m.attached stop).1.configVersion = e.channelVersion := by
    rw [← hnew, ← hsofar, ← hp, UChannelEntry.attached, UChannelEntry.newcomers, ← hch]
    split
    · refine ⟨rfl, ?_, rfl⟩
      show (m.pclients ++ List.replicate m.vacancies _).length = _
      simp
    · rename_i hver
      exact ⟨rfl, rfl, (not_not.mp hver).symm⟩
  have hpair : (m.settled stop id current).1 = e' := congrArg Prod.fst h
  have hwork : (m.settled stop id current).2 = work := congrArg Prod.snd h
  have hunl : e'.pclients = (m.attached stop).1.pclients ∧
      e'.configVersion = (m.attached stop).1.configVersion := by
    rw [← hpair]
    simp only [UChannelEntry.settled, UChannelEntry.unlatched]
    split <;> exact ⟨rfl, rfl⟩
  refine ⟨?_, by rw [hunl.1]; exact hatt.2.1, by rw [hunl.2]; exact hatt.2.2, ?_,
    hf.oldest ▸ hold, hf.latest ▸ hlate, fun hz => ?_⟩
  · rw [← hwork]
    simp only [UChannelEntry.settled] at hpair ⊢
    rw [hpair, hatt.1, hf.writer, hw, thereIsNewTransportWork, hf.transporters, ht]
  · rw [lastId_moves hm hf.latest, hid]
  · rw [hf.latest, idsBetween_moves hm, hids hz]

/-- A write announces its point, or is rejected. -/
theorem newData_work {work : List PackUnit} (hL : Linked e) (hM : Manned e)
    (hl : e.heap e.latest = some l) (h : newData e data t current = .ok (e', work)) :
    SameChannel e e' ∧
    ((accepts e l t = false ∧ work = [] ∧ e'.pclients = e.pclients ∧
        e'.configVersion = e.configVersion ∧ e'.lastId = l.seqId) ∨
      (accepts e l t = true ∧ Announces e l.seqId e' work)) := by
  obtain ⟨c, o, hC, hL', hlc, ⟨hno, rfl, rfl⟩ | ⟨m, _, _, hyes, hw, hm, hres, -, hf⟩⟩ :=
    newData_outcome hL hM hl h
  · exact ⟨⟨rfl, rfl, rfl, rfl⟩, .inl ⟨hno, rfl, rfl, rfl, lastId_eq hlc⟩⟩
  · obtain ⟨hp, hwr, ht, hch, hcfg, hev⟩ : m.pclients = e.pclients ∧ m.writer = e.writer ∧
        m.transporters = e.transporters ∧ m.channelVersion = e.channelVersion ∧
        m.configVersion = e.configVersion ∧ m.eventtype = e.eventtype := by
      rcases written_cases hw with ⟨_, _, rfl, -⟩ | ⟨rfl, -⟩ <;>
        exact ⟨rfl, rfl, rfl, rfl, rfl, rfl⟩
    have hann := announces_settled hm.walkable.exists_oldest
      (lastId_written hL' hw) ⟨hp, hwr, ht, hch, hcfg⟩ rfl
      ((written_cleanup hw).2 ▸ hC.le_latest) (idsBetween_written hL' hw).2
      (idsBetween_written hL' hw).1 hres
    exact ⟨⟨hf.writer.trans hwr, hf.eventtype.trans hev, hf.transporters.trans ht,
      hf.channelVersion.trans hch⟩, .inr ⟨hyes, hann⟩⟩

/-! ### Runs with their work -/

/-- An entry, the work announced so far, the ids of the points written, and for each packer
the id of the first point from its latch point on. -/
structure Ledger (D : Type) where
  entry : UChannelEntry D
  work : List PackUnit := []
  points : List ℕ := []
  firstIds : List ℕ := []

/-- The id of the point that an operation adds. -/
def addedId (e : UChannelEntry D) : Op D → List ℕ
  | .newData _ t _ =>
    match e.heap e.latest with
    | some l => if accepts e l t then [l.seqId] else []
    | none => []
  | _ => []

def ledgerStep (conv : DataSetConverter D B) (s : Ledger D) (op : Op D) :
    Except Fault (Ledger D) := do
  let (e, work) ← step conv s.entry op
  pure {
    entry := e
    work := s.work ++ work
    points := s.points ++ addedId s.entry op
    firstIds := s.firstIds ++
      List.replicate (e.pclients.length - s.entry.pclients.length) (e.nextId e.oldest) }

theorem ledgerStep_eq_ok {s s' : Ledger D} {op : Op D} :
    ledgerStep conv s op = .ok s' ↔ ∃ e work, step conv s.entry op = .ok (e, work) ∧
      s' = ⟨e, s.work ++ work, s.points ++ addedId s.entry op, s.firstIds ++
        List.replicate (e.pclients.length - s.entry.pclients.length) (e.nextId e.oldest)⟩ := by
  simp only [ledgerStep, bind_eq_ok, pure_eq_ok]
  constructor
  · rintro ⟨⟨e, work⟩, hstep, rfl⟩
    exact ⟨e, work, hstep, rfl⟩
  · rintro ⟨e, work, hstep, rfl⟩
    exact ⟨⟨e, work⟩, hstep, rfl⟩

/-- Each packer was told the ids from its first one on, and nobody else was told any. -/
structure Scheduled (s : Ledger D) : Prop where
  sound : Sound s.entry
  staffed : Staffed s.entry
  points : s.points = List.range' 1 (s.entry.lastId - 1)
  length : s.firstIds.length = s.entry.pclients.length
  told : ∀ idx id, s.firstIds[idx]? = some id → 1 ≤ id ∧ id ≤ s.entry.lastId ∧
    notified idx s.work = List.range' id (s.entry.lastId - id)
  untold : ∀ idx, s.entry.pclients.length ≤ idx → notified idx s.work = []

theorem nextId_pos {a : ℕ} (hL : Linked e) (hO : Ordered e) (ha : a ≤ e.latest) :
    1 ≤ e.nextId a := by
  obtain ⟨l, hl⟩ := hL.exists_latest
  have hnz := (hO.last l hl).2.1
  have hmem : l.seqId ∈ idsBetween e.heap a (e.latest + 1) := by
    refine List.mem_filterMap.mpr ⟨e.latest, ?_, by simp [hl, hnz]⟩
    rw [List.mem_range'_1]
    omega
  have hpos : ∀ i ∈ idsBetween e.heap a (e.latest + 1), 1 ≤ i := by
    intro i hi
    obtain ⟨x, -, hx⟩ := List.mem_filterMap.mp hi
    obtain ⟨n, -, hn⟩ := Option.bind_eq_some_iff.mp hx
    split at hn
    · cases hn
    · cases hn
      omega
  rw [UChannelEntry.nextId]
  cases hids : idsBetween e.heap a (e.latest + 1) with
  | nil => simp [hids] at hmem
  | cons i ids => exact hpos i (by simp [hids])

theorem one_le_lastId (hL : Linked e) (hO : Ordered e) : 1 ≤ e.lastId := by
  obtain ⟨l, hl⟩ := hL.exists_latest
  rw [lastId_eq hl]
  exact Nat.one_le_iff_ne_zero.mpr (hO.last l hl).2.1

theorem range'_snoc {a b : ℕ} (h : a ≤ b) :
    List.range' a (b - a) ++ [b] = List.range' a (b + 1 - a) := by
  rw [show b + 1 - a = (b - a) + 1 by omega, List.range'_concat, Nat.one_mul,
    Nat.add_sub_cancel' h]

/-- New packers, the work for them and for the packers that were there. The work for a new
packer is all points so far, since it is told of the new point as well. -/
theorem Scheduled.extend {s : Ledger D} {work : List PackUnit} {k : ℕ} {points : List ℕ}
    (hS : Scheduled s) (hsound : Sound e') (hstaffed : Staffed e')
    (hk : e'.pclients.length = s.entry.pclients.length + k)
    (hpoints : s.points ++ points = List.range' 1 (e'.lastId - 1))
    (hold : ∀ idx id, s.firstIds[idx]? = some id →
      id ≤ e'.lastId ∧ notified idx s.work ++ notified idx work =
        List.range' id (e'.lastId - id))
    (hnew : ∀ idx, s.entry.pclients.length ≤ idx → notified idx work =
      if idx < e'.pclients.length then idsBetween e'.heap e'.oldest e'.latest else []) :
    Scheduled ⟨e', s.work ++ work, s.points ++ points, s.firstIds ++
      List.replicate (e'.pclients.length - s.entry.pclients.length) (e'.nextId e'.oldest)⟩ where
  sound := hsound
  staffed := hstaffed
  points := hpoints
  length := by
    rw [List.length_append, List.length_replicate, hS.length]
    show _ = e'.pclients.length
    omega
  told idx id hid := by
    have hL := hsound.linked
    have hle := hL.oldest_le
    have hcl := hL.cleanup_lt
    rw [notified_append]
    rcases Nat.lt_or_ge idx s.firstIds.length with hlt | hge
    · rw [List.getElem?_append_left hlt] at hid
      exact ⟨(hS.told idx id hid).1, hold idx id hid⟩
    · rw [List.getElem?_append_right hge, List.getElem?_replicate] at hid
      split at hid
      · rename_i hlt
        cases hid
        rw [hS.length] at hge hlt
        obtain ⟨hnle, hids⟩ := idsBetween_eq_range' (a := e'.oldest) hL hsound.ordered hcl.le hle
        rw [hS.untold idx hge, hnew idx hge, if_pos (by omega), List.nil_append]
        exact ⟨nextId_pos hL hsound.ordered hle, hnle, hids⟩
      · cases hid
  untold idx hidx := by
    have hidx : e'.pclients.length ≤ idx := hidx
    rw [notified_append, hS.untold idx (by omega), hnew idx (by omega), if_neg (by omega)]
    rfl

theorem scheduled_newData {s : Ledger D} {work : List PackUnit} (hS : Scheduled s)
    (hw : s.entry.lastId + 1 < 4294967296)
    (h : newData s.entry data t current = .ok (e', work)) :
    Scheduled ⟨e', s.work ++ work, s.points ++ addedId s.entry (.newData data t current),
      s.firstIds ++
        List.replicate (e'.pclients.length - s.entry.pclients.length) (e'.nextId e'.oldest)⟩ := by
  have hL := hS.sound.linked
  have hO := hS.sound.ordered
  obtain ⟨l, hl⟩ := hL.exists_latest
  have hlid := lastId_eq hl
  have hone := one_le_lastId hL hO
  have hsound : Sound e' := by
    have hadv : advance (.verbatim D) s.entry (.newData data t current) = .ok e' := by
      simp only [advance, step, h]
      rfl
    exact ((@Sound.advance _ _ _ _ (.newData data t current)) hS.sound hw hadv).1
  obtain ⟨hsame, ⟨hno, rfl, hp, hcfg, hid⟩ | ⟨hyes, hA⟩⟩ := newData_work hL hS.sound.manned hl h
  · -- a rejected write announces nothing
    have hid : e'.lastId = s.entry.lastId := hid.trans hlid.symm
    refine hS.extend (k := 0) hsound ⟨?_, fun hwr hver => ?_⟩ (by rw [hp]; rfl) ?_
      (fun idx id h => ?_) fun idx hidx => ?_
    · rw [hcfg, hsame.channelVersion]
      exact hS.staffed.version_le
    · rw [hp, hsame.transporters]
      rw [hcfg, hsame.channelVersion] at hver
      exact hS.staffed.packers (hsame.writer ▸ hwr) hver
    · simp [addedId, hl, hno, hid, hS.points]
    · rw [hid]
      exact ⟨(hS.told idx id h).2.1, by simpa [notified] using (hS.told idx id h).2.2⟩
    · rw [hp, if_neg (by omega)]
      rfl
  · have hid : e'.lastId = s.entry.lastId + 1 := by
      rw [hA.lastId, ← hlid, Nat.mod_eq_of_lt hw]
    have hids : idsBetween e'.heap e'.oldest e'.latest =
        idsBetween e'.heap e'.oldest s.entry.latest ++ [s.entry.lastId] := by
      rw [idsBetween_append e'.heap hA.oldest_le hA.latest_le, hA.ids (by omega), hlid]
    -- after a write the packers of a writer are those of the transporters
    have hall : s.entry.writer = true → e'.pclients.length = s.entry.transporters := by
      intro hwr
      rw [hA.packers, UChannelEntry.newcomers, UChannelEntry.vacancies, if_pos hwr]
      have := hS.sound.manned.packers_le
      split
      · omega
      · rename_i hver
        exact hS.staffed.packers hwr (not_not.mp hver).symm
    have hwriter : e'.pclients.length ≠ 0 → s.entry.writer = true := by
      intro hne
      by_contra hwr
      exact hne (by rw [hsound.manned.no_packers (by rw [hsame.writer]; simpa using hwr)]; rfl)
    have htold (idx : ℕ) : notified idx work =
        (if s.entry.pclients.length ≤ idx ∧ idx < e'.pclients.length
          then idsBetween e'.heap e'.oldest s.entry.latest else []) ++
        if idx < e'.pclients.length then [s.entry.lastId] else [] := by
      rw [hA.work, notified_append, notified_newcomers, ← hA.packers]
      congr 1
      by_cases hne : e'.pclients.length = 0
      · rw [if_neg (by simp [hne]), if_neg (by omega)]
        rfl
      · rw [if_pos (by simp [hne, hwriter hne]), notified_all, ← hall (hwriter hne), hlid]
    refine hS.extend (k := s.entry.newcomers) hsound ⟨?_, fun hwr _ => ?_⟩ hA.packers ?_
      (fun idx id h => ?_) fun idx hidx => ?_
    · rw [hA.version, hsame.channelVersion]
    · rw [hsame.transporters]
      exact hall (hsame.writer ▸ hwr)
    · simp only [addedId, hl, hyes, if_true]
      rw [hS.points, hid, ← hlid, range'_snoc hone, Nat.add_sub_cancel]
    · obtain ⟨-, hle, hprev⟩ := hS.told idx id h
      have hlt : idx < s.entry.pclients.length := by
        rw [← hS.length]
        exact (List.getElem?_eq_some_iff.mp h).1
      have hpk := hA.packers
      rw [htold, if_neg (by omega), if_pos (by omega), hprev, hid, List.nil_append, range'_snoc hle]
      exact ⟨by omega, rfl⟩
    · rw [htold, hids]
      by_cases hlt : idx < e'.pclients.length
      · rw [if_pos ⟨hidx, hlt⟩, if_pos hlt, if_pos hlt]
      · rw [if_neg (by omega), if_neg hlt, if_neg hlt]
        rfl

theorem scheduled_step {s s' : Ledger D} {op : Op D} (hS : Scheduled s)
    (hw : s.entry.lastId + (if op.isWrite then 1 else 0) < 4294967296)
    (h : ledgerStep conv s op = .ok s') : Scheduled s' := by
  obtain ⟨e', work, hstep, rfl⟩ := ledgerStep_eq_ok.mp h
  have hL := hS.sound.linked
  by_cases hop : ∃ data t current, op = .newData data t current
  · obtain ⟨data, t, current, rfl⟩ := hop
    exact scheduled_newData hS hw hstep
  push Not at hop
  have hadv : advance conv s.entry op = .ok e' := by
    simp only [advance, hstep]
    rfl
  have hsound := (hS.sound.advance hw hadv).1
  obtain ⟨⟨_, _, _, hm, -⟩, hsame, -⟩ := step_shape hL hS.sound.manned hop hstep
  have hid : e'.lastId = s.entry.lastId := lastId_moves hm hsame.latest
  have hadd : addedId s.entry op = [] := by
    cases op with
    | newData data t current => exact absurd rfl (hop data t current)
    | _ => rfl
  have hpoints : s.points ++ addedId s.entry op = List.range' 1 (e'.lastId - 1) := by
    rw [hadd, List.append_nil, hid, hS.points]
  by_cases hopr : op = .refreshTransporters
  · subst hopr
    obtain ⟨he, hwork⟩ := Prod.mk.inj (refreshTransporters_ok hL.walkable hS.sound.manned hstep)
    have hlen : e'.pclients.length = s.entry.pclients.length + s.entry.vacancies := by
      rw [he]
      show (s.entry.pclients ++ List.replicate s.entry.vacancies _).length = _
      simp
    have hframe : e'.configVersion = s.entry.configVersion ∧
        e'.channelVersion = s.entry.channelVersion ∧ e'.transporters = s.entry.transporters := by
      rw [he]
      exact ⟨rfl, rfl, rfl⟩
    have htold (idx : ℕ) : notified idx work =
        if s.entry.pclients.length ≤ idx ∧ idx < e'.pclients.length
        then idsBetween s.entry.heap s.entry.oldest s.entry.latest else [] := by
      rw [hwork, hlen]
      exact notified_newcomers idx _ _ _
    refine hS.extend hsound ⟨?_, fun hwr hver => ?_⟩ hlen hpoints (fun idx id h => ?_)
      fun idx hidx => ?_
    · rw [hframe.1, hframe.2.1]
      exact hS.staffed.version_le
    · rw [hframe.1, hframe.2.1] at hver
      have hwr : s.entry.writer = true := hsame.writer ▸ hwr
      rw [hlen, hframe.2.2, UChannelEntry.vacancies, if_pos hwr, hS.staffed.packers hwr hver]
      omega
    · have hlt : idx < s.entry.pclients.length := by
        rw [← hS.length]
        exact (List.getElem?_eq_some_iff.mp h).1
      rw [htold, if_neg (by omega), List.append_nil, hid]
      exact ⟨(hS.told idx id h).2.1, (hS.told idx id h).2.2⟩
    · rw [htold, idsBetween_moves hm, hsame.oldest, hsame.latest]
      exact if_congr (by omega) rfl rfl
  · obtain ⟨rfl, hlen, hcfg, hver⟩ := (step_rest hL hS.sound.manned hop hstep).2 hopr
    refine hS.extend (k := 0) hsound ⟨?_, fun hwr heq => ?_⟩ (by rw [hlen]; rfl) hpoints
      (fun idx id h => ?_) fun idx hidx => ?_
    · have := hS.staffed.version_le
      omega
    · have := hS.staffed.version_le
      rcases hver with ⟨hver, htr⟩ | hlt
      · rw [hlen, htr]
        exact hS.staffed.packers (hsame.writer ▸ hwr) (by omega)
      · omega
    · rw [hid]
      exact ⟨(hS.told idx id h).2.1, by simpa [notified] using (hS.told idx id h).2.2⟩
    · rw [hlen, if_neg (by omega)]
      rfl

theorem scheduled_create (writer eventtype fullpackmode : Bool) (nreservations : ℕ) :
    Scheduled (⟨UChannelEntry.create writer eventtype fullpackmode nreservations, [], [], []⟩ :
      Ledger D) where
  sound := sound_create ..
  staffed := ⟨le_rfl, fun _ _ => rfl⟩
  points := by
    rw [lastId_create]
    rfl
  length := rfl
  told := nofun
  untold _ _ := rfl

theorem ledger_lastId_le {s s' : Ledger D} {op : Op D} (hS : Scheduled s)
    (hw : s.entry.lastId + (if op.isWrite then 1 else 0) < 4294967296)
    (h : ledgerStep conv s op = .ok s') :
    s'.entry.lastId ≤ s.entry.lastId + if op.isWrite then 1 else 0 := by
  obtain ⟨e', work, hstep, rfl⟩ := ledgerStep_eq_ok.mp h
  refine ((@Sound.advance _ _ _ conv op) hS.sound hw ?_).2
  simp only [advance, hstep]
  rfl

theorem scheduled_of_steps {ops : List (Op D)} {s s' : Ledger D} (hS : Scheduled s)
    (hw : s.entry.lastId + writes ops < 4294967296)
    (hrun : exec (ledgerStep conv) s ops = .ok s') : Scheduled s' := by
  induction ops generalizing s with
  | nil =>
    cases hrun
    exact hS
  | cons op ops ih =>
    obtain ⟨u, hu, hrest⟩ := exec_cons_eq_ok.mp hrun
    have hcount : writes (op :: ops) = writes ops + if op.isWrite then 1 else 0 := by
      rw [writes, List.countP_cons]
      rfl
    rw [hcount] at hw
    have hle := ledger_lastId_le hS (by omega) hu
    exact ih (scheduled_step hS (by omega) hu) (by omega) hrest

/-- An event entry with one transporter, which has its packer. -/
structure Lone (e : UChannelEntry D) : Prop where
  accounted : Accounted e
  eventtype : e.eventtype = true
  writer : e.writer = true
  version : e.configVersion = e.channelVersion
  packers : e.pclients.length = 1
  transporters : e.transporters = 1

/-- A write to an event entry is accepted and announced, with any id. -/
theorem lone_write (hN : Lone e) (data : D) (t : DataTimeSpec) (current : Bool) :
    ∃ e', newData e data t current = .ok (e', [⟨0, e.lastId⟩]) ∧ Lone e' ∧
      e'.lastId = (e.lastId + 1) % 4294967296 := by
  have hL := hN.accounted.counted.linked
  have hM := hN.accounted.manned
  obtain ⟨l, hl⟩ := hL.exists_latest
  obtain ⟨⟨e', work⟩, h⟩ := (@newData_total _ _ data t current) hL hM
    fun a n hn => by
      have := hN.accounted.counted.count a n hn
      omega
  obtain ⟨hsame, ⟨hno, -⟩ | ⟨-, hA⟩⟩ := newData_work hL hM hl h
  · simp [accepts, hN.eventtype] at hno
  have hnew : e.newcomers = 0 := by
    rw [UChannelEntry.newcomers, if_neg (by simp [hN.version])]
  have hpk : e'.pclients.length = 1 := by rw [hA.packers, hnew, hN.packers]
  have hwork : work = [⟨0, e.lastId⟩] := by
    rw [hA.work, hnew, if_pos (by simp [hN.writer, hpk]), hN.transporters, lastId_eq hl]
    rfl
  refine ⟨e', hwork ▸ h, ⟨hN.accounted.newData h, hsame.eventtype.trans hN.eventtype,
    hsame.writer.trans hN.writer, ?_, hpk, hsame.transporters.trans hN.transporters⟩, ?_⟩
  · rw [hA.version, hsame.channelVersion]
  · rw [hA.lastId, lastId_eq hl]

/-- Any number of writes is announced. -/
theorem lone_run (data : D) (t : DataTimeSpec) (current : Bool) (k : ℕ) {s : Ledger D}
    (hN : Lone s.entry) (hid : s.entry.lastId < 4294967296) :
    ∃ s', exec (ledgerStep conv) s (List.replicate k (.newData data t current)) = .ok s' ∧
      notified 0 s'.work = notified 0 s.work ++
        (List.range k).map fun i => (s.entry.lastId + i) % 4294967296 := by
  induction k generalizing s with
  | zero => exact ⟨s, rfl, by simp⟩
  | succ k ih =>
    obtain ⟨e', hnew, hN', hid'⟩ := lone_write hN data t current
    have hstep := ledgerStep_eq_ok.mpr ⟨e', [⟨0, s.entry.lastId⟩], show step conv s.entry
      (.newData data t current) = _ from hnew, rfl⟩
    obtain ⟨s', hrun, hwork⟩ := ih (s := ⟨e', _, _, _⟩) hN' (by
      show e'.lastId < _
      rw [hid']
      exact Nat.mod_lt _ (by decide))
    refine ⟨s', (exec_cons_ok hstep).trans hrun, ?_⟩
    rw [hwork, notified_append, List.append_assoc, List.range_succ_eq_map, List.map_cons,
      List.map_map]
    congr 1
    rw [Nat.add_zero, Nat.mod_eq_of_lt hid]
    show [s.entry.lastId] ++ _ = _
    rw [List.singleton_append]
    congr 1
    refine List.map_congr_left fun i _ => ?_
    show (e'.lastId + i) % 4294967296 = (s.entry.lastId + (i + 1)) % 4294967296
    rw [hid', Nat.mod_add_mod]
    congr 1
    omega

theorem exec_advance_of_ledger {ops : List (Op D)} {s s' : Ledger D}
    (h : exec (ledgerStep conv) s ops = .ok s') :
    exec (advance conv) s.entry ops = .ok s'.entry := by
  induction ops generalizing s with
  | nil =>
    cases h
    rfl
  | cons op ops ih =>
    obtain ⟨u, hu, hrest⟩ := exec_cons_eq_ok.mp h
    obtain ⟨e', work, hstep, rfl⟩ := ledgerStep_eq_ok.mp hu
    refine exec_cons_eq_ok.mpr ⟨e', ?_, ih hrest⟩
    simp only [advance, hstep]
    rfl

end Dueca.Entry
