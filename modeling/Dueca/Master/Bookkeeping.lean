import Dueca.Master.Model
import Mathlib.Data.List.Count

/-!
# Entry id bookkeeping

Every id the master has issued is active, waiting to be cleaned, or reusable.
What a step does to the ids is captured by `IdStep`, a small transition system
over the active flags and the two id lists; `respond_idStep` shows that every
step of the master is one of its transitions, and the invariant is proved there.

A run keeps the books exactly when every request can be served (`Served`). The
unguarded case is a `CleanEntryConf` that arrives while nothing is being
cleaned: the handler reads the front of an empty list.
-/

namespace Dueca.Master

open Dueca.Lib

/-! ### The life cycle of ids -/

/-- The active flags of the issued ids, and the ids in the two lists. -/
structure IdView where
  active : List Bool
  cleaning : List ℕ
  reusable : List ℕ

namespace IdView

/-- Every issued id is active, or occurs once in one of the two lists; the lists
hold issued ids only. -/
structure Sound (v : IdView) : Prop where
  flags : ∀ id b, v.active[id]? = some b →
    v.cleaning.count id + v.reusable.count id = if b then 0 else 1
  issued : ∀ id, id ∈ v.cleaning ∨ id ∈ v.reusable → id < v.active.length

/-- What can happen to ids. -/
inductive IdStep : IdView → IdView → Prop
  | same (v) : IdStep v v
  | fresh (v) : IdStep v { v with active := v.active ++ [true] }
  | reuse (v id rest) (hr : v.reusable = id :: rest) (ha : v.active[id]? = some false) :
      IdStep v { v with active := v.active.set id true, reusable := rest }
  | delete (v id) (ha : v.active[id]? = some true) :
      IdStep v { v with active := v.active.set id false, cleaning := v.cleaning ++ [id] }
  | clean (v id rest) (hc : v.cleaning = id :: rest) :
      IdStep v { v with cleaning := rest, reusable := v.reusable ++ [id] }

theorem Sound.fresh {v : IdView} (h : v.Sound) : Sound { v with active := v.active ++ [true] } := by
  refine ⟨fun id b hb => ?_, fun id hid => ?_⟩
  · by_cases hlt : id < v.active.length
    · exact h.flags id b (by rwa [List.getElem?_append_left hlt] at hb)
    · -- the new id cannot be in a list, which hold issued ids only
      have hc : v.cleaning.count id = 0 :=
        List.count_eq_zero.mpr fun hm => hlt (h.issued id (.inl hm))
      have hr : v.reusable.count id = 0 :=
        List.count_eq_zero.mpr fun hm => hlt (h.issued id (.inr hm))
      have hb' : b = true := by
        rw [List.getElem?_append_right (Nat.le_of_not_lt hlt), List.getElem?_singleton] at hb
        split at hb
        · exact (Option.some.inj hb).symm
        · cases hb
      simp [hc, hr, hb']
  · change id < (v.active ++ [true]).length
    rw [List.length_append]
    exact Nat.lt_add_right _ (h.issued id hid)

theorem Sound.reuse {v : IdView} (h : v.Sound) {id : ℕ} {rest : List ℕ}
    (hr : v.reusable = id :: rest) (ha : v.active[id]? = some false) :
    Sound { v with active := v.active.set id true, reusable := rest } := by
  have hid := h.flags id false ha
  refine ⟨fun x b hb => ?_, fun x hx => ?_⟩
  · by_cases hxid : x = id
    · subst hxid
      obtain ⟨hlt, -⟩ := List.getElem?_eq_some_iff.mp ha
      rw [List.getElem?_set_self hlt] at hb
      cases hb
      simp only [hr, List.count_cons_self, Bool.false_eq_true, if_false] at hid
      simp only [if_true]
      omega
    · rw [List.getElem?_set_ne (Ne.symm hxid)] at hb
      have := h.flags x b hb
      rwa [hr, List.count_cons_of_ne (Ne.symm hxid)] at this
  · rw [List.length_set]
    exact h.issued x (hx.imp_right fun hx => hr ▸ List.mem_cons_of_mem _ hx)

theorem Sound.delete {v : IdView} (h : v.Sound) {id : ℕ}
    (ha : v.active[id]? = some true) :
    Sound { v with active := v.active.set id false, cleaning := v.cleaning ++ [id] } := by
  have hid := h.flags id true ha
  obtain ⟨hlt, -⟩ := List.getElem?_eq_some_iff.mp ha
  refine ⟨fun x b hb => ?_, fun x hx => ?_⟩
  · by_cases hxid : x = id
    · subst hxid
      rw [List.getElem?_set_self hlt] at hb
      cases hb
      simp only [if_true] at hid
      simp only [List.count_append, List.count_singleton_self, Bool.false_eq_true, if_false]
      omega
    · rw [List.getElem?_set_ne (Ne.symm hxid)] at hb
      have := h.flags x b hb
      simpa [List.count_append, List.count_singleton, Ne.symm hxid] using this
  · rw [List.length_set]
    rcases hx with hx | hx
    · rcases List.mem_append.mp hx with hx | hx
      · exact h.issued x (.inl hx)
      · rwa [List.mem_singleton.mp hx]
    · exact h.issued x (.inr hx)

theorem Sound.clean {v : IdView} (h : v.Sound) {id : ℕ} {rest : List ℕ}
    (hc : v.cleaning = id :: rest) :
    Sound { v with cleaning := rest, reusable := v.reusable ++ [id] } := by
  refine ⟨fun x b hb => ?_, fun x hx => ?_⟩
  · have := h.flags x b hb
    rw [hc] at this
    simp only [List.count_append, List.count_cons, List.count_nil] at this ⊢
    omega
  · have hmem : x ∈ v.cleaning ∨ x ∈ v.reusable := by
      rw [hc]
      simp only [List.mem_append, List.mem_singleton] at hx
      simp only [List.mem_cons]
      tauto
    exact h.issued x hmem

/-- Every transition of the id life cycle keeps the books. -/
theorem Sound.step {v w : IdView} (h : v.Sound) (hs : IdStep v w) : w.Sound := by
  cases hs with
  | same => exact h
  | fresh => exact h.fresh
  | reuse id rest hr ha => exact h.reuse hr ha
  | delete id ha => exact h.delete ha
  | clean id rest hc => exact h.clean hc

end IdView

open IdView (IdStep)

namespace UnifiedChannelMaster

/-- The ids waiting to be cleaned. -/
def cleaning (m : UnifiedChannelMaster) : List ℕ := m.toBeCleaned.map (·.entry)

/-- What the master's state says about ids. -/
def idView (m : UnifiedChannelMaster) : IdView where
  active := m.entries.map (·.active)
  cleaning := m.cleaning
  reusable := m.reusable

/-- Whether an entry with this id is active. -/
def isActive (m : UnifiedChannelMaster) (id : ℕ) : Bool :=
  (m.entries[id]?).any (·.active)

theorem isActive_iff {m : UnifiedChannelMaster} {id : ℕ} :
    m.isActive id = true ↔ m.idView.active[id]? = some true := by
  simp only [isActive, idView, List.getElem?_map]
  cases m.entries[id]? <;> simp

end UnifiedChannelMaster

/-! ### Every step of the master is an id transition -/

open UnifiedChannelMaster

variable {reg : DataClassRegistry} {m m' : UnifiedChannelMaster} {out : List Effect}

theorem map_active_set {es : List EntryData} {id : ℕ} {e e' : EntryData}
    (he : es[id]? = some e) (hact : e'.active = e.active) :
    (es.set id e').map (·.active) = es.map (·.active) := by
  obtain ⟨hlt, rfl⟩ := List.getElem?_eq_some_iff.mp he
  rw [List.map_set, hact]
  exact List.ext_getElem (by simp) fun i h₁ h₂ => by
    by_cases hi : id = i
    · subst hi; simp
    · simp [List.getElem_set_ne hi]

theorem serveClient_active (reg : DataClassRegistry) (n : ℕ) (c : ClientData)
    (es : List EntryData) :
    (serveClient reg n c es).1.map (·.active) = es.map (·.active) := by
  induction n generalizing c es with
  | zero => rfl
  | succ n ih =>
    simp only [serveClient]
    split
    · exact ih c es
    · rename_i e he
      split
      · rw [ih]
        exact map_active_set he rfl
      · exact ih _ es

/-- A stored record is a fresh id, or takes over a reusable one. -/
theorem issueId_eq {record : EntryData} {newid : ℕ} (hrec : record.active = true)
    (h : issueId m record = .ok (some (newid, m'))) :
    IdStep m.idView m'.idView ∧ m'.entries[newid]? = some record ∧ m'.arity = m.arity ∧
      m.isActive newid = false ∧
      (newid ∈ m.reusable ∨ newid = m.entries.length) ∧
      (m.entries.length ≤ newid → m'.entries.length = m.entries.length + 1) := by
  unfold issueId at h
  split at h
  · rename_i id rest hr
    split at h
    · cases h
    · rename_i old hold
      split at h
      · cases h
      · rename_i hact
        obtain ⟨rfl, rfl⟩ := Prod.mk.inj (Option.some.inj (Except.ok.inj h))
        obtain ⟨hlt, rfl⟩ := List.getElem?_eq_some_iff.mp hold
        have hact' : m.entries[id].active = false := by simpa using hact
        refine ⟨?_, by simp [hlt], rfl, by simp [isActive, hlt, hact'], .inl (by simp [hr]),
          fun hge => absurd hlt (Nat.not_lt.mpr hge)⟩
        have := IdStep.reuse m.idView id rest hr (by simp [idView, hlt, hact'])
        simpa [idView, List.map_set, hrec, UnifiedChannelMaster.cleaning] using this
  · split at h
    · obtain ⟨rfl, rfl⟩ := Prod.mk.inj (Option.some.inj (Except.ok.inj h))
      refine ⟨?_, by simp, rfl, by simp [isActive], .inr rfl, fun _ => by simp⟩
      have := IdStep.fresh m.idView
      simpa [idView, hrec, UnifiedChannelMaster.cleaning] using this
    · cases h

/-- What a `NewEntryReq` does: it is refused and changes the arity at most, or it
stores an active record under `newid`. -/
theorem newEntryReq_cases {r : UChannelCommRequest} (h : m.newEntryReq reg r = .ok (m', out)) :
    (out = [] ∧ m'.idView = m.idView ∧ m'.entries = m.entries ∧
      (m'.arity = .singleEntry → m.arity = .singleEntry ∨ m.entries.length = 0)) ∨
    ∃ arity newid m₁, m.checkArity r = some arity ∧
      issueId { m with arity := arity } (newRecord r) = .ok (some (newid, m₁)) ∧
      m'.idView = m₁.idView ∧ m'.arity = m₁.arity ∧ m'.entries.length = m₁.entries.length ∧
      ∃ rest, out = m₁.sendNewEntryConf newid ++ rest ∧
        ∀ c, .send c ∈ rest → c = { type := .removeSaveupCmd, data0 := newid } := by
  unfold newEntryReq at h
  split at h
  · cases h
  · split at h
    · obtain ⟨rfl, rfl⟩ := Prod.mk.inj (Except.ok.inj h)
      exact .inl ⟨rfl, rfl, rfl, Or.inl⟩
    · rename_i arity harity
      split at h
      · cases h
      · obtain ⟨rfl, rfl⟩ := Prod.mk.inj (Except.ok.inj h)
        refine .inl ⟨rfl, rfl, rfl, fun hs => ?_⟩
        unfold checkArity at harity
        grind
      · rename_i newid m₁ hissue
        refine .inr ⟨arity, newid, m₁, harity, hissue, ?_⟩
        have hget := (issueId_eq rfl hissue).2.1
        split at h
        · obtain ⟨rfl, rfl⟩ := Prod.mk.inj (Except.ok.inj h)
          exact ⟨rfl, rfl, rfl, [], by simp, by simp⟩
        · obtain ⟨rfl, rfl⟩ := Prod.mk.inj (Except.ok.inj h)
          refine ⟨?_, rfl, by simp, _, List.append_assoc _ _ _, fun c hc => ?_⟩
          · exact congrArg (IdView.mk · m₁.cleaning m₁.reusable) (map_active_set hget rfl)
          · rcases List.mem_append.mp hc with hc | hc
            · simp at hc
            · split at hc
              · simpa [entryCommand] using hc
              · cases hc

theorem deleteEntryReq_idStep {r : UChannelCommRequest}
    (h : m.deleteEntryReq r = .ok (m', out)) : IdStep m.idView m'.idView := by
  unfold deleteEntryReq at h
  split at h
  · obtain ⟨rfl, rfl⟩ := Prod.mk.inj (Except.ok.inj h)
    exact .same _
  · rename_i handle _
    split at h
    · cases h
    · rename_i e he
      split at h
      · cases h
      · rename_i hact
        obtain ⟨rfl, rfl⟩ := Prod.mk.inj (Except.ok.inj h)
        obtain ⟨hlt, rfl⟩ := List.getElem?_eq_some_iff.mp he
        have hact' : m.entries[handle].active = true := by simpa using hact
        have := IdStep.delete m.idView handle (by simp [idView, hlt, hact'])
        simpa [idView, List.map_set, UnifiedChannelMaster.cleaning] using this

theorem cleanEntryConf_idStep {r : UChannelCommRequest}
    (h : m.cleanEntryConf r = .ok (m', out)) : IdStep m.idView m'.idView := by
  unfold cleanEntryConf at h
  split at h
  · cases h
  · rename_i front rest hclean
    split at h
    · rename_i hmatch
      dsimp only at h
      split at h
      · obtain ⟨rfl, rfl⟩ := Prod.mk.inj (Except.ok.inj h)
        have := IdStep.clean m.idView r.data0 (rest.map (·.entry))
          (by simp [idView, UnifiedChannelMaster.cleaning, hclean, hmatch.2])
        simpa [idView, UnifiedChannelMaster.cleaning] using this
      · obtain ⟨rfl, rfl⟩ := Prod.mk.inj (Except.ok.inj h)
        have : m.idView = idView { m with toBeCleaned :=
            { front with stilldirty := (front.stilldirty + (2 ^ 32 - 1)) % 2 ^ 32 } :: rest } := by
          simp [idView, UnifiedChannelMaster.cleaning, hclean]
        rw [← this]
        exact .same _
    · obtain ⟨rfl, rfl⟩ := Prod.mk.inj (Except.ok.inj h)
      exact .same _

theorem newClientNotif_idView (r : UChannelCommRequest) :
    (m.newClientNotif reg r).1.idView = m.idView := by
  unfold newClientNotif
  dsimp only
  split
  · simp only [idView, serveClient_active, UnifiedChannelMaster.cleaning]
  · rfl

theorem sweep_idView (m : UnifiedChannelMaster) : m.sweep.1.idView = m.idView := by
  unfold sweep
  split
  · rfl
  · rename_i front rest hclean
    simp [idView, UnifiedChannelMaster.cleaning, hclean]

/-- Every input that is served is a transition of the id life cycle. -/
theorem respond_idStep {i : Input} (h : respond reg m i = .ok (m', out)) :
    IdStep m.idView m'.idView := by
  cases i with
  | sweep =>
    have hm : m' = m.sweep.1 := by rw [(Except.ok.inj h : m.sweep = (m', out))]
    rw [hm, sweep_idView]
    exact .same _
  | request r =>
    simp only [respond, processOne] at h
    split at h
    · rcases newEntryReq_cases h with ⟨-, hv, -⟩ | ⟨arity, newid, m₁, -, hissue, hv, -⟩
      · rw [hv]
        exact .same _
      · rw [hv]
        exact (issueId_eq rfl hissue).1
    · exact deleteEntryReq_idStep h
    · exact cleanEntryConf_idStep h
    · have hm : m' = (m.newEndJoins r).1 := by rw [Except.ok.inj h]
      rw [hm]
      exact .same _
    · have hm : m' = (m.newClientNotif reg r).1 := by rw [Except.ok.inj h]
      rw [hm, newClientNotif_idView]
      exact .same _
    · unfold leaveClientNotif at h
      split at h
      · obtain ⟨rfl, rfl⟩ := Prod.mk.inj (Except.ok.inj h)
        exact .same _
      · cases h
    · obtain ⟨rfl, rfl⟩ := Prod.mk.inj (Except.ok.inj h)
      exact .same _

/-! ### When a run keeps the books -/

/-- The id is active, waits once to be cleaned, or can be reused once, and only
one of the three. -/
def InOneState (m : UnifiedChannelMaster) (id : ℕ) : Prop :=
  (m.isActive id = true ∧ m.cleaning.count id = 0 ∧ m.reusable.count id = 0) ∨
  (m.isActive id = false ∧ m.cleaning.count id = 1 ∧ m.reusable.count id = 0) ∨
  (m.isActive id = false ∧ m.cleaning.count id = 0 ∧ m.reusable.count id = 1)

/-- The books of the master: every id in one state, one active entry at most in a
single-entry channel, and ids for new writers neither active nor being cleaned. -/
structure IdsAccounted (reg : DataClassRegistry) (m : UnifiedChannelMaster) : Prop where
  oneState : ∀ id < m.entries.length, InOneState m id
  single : m.arity = .singleEntry →
    ∀ i j, m.isActive i = true → m.isActive j = true → i = j
  issued : ∀ r m' out c, r.type = .newEntryReq → m.processOne reg r = .ok (m', out) →
    .send c ∈ out → c.type = .newEntryConf →
      m.isActive c.data0 = false ∧ c.data0 ∉ m.cleaning

/-- The run of `inputs` on a new master goes through, and after each part of it
the books are in order. -/
def KeepsIds (reg : DataClassRegistry) (inputs : List Input) : Prop :=
  ∀ pre, pre <+: inputs → ∃ m, exec (step reg) {} pre = .ok m ∧ IdsAccounted reg m

/-- The master can serve this input: a new entry names its writer, the entry to
delete has not been deleted before, something is being cleaned when a
confirmation arrives, and a leaving client is known. -/
def Served (m : UnifiedChannelMaster) : Input → Prop
  | .sweep => True
  | .request r =>
    match r.type with
    | .newEntryReq => r.origin ≠ {}
    | .deleteEntryReq =>
      ∀ handle, findOrigin m.entries r.data1 m.entries.length = some handle →
        m.isActive handle = true
    | .cleanEntryConf => m.toBeCleaned ≠ []
    | .leaveClientNotif => m.clients.any (·.origin == r.data1) = true
    | _ => True

/-- The invariant of a run: the ids are in order, and a single-entry channel has
issued one id at most. -/
structure IdInv (m : UnifiedChannelMaster) : Prop where
  sound : m.idView.Sound
  single : m.arity = .singleEntry → m.entries.length ≤ 1

theorem idInv_init : IdInv {} where
  sound := ⟨fun id b h => by simp [idView] at h, fun id h => by
    simp [idView, UnifiedChannelMaster.cleaning] at h⟩
  single := by simp

theorem length_idView (m : UnifiedChannelMaster) : m.idView.active.length = m.entries.length :=
  List.length_map _

/-- A single-entry channel never gets a second entry. -/
theorem respond_single {i : Input} (h : respond reg m i = .ok (m', out))
    (hs : m.arity = .singleEntry → m.entries.length ≤ 1) :
    m'.arity = .singleEntry → m'.entries.length ≤ 1 := by
  have keep : m'.arity = m.arity → m'.entries.length = m.entries.length →
      m'.arity = .singleEntry → m'.entries.length ≤ 1 := by
    intro ha hl hs'
    rw [hl]
    exact hs (ha ▸ hs')
  cases i with
  | sweep =>
    have hm : m' = m.sweep.1 := by rw [(Except.ok.inj h : m.sweep = (m', out))]
    subst hm
    unfold sweep at keep ⊢
    split <;> exact hs
  | request r =>
    simp only [respond, processOne] at h
    split at h
    · rcases newEntryReq_cases h with ⟨-, -, hes, ha⟩ | ⟨arity, newid, m₁, har, hissue, -, ha, hl, -⟩
      · intro hs'
        rw [hes]
        rcases ha hs' with ha | ha
        · exact hs ha
        · omega
      · intro hs'
        have hspec := issueId_eq rfl hissue
        have harity : arity = .singleEntry := by rw [← hs', ha, hspec.2.2.1]
        -- the arity becomes single only on an empty table, and then blocks every request
        have hempty : m.entries.length = 0 := by
          unfold checkArity at har
          grind
        obtain hid | hid := hspec.2.2.2.2.1
        · unfold issueId at hissue
          grind
        · have := hspec.2.2.2.2.2 (Nat.le_of_eq hid.symm)
          simp only at this
          omega
    · unfold deleteEntryReq at h
      split at h
      · obtain ⟨rfl, rfl⟩ := Prod.mk.inj (Except.ok.inj h)
        exact hs
      · split at h
        · cases h
        · split at h
          · cases h
          · obtain ⟨rfl, rfl⟩ := Prod.mk.inj (Except.ok.inj h)
            simpa using hs
    · unfold cleanEntryConf at h
      split at h
      · cases h
      · dsimp only at h
        split_ifs at h <;> obtain ⟨rfl, rfl⟩ := Prod.mk.inj (Except.ok.inj h) <;> exact hs
    · have hm : m' = (m.newEndJoins r).1 := by rw [Except.ok.inj h]
      subst hm
      exact hs
    · have hm : m' = (m.newClientNotif reg r).1 := by rw [Except.ok.inj h]
      have hl : m'.entries.length = m.entries.length := by
        rw [hm, ← length_idView, newClientNotif_idView, length_idView]
      refine keep ?_ hl
      rw [hm]
      unfold newClientNotif
      dsimp only
      split <;> rfl
    · unfold leaveClientNotif at h
      grind
    · obtain ⟨rfl, rfl⟩ := Prod.mk.inj (Except.ok.inj h)
      exact hs

theorem IdInv.preserved {i : Input} (hI : IdInv m) (h : step reg m i = .ok m') : IdInv m' := by
  obtain ⟨out, hout⟩ := step_eq_ok.mp h
  exact ⟨hI.sound.step (respond_idStep hout), respond_single hout hI.single⟩

theorem IdInv.inOneState (hI : IdInv m) {id : ℕ} (hid : id < m.entries.length) :
    InOneState m id := by
  have hget : m.idView.active[id]? = some m.entries[id].active := by simp [idView, hid]
  have hflag := hI.sound.flags id _ hget
  have hact : m.isActive id = m.entries[id].active := by simp [isActive, hid]
  simp only [idView] at hflag
  unfold InOneState
  rw [hact]
  cases hb : m.entries[id].active with
  | true =>
    rw [hb, if_pos rfl] at hflag
    exact .inl ⟨rfl, by omega, by omega⟩
  | false =>
    rw [hb, if_neg (by simp)] at hflag
    have : m.cleaning.count id = 0 ∨ m.cleaning.count id = 1 := by omega
    rcases this with h | h
    · exact .inr (.inr ⟨rfl, h, by omega⟩)
    · exact .inr (.inl ⟨rfl, h, by omega⟩)

theorem sendNewEntryConf_data0 {id : ℕ} {c : UChannelCommRequest}
    (h : .send c ∈ m.sendNewEntryConf id) : c.data0 = id := by
  unfold sendNewEntryConf at h
  split at h
  · cases h
  · split at h
    · simp only [List.mem_singleton, Effect.send.injEq] at h
      rw [h]
    · cases h

/-- An id announced for a new writer was free. -/
theorem IdInv.issued (hI : IdInv m) {r : UChannelCommRequest} {c : UChannelCommRequest}
    (h : m.newEntryReq reg r = .ok (m', out)) (hc : .send c ∈ out)
    (htype : c.type = .newEntryConf) : m.isActive c.data0 = false ∧ c.data0 ∉ m.cleaning := by
  rcases newEntryReq_cases h with ⟨rfl, -⟩ | ⟨arity, newid, m₁, -, hissue, -, -, -, rest, rfl, hrest⟩
  · cases hc
  · have hdata : c.data0 = newid := by
      rcases List.mem_append.mp hc with hc | hc
      · exact sendNewEntryConf_data0 hc
      · rw [hrest c hc] at htype
        cases htype
    obtain ⟨-, -, -, hact, hid, -⟩ := issueId_eq rfl hissue
    rw [hdata]
    refine ⟨hact, fun hmem => ?_⟩
    have hpos : 0 < m.cleaning.count newid := List.count_pos_iff.mpr hmem
    have hlt : newid < m.entries.length := length_idView m ▸ hI.sound.issued newid (.inl hmem)
    rcases hid with hid | hid
    · have hpos' : 0 < m.reusable.count newid := List.count_pos_iff.mpr hid
      have := hI.inOneState hlt
      unfold InOneState at this
      omega
    · exact absurd hlt (by rw [hid]; exact Nat.lt_irrefl _)

theorem IdInv.idsAccounted (hI : IdInv m) : IdsAccounted reg m where
  oneState _ hid := hI.inOneState hid
  single hs i j hi hj := by
    have hlt : ∀ k, m.isActive k = true → k < m.entries.length := by
      intro k hk
      by_contra hge
      simp [isActive, List.getElem?_eq_none (Nat.le_of_not_lt hge)] at hk
    have := hI.single hs
    have := hlt i hi
    have := hlt j hj
    omega
  issued r m' out c hr h hc htype := by
    simp only [processOne, hr] at h
    exact hI.issued h hc htype

theorem findOrigin_lt {es : List EntryData} {pid n handle : ℕ}
    (h : findOrigin es pid n = some handle) : handle < n := by
  induction n with
  | zero => cases h
  | succ n ih =>
    simp only [findOrigin] at h
    split at h
    · obtain rfl := Option.some.inj h
      exact Nat.lt_succ_self _
    · exact Nat.lt_succ_of_lt (ih h)

/-- A reusable id is issued and not active, so the table always accepts a record. -/
theorem IdInv.issueId_ok (hI : IdInv m) (arity : EntryArity) (record : EntryData) :
    ∃ res, issueId { m with arity := arity } record = .ok res := by
  unfold issueId
  split
  · rename_i newid rest hr
    have hmem : newid ∈ m.reusable := by rw [show m.reusable = _ from hr]; simp
    have hlt : newid < m.entries.length := length_idView m ▸ hI.sound.issued newid (.inr hmem)
    have hpos : 0 < m.reusable.count newid := List.count_pos_iff.mpr hmem
    have hact : m.entries[newid].active = false := by
      have hflag := hI.sound.flags newid m.entries[newid].active (by simp [idView, hlt])
      cases hb : m.entries[newid].active with
      | false => rfl
      | true =>
        rw [hb, if_pos rfl] at hflag
        simp only [idView] at hflag
        omega
    simp [hlt, hact]
  · split <;> exact ⟨_, rfl⟩

theorem IdInv.newEntryReq_ok_iff {r : UChannelCommRequest} (hI : IdInv m) :
    r.origin ≠ {} ↔ ∃ m' out, m.newEntryReq reg r = .ok (m', out) := by
  unfold newEntryReq
  constructor
  · intro ho
    rw [if_neg ho]
    split
    · exact ⟨_, _, rfl⟩
    · rename_i arity _
      obtain ⟨res, hres⟩ := hI.issueId_ok arity (newRecord r)
      rw [hres]
      cases res with
      | none => exact ⟨_, _, rfl⟩
      | some p =>
        dsimp only
        split <;> exact ⟨_, _, rfl⟩
  · rintro ⟨m', out, h⟩ ho
    rw [if_pos ho] at h
    cases h

theorem deleteEntryReq_ok_iff {r : UChannelCommRequest} :
    (∀ handle, findOrigin m.entries r.data1 m.entries.length = some handle →
      m.isActive handle = true) ↔ ∃ m' out, m.deleteEntryReq r = .ok (m', out) := by
  unfold deleteEntryReq
  cases hf : findOrigin m.entries r.data1 m.entries.length with
  | none => exact ⟨fun _ => ⟨_, _, rfl⟩, fun _ _ h => by cases h⟩
  | some handle =>
    have hlt := findOrigin_lt hf
    have hact : m.isActive handle = m.entries[handle].active := by simp [isActive, hlt]
    simp only [List.getElem?_eq_getElem hlt, Option.some.injEq, forall_eq', hact]
    cases m.entries[handle].active <;> simp

theorem cleanEntryConf_ok_iff {r : UChannelCommRequest} :
    m.toBeCleaned ≠ [] ↔ ∃ m' out, m.cleanEntryConf r = .ok (m', out) := by
  unfold cleanEntryConf
  cases m.toBeCleaned with
  | nil => simp
  | cons front rest =>
    dsimp only
    refine ⟨fun _ => ?_, fun _ => List.cons_ne_nil _ _⟩
    split_ifs <;> exact ⟨_, _, rfl⟩

theorem leaveClientNotif_ok_iff {r : UChannelCommRequest} :
    m.clients.any (·.origin == r.data1) = true ↔
      ∃ m' out, m.leaveClientNotif r = .ok (m', out) := by
  unfold leaveClientNotif
  cases m.clients.any (·.origin == r.data1) <;> simp

/-- The books being in order, exactly the `Served` inputs go through. -/
theorem IdInv.served_iff {i : Input} (hI : IdInv m) :
    Served m i ↔ ∃ m', step reg m i = .ok m' := by
  simp only [step_eq_ok]
  cases i with
  | sweep => exact ⟨fun _ => ⟨_, _, rfl⟩, fun _ => trivial⟩
  | request r =>
    simp only [respond, processOne, Served]
    cases r.type with
    | newEntryReq => exact hI.newEntryReq_ok_iff
    | deleteEntryReq => exact deleteEntryReq_ok_iff
    | cleanEntryConf => exact cleanEntryConf_ok_iff
    | leaveClientNotif => exact leaveClientNotif_ok_iff
    | _ => exact ⟨fun _ => ⟨_, _, rfl⟩, fun _ => trivial⟩

/-- **Entry id bookkeeping.** A run of requests and sweeps keeps the books exactly
when the master can serve each input; the input that ends a run out of the blue is
a `CleanEntryConf` while no entry is being cleaned. -/
theorem keepsIds_iff_allowed (reg : DataClassRegistry) (inputs : List Input) :
    KeepsIds reg inputs ↔ Allowed (step reg) Served {} inputs := by
  constructor
  · intro h
    obtain ⟨m, hexec, -⟩ := h inputs List.prefix_rfl
    exact allowed_of_exec_invariant (fun _ _ _ hI hs => hI.preserved hs)
      (fun _ _ t hI hs => hI.served_iff.mpr ⟨t, hs⟩) idInv_init hexec
  · intro h pre hpre
    obtain ⟨m, hexec, hI⟩ := exec_progress
      (fun s a hI hok => by
        obtain ⟨t, ht⟩ := hI.served_iff.mp hok
        exact ⟨t, ht, hI.preserved ht⟩)
      idInv_init (h.of_prefix hpre)
    exact ⟨m, hexec, hI.idsAccounted⟩

/-- One end joins, an entry is made, deleted and cleaned, and the end repeats its
confirmation: nothing is being cleaned any more, and the run stops. -/
theorem not_keepsIds_repeated_conf : ¬ KeepsIds flatRegistry
    [.request { type := .newEndJoins },
     .request { type := .newEntryReq, data1 := 0x100, origin := ⟨0, 1⟩, dataclassname := "A" },
     .request { type := .deleteEntryReq, data1 := 0x100 }, .sweep,
     .request { type := .cleanEntryConf, data0 := 0, data1 := 1 },
     .request { type := .cleanEntryConf, data0 := 0, data1 := 1 }] := by
  intro h
  obtain ⟨m, hexec, -⟩ := h _ List.prefix_rfl
  have hfault : exec (step flatRegistry) {}
    [.request { type := .newEndJoins },
     .request { type := .newEntryReq, data1 := 0x100, origin := ⟨0, 1⟩, dataclassname := "A" },
     .request { type := .deleteEntryReq, data1 := 0x100 }, .sweep,
     .request { type := .cleanEntryConf, data0 := 0, data1 := 1 },
     .request { type := .cleanEntryConf, data0 := 0, data1 := 1 }] = .error .emptyFront := by
    decide
  rw [hfault] at hexec
  cases hexec

end Dueca.Master
