import Dueca.Protocol.Life
import Dueca.Master.Bookkeeping

/-!
# What the master does to the ids

`Move` lists what serving a request does to the ids of a channel, with the commands that
go out. The ids are seen through `nameOf`, the provisional id under which the writer of
an active entry asked for it, and through the list of entries that wait to be cleaned.
-/

namespace Dueca.Protocol

open Dueca.Lib Dueca.Master

/-- The provisional id of the active entry with this id in a table. -/
def nameIn (es : List EntryData) (h : ℕ) : Option ℕ :=
  (es[h]?).bind fun e => if e.active then some e.origin else none

/-- The provisional id of the master's active entry with this id. -/
def nameOf (m : UnifiedChannelMaster) : ℕ → Option ℕ := nameIn m.entries

/-- What serving request `r` does, and the commands that go out. -/
inductive Move (m : UnifiedChannelMaster) (r : UChannelCommRequest) (m' : UnifiedChannelMaster)
    (cmds : List UChannelCommRequest) : Prop
  | plain (hr : r.type ≠ .newEndJoins) (hname : nameOf m' = nameOf m)
      (hdirty : m'.toBeCleaned = m.toBeCleaned) (hends : m'.numEnds = m.numEnds)
      (hcmds : ∀ msg ∈ cmds, msg.type = .removeSaveupCmd)
  | join (hr : r.type = .newEndJoins) (hname : nameOf m' = nameOf m)
      (hdirty : m'.toBeCleaned = m.toBeCleaned) (hends : m'.numEnds = (m.numEnds + 1) % 2 ^ 32)
      (hcmds : ∀ msg ∈ cmds, msg.type = .newEndWelcome ∨
        msg.type = .newEntryConf ∧ nameOf m msg.data0 = some msg.data1)
      (hall : ∀ h, (nameOf m h).isSome → ∃ msg ∈ cmds, msg.type = .newEntryConf ∧ msg.data0 = h)
  | issue (newid : ℕ) (conf : UChannelCommRequest) (rest : List UChannelCommRequest)
      (hr : r.type = .newEntryReq) (hfree : nameOf m newid = none) (hclean : newid ∉ m.cleaning)
      (hname : nameOf m' = Function.update (nameOf m) newid (some r.data1))
      (hdirty : m'.toBeCleaned = m.toBeCleaned) (hends : m'.numEnds = m.numEnds)
      (hcmds : cmds = conf :: rest) (hconf : conf.type = .newEntryConf)
      (hid : conf.data0 = newid ∧ conf.data1 = r.data1)
      (hrest : ∀ msg ∈ rest, msg.type = .removeSaveupCmd)
  | invalidate (h : ℕ) (hr : r.type = .deleteEntryReq) (hactive : (nameOf m h).isSome)
      (hname : nameOf m' = Function.update (nameOf m) h none)
      (hdirty : m'.toBeCleaned = m.toBeCleaned ++ [{ entry := h, stilldirty := m.numEnds }])
      (hends : m'.numEnds = m.numEnds) (hcmds : cmds = [{ type := .invalidateEntryCmd, data0 := h }])
  | count (front : CleaningData) (rest : List CleaningData) (n : ℕ) (hr : r.type = .cleanEntryConf)
      (hfront : m.toBeCleaned = front :: rest) (hid : front.entry = r.data0)
      (hn : n = (front.stilldirty + (2 ^ 32 - 1)) % 2 ^ 32)
      (hname : nameOf m' = nameOf m) (hdirty : m'.toBeCleaned = { front with stilldirty := n } :: rest)
      (hends : m'.numEnds = m.numEnds) (hcmds : cmds = [])
  | delete (front : CleaningData) (rest : List CleaningData) (hr : r.type = .cleanEntryConf)
      (hfront : m.toBeCleaned = front :: rest) (hid : front.entry = r.data0)
      (hn : (front.stilldirty + (2 ^ 32 - 1)) % 2 ^ 32 = 0)
      (hname : nameOf m' = nameOf m) (hdirty : m'.toBeCleaned = rest)
      (hends : m'.numEnds = m.numEnds)
      (hcmds : cmds = [{ type := .deleteEntryCmd, data0 := r.data0 }])

variable {reg : DataClassRegistry} {m m' : UnifiedChannelMaster} {r : UChannelCommRequest}
  {out : List Master.Effect}

theorem mem_commandsSent {msg : UChannelCommRequest} :
    msg ∈ commandsSent out ↔ .send msg ∈ out := by
  simp only [commandsSent, List.mem_filterMap]
  constructor
  · rintro ⟨e, he, heq⟩
    cases e with
    | send msg' =>
      obtain rfl : msg' = msg := by simpa using heq
      exact he
    | count c e => simp at heq
  · intro h
    exact ⟨_, h, rfl⟩

/-- Updating a record without touching its name. -/
theorem nameIn_set {es : List EntryData} {h : ℕ} {e e' : EntryData} (he : es[h]? = some e)
    (hact : e'.active = e.active) (horig : e'.origin = e.origin) :
    nameIn (es.set h e') = nameIn es := by
  funext k
  simp only [nameIn, List.getElem?_set]
  by_cases hk : h = k
  · subst hk
    obtain ⟨hlt, -⟩ := List.getElem?_eq_some_iff.mp he
    simp only [if_true, hlt, he, Option.bind_some, hact, horig]
  · simp only [if_neg hk]

theorem nameIn_serveClient (n : ℕ) (c : ClientData) (es : List EntryData) :
    nameIn (UnifiedChannelMaster.serveClient reg n c es).1 = nameIn es := by
  induction n generalizing c es with
  | zero => rfl
  | succ n ih =>
    simp only [UnifiedChannelMaster.serveClient]
    split
    · exact ih c es
    · rename_i e he
      split
      · exact (ih _ _).trans (nameIn_set he rfl rfl)
      · exact ih _ es

theorem serveClient_commands (n : ℕ) (c : ClientData) (es : List EntryData)
    (msg : UChannelCommRequest)
    (h : .send msg ∈ (UnifiedChannelMaster.serveClient reg n c es).2) :
    msg.type = .removeSaveupCmd := by
  induction n generalizing c es with
  | zero => cases h
  | succ n ih =>
    simp only [UnifiedChannelMaster.serveClient] at h
    split at h
    · exact ih _ _ h
    · split at h
      · rcases List.mem_append.mp h with h | h
        · rcases List.mem_cons.mp h with h | h
          · cases h
          · split at h
            · simp only [UnifiedChannelMaster.entryCommand, List.mem_singleton,
                Master.Effect.send.injEq] at h
              rw [h]
            · cases h
        · exact ih _ _ h
      · exact ih _ _ h

/-- The announcement of an entry. -/
theorem sendNewEntryConf_spec {h : ℕ} {msg : UChannelCommRequest}
    (hmsg : .send msg ∈ m.sendNewEntryConf h) :
    msg.type = .newEntryConf ∧ msg.data0 = h ∧ nameOf m h = some msg.data1 := by
  simp only [UnifiedChannelMaster.sendNewEntryConf] at hmsg
  split at hmsg
  · cases hmsg
  · rename_i e he
    split at hmsg
    · rename_i hact
      simp only [List.mem_singleton, Master.Effect.send.injEq] at hmsg
      rw [hmsg]
      refine ⟨rfl, rfl, ?_⟩
      simp [nameOf, nameIn, he, hact]
    · cases hmsg

theorem sendNewEntryConf_of_active {h : ℕ} (hact : (nameOf m h).isSome) :
    ∃ msg, m.sendNewEntryConf h = [.send msg] ∧ msg.type = .newEntryConf ∧ msg.data0 = h ∧
      nameOf m h = some msg.data1 := by
  simp only [nameOf, nameIn] at hact ⊢
  cases he : m.entries[h]? with
  | none => simp [he] at hact
  | some e =>
    cases ha : e.active with
    | false => simp [he, ha] at hact
    | true =>
      simp only [UnifiedChannelMaster.sendNewEntryConf, he, ha, if_true]
      exact ⟨_, rfl, rfl, rfl, by simp [ha]⟩

/-- A stored record gets its name under a free id. -/
theorem nameOf_issueId {record : EntryData} {newid : ℕ} (hact : record.active = true)
    (h : UnifiedChannelMaster.issueId m record = .ok (some (newid, m'))) :
    nameOf m newid = none ∧ nameOf m' = Function.update (nameOf m) newid (some record.origin) ∧
      m'.toBeCleaned = m.toBeCleaned ∧ m'.numEnds = m.numEnds := by
  simp only [UnifiedChannelMaster.issueId] at h
  split at h
  · rename_i id rest hr
    split at h
    · cases h
    · rename_i old hold
      split at h
      · cases h
      · rename_i hinact
        obtain ⟨rfl, rfl⟩ := Prod.mk.inj (Option.some.inj (Except.ok.inj h))
        obtain ⟨hlt, -⟩ := List.getElem?_eq_some_iff.mp hold
        refine ⟨by simp [nameOf, nameIn, hold, hinact], ?_, rfl, rfl⟩
        funext k
        by_cases hk : k = id
        · subst hk
          simp [nameOf, nameIn, hlt, hact]
        · rw [Function.update_of_ne hk]
          simp only [nameOf, nameIn, List.getElem?_set_ne (Ne.symm hk)]
  · split at h
    · obtain ⟨rfl, rfl⟩ := Prod.mk.inj (Option.some.inj (Except.ok.inj h))
      refine ⟨by simp [nameOf, nameIn], ?_, rfl, rfl⟩
      funext k
      by_cases hk : k = m.entries.length
      · subst hk
        simp [nameOf, nameIn, hact]
      · rw [Function.update_of_ne hk]
        simp only [nameOf, nameIn]
        by_cases hlt : k < m.entries.length
        · rw [List.getElem?_append_left hlt]
        · rw [List.getElem?_eq_none (by simp; omega), List.getElem?_eq_none (by omega)]
    · cases h

theorem move_newEntryReq (hI : IdInv m) (hr : r.type = .newEntryReq)
    (h : m.newEntryReq reg r = .ok (m', out)) : Move m r m' (commandsSent out) := by
  have hissued := fun c => hI.issued (c := c) h
  simp only [UnifiedChannelMaster.newEntryReq] at h
  split at h
  · cases h
  split at h
  · cases h
    exact .plain (by simp [hr]) rfl rfl rfl (by simp [commandsSent])
  rename_i arity _
  split at h
  · cases h
  · cases h
    exact .plain (by simp [hr]) rfl rfl rfl (by simp [commandsSent])
  rename_i newid m₁ hissue
  obtain ⟨hfree, hname, hdirty, hends⟩ := nameOf_issueId rfl hissue
  have hname₁ : nameOf m₁ newid = some r.data1 := by
    rw [hname, Function.update_self]
    rfl
  obtain ⟨conf, hsend, htype, hid, hdata⟩ := sendNewEntryConf_of_active (m := m₁) (h := newid)
    (by rw [hname₁]; rfl)
  have hdata' : conf.data1 = r.data1 := by
    rw [hname₁] at hdata
    exact (Option.some.inj hdata).symm
  have hnew : conf.data0 ∉ m.cleaning := by
    refine (hissued conf ?_ htype).2
    split at h
    · cases h
      rw [hsend]
      exact List.mem_cons_self
    · cases h
      rw [hsend]
      simp
  rw [hid] at hnew
  split at h
  · cases h
    exact .issue newid conf [] hr hfree hnew hname hdirty hends (by rw [hsend]; rfl) htype
      ⟨hid, hdata'⟩ (by simp)
  · cases h
    have hget : m₁.entries[newid]? = some (UnifiedChannelMaster.newRecord r) :=
      (issueId_eq rfl hissue).2.1
    refine .issue newid conf _ hr hfree hnew ?_ hdirty hends (by rw [hsend]; rfl) htype
      ⟨hid, hdata'⟩ ?_
    · rw [nameOf, nameIn_set hget]
      · exact hname
      · rfl
      · rfl
    · intro msg hmsg
      have hmem := mem_commandsSent.mp hmsg
      rcases List.mem_append.mp hmem with hmem | hmem
      · simp at hmem
      · split at hmem
        · simp only [UnifiedChannelMaster.entryCommand, List.mem_singleton,
            Master.Effect.send.injEq] at hmem
          rw [hmem]
        · cases hmem

theorem move_newEndJoins (hr : r.type = .newEndJoins) :
    Move m r (m.newEndJoins r).1 (commandsSent (m.newEndJoins r).2) := by
  refine .join hr rfl rfl rfl (fun msg hmsg => ?_) fun h hact => ?_
  · rcases List.mem_cons.mp (mem_commandsSent.mp hmsg) with hmsg | hmsg
    · left
      rw [Master.Effect.send.inj hmsg]
    · obtain ⟨h, -, hmsg⟩ := List.mem_flatMap.mp hmsg
      obtain ⟨htype, hid, hname⟩ := sendNewEntryConf_spec hmsg
      right
      rw [hid]
      exact ⟨htype, hname⟩
  · have hlt : h < m.entries.length := by
      by_contra hge
      simp [nameOf, nameIn, List.getElem?_eq_none (Nat.le_of_not_lt hge)] at hact
    obtain ⟨msg, hsend, htype, hid, -⟩ := sendNewEntryConf_of_active
      (m := { m with numEnds := (m.numEnds + 1) % 2 ^ 32 }) (h := h) hact
    refine ⟨msg, mem_commandsSent.mpr ?_, htype, hid⟩
    refine List.mem_cons_of_mem _ (List.mem_flatMap.mpr ⟨h, by simpa using hlt, ?_⟩)
    rw [hsend]
    exact List.mem_cons_self

theorem move_deleteEntryReq (hr : r.type = .deleteEntryReq)
    (h : m.deleteEntryReq r = .ok (m', out)) : Move m r m' (commandsSent out) := by
  simp only [UnifiedChannelMaster.deleteEntryReq] at h
  split at h
  · cases h
    exact .plain (by simp [hr]) rfl rfl rfl (by simp [commandsSent])
  rename_i handle _
  split at h
  · cases h
  rename_i e he
  split at h
  · cases h
  rename_i hact
  cases h
  have hact' : e.active = true := by simpa using hact
  refine .invalidate handle hr ?_ ?_ rfl rfl rfl
  · simp [nameOf, nameIn, he, hact']
  · funext k
    by_cases hk : k = handle
    · subst hk
      obtain ⟨hlt, -⟩ := List.getElem?_eq_some_iff.mp he
      simp [nameOf, nameIn, hlt]
    · rw [Function.update_of_ne hk]
      simp only [nameOf, nameIn, List.getElem?_set_ne (Ne.symm hk)]

theorem move_cleanEntryConf (hr : r.type = .cleanEntryConf)
    (h : m.cleanEntryConf r = .ok (m', out)) : Move m r m' (commandsSent out) := by
  simp only [UnifiedChannelMaster.cleanEntryConf] at h
  split at h
  · cases h
  rename_i front rest hfront
  split at h
  · rename_i hmatch
    split at h
    · rename_i hzero
      cases h
      exact .delete front rest hr hfront hmatch.2 hzero rfl rfl rfl rfl
    · cases h
      exact .count front rest _ hr hfront hmatch.2 rfl rfl rfl rfl rfl
  · cases h
    exact .plain (by simp [hr]) rfl rfl rfl (by simp [commandsSent])

/-- Every request that is served is a move. -/
theorem move_of_ok (hI : IdInv m) (h : m.processOne reg r = .ok (m', out)) :
    Move m r m' (commandsSent out) := by
  simp only [UnifiedChannelMaster.processOne] at h
  split at h
  · rename_i hr
    exact move_newEntryReq hI hr h
  · rename_i hr
    exact move_deleteEntryReq hr h
  · rename_i hr
    exact move_cleanEntryConf hr h
  · rename_i hr
    cases h
    exact move_newEndJoins hr
  · rename_i hr
    simp only [UnifiedChannelMaster.newClientNotif] at h
    split at h
    · cases h
      refine .plain (by simp [hr]) (nameIn_serveClient _ _ _) rfl rfl fun msg hmsg => ?_
      exact serveClient_commands _ _ _ _ (mem_commandsSent.mp hmsg)
    · cases h
      exact .plain (by simp [hr]) rfl rfl rfl (by simp [commandsSent])
  · rename_i hr
    simp only [UnifiedChannelMaster.leaveClientNotif] at h
    split at h
    · cases h
      exact .plain (by simp [hr]) rfl rfl rfl (by simp [commandsSent])
    · cases h
  · rename_i hr _ _ _
    cases h
    exact .plain (by assumption) rfl rfl rfl (by simp [commandsSent])

/-! ### The commands of a move at an end that is up to date -/

/-- The ids that an end holds when it is up to date. -/
def inUse (m : UnifiedChannelMaster) (h : ℕ) : Bool :=
  (nameOf m h).isSome || m.cleaning.contains h

theorem heldAfter_other {h : ℕ} {b : Bool} {msg : UChannelCommRequest}
    (hconf : msg.type ≠ .newEntryConf) (hdel : msg.type ≠ .deleteEntryCmd) :
    heldAfter h b msg = b := by
  rw [heldAfter]
  split
  · split
    · exact absurd (by assumption) hconf
    · exact absurd (by assumption) hdel
    · rfl
  · rfl

/-- Commands that need no entry and take none away are legal, and make an end hold the
entries they announce. -/
theorem legal_announcements (h : ℕ) (b : Bool) (cmds : List UChannelCommRequest)
    (hcmds : ∀ msg ∈ cmds, needsEntry msg = false) :
    Legal h b cmds ∧ (finalHeld h b cmds = true ↔
      b = true ∨ ∃ msg ∈ cmds, msg.type = .newEntryConf ∧ msg.data0 = h) := by
  induction cmds generalizing b with
  | nil => simp [Legal, finalHeld]
  | cons msg cmds ih =>
    obtain ⟨hlegal, hfinal⟩ := ih (heldAfter h b msg) fun m hm =>
      hcmds m (List.mem_cons_of_mem _ hm)
    have hneeds := hcmds msg List.mem_cons_self
    refine ⟨⟨fun _ hn => ?_, hlegal⟩, ?_⟩
    · rw [hneeds] at hn
      cases hn
    · rw [finalHeld, List.foldl_cons, ← finalHeld, hfinal]
      by_cases hc : msg.type = .newEntryConf ∧ msg.data0 = h
      · have : heldAfter h b msg = true := by
          rw [heldAfter, if_pos hc.2, hc.1]
        simp [this, hc]
      · have : heldAfter h b msg = b := by
          rw [heldAfter]
          split
          · rename_i hid
            split
            · exact absurd ⟨by assumption, hid⟩ hc
            · rename_i htype
              simp [needsEntry, htype] at hneeds
            · rfl
          · rfl
        simp only [this, List.mem_cons, exists_eq_or_imp, hc, false_or]

/-- An end that is up to date before a move is so after it. -/
theorem Move.legal {cmds : List UChannelCommRequest} (hmove : Move m r m' cmds) (hI : IdInv m)
    (h : ℕ) : Legal h (inUse m h) cmds ∧ finalHeld h (inUse m h) cmds = inUse m' h := by
  have hcleaning : m'.toBeCleaned = m.toBeCleaned → m'.cleaning = m.cleaning := by
    intro heq
    rw [UnifiedChannelMaster.cleaning, heq]
    rfl
  cases hmove with
  | plain hr hname hdirty hends hcmds =>
    obtain ⟨hlegal, hfinal⟩ := legal_announcements h (inUse m h) cmds
      fun msg hmsg => by simp [needsEntry, hcmds msg hmsg]
    refine ⟨hlegal, ?_⟩
    have hsame : inUse m' h = inUse m h := by rw [inUse, inUse, hname, hcleaning hdirty]
    rw [hsame, Bool.eq_iff_iff, hfinal]
    refine or_iff_left ?_
    rintro ⟨msg, hmsg, htype, -⟩
    rw [hcmds msg hmsg] at htype
    cases htype
  | join hr hname hdirty hends hcmds hall =>
    obtain ⟨hlegal, hfinal⟩ := legal_announcements h (inUse m h) cmds
      fun msg hmsg => by rcases hcmds msg hmsg with ht | ⟨ht, -⟩ <;> simp [needsEntry, ht]
    refine ⟨hlegal, ?_⟩
    have hsame : inUse m' h = inUse m h := by rw [inUse, inUse, hname, hcleaning hdirty]
    rw [hsame, Bool.eq_iff_iff, hfinal]
    refine or_iff_left_of_imp ?_
    rintro ⟨msg, hmsg, htype, rfl⟩
    rcases hcmds msg hmsg with ht | ⟨-, hn⟩
    · rw [ht] at htype
      cases htype
    · simp [inUse, hn]
  | issue newid conf rest hr hfree hclean hname hdirty hends hcmds hconf hid hrest =>
    subst hcmds
    obtain ⟨hlegal, hfinal⟩ := legal_announcements h (inUse m h) (conf :: rest)
      fun msg hmsg => by
        rcases List.mem_cons.mp hmsg with rfl | hmsg
        · simp [needsEntry, hconf]
        · simp [needsEntry, hrest msg hmsg]
    refine ⟨hlegal, ?_⟩
    rw [Bool.eq_iff_iff, hfinal, inUse, inUse, hname, hcleaning hdirty]
    have hex : (∃ msg ∈ conf :: rest, msg.type = .newEntryConf ∧ msg.data0 = h) ↔ h = newid := by
      constructor
      · rintro ⟨msg, hmsg, htype, hh⟩
        rcases List.mem_cons.mp hmsg with rfl | hmsg
        · rw [← hh, hid.1]
        · rw [hrest msg hmsg] at htype
          cases htype
      · rintro rfl
        exact ⟨conf, List.mem_cons_self, hconf, hid.1⟩
    rw [hex]
    by_cases hh : h = newid
    · subst hh
      simp
    · rw [Function.update_of_ne hh]
      simp [hh]
  | invalidate hd hr hactive hname hdirty hends hcmds =>
    subst hcmds
    have hcl : m'.cleaning = m.cleaning ++ [hd] := by
      simp [UnifiedChannelMaster.cleaning, hdirty]
    have hsame : heldAfter h (inUse m h) { type := .invalidateEntryCmd, data0 := hd } = inUse m h :=
      heldAfter_other (by simp) (by simp)
    refine ⟨⟨fun hh _ => ?_, trivial⟩, ?_⟩
    · dsimp only at hh
      subst hh
      simp [inUse, hactive]
    · rw [finalHeld, List.foldl_cons, List.foldl_nil, hsame, inUse, inUse, hname, hcl]
      by_cases hh : h = hd
      · subst hh
        simp [hactive]
      · rw [Function.update_of_ne hh]
        simp [hh]
  | count front rest n hr hfront hid hn hname hdirty hends hcmds =>
    subst hcmds
    have hcl : m'.cleaning = m.cleaning := by
      simp [UnifiedChannelMaster.cleaning, hdirty, hfront]
    refine ⟨trivial, ?_⟩
    rw [inUse, inUse, hname, hcl]
    rfl
  | delete front rest hr hfront hid hn hname hdirty hends hcmds =>
    subst hcmds
    have hcl : m.cleaning = r.data0 :: m'.cleaning := by
      simp [UnifiedChannelMaster.cleaning, hdirty, hfront, hid]
    refine ⟨⟨fun hh _ => ?_, trivial⟩, ?_⟩
    · dsimp only at hh
      subst hh
      simp [inUse, hcl]
    · rw [finalHeld, List.foldl_cons, List.foldl_nil, heldAfter]
      dsimp only
      by_cases hh : r.data0 = h
      · -- the id is free now
        subst hh
        rw [if_pos rfl]
        have hlt : r.data0 < m.idView.active.length :=
          hI.sound.issued _ (.inl (by simp [UnifiedChannelMaster.idView, hcl]))
        have hflag := hI.sound.flags r.data0 _ (List.getElem?_eq_getElem hlt)
        have hcount : m.idView.cleaning.count r.data0 = m'.cleaning.count r.data0 + 1 := by
          simp [UnifiedChannelMaster.idView, hcl]
        rw [hcount] at hflag
        cases hact : m.idView.active[r.data0] with
        | true =>
          rw [hact, if_pos rfl] at hflag
          omega
        | false =>
          rw [hact, if_neg (by simp)] at hflag
          have hnot : r.data0 ∉ m'.cleaning := List.count_eq_zero.mp (by omega)
          have hnone : nameOf m r.data0 = none := by
            have hlt' : r.data0 < m.entries.length := by
              simpa [UnifiedChannelMaster.idView] using hlt
            have : m.entries[r.data0].active = false := by
              simpa [UnifiedChannelMaster.idView] using hact
            simp [nameOf, nameIn, hlt', this]
          simp [inUse, hname, hnone, hnot]
      · rw [if_neg hh, inUse, inUse, hname, hcl]
        simp [Ne.symm hh]

end Dueca.Protocol
