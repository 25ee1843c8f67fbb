import Dueca.Protocol.Moves

/-!
# Removing entries

The master deletes an entry when as many confirmations of the current round have come as
there are ends. It does not know which ends they came from; that each end confirms an
entry at most once in its life is what makes the count good. An end that joins while
entries wait to be cleaned is not told of these entries, and is sent the commands for
them all the same.
-/

namespace Dueca.Protocol

open Dueca.Lib Dueca.End Dueca.Master

variable {reg : DataClassRegistry} {m m' : UnifiedChannelMaster} {issued issued' : List (ℕ × ℕ)}
  {p p' q : Participant} {h : ℕ}

/-- The provisional ids for which entries are requested. -/
def entryRequests (outbox : List UChannelCommRequest) : List ℕ :=
  (outbox.filter (·.type == .newEntryReq)).map (·.data1)

/-- The end has a request to join in its queue. -/
def hasJoin (outbox : List UChannelCommRequest) : Bool := outbox.any (·.type == .newEndJoins)

/-- An end that has joined: each id is in one of the phases, the commands on their way are
legal, and bring the end up to date. -/
structure Member (m : UnifiedChannelMaster) (p : Participant) : Prop where
  phase : ∀ h, InPhase (m.cleaning.contains h) h p
  legal : ∀ h, Legal h (p.channel.held h).isSome p.inbox ∧
    finalHeld h (p.channel.held h).isSome p.inbox = inUse m h
  noJoin : hasJoin p.outbox = false

/-- An end that has not joined: it has heard and said nothing about entries, and its first
request is to join. -/
structure Stranger (p : Participant) : Prop where
  inbox : p.inbox = []
  held : ∀ h, p.channel.held h = none
  history : ∀ h, life h p.history = none
  noConf : ∀ h, confirmations h p.outbox = 0
  outbox : ∃ r rest, p.outbox = r :: rest ∧ r.type = .newEndJoins ∧ hasJoin rest = false

/-- The invariant of one end. `issued` lists the provisional ids with the ids that were
issued for them. -/
structure EndOk (m : UnifiedChannelMaster) (issued : List (ℕ × ℕ)) (p : Participant) : Prop where
  sane : Sane p.channel p.log
  creation : p.channel.creationId % 0x100 = p.channel.id.location
  requests : ∀ c ∈ entryRequests p.outbox, c % 0x100 = p.channel.id.location ∧
    c < p.channel.creationId ∧ c ∉ issued.map Prod.fst
  distinct : (entryRequests p.outbox).Nodup
  announced : ∀ msg ∈ p.inbox, msg.type = .newEntryConf → (msg.data1, msg.data0) ∈ issued
  holders : ∀ h e, p.channel.held h = some e → e ∈ p.channel.writingClients →
    ((p.channel.obj e).creationId, h) ∈ issued
  member : p.joined = true → Member m p
  stranger : p.joined = false → Stranger p

/-- The number of ends that have not confirmed an id to the master. -/
def unconfirmed (h : ℕ) (ends : List Participant) : ℕ :=
  ends.countP fun p => p.joined && !isConfirmed h p

/-- The invariant of the system. -/
structure Inv (sys : System) (issued : List (ℕ × ℕ)) : Prop where
  ids : IdInv sys.master
  ends : ∀ p ∈ sys.ends, EndOk sys.master issued p
  locations : (sys.ends.map (·.channel.id.location)).Nodup
  small : ∀ p ∈ sys.ends, p.channel.id.location < 0x100
  numEnds : sys.master.numEnds = sys.ends.countP (·.joined)
  names : (issued.map Prod.fst).Nodup
  active : ∀ h c, nameOf sys.master h = some c → (c, h) ∈ issued
  writers : ∀ c ∈ issued.map Prod.fst, ∃ p ∈ sys.ends, p.channel.id.location = c % 0x100 ∧
    c < p.channel.creationId
  dirty : ∀ item ∈ sys.master.toBeCleaned,
    unconfirmed item.entry sys.ends ≤ item.stilldirty ∧ item.stilldirty < 2 ^ 32

/-! ### An end by itself -/

/-- The entry for a `NewEntryConf` is not held under another id: the master issues one id
for a provisional id. -/
theorem EndOk.fresh (hp : EndOk m issued p) (hnames : (issued.map Prod.fst).Nodup)
    {msg : UChannelCommRequest} (hmsg : msg ∈ p.inbox.head?) (e : ℕ) (s₁ : UnifiedChannel)
    (htype : msg.type = .newEntryConf) (hfree : p.channel.held msg.data0 = none)
    (hfor : p.channel.entryFor msg = .ok (e, s₁)) (k : ℕ) : p.channel.held k ≠ some e := by
  intro hk
  rcases entryFor_cases hfor with ⟨he, hc, -⟩ | ⟨rfl, -⟩
  · have h₁ := hp.holders k e hk he
    have h₂ := hp.announced msg (List.mem_of_mem_head? hmsg) htype
    rw [hc] at h₁
    have hkey : k = msg.data0 :=
      congrArg Prod.snd (List.inj_on_of_nodup_map hnames h₁ h₂ rfl)
    rw [hkey, hfree] at hk
    cases hk
  · exact absurd (hp.sane.held k _ hk) (Nat.lt_irrefl _)

theorem entryRequests_append (l l' : List UChannelCommRequest) :
    entryRequests (l ++ l') = entryRequests l ++ entryRequests l' := by
  simp [entryRequests]

/-- What an end writes when it processes a command. -/
theorem Processed.requests {msg : UChannelCommRequest} {s s' : UnifiedChannel}
    {out : List End.Effect} (h : Processed msg s s' out) :
    ∀ r ∈ requestsSent out, r.type ≠ .newEntryReq ∧ r.type ≠ .newEndJoins := by
  have hplain : ∀ r : UChannelCommRequest, isPlain r = true →
      r.type ≠ .newEntryReq ∧ r.type ≠ .newEndJoins := by
    intro r hr
    constructor <;> intro htype <;> simp [isPlain, htype] at hr
  intro r hr
  cases h with
  | quiet hconf hneeds hq => exact hplain r (hq.sent r hr)
  | hold e s₁ htype hfree hfor hq => exact hplain r (hq.sent r hr)
  | invalidate e htype hheld hsame hmade hpassed hsent hwriters =>
    rw [hsent] at hr
    cases hr
  | clean e htype hheld hwalk =>
    rw [(hwalk.sent r hr).1]
    simp
  | delete htype hheld hout hs =>
    rw [hout] at hr
    cases hr

theorem entryRequests_eq_nil {l : List UChannelCommRequest}
    (hl : ∀ r ∈ l, r.type ≠ .newEntryReq ∧ r.type ≠ .newEndJoins) :
    entryRequests l = [] ∧ hasJoin l = false := by
  constructor
  · simp only [entryRequests, List.map_eq_nil_iff, List.filter_eq_nil_iff]
    intro r hr
    simpa using (hl r hr).1
  · simp only [hasJoin, List.any_eq_false]
    intro r hr
    simpa using (hl r hr).2

/-- The names of the entries an end holds after a command. -/
theorem EndOk.holders_receive {msg : UChannelCommRequest} {rest : List UChannelCommRequest}
    {s' : UnifiedChannel} {out : List End.Effect} (hp : EndOk m issued p)
    (hinbox : p.inbox = msg :: rest) (h : Processed msg p.channel s' out) :
    ∀ h e, s'.held h = some e → e ∈ s'.writingClients → ((s'.obj e).creationId, h) ∈ issued := by
  intro k e hk he
  cases h with
  | quiet hconf hneeds hq =>
    rw [hq.same.held] at hk
    rw [hq.writers] at he
    rw [(hq.same.names e).1]
    exact hp.holders k e hk he
  | hold e' s₁ htype hfree hfor hq =>
    rw [hq.same.held, held_store] at hk
    rw [hq.writers] at he
    rw [(hq.same.names e).1]
    change ((s₁.obj e).creationId, k) ∈ issued
    have hann := hp.announced msg (by rw [hinbox]; exact List.mem_cons_self) htype
    rcases entryFor_cases hfor with ⟨he', hc, rfl⟩ | ⟨rfl, o, rfl⟩
    · split at hk
      · rename_i hkeq
        rw [← Option.some.inj hk, hc, hkeq]
        exact hann
      · exact hp.holders k e hk he
    · -- a new entry has no writer here
      have hlt : e < p.channel.objects := (hp.sane.writers e he).1
      split at hk
      · rw [← Option.some.inj hk] at hlt
        exact absurd hlt (Nat.lt_irrefl _)
      · dsimp only
        rw [Function.update_of_ne (Nat.ne_of_lt hlt)]
        exact hp.holders k e hk he
  | invalidate e' htype hheld hsame hmade hpassed hsent hwriters =>
    rw [hsame.held] at hk
    rw [(hsame.names e).1]
    refine hp.holders k e hk ?_
    rw [hwriters] at he
    split at he
    · exact List.mem_of_mem_erase he
    · exact he
  | clean e' htype hheld hwalk =>
    rw [hwalk.same.held] at hk
    rw [hwalk.writers] at he
    rw [(hwalk.same.names e).1]
    exact hp.holders k e hk he
  | delete htype hheld hout hs =>
    subst hs
    rw [held_set_none] at hk
    split at hk
    · cases hk
    · exact hp.holders k e hk he

/-- What a step of an end leaves alone, and what it keeps. -/
structure EndStep (p p' : Participant) : Prop where
  joined : p'.joined = p.joined
  location : p'.channel.id.location = p.channel.id.location
  creation : p.channel.creationId ≤ p'.channel.creationId
  confirmed : ∀ h, isConfirmed h p = true → p.joined = true → isConfirmed h p' = true

/-- The command an end processes does not touch its identity. -/
theorem Processed.identity {msg : UChannelCommRequest} {s s' : UnifiedChannel}
    {out : List End.Effect} (h : Processed msg s s' out) :
    s'.id = s.id ∧ s'.creationId = s.creationId := by
  cases h with
  | quiet hconf hneeds hq => exact ⟨hq.same.id, hq.same.creationId⟩
  | hold e s₁ htype hfree hfor hq =>
    rw [hq.same.id, hq.same.creationId]
    rcases entryFor_cases hfor with ⟨-, -, rfl⟩ | ⟨-, o, rfl⟩ <;> exact ⟨rfl, rfl⟩
  | invalidate e htype hheld hsame hmade hpassed hsent hwriters =>
    exact ⟨hsame.id, hsame.creationId⟩
  | clean e htype hheld hwalk => exact ⟨hwalk.same.id, hwalk.same.creationId⟩
  | delete htype hheld hout hs =>
    rw [hs]
    exact ⟨rfl, rfl⟩

/-- An end processes a command. -/
theorem EndOk.receive (hp : EndOk m issued p) (hnames : (issued.map Prod.fst).Nodup)
    (hr : p.receive reg = .ok p') : EndOk m issued p' ∧ EndStep p p' := by
  have hsane' : Sane p'.channel p'.log := hp.sane.receive hr fun msg hmsg => hp.fresh hnames hmsg
  have hrun := hr
  rcases receive_cases hr with rfl | ⟨msg, rest, s', out, hinbox, hs, rfl⟩
  · exact ⟨hp, rfl, rfl, Nat.le_refl _, fun _ hc _ => hc⟩
  have hproc := processed_of_ok hs
  obtain ⟨hreq, hjoin⟩ := entryRequests_eq_nil hproc.requests
  obtain ⟨hid, hcreation⟩ := hproc.identity
  -- only ends that have joined receive commands
  have hjoined : p.joined = true := by
    by_contra hnot
    have := (hp.stranger (by simpa using hnot)).inbox
    rw [hinbox] at this
    cases this
  have hmem := hp.member hjoined
  refine ⟨⟨hsane', ?_, ?_, ?_, ?_, hp.holders_receive hinbox hproc, fun _ => ?_, fun hnot => ?_⟩,
    rfl, ?_, ?_, fun h hc _ => ?_⟩
  · dsimp only
    rw [hid, hcreation]
    exact hp.creation
  · dsimp only
    rw [entryRequests_append, hreq, List.append_nil, hid, hcreation]
    exact hp.requests
  · dsimp only
    rw [entryRequests_append, hreq, List.append_nil]
    exact hp.distinct
  · intro msg' hmsg'
    exact hp.announced msg' (by rw [hinbox]; exact List.mem_cons_of_mem _ hmsg')
  · refine ⟨fun h => (hmem.phase h).receive hp.sane hrun hsane', fun h => ?_, ?_⟩
    · obtain ⟨hlegal, hfinal⟩ := Legal.receive hrun (hmem.legal h).1
      exact ⟨hlegal, hfinal.trans (hmem.legal h).2⟩
    · have := hmem.noJoin
      simp only [hasJoin, List.any_append] at this hjoin ⊢
      rw [this, hjoin]
      rfl
  · rw [hjoined] at hnot
    cases hnot
  · exact congrArg GlobalId.location hid
  · exact Nat.le_of_eq hcreation.symm
  · exact (hmem.phase h).confirmed_receive hrun hsane' hc

/-- What an end writes when it serves a call on a token. -/
theorem act_requests {i : End.Input} {s s' : UnifiedChannel} {out : List End.Effect}
    (hs : End.respond reg s i = .ok (s', out)) (hconf : ∀ msg, i ≠ .updateConfiguration msg) :
    (∃ spec, i = .addWriteToken spec ∧ s' = (s.addWriteToken spec).1 ∧
        out = (s.addWriteToken spec).2) ∨
      (Quiet s s' out ∧ ∀ r ∈ requestsSent out, r.type ≠ .newEntryReq ∧ r.type ≠ .newEndJoins) := by
  by_cases hwrite : ∃ spec, i = .addWriteToken spec
  · obtain ⟨spec, rfl⟩ := hwrite
    cases hs
    exact .inl ⟨spec, rfl, rfl, rfl⟩
  · have hq := respond_quiet hs hconf fun spec hspec => hwrite ⟨spec, hspec⟩
    refine .inr ⟨hq, fun r hr => ?_⟩
    have := hq.sent r hr
    constructor <;> intro htype <;> simp [isPlain, htype] at this

/-- An end that has heard nothing says nothing about entries. -/
theorem Stranger.act {i : End.Input} (hp : Stranger p)
    (hconf : ∀ msg, i ≠ .updateConfiguration msg) (hr : p.respond reg i = .ok p') :
    Stranger p' := by
  obtain ⟨hheld, hinbox⟩ := held_act hconf hr
  obtain ⟨s', out, hs, rfl⟩ := respond_cases hr
  obtain ⟨r, rest, hout, htype, hrest⟩ := hp.outbox
  have hcalm : (∀ h, confirmations h (requestsSent out) = 0) ∧ hasJoin (requestsSent out) = false := by
    rcases act_requests hs hconf with ⟨spec, -, -, rfl⟩ | ⟨hq, hreq⟩
    · simp [confirmations, hasJoin, requestsSent, UnifiedChannel.addWriteToken]
    · exact ⟨fun h => (confirmations_plain hq.sent h).1, (entryRequests_eq_nil hreq).2⟩
  refine ⟨hinbox.trans hp.inbox, fun h => by rw [hheld]; exact hp.held h, fun h => ?_, fun h => ?_,
    r, rest ++ requestsSent out, ?_, htype, ?_⟩
  · rw [life_append, hp.history]
    refine foldl_trackLife_sent _ _ fun r hr => ?_
    simpa using List.countP_eq_zero.mp (hcalm.1 h) r hr
  · rw [confirmations_append, hp.noConf, hcalm.1]
  · dsimp only
    rw [hout]
    rfl
  · have h₁ := hcalm.2
    simp only [hasJoin, List.any_append] at hrest h₁ ⊢
    rw [hrest, h₁]
    rfl

theorem Member.act {i : End.Input} (hp : Member m p)
    (hconf : ∀ msg, i ≠ .updateConfiguration msg) (hr : p.respond reg i = .ok p') :
    Member m p' := by
  obtain ⟨hheld, hinbox⟩ := held_act hconf hr
  refine ⟨fun h => (hp.phase h).act hconf hr, fun h => ?_, ?_⟩
  · rw [hheld, hinbox]
    exact hp.legal h
  · obtain ⟨s', out, hs, rfl⟩ := respond_cases hr
    have hcalm : hasJoin (requestsSent out) = false := by
      rcases act_requests hs hconf with ⟨spec, -, -, rfl⟩ | ⟨-, hreq⟩
      · simp [hasJoin, requestsSent, UnifiedChannel.addWriteToken]
      · exact (entryRequests_eq_nil hreq).2
    have := hp.noJoin
    simp only [hasJoin, List.any_append] at this hcalm ⊢
    rw [this, hcalm]
    rfl

/-- An end serves a call on a token; a new writer gets a provisional id that was not used
before. -/
theorem EndOk.act {i : End.Input} (hp : EndOk m issued p)
    (hwriters : ∀ c ∈ issued.map Prod.fst, c % 0x100 = p.channel.id.location →
      c < p.channel.creationId)
    (hwrap : ∀ spec, i = .addWriteToken spec → p.channel.creationId + 0x100 < 2 ^ 32)
    (hconf : ∀ msg, i ≠ .updateConfiguration msg) (hr : p.respond reg i = .ok p') :
    EndOk m issued p' ∧ EndStep p p' := by
  have hsane' : Sane p'.channel p'.log := hp.sane.act hconf hr
  have hmember : p'.joined = p.joined := by
    obtain ⟨s', out, hs, rfl⟩ := respond_cases hr
    rfl
  have hmem : p'.joined = true → Member m p' := fun h => (hp.member (hmember ▸ h)).act hconf hr
  have hstr : p'.joined = false → Stranger p' := fun h => (hp.stranger (hmember ▸ h)).act hconf hr
  have hconfirmed : ∀ h, isConfirmed h p = true → p.joined = true → isConfirmed h p' = true :=
    fun h hc _ => confirmed_act hconf hr hc
  obtain ⟨s', out, hs, rfl⟩ := respond_cases hr
  rcases act_requests hs hconf with ⟨spec, rfl, rfl, rfl⟩ | ⟨hq, hreq⟩
  · have hnext : (p.channel.addWriteToken spec).1.creationId = p.channel.creationId + 0x100 :=
      Nat.mod_eq_of_lt (hwrap spec rfl)
    have hnew : entryRequests (requestsSent (p.channel.addWriteToken spec).2) =
        [p.channel.creationId] := rfl
    refine ⟨⟨hsane', ?_, ?_, ?_, hp.announced, fun h e hh he => ?_, hmem, hstr⟩, rfl, rfl, ?_,
      hconfirmed⟩
    · dsimp only
      rw [hnext, Nat.add_mod_right]
      exact hp.creation
    · dsimp only
      rw [entryRequests_append, hnew, hnext]
      intro c hc
      rcases List.mem_append.mp hc with hc | hc
      · obtain ⟨h₁, h₂, h₃⟩ := hp.requests c hc
        exact ⟨h₁, by omega, h₃⟩
      · rw [List.mem_singleton.mp hc]
        refine ⟨hp.creation, by omega, fun hmem => ?_⟩
        exact absurd (hwriters _ hmem hp.creation) (Nat.lt_irrefl _)
    · dsimp only
      rw [entryRequests_append, hnew]
      refine List.nodup_append.mpr ⟨hp.distinct, List.nodup_singleton _, fun c hc c' hc' => ?_⟩
      rw [List.mem_singleton.mp hc']
      exact Nat.ne_of_lt (hp.requests c hc).2.1
    · have hlt : e < p.channel.objects := hp.sane.held h e hh
      have hold : e ∈ p.channel.writingClients := by
        rcases List.mem_append.mp he with he | he
        · exact he
        · exact absurd (List.mem_singleton.mp he) (Nat.ne_of_lt hlt)
      simp only [UnifiedChannel.addWriteToken, Function.update_of_ne (Nat.ne_of_lt hlt)]
      exact hp.holders h e hh hold
    · dsimp only
      omega
  · have hnil := (entryRequests_eq_nil hreq).1
    refine ⟨⟨hsane', ?_, ?_, ?_, hp.announced, fun h e hh he => ?_, hmem, hstr⟩, rfl, ?_, ?_,
      hconfirmed⟩
    · dsimp only
      rw [hq.same.id, hq.same.creationId]
      exact hp.creation
    · dsimp only
      rw [entryRequests_append, hnil, List.append_nil, hq.same.id, hq.same.creationId]
      exact hp.requests
    · dsimp only
      rw [entryRequests_append, hnil, List.append_nil]
      exact hp.distinct
    · dsimp only at hh he ⊢
      rw [hq.same.held] at hh
      rw [hq.writers] at he
      rw [(hq.same.names e).1]
      exact hp.holders h e hh he
    · exact congrArg GlobalId.location hq.same.id
    · exact Nat.le_of_eq hq.same.creationId.symm

/-! ### The master takes a request and sends commands -/

variable {r : UChannelCommRequest} {rest cmds : List UChannelCommRequest}

theorem confirmations_cons (h : ℕ) (r : UChannelCommRequest) (rest : List UChannelCommRequest) :
    confirmations h (r :: rest) =
      confirmations h rest + if r.data0 = h ∧ r.type = .cleanEntryConf then 1 else 0 := by
  rw [confirmations, List.countP_cons]
  congr 1
  by_cases hc : r.data0 = h ∧ r.type = .cleanEntryConf
  · rw [if_pos hc, if_pos (by simpa using hc)]
  · rw [if_neg hc, if_neg (by simpa using hc)]

/-- A request is taken: if it confirms an id, that is confirmed now. -/
theorem Member.taken (hp : Member m p) (hout : p.outbox = r :: rest) :
    Member m { p with outbox := rest } ∧
      ∀ h, isConfirmed h { p with outbox := rest } =
        (isConfirmed h p || (r.data0 == h && r.type == .cleanEntryConf)) ∧
        (isConfirmed h p && (r.data0 == h && r.type == .cleanEntryConf)) = false := by
  have hphase : ∀ h, InPhase (m.cleaning.contains h) h { p with outbox := rest } ∧
      isConfirmed h { p with outbox := rest } =
        (isConfirmed h p || (r.data0 == h && r.type == .cleanEntryConf)) ∧
        (isConfirmed h p && (r.data0 == h && r.type == .cleanEntryConf)) = false := by
    intro h
    have hp' := hp.phase h
    simp only [InPhase, isConfirmed, hout, confirmations_cons] at hp' ⊢
    generalize m.cleaning.contains h = c at hp' ⊢
    generalize pending h p.inbox = l at hp' ⊢
    generalize confirmations h rest = n at hp' ⊢
    generalize outstanding h p.channel p.log = o at hp' ⊢
    generalize life h p.history = k at hp' ⊢
    by_cases hc : r.data0 = h ∧ r.type = .cleanEntryConf
    · have hc' : (r.data0 == h && r.type == .cleanEntryConf) = true := by simpa using hc
      rw [if_pos hc] at hp' ⊢
      rw [hc']
      -- only an end that has told the master has a confirmation on its way
      generalize hn : n + 1 = n' at hp' ⊢
      cases hp' with
      | told =>
        obtain rfl : n = 0 := by omega
        exact ⟨.confirmed, rfl, rfl⟩
      | _ => omega
    · have hc' : (r.data0 == h && r.type == .cleanEntryConf) = false := by
        simpa using hc
      rw [if_neg hc, Nat.add_zero] at hp' ⊢
      rw [hc', Bool.or_false, Bool.and_false]
      exact ⟨hp', rfl, rfl⟩
  refine ⟨⟨fun h => (hphase h).1, hp.legal, ?_⟩, fun h => (hphase h).2⟩
  have := hp.noJoin
  rw [hout, hasJoin, List.any_cons, Bool.or_eq_false_iff] at this
  exact this.2

theorem pending_append (h : ℕ) (l l' : List UChannelCommRequest) :
    pending h (l ++ l') = pending h l ++ pending h l' := by
  simp [pending]

/-- Commands that neither invalidate nor delete. -/
theorem pending_eq_nil {h : ℕ} (hcmds : ∀ msg ∈ cmds,
    ¬ (msg.data0 = h ∧ (msg.type = .invalidateEntryCmd ∨ msg.type = .deleteEntryCmd))) :
    pending h cmds = [] := by
  simp only [pending, List.map_eq_nil_iff, List.filter_eq_nil_iff]
  intro msg hmsg
  simpa using hcmds msg hmsg

/-- What a move does to the id list and to the commands about an id. -/
theorem Move.pending_cases (hmove : Move m r m' cmds) (hI : IdInv m) (h : ℕ) :
    (pending h cmds = [] ∧ m'.cleaning.contains h = m.cleaning.contains h) ∨
      (pending h cmds = [.invalidateEntryCmd] ∧ m.cleaning.contains h = false ∧
        m'.cleaning.contains h = true) ∨
      (pending h cmds = [.deleteEntryCmd] ∧ r.data0 = h ∧ r.type = .cleanEntryConf ∧
        m.cleaning.contains h = true ∧ m'.cleaning.contains h = false) := by
  have hcleaning : m'.toBeCleaned = m.toBeCleaned → m'.cleaning = m.cleaning := by
    intro heq
    rw [UnifiedChannelMaster.cleaning, heq]
    rfl
  cases hmove with
  | plain hr hname hdirty hends hcmds =>
    left
    refine ⟨pending_eq_nil fun msg hmsg => ?_, by rw [hcleaning hdirty]⟩
    rw [hcmds msg hmsg]
    simp
  | join hr hname hdirty hends hcmds hall =>
    left
    refine ⟨pending_eq_nil fun msg hmsg => ?_, by rw [hcleaning hdirty]⟩
    rcases hcmds msg hmsg with ht | ⟨ht, -⟩ <;> rw [ht] <;> simp
  | issue newid conf rest hr hfree hclean hname hdirty hends hcmds hconf hid hrest =>
    left
    refine ⟨pending_eq_nil fun msg hmsg => ?_, by rw [hcleaning hdirty]⟩
    rw [hcmds] at hmsg
    rcases List.mem_cons.mp hmsg with rfl | hmsg
    · rw [hconf]
      simp
    · rw [hrest msg hmsg]
      simp
  | invalidate hd hr hactive hname hdirty hends hcmds =>
    have hcl : m'.cleaning = m.cleaning ++ [hd] := by
      simp [UnifiedChannelMaster.cleaning, hdirty]
    subst hcmds
    by_cases hh : hd = h
    · subst hh
      right
      left
      refine ⟨by simp [pending], ?_, by simp [hcl]⟩
      -- an active entry does not wait to be cleaned
      have hact : m.idView.active[hd]? = some true := by
        rw [← UnifiedChannelMaster.isActive_iff]
        simp only [nameOf, nameIn] at hactive
        simp only [UnifiedChannelMaster.isActive]
        cases he : m.entries[hd]? with
        | none => simp [he] at hactive
        | some e =>
          cases ha : e.active with
          | false => simp [he, ha] at hactive
          | true => simp [ha]
      have hflag := hI.sound.flags hd true hact
      rw [if_pos rfl] at hflag
      have hzero : m.cleaning.count hd = 0 := by
        have : m.idView.cleaning.count hd = 0 := by omega
        exact this
      simpa using List.count_eq_zero.mp hzero
    · left
      refine ⟨pending_eq_nil fun msg hmsg => ?_, ?_⟩
      · rw [List.mem_singleton.mp hmsg]
        exact fun hc => hh hc.1
      · rw [hcl]
        simp [Ne.symm hh]
  | count front rest n hr hfront hid hn hname hdirty hends hcmds =>
    left
    subst hcmds
    refine ⟨rfl, ?_⟩
    simp [UnifiedChannelMaster.cleaning, hdirty, hfront]
  | delete front rest hr hfront hid hn hname hdirty hends hcmds =>
    have hcl : m.cleaning = r.data0 :: m'.cleaning := by
      simp [UnifiedChannelMaster.cleaning, hdirty, hfront, hid]
    subst hcmds
    by_cases hh : r.data0 = h
    · right
      right
      refine ⟨by simp [pending, hh], hh, hr, by simp [hcl, hh], ?_⟩
      have hlt : h < m.idView.active.length :=
        hI.sound.issued _ (.inl (by simp [UnifiedChannelMaster.idView, hcl, hh]))
      have hflag := hI.sound.flags h _ (List.getElem?_eq_getElem hlt)
      have hcount : m.idView.cleaning.count h = m'.cleaning.count h + 1 := by
        simp [UnifiedChannelMaster.idView, hcl, hh]
      rw [hcount] at hflag
      have hzero : m'.cleaning.count h = 0 := by
        split at hflag <;> omega
      simpa using List.count_eq_zero.mp hzero
    · left
      refine ⟨pending_eq_nil fun msg hmsg => ?_, ?_⟩
      · rw [List.mem_singleton.mp hmsg]
        exact fun hc => hh hc.1
      · rw [hcl]
        simp [Ne.symm hh]

/-- The phases of a member after the master has sent commands. An id is deleted when the
member has confirmed it. -/
theorem InPhase.commands {b b' : Bool} (hp : InPhase b h p)
    (hcmds : (pending h cmds = [] ∧ b' = b) ∨
      (pending h cmds = [.invalidateEntryCmd] ∧ b = false ∧ b' = true) ∨
      (pending h cmds = [.deleteEntryCmd] ∧ b = true ∧ b' = false ∧ isConfirmed h p = true)) :
    InPhase b' h { p with inbox := p.inbox ++ cmds } := by
  simp only [InPhase, pending_append] at hp ⊢
  rcases hcmds with ⟨hnil, rfl⟩ | ⟨hinv, rfl, rfl⟩ | ⟨hdel, rfl, rfl, hconf⟩
  · rw [hnil, List.append_nil]
    exact hp
  · rw [hinv]
    generalize pending h p.inbox = l at hp ⊢
    generalize confirmations h p.outbox = n at hp ⊢
    generalize outstanding h p.channel p.log = o at hp ⊢
    generalize life h p.history = k at hp ⊢
    cases hp with
    | idle => exact .waiting
    | leaving => exact .again
  · obtain ⟨h₁, h₂, h₃⟩ := isConfirmed_iff.mp hconf
    rw [h₁, h₂, h₃] at hp
    rw [hdel, h₁, h₂, h₃]
    generalize outstanding h p.channel p.log = o at hp ⊢
    cases hp
    exact .leaving

/-- A member after the master has sent commands. -/
theorem Member.commands (hp : Member m p)
    (hlegal : ∀ h, Legal h (inUse m h) cmds ∧ finalHeld h (inUse m h) cmds = inUse m' h)
    (hcmds : ∀ h, (pending h cmds = [] ∧ m'.cleaning.contains h = m.cleaning.contains h) ∨
      (pending h cmds = [.invalidateEntryCmd] ∧ m.cleaning.contains h = false ∧
        m'.cleaning.contains h = true) ∨
      (pending h cmds = [.deleteEntryCmd] ∧ m.cleaning.contains h = true ∧
        m'.cleaning.contains h = false ∧ isConfirmed h p = true)) :
    Member m' { p with inbox := p.inbox ++ cmds } := by
  refine ⟨fun h => (hp.phase h).commands (hcmds h), fun h => ?_, hp.noJoin⟩
  obtain ⟨h₁, h₂⟩ := hp.legal h
  dsimp only
  rw [legal_append, finalHeld_append, h₂]
  exact ⟨⟨h₁, (hlegal h).1⟩, (hlegal h).2⟩

/-- An end after the master has sent commands. -/
theorem EndOk.broadcast (hp : EndOk m issued p) (hsub : ∀ x ∈ issued, x ∈ issued')
    (hreq : ∀ c ∈ entryRequests p.outbox, c ∉ issued'.map Prod.fst)
    (hann : ∀ msg ∈ cmds, msg.type = .newEntryConf → (msg.data1, msg.data0) ∈ issued')
    (hmem : p.joined = true → Member m' { p with inbox := p.inbox ++ cmds }) :
    EndOk m' issued' (broadcast cmds p) := by
  cases hj : p.joined with
  | true =>
    rw [Dueca.Protocol.broadcast, if_pos hj]
    refine ⟨hp.sane, hp.creation, fun c hc => ?_, hp.distinct, fun msg hmsg htype => ?_,
      fun k e hk he => hsub _ (hp.holders k e hk he), fun _ => hmem hj, fun hnot => ?_⟩
    · obtain ⟨h₁, h₂, -⟩ := hp.requests c hc
      exact ⟨h₁, h₂, hreq c hc⟩
    · rcases List.mem_append.mp hmsg with hmsg | hmsg
      · exact hsub _ (hp.announced msg hmsg htype)
      · exact hann msg hmsg htype
    · dsimp only at hnot
      rw [hj] at hnot
      cases hnot
  | false =>
    rw [Dueca.Protocol.broadcast, if_neg (by simp [hj])]
    refine ⟨hp.sane, hp.creation, fun c hc => ?_, hp.distinct,
      fun msg hmsg htype => hsub _ (hp.announced msg hmsg htype),
      fun k e hk he => hsub _ (hp.holders k e hk he), fun hnot => ?_, hp.stranger⟩
    · obtain ⟨h₁, h₂, -⟩ := hp.requests c hc
      exact ⟨h₁, h₂, hreq c hc⟩
    · rw [hj] at hnot
      cases hnot

/-- A request of a member is taken. -/
theorem EndOk.taken (hp : EndOk m issued p) (hjoined : p.joined = true)
    (hout : p.outbox = r :: rest) : EndOk m issued { p with outbox := rest } := by
  have hsub : ∀ c ∈ entryRequests rest, c ∈ entryRequests p.outbox := by
    intro c hc
    rw [hout, ← List.singleton_append, entryRequests_append]
    exact List.mem_append_right _ hc
  refine ⟨hp.sane, hp.creation, fun c hc => hp.requests c (hsub c hc), ?_, hp.announced, hp.holders,
    fun _ => ((hp.member hjoined).taken hout).1, fun hnot => ?_⟩
  · have := hp.distinct
    rw [hout, ← List.singleton_append, entryRequests_append] at this
    exact (List.nodup_append.mp this).2.1
  · dsimp only at hnot
    rw [hjoined] at hnot
    cases hnot

/-- The request to join is taken while no entry waits to be cleaned: the end is told all
there is. -/
theorem EndOk.join (hp : EndOk m issued p) (hout : p.outbox = r :: rest) (hjoined : p.joined = false)
    (hmove : Move m r m' cmds) (htype : r.type = .newEndJoins) (hclean : m.toBeCleaned = [])
    (hann : ∀ msg ∈ cmds, msg.type = .newEntryConf → (msg.data1, msg.data0) ∈ issued) :
    EndOk m' issued { p with outbox := rest, joined := true, inbox := cmds } := by
  have hs := hp.stranger hjoined
  have hempty : m.cleaning = [] := by rw [UnifiedChannelMaster.cleaning, hclean]; rfl
  obtain ⟨r', rest', hout', -, hrest⟩ := hs.outbox
  obtain ⟨rfl, rfl⟩ : r = r' ∧ rest = rest' := by
    rw [hout] at hout'
    exact ⟨(List.cons.inj hout').1, (List.cons.inj hout').2⟩
  have hreq : entryRequests p.outbox = entryRequests rest := by
    rw [hout, ← List.singleton_append, entryRequests_append]
    simp [entryRequests, htype]
  refine ⟨hp.sane, hp.creation, hreq ▸ hp.requests, hreq ▸ hp.distinct, hann, hp.holders,
    fun _ => ?_, fun hnot => by cases hnot⟩
  cases hmove with
  | join hr hname hdirty hends hcmds hall =>
    have hempty' : m'.cleaning = [] := by
      rw [UnifiedChannelMaster.cleaning, hdirty, hclean]
      rfl
    refine ⟨fun h => ?_, fun h => ?_, hrest⟩
    · have hnil : pending h cmds = [] := pending_eq_nil fun msg hmsg => by
        rcases hcmds msg hmsg with ht | ⟨ht, -⟩ <;> rw [ht] <;> simp
      have hconf : confirmations h rest = 0 := by
        have := hs.noConf h
        rw [hout, confirmations_cons] at this
        omega
      have hzero : outstanding h p.channel p.log = 0 := by simp only [outstanding, hs.held]
      simp only [InPhase, hempty', hnil, hconf, hzero, hs.history]
      exact .idle
    · obtain ⟨hlegal, hfinal⟩ := legal_announcements h false cmds
        fun msg hmsg => by rcases hcmds msg hmsg with ht | ⟨ht, -⟩ <;> simp [needsEntry, ht]
      simp only [hs.held, Option.isSome_none]
      refine ⟨hlegal, ?_⟩
      rw [Bool.eq_iff_iff, hfinal, inUse, hname, hempty']
      simp only [Bool.false_eq_true, false_or, List.contains_nil, Bool.or_false]
      constructor
      · rintro ⟨msg, hmsg, ht, rfl⟩
        rcases hcmds msg hmsg with ht' | ⟨-, hn⟩
        · rw [ht'] at ht
          cases ht
        · rw [hn]
          rfl
      · exact hall h
  | plain hr => exact absurd htype hr
  | issue newid conf rest hr => rw [hr] at htype; cases htype
  | invalidate hd hr => rw [hr] at htype; cases htype
  | count front rest n hr => rw [hr] at htype; cases htype
  | delete front rest hr => rw [hr] at htype; cases htype

/-! ### Counting the ends -/

theorem broadcast_joined (cmds : List UChannelCommRequest) (p : Participant) :
    (broadcast cmds p).joined = p.joined := by
  rw [broadcast]
  split <;> rfl

theorem broadcast_channel (cmds : List UChannelCommRequest) (p : Participant) :
    (broadcast cmds p).channel = p.channel := by
  rw [broadcast]
  split <;> rfl

theorem isConfirmed_broadcast (hnil : pending h cmds = []) :
    isConfirmed h (broadcast cmds p) = isConfirmed h p := by
  rw [broadcast]
  split
  · simp only [isConfirmed, pending_append, hnil, List.append_nil]
  · rfl

theorem unconfirmed_broadcast (hnil : pending h cmds = []) (ends : List Participant) :
    unconfirmed h (ends.map (broadcast cmds)) = unconfirmed h ends := by
  rw [unconfirmed, List.countP_map, unconfirmed]
  refine List.countP_congr fun p _ => ?_
  simp only [Function.comp_apply, broadcast_joined, isConfirmed_broadcast hnil]

theorem unconfirmed_le_joined (h : ℕ) (ends : List Participant) :
    unconfirmed h ends ≤ ends.countP (·.joined) :=
  List.countP_mono_left fun p _ hp => by
    simp only [Bool.and_eq_true] at hp
    exact hp.1

theorem unconfirmed_set {ends : List Participant} {k : ℕ} (hk : ends[k]? = some p)
    (p' : Participant) :
    unconfirmed h (ends.set k p') + (if p.joined && !isConfirmed h p then 1 else 0) =
      unconfirmed h ends + (if p'.joined && !isConfirmed h p' then 1 else 0) := by
  obtain ⟨hlt, hget⟩ := List.getElem?_eq_some_iff.mp hk
  have hset := List.countP_set (p := fun q : Participant => q.joined && !isConfirmed h q)
    (l := ends) (a := p') hlt
  have hpos : (if p.joined && !isConfirmed h p then 1 else 0) ≤ unconfirmed h ends := by
    split
    · rename_i hp
      exact List.countP_pos_iff.mpr ⟨p, hget ▸ List.getElem_mem hlt, hp⟩
    · exact Nat.zero_le _
  rw [hget] at hset
  simp only [unconfirmed] at hpos ⊢
  omega

/-- A step of an end does not make an id unconfirmed. -/
theorem unconfirmed_step {ends : List Participant} {k : ℕ} (hk : ends[k]? = some p)
    (hstep : EndStep p p') : unconfirmed h (ends.set k p') ≤ unconfirmed h ends := by
  have hset := unconfirmed_set (h := h) hk p'
  have hle : (if p'.joined && !isConfirmed h p' then 1 else 0) ≤
      if p.joined && !isConfirmed h p then 1 else 0 := by
    rw [hstep.joined]
    cases hj : p.joined with
    | false => simp
    | true =>
      cases hc : isConfirmed h p with
      | false =>
        simp only [Bool.not_false, Bool.and_true, if_true]
        split <;> omega
      | true => simp [hstep.confirmed h hc hj]
  omega

theorem countP_joined_set {ends : List Participant} {k : ℕ} (hk : ends[k]? = some p)
    (p' : Participant) :
    (ends.set k p').countP (·.joined) + (if p.joined then 1 else 0) =
      ends.countP (·.joined) + if p'.joined then 1 else 0 := by
  obtain ⟨hlt, hget⟩ := List.getElem?_eq_some_iff.mp hk
  have hset := List.countP_set (p := fun q : Participant => q.joined) (l := ends) (a := p') hlt
  have hpos : (if p.joined then 1 else 0) ≤ ends.countP (·.joined) := by
    split
    · rename_i hp
      exact List.countP_pos_iff.mpr ⟨p, hget ▸ List.getElem_mem hlt, hp⟩
    · exact Nat.zero_le _
  rw [hget] at hset
  omega

/-! ### One action -/

/-- Distinct node numbers below 256. -/
theorem length_le_of_nodup {l : List ℕ} (hnodup : l.Nodup) (hlt : ∀ x ∈ l, x < 0x100) :
    l.length ≤ 0x100 := by
  have hsub : l ⊆ List.range 0x100 := fun x hx => List.mem_range.mpr (hlt x hx)
  have := (List.subperm_of_subset hnodup hsub).length_le
  simpa using this

variable {sys sys' : System}

/-- An end takes a step by itself. -/
theorem Inv.onEnd (hI : Inv sys issued) {f : Participant → Except Fault Participant} {k : ℕ}
    (hf : ∀ p p', sys.ends[k]? = some p → f p = .ok p' →
      EndOk sys.master issued p' ∧ EndStep p p')
    (hs : sys.onEnd k f = .ok sys') : Inv sys' issued := by
  simp only [System.onEnd] at hs
  split at hs
  · cases hs
    exact hI
  rename_i p hk
  split at hs
  · cases hs
  rename_i p' hp'
  cases hs
  obtain ⟨hok, hstep⟩ := hf p p' hk hp'
  have hmem : p ∈ sys.ends := List.mem_of_getElem? hk
  obtain ⟨hlt, hget⟩ := List.getElem?_eq_some_iff.mp hk
  have hlocs : (sys.ends.set k p').map (·.channel.id.location) =
      sys.ends.map (·.channel.id.location) := by
    refine List.ext_getElem (by simp) fun i h₁ h₂ => ?_
    simp only [List.getElem_map, List.getElem_set]
    split
    · rename_i hik
      subst hik
      rw [hget, hstep.location]
    · rfl
  refine ⟨hI.ids, fun q hq => ?_, ?_, fun q hq => ?_, ?_, hI.names, hI.active, fun c hc => ?_,
    fun item hitem => ?_⟩
  · rcases List.mem_or_eq_of_mem_set hq with hq | rfl
    · exact hI.ends q hq
    · exact hok
  · dsimp only
    rw [hlocs]
    exact hI.locations
  · rcases List.mem_or_eq_of_mem_set hq with hq | rfl
    · exact hI.small q hq
    · rw [hstep.location]
      exact hI.small p hmem
  · have := countP_joined_set hk p'
    rw [hstep.joined] at this
    dsimp only
    rw [hI.numEnds]
    omega
  · obtain ⟨q, hq, hloc, hlt'⟩ := hI.writers c hc
    by_cases hqp : q = p
    · subst hqp
      refine ⟨p', List.mem_set hlt p', ?_, ?_⟩
      · rw [hstep.location]
        exact hloc
      · exact Nat.lt_of_lt_of_le hlt' hstep.creation
    · obtain ⟨i, hi, hgi⟩ := List.getElem_of_mem hq
      have hik : k ≠ i := by
        rintro rfl
        exact hqp (hgi.symm.trans hget)
      refine ⟨q, ?_, hloc, hlt'⟩
      refine List.mem_iff_getElem.mpr ⟨i, by simpa using hi, ?_⟩
      rw [List.getElem_set_ne hik, hgi]
  · obtain ⟨h₁, h₂⟩ := hI.dirty item hitem
    exact ⟨Nat.le_trans (unconfirmed_step hk hstep) h₁, h₂⟩

/-- The list of issued ids after a move: a new entry adds its own, under a provisional id
that was not there. -/
theorem Move.names (hmove : Move m r m' cmds) (hnames : (issued.map Prod.fst).Nodup)
    (hactive : ∀ h c, nameOf m h = some c → (c, h) ∈ issued)
    (hnew : r.type = .newEntryReq → r.data1 ∉ issued.map Prod.fst) :
    ∃ issued' : List (ℕ × ℕ), (∀ x ∈ issued, x ∈ issued') ∧ (issued'.map Prod.fst).Nodup ∧
      (∀ h c, nameOf m' h = some c → (c, h) ∈ issued') ∧
      (∀ msg ∈ cmds, msg.type = .newEntryConf → (msg.data1, msg.data0) ∈ issued') ∧
      ∀ c ∈ issued'.map Prod.fst, c ∈ issued.map Prod.fst ∨ r.type = .newEntryReq ∧ c = r.data1 := by
  cases hmove with
  | plain hr hname hdirty hends hcmds =>
    refine ⟨issued, fun x hx => hx, hnames, hname ▸ hactive, fun msg hmsg htype => ?_,
      fun c hc => .inl hc⟩
    rw [hcmds msg hmsg] at htype
    cases htype
  | join hr hname hdirty hends hcmds hall =>
    refine ⟨issued, fun x hx => hx, hnames, hname ▸ hactive, fun msg hmsg htype => ?_,
      fun c hc => .inl hc⟩
    rcases hcmds msg hmsg with ht | ⟨-, hn⟩
    · rw [ht] at htype
      cases htype
    · exact hactive _ _ hn
  | issue newid conf rest hr hfree hclean hname hdirty hends hcmds hconf hid hrest =>
    refine ⟨(r.data1, newid) :: issued, fun x hx => List.mem_cons_of_mem _ hx, ?_, fun h c hc => ?_,
      fun msg hmsg htype => ?_, fun c hc => ?_⟩
    · exact List.nodup_cons.mpr ⟨hnew hr, hnames⟩
    · rw [hname] at hc
      by_cases hh : h = newid
      · subst hh
        rw [Function.update_self] at hc
        rw [← Option.some.inj hc]
        exact List.mem_cons_self
      · rw [Function.update_of_ne hh] at hc
        exact List.mem_cons_of_mem _ (hactive h c hc)
    · rw [hcmds] at hmsg
      rcases List.mem_cons.mp hmsg with rfl | hmsg
      · rw [hid.1, hid.2]
        exact List.mem_cons_self
      · rw [hrest msg hmsg] at htype
        cases htype
    · rcases List.mem_cons.mp hc with hc | hc
      · exact .inr ⟨hr, hc⟩
      · exact .inl hc
  | invalidate hd hr hact hname hdirty hends hcmds =>
    refine ⟨issued, fun x hx => hx, hnames, fun h c hc => ?_, fun msg hmsg htype => ?_,
      fun c hc => .inl hc⟩
    · rw [hname] at hc
      by_cases hh : h = hd
      · subst hh
        rw [Function.update_self] at hc
        cases hc
      · rw [Function.update_of_ne hh] at hc
        exact hactive h c hc
    · rw [hcmds] at hmsg
      rw [List.mem_singleton.mp hmsg] at htype
      cases htype
  | count front rest n hr hfront hid hn hname hdirty hends hcmds =>
    refine ⟨issued, fun x hx => hx, hnames, hname ▸ hactive, fun msg hmsg htype => ?_,
      fun c hc => .inl hc⟩
    rw [hcmds] at hmsg
    cases hmsg
  | delete front rest hr hfront hid hn hname hdirty hends hcmds =>
    refine ⟨issued, fun x hx => hx, hnames, hname ▸ hactive, fun msg hmsg htype => ?_,
      fun c hc => .inl hc⟩
    rw [hcmds] at hmsg
    rw [List.mem_singleton.mp hmsg] at htype
    cases htype

/-- The number of ends, but for an end that joins. -/
theorem Move.numEnds (hmove : Move m r m' cmds) (hr : r.type ≠ .newEndJoins) :
    m'.numEnds = m.numEnds := by
  cases hmove with
  | join hr' => exact absurd hr' hr
  | plain hr hname hdirty hends => exact hends
  | issue newid conf rest hr hfree hclean hname hdirty hends => exact hends
  | invalidate hd hr hact hname hdirty hends => exact hends
  | count front rest n hr hfront hid hn hname hdirty hends => exact hends
  | delete front rest hr hfront hid hn hname hdirty hends => exact hends

/-- The ids that wait to be cleaned are different. -/
theorem cleaning_nodup (hI : IdInv m) : m.cleaning.Nodup := by
  refine List.nodup_iff_count_le_one.mpr fun h => ?_
  by_cases hmem : h ∈ m.cleaning
  · have hlt := hI.sound.issued h (.inl hmem)
    have hflag := hI.sound.flags h _ (List.getElem?_eq_getElem hlt)
    have hle : m.idView.cleaning.count h ≤ 1 := by
      split at hflag <;> omega
    exact hle
  · rw [List.count_eq_zero_of_not_mem hmem]
    exact Nat.zero_le _

/-- The count of confirmations of the ids that wait after a move by a member, where `ends`
is the list with the request taken. -/
theorem Move.dirty {ends : List Participant} (hmove : Move m r m' cmds) (hI : IdInv m)
    (hr : r.type ≠ .newEndJoins) (hnum : m.numEnds = ends.countP (·.joined))
    (hsmall : m.numEnds < 2 ^ 32)
    (hdirty : ∀ item ∈ m.toBeCleaned, item.stilldirty < 2 ^ 32 ∧
      unconfirmed item.entry ends +
        (if r.data0 = item.entry ∧ r.type = .cleanEntryConf then 1 else 0) ≤ item.stilldirty) :
    ∀ item ∈ m'.toBeCleaned, unconfirmed item.entry (ends.map (broadcast cmds)) ≤ item.stilldirty ∧
      item.stilldirty < 2 ^ 32 := by
  have hnodup := cleaning_nodup hI
  -- ids without new commands
  have hkeep : ∀ item ∈ m.toBeCleaned, pending item.entry cmds = [] →
      unconfirmed item.entry (ends.map (broadcast cmds)) ≤ item.stilldirty ∧
        item.stilldirty < 2 ^ 32 := by
    intro item hitem hnil
    obtain ⟨h₁, h₂⟩ := hdirty item hitem
    rw [unconfirmed_broadcast hnil]
    exact ⟨by omega, h₁⟩
  have hpending := fun h => hmove.pending_cases hI h
  cases hmove with
  | join hr' => exact absurd hr' hr
  | plain hr hname hdirty' hends hcmds =>
    rw [hdirty']
    refine fun item hitem => hkeep item hitem (pending_eq_nil fun msg hmsg => ?_)
    rw [hcmds msg hmsg]
    simp
  | issue newid conf rest hr hfree hclean hname hdirty' hends hcmds hconf hid hrest =>
    rw [hdirty']
    refine fun item hitem => hkeep item hitem (pending_eq_nil fun msg hmsg => ?_)
    rw [hcmds] at hmsg
    rcases List.mem_cons.mp hmsg with rfl | hmsg
    · rw [hconf]
      simp
    · rw [hrest msg hmsg]
      simp
  | invalidate hd hr hact hname hdirty' hends hcmds =>
    rw [hdirty']
    intro item hitem
    rcases List.mem_append.mp hitem with hitem | hitem
    · refine hkeep item hitem ?_
      rcases hpending item.entry with ⟨hnil, -⟩ | ⟨-, hnot, -⟩ | ⟨-, -, ht, -⟩
      · exact hnil
      · -- it waits already
        have : item.entry ∈ m.cleaning := List.mem_map.mpr ⟨item, hitem, rfl⟩
        simp [this] at hnot
      · rw [hr] at ht
        cases ht
    · rw [List.mem_singleton.mp hitem]
      refine ⟨Nat.le_trans (unconfirmed_le_joined _ _) (Nat.le_of_eq ?_), hsmall⟩
      rw [List.countP_map, hnum]
      exact List.countP_congr fun p _ => by rw [Function.comp_apply, broadcast_joined]
  | count front rest n hr hfront hid hn hname hdirty' hends hcmds =>
    rw [hdirty']
    subst hcmds
    intro item hitem
    rcases List.mem_cons.mp hitem with rfl | hitem
    · obtain ⟨h₁, h₂⟩ := hdirty front (by rw [hfront]; exact List.mem_cons_self)
      rw [if_pos ⟨hid.symm, hr⟩] at h₂
      dsimp only
      rw [unconfirmed_broadcast rfl]
      have hdec : n = front.stilldirty - 1 := by
        rw [hn]
        omega
      omega
    · exact hkeep item (by rw [hfront]; exact List.mem_cons_of_mem _ hitem) rfl
  | delete front rest hr hfront hid hn hname hdirty' hends hcmds =>
    rw [hdirty']
    intro item hitem
    have hmem : item ∈ m.toBeCleaned := by
      rw [hfront]
      exact List.mem_cons_of_mem _ hitem
    refine hkeep item hmem (pending_eq_nil fun msg hmsg => ?_)
    rw [hcmds] at hmsg
    rw [List.mem_singleton.mp hmsg]
    rintro ⟨heq, -⟩
    -- the deleted id does not wait a second time
    rw [UnifiedChannelMaster.cleaning, hfront, List.map_cons, hid] at hnodup
    refine (List.nodup_cons.mp hnodup).1 ?_
    rw [show r.data0 = item.entry from heq]
    exact List.mem_map.mpr ⟨item, hitem, rfl⟩

theorem Inv.numEnds_lt (hI : Inv sys issued) : sys.ends.countP (·.joined) + 1 < 2 ^ 32 := by
  have hlen : (sys.ends.map (·.channel.id.location)).length ≤ 0x100 := by
    refine length_le_of_nodup hI.locations fun x hx => ?_
    obtain ⟨p, hp, rfl⟩ := List.mem_map.mp hx
    exact hI.small p hp
  have hle : sys.ends.countP (·.joined) ≤ sys.ends.length := List.countP_le_length
  rw [List.length_map] at hlen
  omega

/-- The end whose request is served, among the others. -/
theorem Inv.others {k : ℕ} (hI : Inv sys issued) (hk : sys.ends[k]? = some p) (p₀ : Participant)
    {q : Participant} (hq : q ∈ sys.ends.set k p₀) :
    q = p₀ ∨ q ∈ sys.ends ∧ q.channel.id.location ≠ p.channel.id.location := by
  obtain ⟨hlt, hget⟩ := List.getElem?_eq_some_iff.mp hk
  obtain ⟨i, hi, hgi⟩ := List.getElem_of_mem hq
  rw [List.getElem_set] at hgi
  split at hgi
  · exact .inl hgi.symm
  · rename_i hki
    rw [List.length_set] at hi
    refine .inr ⟨hgi ▸ List.getElem_mem hi, fun heq => hki ?_⟩
    have hlt' : k < (sys.ends.map (·.channel.id.location)).length := by simpa using hlt
    have hi' : i < (sys.ends.map (·.channel.id.location)).length := by simpa using hi
    have hsame : (sys.ends.map (·.channel.id.location))[k] =
        (sys.ends.map (·.channel.id.location))[i] := by
      rw [List.getElem_map, List.getElem_map, hget, hgi, heq]
    exact (List.Nodup.getElem_inj_iff hI.locations).mp hsame

/-- A served request of a member, where the request is taken before the commands go out. -/
theorem Inv.taken {k : ℕ} (hI : Inv sys issued) (hk : sys.ends[k]? = some p)
    (hjoined : p.joined = true) (hout : p.outbox = r :: rest) (h : ℕ) :
    unconfirmed h (sys.ends.set k { p with outbox := rest }) +
      (if r.data0 = h ∧ r.type = .cleanEntryConf then 1 else 0) = unconfirmed h sys.ends := by
  have hmem := (hI.ends p (List.mem_of_getElem? hk)).member hjoined
  obtain ⟨hnow, hnot⟩ := (hmem.taken hout).2 h
  have hset := unconfirmed_set (h := h) hk { p with outbox := rest }
  have hjoined₀ : ({ p with outbox := rest } : Participant).joined = true := hjoined
  generalize ({ p with outbox := rest } : Participant) = p₀ at hset hnow hjoined₀ ⊢
  rw [hnow, hjoined, hjoined₀] at hset
  by_cases hc : r.data0 = h ∧ r.type = .cleanEntryConf
  · have hc' : (r.data0 == h && r.type == .cleanEntryConf) = true := by simpa using hc
    rw [hc', Bool.and_true] at hnot
    rw [hc', hnot] at hset
    rw [if_pos hc]
    simpa using hset
  · have hc' : (r.data0 == h && r.type == .cleanEntryConf) = false := by simpa using hc
    rw [hc', Bool.or_false] at hset
    rw [if_neg hc]
    omega

/-- When the master deletes an id, all members have confirmed it. -/
theorem Inv.all_confirmed {k : ℕ} (hI : Inv sys issued) (hk : sys.ends[k]? = some p)
    (hjoined : p.joined = true) (hout : p.outbox = r :: rest) {front : CleaningData}
    {items : List CleaningData} (hr : r.type = .cleanEntryConf)
    (hfront : sys.master.toBeCleaned = front :: items) (hid : front.entry = r.data0)
    (hn : (front.stilldirty + (2 ^ 32 - 1)) % 2 ^ 32 = 0) :
    ∀ q ∈ sys.ends.set k { p with outbox := rest }, q.joined = true →
      isConfirmed r.data0 q = true := by
  obtain ⟨h₁, h₂⟩ := hI.dirty front (by rw [hfront]; exact List.mem_cons_self)
  have htaken := hI.taken hk hjoined hout r.data0
  rw [if_pos ⟨rfl, hr⟩] at htaken
  rw [hid] at h₁
  have hzero : unconfirmed r.data0 (sys.ends.set k { p with outbox := rest }) = 0 := by omega
  intro q hq hj
  have := List.countP_eq_zero.mp hzero q hq
  simpa [hj] using this

/-- Node numbers and writers depend on the ends' channels only. -/
theorem Inv.of_channels {ends' : List Participant} (hI : Inv sys issued)
    (hch : ends'.map (·.channel) = sys.ends.map (·.channel)) :
    (ends'.map (·.channel.id.location)).Nodup ∧ (∀ q ∈ ends', q.channel.id.location < 0x100) ∧
      ∀ q ∈ sys.ends, ∃ q' ∈ ends', q'.channel = q.channel := by
  refine ⟨?_, fun q hq => ?_, fun q hq => ?_⟩
  · have hsame := congrArg (List.map (·.id.location)) hch
    simp only [List.map_map, Function.comp_def] at hsame
    rw [hsame]
    exact hI.locations
  · have hmem : q.channel ∈ sys.ends.map (·.channel) := hch ▸ List.mem_map.mpr ⟨q, hq, rfl⟩
    obtain ⟨q', hq', heq⟩ := List.mem_map.mp hmem
    rw [← heq]
    exact hI.small q' hq'
  · have hmem : q.channel ∈ ends'.map (·.channel) := hch ▸ List.mem_map.mpr ⟨q, hq, rfl⟩
    obtain ⟨q', hq', heq⟩ := List.mem_map.mp hmem
    exact ⟨q', hq', heq⟩

/-- Taking a request and sending commands leave the channels of the ends alone. -/
theorem map_channel_serve {ends : List Participant} {k : ℕ} (hk : ends[k]? = some p)
    (p₀ : Participant) (hp₀ : p₀.channel = p.channel) (cmds : List UChannelCommRequest) :
    ((ends.set k p₀).map (broadcast cmds)).map (·.channel) = ends.map (·.channel) := by
  obtain ⟨hlt, hget⟩ := List.getElem?_eq_some_iff.mp hk
  refine List.ext_getElem (by simp) fun i h₁ h₂ => ?_
  simp only [List.getElem_map, broadcast_channel, List.getElem_set]
  split
  · rename_i hik
    subst hik
    rw [hget, hp₀]
  · rfl

/-- The master serves a request of a member. -/
theorem Inv.serve_member {k : ℕ} {out : List Master.Effect} (hI : Inv sys issued)
    (hk : sys.ends[k]? = some p) (hjoined : p.joined = true) (hout : p.outbox = r :: rest)
    (hserve : sys.master.processOne reg r = .ok (m', out)) :
    ∃ issued', Inv ⟨m', (sys.ends.set k { p with outbox := rest }).map
      (broadcast (commandsSent out))⟩ issued' := by
  have hmove := move_of_ok hI.ids hserve
  have hp := hI.ends p (List.mem_of_getElem? hk)
  have hr : r.type ≠ .newEndJoins := by
    have := (hp.member hjoined).noJoin
    rw [hout, hasJoin, List.any_cons, Bool.or_eq_false_iff] at this
    simpa using this.1
  have hids' : IdInv m' :=
    hI.ids.preserved (step_eq_ok.mpr ⟨out, show respond reg _ (.request r) = _ from hserve⟩)
  have hreq : r.type = .newEntryReq → r.data1 ∈ entryRequests p.outbox := by
    intro ht
    rw [hout, entryRequests, List.filter_cons_of_pos (by simp [ht])]
    exact List.mem_cons_self
  obtain ⟨issued', hsub, hnames', hactive', hann', hback⟩ := hmove.names hI.names hI.active
    fun ht => (hp.requests _ (hreq ht)).2.2
  have hnum : (sys.ends.set k { p with outbox := rest }).countP (·.joined) =
      sys.ends.countP (·.joined) := by
    have := countP_joined_set hk { p with outbox := rest }
    dsimp only at this
    omega
  -- each end with the request taken
  have hends : ∀ q ∈ sys.ends.set k { p with outbox := rest }, EndOk sys.master issued q ∧
      ∀ c ∈ entryRequests q.outbox, c ∉ issued'.map Prod.fst := by
    intro q hq
    rcases hI.others hk _ hq with rfl | ⟨hq, hloc⟩
    · have hok := hp.taken hjoined hout
      refine ⟨hok, fun c hc hmem => ?_⟩
      rcases hback c hmem with hmem | ⟨ht, rfl⟩
      · exact (hok.requests c hc).2.2 hmem
      · have hdistinct := hp.distinct
        rw [hout, entryRequests, List.filter_cons_of_pos (by simp [ht]), List.map_cons] at hdistinct
        exact (List.nodup_cons.mp hdistinct).1 hc
    · have hok := hI.ends q hq
      refine ⟨hok, fun c hc hmem => ?_⟩
      obtain ⟨h₁, -, h₃⟩ := hok.requests c hc
      rcases hback c hmem with hmem | ⟨ht, rfl⟩
      · exact h₃ hmem
      · exact hloc (h₁.symm.trans (hp.requests _ (hreq ht)).1)
  obtain ⟨hlocs, hsmall, hfind⟩ := hI.of_channels
    (map_channel_serve hk { p with outbox := rest } rfl (commandsSent out))
  refine ⟨issued', hids', fun q hq => ?_, hlocs, hsmall, ?_, hnames', hactive', fun c hc => ?_, ?_⟩
  · obtain ⟨q', hq', rfl⟩ := List.mem_map.mp hq
    obtain ⟨hok, hfree⟩ := hends q' hq'
    refine hok.broadcast hsub hfree hann' fun hj => ?_
    refine (hok.member hj).commands (fun h => hmove.legal hI.ids h) fun h => ?_
    rcases hmove.pending_cases hI.ids h with hc | hc | ⟨h₁, h₂, h₃, h₄, h₅⟩
    · exact .inl hc
    · exact .inr (.inl hc)
    · -- a deletion: the member has confirmed
      refine .inr (.inr ⟨h₁, h₄, h₅, ?_⟩)
      cases hmove with
      | delete front items hr hfront hid hn hname hdirty hends hcmds =>
        rw [← h₂]
        exact hI.all_confirmed hk hjoined hout hr hfront hid hn q' hq' hj
      | plain hr hname hdirty hends hcmds =>
        rw [pending_eq_nil fun msg hmsg => by rw [hcmds msg hmsg]; simp] at h₁
        cases h₁
      | join hr' => exact absurd hr' hr
      | issue newid conf rest hr => rw [hr] at h₃; cases h₃
      | invalidate hd hr => rw [hr] at h₃; cases h₃
      | count front items n hr hfront hid hn hname hdirty hends hcmds =>
        rw [hcmds] at h₁
        cases h₁
  · dsimp only
    rw [hmove.numEnds hr, hI.numEnds, List.countP_map, ← hnum]
    exact List.countP_congr fun q _ => by rw [Function.comp_apply, broadcast_joined]
  · -- the writer of each provisional id
    rcases hback c hc with hc | ⟨ht, rfl⟩
    · obtain ⟨q, hq, hloc, hlt⟩ := hI.writers c hc
      obtain ⟨q', hq', heq⟩ := hfind q hq
      exact ⟨q', hq', by rw [heq]; exact hloc, by rw [heq]; exact hlt⟩
    · obtain ⟨q', hq', heq⟩ := hfind p (List.mem_of_getElem? hk)
      obtain ⟨hloc, hlt, -⟩ := hp.requests _ (hreq ht)
      exact ⟨q', hq', by rw [heq]; exact hloc.symm, by rw [heq]; exact hlt⟩
  · refine hmove.dirty hI.ids hr (hI.numEnds.trans hnum.symm) ?_ fun item hitem => ?_
    · have := hI.numEnds_lt
      rw [hI.numEnds]
      omega
    · obtain ⟨h₁, h₂⟩ := hI.dirty item hitem
      refine ⟨h₂, ?_⟩
      rw [hI.taken hk hjoined hout]
      exact h₁

/-- The master serves a request to join, while no entry waits to be cleaned. -/
theorem Inv.serve_join {k : ℕ} {out : List Master.Effect} (hI : Inv sys issued)
    (hk : sys.ends[k]? = some p) (hjoined : p.joined = false) (hout : p.outbox = r :: rest)
    (htype : r.type = .newEndJoins) (hclean : sys.master.toBeCleaned = [])
    (hserve : sys.master.processOne reg r = .ok (m', out)) :
    Inv ⟨m', (sys.ends.set k { p with outbox := rest, joined := true }).map
      (broadcast (commandsSent out))⟩ issued := by
  have hmove := move_of_ok hI.ids hserve
  have hp := hI.ends p (List.mem_of_getElem? hk)
  have hids' : IdInv m' :=
    hI.ids.preserved (step_eq_ok.mpr ⟨out, show respond reg _ (.request r) = _ from hserve⟩)
  obtain ⟨hlocs, hsmall, hfind⟩ := hI.of_channels
    (map_channel_serve hk { p with outbox := rest, joined := true } rfl (commandsSent out))
  obtain ⟨hname, hdirty, hends, hann⟩ : nameOf m' = nameOf sys.master ∧
      m'.toBeCleaned = sys.master.toBeCleaned ∧
      m'.numEnds = (sys.master.numEnds + 1) % 2 ^ 32 ∧
      ∀ msg ∈ commandsSent out, msg.type = .newEntryConf → (msg.data1, msg.data0) ∈ issued := by
    cases hmove with
    | join hr hname hdirty hends hcmds hall =>
      refine ⟨hname, hdirty, hends, fun msg hmsg ht => ?_⟩
      rcases hcmds msg hmsg with ht' | ⟨-, hn⟩
      · rw [ht'] at ht
        cases ht
      · exact hI.active _ _ hn
    | plain hr => exact absurd htype hr
    | issue newid conf rest hr => rw [hr] at htype; cases htype
    | invalidate hd hr => rw [hr] at htype; cases htype
    | count front rest n hr => rw [hr] at htype; cases htype
    | delete front rest hr => rw [hr] at htype; cases htype
  refine ⟨hids', fun q hq => ?_, hlocs, hsmall, ?_, hI.names, ?_, fun c hc => ?_, ?_⟩
  · obtain ⟨q', hq', rfl⟩ := List.mem_map.mp hq
    rcases hI.others hk _ hq' with rfl | ⟨hq', -⟩
    · have hinbox : p.inbox = [] := (hp.stranger hjoined).inbox
      rw [broadcast, if_pos rfl, hinbox, List.nil_append]
      exact hp.join hout hjoined hmove htype hclean hann
    · have hok := hI.ends q' hq'
      refine hok.broadcast (fun x hx => hx) (fun c hc => (hok.requests c hc).2.2) hann fun hj => ?_
      refine (hok.member hj).commands (fun h => hmove.legal hI.ids h) fun h => ?_
      rcases hmove.pending_cases hI.ids h with hc | hc | ⟨-, -, h₃, -⟩
      · exact .inl hc
      · exact .inr (.inl hc)
      · rw [htype] at h₃
        cases h₃
  · have hcount := countP_joined_set hk { p with outbox := rest, joined := true }
    have hlt := hI.numEnds_lt
    dsimp only
    rw [hends, hI.numEnds, Nat.mod_eq_of_lt hlt, List.countP_map]
    rw [hjoined] at hcount
    simp only [Bool.false_eq_true, if_false, Nat.add_zero, if_true] at hcount
    rw [← hcount]
    exact List.countP_congr fun q _ => by rw [Function.comp_apply, broadcast_joined]
  · dsimp only
    rw [hname]
    exact hI.active
  · obtain ⟨q, hq, hloc, hlt⟩ := hI.writers c hc
    obtain ⟨q', hq', heq⟩ := hfind q hq
    exact ⟨q', hq', by rw [heq]; exact hloc, by rw [heq]; exact hlt⟩
  · dsimp only
    rw [hdirty, hclean]
    simp

/-- The master sweeps. -/
theorem Inv.sweep (hI : Inv sys issued) :
    Inv ⟨sys.master.sweep.1, sys.ends.map (broadcast (commandsSent sys.master.sweep.2))⟩ issued := by
  have hids' : IdInv sys.master.sweep.1 :=
    hI.ids.preserved (show Master.step flatRegistry sys.master .sweep = _ from rfl)
  have hsame : nameOf sys.master.sweep.1 = nameOf sys.master ∧
      sys.master.sweep.1.cleaning = sys.master.cleaning ∧
      sys.master.sweep.1.numEnds = sys.master.numEnds ∧
      (∀ msg ∈ commandsSent sys.master.sweep.2,
        msg.type = .cleanEntryCmd ∧ msg.data0 ∈ sys.master.cleaning) ∧
      ∀ item ∈ sys.master.sweep.1.toBeCleaned, item.stilldirty = sys.master.numEnds ∨
        item ∈ sys.master.toBeCleaned := by
    simp only [UnifiedChannelMaster.sweep]
    split
    · rename_i hnil
      exact ⟨rfl, rfl, rfl, by simp [commandsSent], by simp [hnil]⟩
    · rename_i front rest hfront
      refine ⟨rfl, by simp [UnifiedChannelMaster.cleaning, hfront], rfl, fun msg hmsg => ?_,
        fun item hitem => ?_⟩
      · simp only [commandsSent, List.filterMap_cons, List.filterMap_nil, List.mem_singleton] at hmsg
        rw [hmsg]
        exact ⟨rfl, by simp [UnifiedChannelMaster.cleaning, hfront]⟩
      · rcases List.mem_cons.mp hitem with rfl | hitem
        · exact .inl rfl
        · right
          rw [hfront]
          exact List.mem_cons_of_mem _ hitem
  obtain ⟨hname, hcl, hends, hcmds, hitems⟩ := hsame
  generalize commandsSent sys.master.sweep.2 = cmds at hcmds ⊢
  generalize sys.master.sweep.1 = m' at *
  have hnil : ∀ h, pending h cmds = [] := fun h => pending_eq_nil fun msg hmsg => by
    rw [(hcmds msg hmsg).1]
    simp
  have hch : (sys.ends.map (broadcast cmds)).map (·.channel) = sys.ends.map (·.channel) := by
    rw [List.map_map]
    exact List.map_congr_left fun p _ => broadcast_channel cmds p
  obtain ⟨hlocs, hsmall, hfind⟩ := hI.of_channels hch
  have hlegal : ∀ h, Legal h (inUse sys.master h) cmds ∧
      finalHeld h (inUse sys.master h) cmds = inUse m' h := by
    intro h
    have huse : inUse m' h = inUse sys.master h := by rw [inUse, inUse, hname, hcl]
    rw [huse]
    -- the swept id waits to be cleaned
    clear hnil hch hlocs hsmall hfind
    induction cmds with
    | nil => exact ⟨trivial, rfl⟩
    | cons msg msgs ih =>
      obtain ⟨htype, hmem⟩ := hcmds msg List.mem_cons_self
      obtain ⟨h₁, h₂⟩ := ih fun m hm => hcmds m (List.mem_cons_of_mem _ hm)
      have hkeep : heldAfter h (inUse sys.master h) msg = inUse sys.master h :=
        heldAfter_other (by simp [htype]) (by simp [htype])
      refine ⟨⟨fun heq _ => ?_, by rw [hkeep]; exact h₁⟩, ?_⟩
      · subst heq
        simp [inUse, hmem]
      · rw [finalHeld, List.foldl_cons, hkeep]
        exact h₂
  refine ⟨hids', fun q hq => ?_, hlocs, hsmall, ?_, hI.names, hname ▸ hI.active, fun c hc => ?_,
    fun item hitem => ?_⟩
  · obtain ⟨q', hq', rfl⟩ := List.mem_map.mp hq
    have hok := hI.ends q' hq'
    refine hok.broadcast (fun x hx => hx) (fun c hc => (hok.requests c hc).2.2)
      (fun msg hmsg ht => ?_) fun hj => ?_
    · rw [(hcmds msg hmsg).1] at ht
      cases ht
    · exact (hok.member hj).commands hlegal fun h => .inl ⟨hnil h, by rw [hcl]⟩
  · dsimp only
    rw [hends, hI.numEnds, List.countP_map]
    exact List.countP_congr fun q _ => by rw [Function.comp_apply, broadcast_joined]
  · obtain ⟨q, hq, hloc, hlt⟩ := hI.writers c hc
    obtain ⟨q', hq', heq⟩ := hfind q hq
    exact ⟨q', hq', by rw [heq]; exact hloc, by rw [heq]; exact hlt⟩
  · dsimp only
    rw [unconfirmed_broadcast (hnil _)]
    rcases hitems item hitem with heq | hitem
    · rw [heq, hI.numEnds]
      have := hI.numEnds_lt
      exact ⟨unconfirmed_le_joined _ _, by omega⟩
    · exact hI.dirty item hitem

/-- An end is made at a node that has none. -/
theorem Inv.newEnd (hI : Inv sys issued) {id : GlobalId} (hloc : id.location < 0x100)
    (hnew : ∀ p ∈ sys.ends, p.channel.id.location ≠ id.location) :
    Inv { sys with ends := sys.ends ++ [.create id] } issued := by
  refine ⟨hI.ids, fun p hp => ?_, ?_, fun p hp => ?_, ?_, hI.names, hI.active, fun c hc => ?_,
    fun item hitem => ?_⟩
  · rcases List.mem_append.mp hp with hp | hp
    · exact hI.ends p hp
    · rw [List.mem_singleton.mp hp]
      refine ⟨sane_create id, ?_, ?_, ?_, ?_, ?_, ?_, fun _ => ⟨rfl, ?_, ?_, ?_, ?_⟩⟩
      · simp only [Participant.create, UnifiedChannel.create, Nat.add_mod_right]
        exact Nat.mod_eq_of_lt hloc
      · simp [Participant.create, entryRequests]
      · simp [Participant.create, entryRequests]
      · simp [Participant.create]
      · simp [Participant.create, UnifiedChannel.create, UnifiedChannel.held]
      · simp [Participant.create]
      · simp [Participant.create, UnifiedChannel.create, UnifiedChannel.held]
      · exact fun h => rfl
      · simp [Participant.create, confirmations]
      · exact ⟨_, [], rfl, rfl, rfl⟩
  · rw [List.map_append]
    refine List.nodup_append.mpr ⟨hI.locations, List.nodup_singleton _, fun x hx y hy => ?_⟩
    obtain ⟨p, hp, rfl⟩ := List.mem_map.mp hx
    rw [List.mem_singleton.mp hy]
    exact hnew p hp
  · rcases List.mem_append.mp hp with hp | hp
    · exact hI.small p hp
    · rw [List.mem_singleton.mp hp]
      exact hloc
  · dsimp only
    rw [List.countP_append, hI.numEnds]
    rfl
  · obtain ⟨p, hp, hpc⟩ := hI.writers c hc
    exact ⟨p, List.mem_append_left _ hp, hpc⟩
  · have hsame : unconfirmed item.entry (sys.ends ++ [.create id]) =
        unconfirmed item.entry sys.ends := by
      rw [unconfirmed, List.countP_append]
      rfl
    rw [hsame]
    exact hI.dirty item hitem

/-- No end joins while entries wait to be cleaned, and the provisional ids of an end do
not run out. -/
def Orderly (sys : System) : Action → Prop
  | .serve k => ∀ p r rest, sys.ends[k]? = some p → p.outbox = r :: rest →
      r.type = .newEndJoins → sys.master.toBeCleaned = []
  | .act k (.addWriteToken _) => ∀ p, sys.ends[k]? = some p → p.channel.creationId + 0x100 < 2 ^ 32
  | _ => True

/-- An orderly action keeps the invariant. -/
theorem Inv.step {a : Action} (hI : Inv sys issued) (hok : Orderly sys a)
    (hs : step reg sys a = .ok sys') : ∃ issued', Inv sys' issued' := by
  cases a with
  | newEnd id =>
    simp only [Dueca.Protocol.step] at hs
    split at hs
    · rename_i hc
      cases hs
      exact ⟨issued, hI.newEnd hc.1 hc.2⟩
    · cases hs
      exact ⟨issued, hI⟩
  | act k i =>
    by_cases hconf : ∃ msg, i = .updateConfiguration msg
    · obtain ⟨msg, rfl⟩ := hconf
      cases hs
      exact ⟨issued, hI⟩
    · have hs' : sys.onEnd k (fun p => p.respond reg i) = .ok sys' := by
        cases i <;> first | exact hs | exact absurd ⟨_, rfl⟩ hconf
      refine ⟨issued, hI.onEnd (fun p p' hk hr => ?_) hs'⟩
      have hmem := List.mem_of_getElem? hk
      refine (hI.ends p hmem).act (fun c hc hloc => ?_) (fun spec hspec => ?_)
        (fun msg hmsg => hconf ⟨msg, hmsg⟩) hr
      · -- the end that made the provisional id is this one
        obtain ⟨q, hq, hqloc, hlt⟩ := hI.writers c hc
        have hqp : q = p :=
          List.inj_on_of_nodup_map hI.locations hq hmem (hqloc.trans hloc)
        rw [← hqp]
        exact hlt
      · subst hspec
        exact hok p hk
  | receive k =>
    refine ⟨issued, hI.onEnd (fun p p' hk hr => ?_) hs⟩
    exact (hI.ends p (List.mem_of_getElem? hk)).receive hI.names hr
  | serve k =>
    simp only [Dueca.Protocol.step, System.serve] at hs
    split at hs
    · cases hs
      exact ⟨issued, hI⟩
    rename_i p hk
    split at hs
    · cases hs
      exact ⟨issued, hI⟩
    rename_i r rest hout
    split at hs
    · cases hs
    rename_i m out hserve
    cases hs
    have hp := hI.ends p (List.mem_of_getElem? hk)
    cases hj : p.joined with
    | true =>
      have hr : r.type ≠ .newEndJoins := by
        have := (hp.member hj).noJoin
        rw [hout, hasJoin, List.any_cons, Bool.or_eq_false_iff] at this
        simpa using this.1
      have htaken : p.taken = { p with outbox := rest } := by
        simp only [Participant.taken, hout, hj, Bool.true_or]
      rw [htaken]
      exact hI.serve_member hk hj hout hserve
    | false =>
      have htype : r.type = .newEndJoins := by
        obtain ⟨r', rest', hout', ht, -⟩ := (hp.stranger hj).outbox
        rw [hout] at hout'
        rw [(List.cons.inj hout').1]
        exact ht
      have htaken : p.taken = { p with outbox := rest, joined := true } := by
        simp only [Participant.taken, hout, htype, beq_self_eq_true, Bool.or_true]
      rw [htaken]
      exact ⟨issued, hI.serve_join hk hj hout htype (hok p r rest hk hout htype) hserve⟩
  | sweep =>
    cases hs
    exact ⟨issued, hI.sweep⟩

/-! ### Every run -/

theorem inv_init : Inv {} [] := by
  refine ⟨idInv_init, ?_, ?_, ?_, ?_, ?_, ?_, ?_, ?_⟩ <;> simp [nameOf, nameIn]

/-- What must hold in every state: when the master is about to delete an entry, each end
that holds it has reported it clean since it was invalidated; and a command that needs an
entry finds it held. -/
structure Safe (reg : DataClassRegistry) (sys : System) : Prop where
  reported : ∀ (k : ℕ) (p : Participant) r rest m out h, sys.ends[k]? = some p →
    p.outbox = r :: rest → sys.master.processOne reg r = .ok (m, out) →
    .send { type := .deleteEntryCmd, data0 := h } ∈ out →
    ∀ q ∈ sys.ends, (q.channel.held h).isSome → life h q.history = some true
  held : ∀ p ∈ sys.ends, ∀ msg rest, p.inbox = msg :: rest → needsEntry msg = true →
    (p.channel.held msg.data0).isSome

/-- The master deletes an entry only when the last confirmation is in. -/
theorem Move.deletes (hmove : Move m r m' cmds)
    (hdel : ({ type := .deleteEntryCmd, data0 := h } : UChannelCommRequest) ∈ cmds) :
    r.type = .cleanEntryConf ∧ r.data0 = h ∧ ∃ front items, m.toBeCleaned = front :: items ∧
      front.entry = r.data0 ∧ (front.stilldirty + (2 ^ 32 - 1)) % 2 ^ 32 = 0 := by
  cases hmove with
  | plain hr hname hdirty hends hcmds => exact absurd (hcmds _ hdel) (by simp)
  | join hr hname hdirty hends hcmds hall =>
    rcases hcmds _ hdel with ht | ⟨ht, -⟩ <;> cases ht
  | issue newid conf rest hr hfree hclean hname hdirty hends hcmds hconf hid hrest =>
    rw [hcmds] at hdel
    rcases List.mem_cons.mp hdel with heq | hdel
    · rw [← heq] at hconf
      cases hconf
    · exact absurd (hrest _ hdel) (by simp)
  | invalidate hd hr hact hname hdirty hends hcmds =>
    rw [hcmds] at hdel
    simp at hdel
  | count front items n hr hfront hid hn hname hdirty hends hcmds =>
    rw [hcmds] at hdel
    cases hdel
  | delete front items hr hfront hid hn hname hdirty hends hcmds =>
    rw [hcmds] at hdel
    have hh : h = r.data0 := by simpa using hdel
    exact ⟨hr, hh.symm, front, items, hfront, hid, hn⟩

theorem Inv.safe (hI : Inv sys issued) : Safe reg sys where
  reported k p r rest m out h hk hout hserve hdel q hq hheld := by
    obtain ⟨hr, rfl, front, items, hfront, hid, hn⟩ :=
      (move_of_ok hI.ids hserve).deletes (mem_commandsSent.mpr hdel)
    -- an end that holds an entry has joined
    have hjoined : ∀ q ∈ sys.ends, (q.channel.held r.data0).isSome → q.joined = true := by
      intro q hq hheld
      by_contra hnot
      rw [((hI.ends q hq).stranger (by simpa using hnot)).held] at hheld
      cases hheld
    have hpj : p.joined = true := by
      by_contra hnot
      obtain ⟨r', rest', hout', ht, -⟩ :=
        ((hI.ends p (List.mem_of_getElem? hk)).stranger (by simpa using hnot)).outbox
      rw [hout] at hout'
      rw [(List.cons.inj hout').1, ht] at hr
      cases hr
    have hall := hI.all_confirmed hk hpj hout hr hfront hid hn
    obtain ⟨hlt, hget⟩ := List.getElem?_eq_some_iff.mp hk
    obtain ⟨i, hi, hgi⟩ := List.getElem_of_mem hq
    by_cases hik : k = i
    · -- the end whose confirmation is served
      subst hik
      have hqp : q = p := hgi.symm.trans hget
      have hconf := hall { p with outbox := rest } (List.mem_set hlt _) hpj
      rw [hqp]
      exact (isConfirmed_iff.mp hconf).2.2
    · have hmem : q ∈ sys.ends.set k { p with outbox := rest } := by
        refine List.mem_iff_getElem.mpr ⟨i, by simpa using hi, ?_⟩
        rw [List.getElem_set_ne hik, hgi]
      exact (isConfirmed_iff.mp (hall q hmem (hjoined q hq hheld))).2.2
  held p hp msg rest hinbox hneeds := by
    have hj : p.joined = true := by
      by_contra hnot
      rw [((hI.ends p hp).stranger (by simpa using hnot)).inbox] at hinbox
      cases hinbox
    have hlegal := (((hI.ends p hp).member hj).legal msg.data0).1
    rw [hinbox] at hlegal
    exact hlegal.1 rfl hneeds

/-- Every state of an orderly run is safe. -/
theorem safe_of_orderly (reg : DataClassRegistry) (actions : List Action) (sys : System)
    (hok : Allowed (step reg) Orderly {} actions) (hrun : exec (step reg) {} actions = .ok sys) :
    Safe reg sys := by
  obtain ⟨issued, hI⟩ := exec_invariant (I := fun sys => ∃ issued, Inv sys issued)
    (fun _ _ _ ⟨_, h⟩ hok hs => h.step hok hs) ⟨[], inv_init⟩ hok hrun
  exact hI.safe

/-- Two ends; one makes an entry and removes it, and both clean up. The master is about to
serve the last confirmation. -/
def removalRun : List Action :=
  [.newEnd ⟨0, 1⟩, .serve 0, .newEnd ⟨1, 1⟩, .serve 1,
    .act 0 (.addWriteToken { dataclassname := "D" }), .serve 0,
    .receive 0, .receive 0, .receive 0, .receive 1, .receive 1,
    .act 0 (.removeWriteToken 0), .serve 0, .receive 0, .receive 1, .sweep,
    .receive 0, .receive 1, .serve 0]

/-- Whether an action is orderly. -/
def isOrderly (sys : System) : Action → Bool
  | .serve k =>
    match sys.ends[k]? with
    | none => true
    | some p => !(p.outbox.head?.any (·.type == .newEndJoins)) || sys.master.toBeCleaned.isEmpty
  | .act k (.addWriteToken _) =>
    match sys.ends[k]? with
    | none => true
    | some p => decide (p.channel.creationId + 0x100 < 2 ^ 32)
  | _ => true

theorem orderly_of_isOrderly {a : Action} (h : isOrderly sys a = true) : Orderly sys a := by
  cases a with
  | serve k =>
    intro p r rest hk hout htype
    simpa [isOrderly, hk, hout, htype] using h
  | act k i =>
    cases i with
    | addWriteToken spec =>
      intro p hk
      simpa [isOrderly, hk] using h
    | _ => trivial
  | _ => trivial

/-- Whether all actions of a run are orderly. -/
def runsOrderly (reg : DataClassRegistry) : System → List Action → Bool
  | _, [] => true
  | sys, a :: as => isOrderly sys a &&
    match step reg sys a with
    | .ok sys' => runsOrderly reg sys' as
    | .error _ => true

theorem allowed_of_runsOrderly {as : List Action} (h : runsOrderly reg sys as = true) :
    Allowed (step reg) Orderly sys as := by
  induction as generalizing sys with
  | nil => trivial
  | cons a as ih =>
    rw [runsOrderly, Bool.and_eq_true] at h
    refine ⟨orderly_of_isOrderly h.1, fun sys' hs => ih ?_⟩
    have h₂ := h.2
    rw [hs] at h₂
    exact h₂

/-- The last confirmation of an orderly removal is served in a safe state, and the entry
is deleted. -/
theorem safe_removalRun :
    ∃ sys, exec (step flatRegistry) {} removalRun = .ok sys ∧ Safe flatRegistry sys ∧
      sys.master.toBeCleaned.length = 1 ∧
      ((sys.ends.map fun p => life 0 p.history) = [some true, some true]) := by
  obtain ⟨sys, hexec, htest⟩ := exists_of_endsIn (step flatRegistry) {} removalRun
    (fun sys => decide (sys.master.toBeCleaned.length = 1 ∧
      (sys.ends.map fun p => life 0 p.history) = [some true, some true]))
    (by decide +kernel)
  obtain ⟨h₁, h₂⟩ := of_decide_eq_true htest
  have hok : Allowed (step flatRegistry) Orderly {} removalRun :=
    allowed_of_runsOrderly (by decide +kernel)
  exact ⟨sys, hexec, safe_of_orderly flatRegistry removalRun sys hok hexec, h₁, h₂⟩

/-- An end joins while an entry waits to be cleaned; the sweep sends it a command for an
entry that it does not hold. -/
theorem not_safe_late_join :
    ¬ ∀ (reg : DataClassRegistry) (actions : List Action) (sys : System),
      exec (step reg) {} actions = .ok sys → Safe reg sys := by
  intro h
  obtain ⟨sys, hexec, htest⟩ := exists_of_endsIn (step flatRegistry) {}
    [.newEnd ⟨0, 1⟩, .serve 0, .act 0 (.addWriteToken { dataclassname := "D" }), .serve 0,
      .act 0 (.removeWriteToken 0), .serve 0, .newEnd ⟨1, 1⟩, .serve 1, .sweep, .receive 1]
    (fun sys => match sys.ends[1]? with
      | some p => decide (p.inbox = [{ type := .cleanEntryCmd, data0 := 0, data1 := 1 }] ∧
          p.channel.held 0 = none)
      | none => false)
    (by decide +kernel)
  split at htest
  · rename_i p hp
    obtain ⟨hinbox, hheld⟩ := of_decide_eq_true htest
    have := (h flatRegistry _ sys hexec).held p (List.mem_of_getElem? hp) _ _ hinbox rfl
    dsimp only at this
    rw [hheld] at this
    cases this
  · cases htest

end Dueca.Protocol
