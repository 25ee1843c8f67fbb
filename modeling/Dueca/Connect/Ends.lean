import Dueca.Connect.Updates

/-!
# Channel ends get connected

An end has interpreted the first of the updates that its organiser sent to it. From these it has
its id, then its master with the class of transport, and then its destinations, so that the
assertions on them hold. When nothing is under way any more, all ends of a channel with a writer
are connected with each other.
-/

namespace Dueca.Connect

open Dueca.Lib ChannelOrganiser

/-! ### Ends -/

/-- An end that has not got an id. -/
structure Waiting (e : ChannelEnd) : Prop where
  log : e.log = []
  id : e.id = {}
  service : e.service = false
  destinations : e.destinations = []

/-- How far an end in a node is with the updates of its organiser. -/
inductive Stage (o : ChannelOrganiser) (k : ℕ) (e : ChannelEnd) : Prop
  | waiting (h : Waiting e)
  | named (log : e.log = [idIssued ⟨k, o.commonEndId⟩ o.ns]) (id : e.id = ⟨k, o.commonEndId⟩)
      (service : e.service = false) (destinations : e.destinations = [])
  | mastered (adds : List GlobalId) (valid : validId o.masterId)
      (log : e.log = idIssued ⟨k, o.commonEndId⟩ o.ns :: o.setMaster ⟨k, o.commonEndId⟩ ::
        adds.map (addDestination ⟨k, o.commonEndId⟩))
      (id : e.id = ⟨k, o.commonEndId⟩) (service : e.service = true)
      (master : e.masterId = o.masterId) (transport : e.transportClass = o.transportclass)
      (destinations : e.destinations = adds.map GlobalId.location)

theorem Stage.keeps {o o' : ChannelOrganiser} {k : ℕ} {e : ChannelEnd} (h : Stage o k e)
    (hkeeps : Keeps o o') : Stage o' k e := by
  obtain ⟨hns, hid, -, hmaster⟩ := hkeeps
  cases h with
  | waiting h => exact .waiting h
  | named log id service destinations =>
    exact .named (by rw [log, hns, hid]) (by rw [id, hid]) service destinations
  | mastered adds valid log id service master transport destinations =>
    obtain ⟨hm, ht⟩ := hmaster valid
    refine .mastered adds (hm ▸ valid) ?_ (by rw [id, hid]) service (by rw [master, hm])
      (by rw [transport, ht]) destinations
    rw [log, hns, hid, setMaster, setMaster, hm, ht]

/-- Ids are issued together with the first update. -/
theorem Stage.id_iff {o : ChannelOrganiser} {k : ℕ} {e : ChannelEnd} (h : Stage o k e)
    (hk : k ≠ 0xff) : e.id = {} ↔ e.log = [] := by
  have hne (c : ℕ) : (⟨k, c⟩ : GlobalId) ≠ {} := fun h => hk (congrArg GlobalId.location h)
  cases h with
  | waiting h => exact iff_of_true h.id h.log
  | named log id => exact iff_of_false (id ▸ hne _) (by rw [log]; exact List.cons_ne_nil _ _)
  | mastered adds valid log id =>
    exact iff_of_false (id ▸ hne _) (by rw [log]; exact List.cons_ne_nil _ _)

/-- An end in a node that has read a number of updates. -/
structure EndOk (m : ChannelManager) (us : List ChannelEndUpdate) (k read : ℕ) (e : ChannelEnd) :
    Prop where
  named : e.ns ≠ emptyNameSet
  absent : organiser m e.ns = none → Waiting e
  present : ∀ o, organiser m e.ns = some o →
    Stage o k e ∧ e.log = sentTo ⟨k, o.commonEndId⟩ (us.take read)

/-- From one manager to a later one, organisers keep what they have, and the object id of a new
one has not been used. -/
structure Grows (m : ChannelManager) (us : List ChannelEndUpdate) (m' : ChannelManager) : Prop where
  keeps : ∀ n o, n ≠ emptyNameSet → organiser m n = some o →
    ∃ o', organiser m' n = some o' ∧ Keeps o o'
  fresh : ∀ n o', n ≠ emptyNameSet → organiser m n = none → organiser m' n = some o' →
    ∀ x, x.object = o'.commonEndId → sentTo x us = []

theorem sentTo_take_eq_nil {x : GlobalId} {us : List ChannelEndUpdate} (h : sentTo x us = [])
    (n : ℕ) : sentTo x (us.take n) = [] :=
  List.prefix_nil.mp (h ▸ (List.take_prefix n us).filter _)

theorem EndOk.grows {m m' : ChannelManager} {us : List ChannelEndUpdate} {k read : ℕ}
    {e : ChannelEnd} (h : EndOk m us k read e) (hgrows : Grows m us m') (hread : read ≤ us.length)
    (vs : List ChannelEndUpdate) : EndOk m' (us ++ vs) k read e := by
  refine ⟨h.named, fun hnone => ?_, fun o' ho' => ?_⟩
  · cases ho : organiser m e.ns with
    | none => exact h.absent ho
    | some o =>
      obtain ⟨o', ho', -⟩ := hgrows.keeps e.ns o h.named ho
      rw [hnone] at ho'
      cases ho'
  · rw [List.take_append_of_le_length hread]
    cases ho : organiser m e.ns with
    | none =>
      have hwaiting := h.absent ho
      refine ⟨.waiting hwaiting, ?_⟩
      rw [hwaiting.log]
      exact (sentTo_take_eq_nil (hgrows.fresh e.ns o' h.named ho ho' _ rfl) read).symm
    | some o =>
      obtain ⟨p, hp, hkeeps⟩ := hgrows.keeps e.ns o h.named ho
      obtain rfl := Option.some.inj (hp.symm.trans ho')
      obtain ⟨hstage, hlog⟩ := h.present o ho
      exact ⟨hstage.keeps hkeeps, by rw [hlog, hkeeps.commonEndId]⟩

/-! ### Nodes -/

/-- The organiser has issued an id to the end in a node. -/
def Issued (m : ChannelManager) (k : ℕ) (nameSet : String) : Prop :=
  ∃ o, organiser m nameSet = some o ∧ (⟨k, o.commonEndId⟩ : GlobalId) ∈ o.endSpec

/-- The channel has a master. -/
def HasMaster (m : ChannelManager) (nameSet : String) : Prop :=
  ∃ o, organiser m nameSet = some o ∧ validId o.masterId

/-- What holds for a node. An end that has no id waits for it, and a writing end is reported. -/
structure NodeOk (m : ChannelManager) (us : List ChannelEndUpdate) (k : ℕ) (n : Node) : Prop where
  read_le : n.read ≤ us.length
  nodup : (n.ends.map ChannelEnd.ns).Nodup
  ends : ∀ e ∈ n.ends, EndOk m us k n.read e
  registry : ∀ e ∈ n.ends, ∀ o, organiser m e.ns = some o → e.log ≠ [] →
    n.registry.lookup o.commonEndId = some e.ns
  announced : ∀ r ∈ n.requests, r.notificationType = .newChannelEnd →
    r.globalId.location = k ∧ ¬ Issued m k r.nameSet ∧ ∃ e ∈ n.ends, e.ns = r.nameSet
  once : n.requests.Pairwise fun r s => r.notificationType = .newChannelEnd →
    s.notificationType = .newChannelEnd → r.nameSet ≠ s.nameSet
  reported : ∀ r ∈ n.requests, r.notificationType = .isWritingEnd →
    r.globalId.location = k ∧ r.transportclass ≠ .undefinedTransport ∧
      r.nameSet ≠ emptyNameSet ∧ ∃ o, organiser m r.nameSet = some o
  kinds : ∀ r ∈ n.requests, r.notificationType ≠ .removeEnd
  pending : ∀ e ∈ n.ends, Issued m k e.ns ∨
    ∃ r ∈ n.requests, r.notificationType = .newChannelEnd ∧ r.nameSet = e.ns
  writing : ∀ e ∈ n.ends, e.transportClass ≠ .undefinedTransport → e.log = [] ∨
    HasMaster m e.ns ∨ ∃ r ∈ n.requests, r.notificationType = .isWritingEnd ∧ r.nameSet = e.ns

/-- A node has an end of a channel. -/
def HasEnd (nodes : List Node) (k : ℕ) (nameSet : String) : Prop :=
  ∃ n, nodes[k]? = some n ∧ ∃ e ∈ n.ends, e.ns = nameSet

/-- What holds for the manager, the nodes and what is under way. -/
structure Inv (sys : System) : Prop where
  registered : Registered sys.manager sys.updates
  nodes : ∀ k n, sys.nodes[k]? = some n → NodeOk sys.manager sys.updates k n
  listed : ∀ nameSet o, nameSet ≠ emptyNameSet → organiser sys.manager nameSet = some o →
    ∀ x ∈ o.endSpec, HasEnd sys.nodes x.location nameSet
  few : sys.nodes.length ≤ 0xff

section Nodes

variable {m m' : ChannelManager} {us : List ChannelEndUpdate} {k : ℕ} {n : Node}

theorem HasMaster.grows {nameSet : String} (h : HasMaster m nameSet)
    (hname : nameSet ≠ emptyNameSet) (hgrows : Grows m us m') : HasMaster m' nameSet := by
  obtain ⟨o, ho, hvalid⟩ := h
  obtain ⟨o', ho', hkeeps⟩ := hgrows.keeps _ o hname ho
  exact ⟨o', ho', (hkeeps.master hvalid).1 ▸ hvalid⟩

theorem Issued.grows {nameSet : String} (h : Issued m k nameSet)
    (hname : nameSet ≠ emptyNameSet) (hgrows : Grows m us m') : Issued m' k nameSet := by
  obtain ⟨o, ho, hmem⟩ := h
  obtain ⟨o', ho', hkeeps⟩ := hgrows.keeps _ o hname ho
  exact ⟨o', ho', hkeeps.commonEndId ▸ hkeeps.endSpec _ hmem⟩

/-- The manager goes on, and of the requests of the node some have been handled. -/
theorem NodeOk.grows (h : NodeOk m us k n) (hgrows : Grows m us m') (vs : List ChannelEndUpdate)
    {rs : List ChannelChangeNotification} (hrs : rs.Sublist n.requests)
    (hannounced : ∀ r ∈ rs, r.notificationType = .newChannelEnd → ¬ Issued m' k r.nameSet)
    (hpending : ∀ r ∈ n.requests, r.notificationType = .newChannelEnd → r ∈ rs ∨
      Issued m' k r.nameSet)
    (hwriting : ∀ r ∈ n.requests, r.notificationType = .isWritingEnd → r ∈ rs ∨
      HasMaster m' r.nameSet) :
    NodeOk m' (us ++ vs) k { n with requests := rs } where
  read_le := Nat.le_trans h.read_le (by simp)
  nodup := h.nodup
  ends e he := (h.ends e he).grows hgrows h.read_le vs
  registry e he o' ho' hlog := by
    cases ho : organiser m e.ns with
    | none => exact absurd ((h.ends e he).absent ho).log hlog
    | some o =>
      obtain ⟨p, hp, hkeeps⟩ := hgrows.keeps e.ns o (h.ends e he).named ho
      obtain rfl := Option.some.inj (hp.symm.trans ho')
      rw [hkeeps.commonEndId]
      exact h.registry e he o ho hlog
  announced r hr htype :=
    have hold := h.announced r (hrs.subset hr) htype
    ⟨hold.1, hannounced r hr htype, hold.2.2⟩
  once := h.once.sublist hrs
  reported r hr htype := by
    obtain ⟨hlocation, htc, hname, o, ho⟩ := h.reported r (hrs.subset hr) htype
    obtain ⟨o', ho', -⟩ := hgrows.keeps _ o hname ho
    exact ⟨hlocation, htc, hname, o', ho'⟩
  kinds r hr := h.kinds r (hrs.subset hr)
  pending e he := by
    obtain hissued | ⟨r, hr, htype, hns⟩ := h.pending e he
    · exact .inl (hissued.grows (h.ends e he).named hgrows)
    · obtain hr | hissued := hpending r hr htype
      · exact .inr ⟨r, hr, htype, hns⟩
      · exact .inl (hns ▸ hissued)
  writing e he htc := by
    obtain hlog | hmaster | ⟨r, hr, htype, hns⟩ := h.writing e he htc
    · exact .inl hlog
    · exact .inr (.inl (hmaster.grows (h.ends e he).named hgrows))
    · obtain hr | hmaster := hwriting r hr htype
      · exact .inr (.inr ⟨r, hr, htype, hns⟩)
      · exact .inr (.inl (hns ▸ hmaster))

/-- One end of the node changes, and reports that it is writing. -/
theorem NodeOk.replace (h : NodeOk m us k n) {l₁ l₂ : List ChannelEnd} {e e' : ChannelEnd}
    (hlist : n.ends = l₁ ++ e :: l₂) (hns : e'.ns = e.ns) {registry : List (ℕ × String)}
    {rs : List ChannelChangeNotification} {read : ℕ} (hread : read ≤ us.length)
    (hothers : ∀ d ∈ n.ends, d.ns ≠ e.ns → EndOk m us k read d) (he : EndOk m us k read e')
    (hregistry : ∀ d ∈ n.ends, d.ns ≠ e.ns → ∀ o, organiser m d.ns = some o → d.log ≠ [] →
      registry.lookup o.commonEndId = some d.ns)
    (hregistered : ∀ o, organiser m e.ns = some o → e'.log ≠ [] →
      registry.lookup o.commonEndId = some e.ns)
    (hrs : ∀ r ∈ rs, r.notificationType = .isWritingEnd ∧ r.globalId.location = k ∧
      r.transportclass ≠ .undefinedTransport ∧ r.nameSet = e.ns ∧ ∃ o, organiser m e.ns = some o)
    (hwriting : e'.transportClass ≠ .undefinedTransport → e'.log = [] ∨ HasMaster m e.ns ∨
      ∃ r ∈ n.requests ++ rs, r.notificationType = .isWritingEnd ∧ r.nameSet = e.ns) :
    NodeOk m us k ⟨l₁ ++ e' :: l₂, registry, n.requests ++ rs, read⟩ := by
  have hnames : (l₁ ++ e' :: l₂).map ChannelEnd.ns = n.ends.map ChannelEnd.ns := by
    rw [hlist, List.map_append, List.map_append, List.map_cons, List.map_cons, hns]
  -- the other ends are as before, with other names
  have hcases (d : ChannelEnd) (hd : d ∈ l₁ ++ e' :: l₂) : d = e' ∨ d ∈ n.ends ∧ d.ns ≠ e.ns := by
    have hnodup := h.nodup
    rw [hlist, List.map_append, List.map_cons, List.nodup_middle, List.nodup_cons] at hnodup
    obtain hd | hd := List.mem_append.mp hd
    · refine .inr ⟨by rw [hlist]; exact List.mem_append_left _ hd, fun hsame => hnodup.1 ?_⟩
      exact List.mem_append_left _ (List.mem_map.mpr ⟨d, hd, hsame⟩)
    · obtain rfl | hd := List.mem_cons.mp hd
      · exact .inl rfl
      · refine .inr ⟨by rw [hlist]; simp [hd], fun hsame => hnodup.1 ?_⟩
        exact List.mem_append_right _ (List.mem_map.mpr ⟨d, hd, hsame⟩)
  have hmem : e ∈ n.ends := by rw [hlist]; simp
  have hnew (r : ChannelChangeNotification) (hr : r ∈ n.requests ++ rs)
      (htype : r.notificationType = .newChannelEnd) : r ∈ n.requests :=
    (List.mem_append.mp hr).resolve_right fun hr => by
      rw [(hrs r hr).1] at htype
      cases htype
  refine ⟨hread, hnames ▸ h.nodup, fun d hd => ?_, fun d hd o ho hlog => ?_,
    fun r hr htype => ?_, ?_, fun r hr htype => ?_, fun r hr => ?_, fun d hd => ?_,
    fun d hd htc => ?_⟩
  · obtain rfl | ⟨hd, hne⟩ := hcases d hd
    · exact he
    · exact hothers d hd hne
  · obtain rfl | ⟨hd, hne⟩ := hcases d hd
    · rw [hns] at ho ⊢
      exact hregistered o ho hlog
    · exact hregistry d hd hne o ho hlog
  · obtain ⟨hlocation, hissued, d, hd, hdn⟩ := h.announced r (hnew r hr htype) htype
    have hmap : r.nameSet ∈ (l₁ ++ e' :: l₂).map ChannelEnd.ns :=
      hnames ▸ List.mem_map.mpr ⟨d, hd, hdn⟩
    exact ⟨hlocation, hissued, List.mem_map.mp hmap⟩
  · refine List.pairwise_append.mpr ⟨h.once, ?_, fun r _ s hs _ htype => ?_⟩
    · refine List.pairwise_of_forall_mem_list fun r hr s _ htype => ?_
      rw [(hrs r hr).1] at htype
      cases htype
    · rw [(hrs s hs).1] at htype
      cases htype
  · obtain hr | hr := List.mem_append.mp hr
    · exact h.reported r hr htype
    · obtain ⟨-, hlocation, htc, hname, ho⟩ := hrs r hr
      exact ⟨hlocation, htc, hname ▸ (h.ends e hmem).named, hname ▸ ho⟩
  · obtain hr | hr := List.mem_append.mp hr
    · exact h.kinds r hr
    · rw [(hrs r hr).1]
      exact fun h => nomatch h
  · have hmap : d.ns ∈ n.ends.map ChannelEnd.ns := hnames ▸ List.mem_map.mpr ⟨d, hd, rfl⟩
    obtain ⟨c, hc, hcn⟩ := List.mem_map.mp hmap
    obtain hissued | ⟨r, hr, htype, hrn⟩ := h.pending c hc
    · exact .inl (hcn ▸ hissued)
    · exact .inr ⟨r, List.mem_append_left _ hr, htype, hrn.trans hcn⟩
  · obtain rfl | ⟨hd, -⟩ := hcases d hd
    · rw [hns]
      exact hwriting htc
    · obtain hlog | hmaster | ⟨r, hr, htype, hrn⟩ := h.writing d hd htc
      · exact .inl hlog
      · exact .inr (.inl hmaster)
      · exact .inr (.inr ⟨r, List.mem_append_left _ hr, htype, hrn⟩)

/-- The end with a name changes. -/
theorem atEnd_split {nameSet : String} {es : List ChannelEnd}
    (f : ChannelEnd → Except Fault (ChannelEnd × List ChannelChangeNotification))
    (h : es.any (·.ns = nameSet) = true) :
    ∃ l₁ e l₂, es = l₁ ++ e :: l₂ ∧ e.ns = nameSet ∧
      Node.atEnd nameSet f es = (f e).map fun x => (l₁ ++ x.1 :: l₂, x.2) := by
  induction es with
  | nil => cases h
  | cons d es ih =>
    by_cases hd : d.ns = nameSet
    · refine ⟨[], d, es, rfl, hd, ?_⟩
      rw [Node.atEnd, if_pos hd]
      rfl
    · rw [List.any_cons, decide_eq_false hd, Bool.false_or] at h
      obtain ⟨l₁, e, l₂, rfl, he, hat⟩ := ih h
      refine ⟨d :: l₁, e, l₂, rfl, he, ?_⟩
      rw [Node.atEnd, if_neg hd, hat]
      cases f e <;> rfl

end Nodes

/-! ### Steps -/

section Steps

variable {sys : System} {k : ℕ} {n : Node}

theorem HasEnd.set {nodes : List Node} {j : ℕ} {nameSet : String} (h : HasEnd nodes j nameSet)
    (hn : nodes[k]? = some n) {n' : Node} (hends : ∀ e ∈ n.ends, ∃ e' ∈ n'.ends, e'.ns = e.ns) :
    HasEnd (nodes.set k n') j nameSet := by
  obtain ⟨l, hl, e, he, hns⟩ := h
  by_cases hkj : k = j
  · subst hkj
    obtain rfl := Option.some.inj (hn.symm.trans hl)
    obtain ⟨e', he', hns'⟩ := hends e he
    refine ⟨n', ?_, e', he', hns'.trans hns⟩
    rw [List.getElem?_set_self (List.getElem?_eq_some_iff.mp hn).1]
  · exact ⟨l, by rw [List.getElem?_set_ne hkj]; exact hl, e, he, hns⟩

theorem getElem?_set_cases {nodes : List Node} {n' l : Node} {j : ℕ}
    (h : (nodes.set k n')[j]? = some l) : j = k ∧ l = n' ∨ j ≠ k ∧ nodes[j]? = some l := by
  rw [List.getElem?_set] at h
  by_cases hkj : k = j
  · rw [if_pos hkj] at h
    split at h
    · exact .inl ⟨hkj.symm, (Option.some.inj h).symm⟩
    · cases h
  · rw [if_neg hkj] at h
    exact .inr ⟨Ne.symm hkj, h⟩

theorem Inv.location (h : Inv sys) (hn : sys.nodes[k]? = some n) : k ≠ 0xff := by
  have hlt := (List.getElem?_eq_some_iff.mp hn).1
  have hfew := h.few
  omega

/-- A node changes by itself. -/
theorem Inv.setNode (h : Inv sys) (hn : sys.nodes[k]? = some n) {n' : Node}
    (hok : NodeOk sys.manager sys.updates k n')
    (hends : ∀ e ∈ n.ends, ∃ e' ∈ n'.ends, e'.ns = e.ns) :
    Inv { sys with nodes := sys.nodes.set k n' } where
  registered := h.registered
  nodes j l hl := by
    obtain ⟨rfl, rfl⟩ | ⟨-, hl⟩ := getElem?_set_cases hl
    · exact hok
    · exact h.nodes j l hl
  listed nameSet o hname ho x hx := (h.listed nameSet o hname ho x hx).set hn hends
  few := by
    rw [List.length_set]
    exact h.few

/-- A node does not have an end that it has not created. -/
theorem Inv.not_issued (h : Inv sys) (hn : sys.nodes[k]? = some n) {nameSet : String}
    (hname : nameSet ≠ emptyNameSet) (hnot : n.ends.any (·.ns = nameSet) = false) :
    ¬ Issued sys.manager k nameSet := by
  rintro ⟨o, ho, hmem⟩
  obtain ⟨l, hl, e, he, hns⟩ := h.listed nameSet o hname ho _ hmem
  obtain rfl := Option.some.inj (hn.symm.trans hl)
  have := List.any_eq_false.mp hnot e he
  simp [hns] at this

theorem Inv.findOrCreateChannel (h : Inv sys) (hn : sys.nodes[k]? = some n) {nameSet : String}
    (hname : nameSet ≠ emptyNameSet) :
    Inv { sys with nodes := sys.nodes.set k (n.findOrCreateChannel k nameSet) } := by
  have hok := h.nodes k n hn
  unfold Node.findOrCreateChannel
  cases hany : n.ends.any (·.ns = nameSet) with
  | true =>
    simp only [if_true]
    exact h.setNode hn hok fun e he => ⟨e, he, rfl⟩
  | false =>
    have hissued := h.not_issued hn hname hany
    have hne (e : ChannelEnd) (he : e ∈ n.ends) : e.ns ≠ nameSet := by
      have := List.any_eq_false.mp hany e he
      simpa using this
    simp only [Bool.false_eq_true, if_false]
    refine h.setNode hn ⟨hok.read_le, ?_, fun e he => ?_, fun e he o ho hlog => ?_,
      fun r hr htype => ?_, ?_, fun r hr htype => ?_, fun r hr => ?_, fun e he => ?_,
      fun e he htc => ?_⟩ fun e he => ⟨e, List.mem_append_left _ he, rfl⟩
    · rw [List.map_append]
      refine List.nodup_append.mpr ⟨hok.nodup, List.nodup_singleton _, fun a ha b hb => ?_⟩
      obtain ⟨e, he, rfl⟩ := List.mem_map.mp ha
      obtain rfl := List.mem_singleton.mp hb
      exact hne e he
    · obtain he | he := List.mem_append.mp he
      · exact hok.ends e he
      · obtain rfl := List.mem_singleton.mp he
        refine ⟨hname, fun _ => ⟨rfl, rfl, rfl, rfl⟩, fun o ho => ⟨.waiting ⟨rfl, rfl, rfl, rfl⟩, ?_⟩⟩
        obtain ⟨hmem, hns⟩ := organiser_eq_some ho
        have huntold := (h.registered.sane o hmem (hns ▸ hname)).untold ⟨k, o.commonEndId⟩ rfl
          fun hx => hissued ⟨o, ho, hx⟩
        exact (sentTo_take_eq_nil huntold n.read).symm
    · obtain he | he := List.mem_append.mp he
      · exact hok.registry e he o ho hlog
      · obtain rfl := List.mem_singleton.mp he
        exact absurd rfl hlog
    · obtain hr | hr := List.mem_append.mp hr
      · obtain ⟨hlocation, hnot, e, he, hns⟩ := hok.announced r hr htype
        exact ⟨hlocation, hnot, e, List.mem_append_left _ he, hns⟩
      · obtain rfl := List.mem_singleton.mp hr
        exact ⟨rfl, hissued, _, List.mem_append_right _ (List.mem_singleton_self _), rfl⟩
    · refine List.pairwise_append.mpr ⟨hok.once, List.pairwise_singleton _ _, ?_⟩
      intro r hr s hs htype _
      obtain rfl := List.mem_singleton.mp hs
      obtain ⟨-, -, e, he, hns⟩ := hok.announced r hr htype
      exact hns ▸ hne e he
    · obtain hr | hr := List.mem_append.mp hr
      · exact hok.reported r hr htype
      · obtain rfl := List.mem_singleton.mp hr
        cases htype
    · obtain hr | hr := List.mem_append.mp hr
      · exact hok.kinds r hr
      · obtain rfl := List.mem_singleton.mp hr
        exact fun h => nomatch h
    · obtain he | he := List.mem_append.mp he
      · obtain hold | ⟨r, hr, htype, hns⟩ := hok.pending e he
        · exact .inl hold
        · exact .inr ⟨r, List.mem_append_left _ hr, htype, hns⟩
      · obtain rfl := List.mem_singleton.mp he
        exact .inr ⟨_, List.mem_append_right _ (List.mem_singleton_self _), rfl, rfl⟩
    · obtain he | he := List.mem_append.mp he
      · obtain hlog | hmaster | ⟨r, hr, htype, hns⟩ := hok.writing e he htc
        · exact .inl hlog
        · exact .inr (.inl hmaster)
        · exact .inr (.inr ⟨r, List.mem_append_left _ hr, htype, hns⟩)
      · obtain rfl := List.mem_singleton.mp he
        exact .inl rfl

/-- The object id of a channel is valid. -/
theorem Inv.object_lt (h : Inv sys) {nameSet : String} (hname : nameSet ≠ emptyNameSet)
    {o : ChannelOrganiser} (ho : organiser sys.manager nameSet = some o) :
    o.commonEndId ≠ 0xffff := by
  obtain ⟨hmem, hns⟩ := organiser_eq_some ho
  obtain ⟨i, hi⟩ := List.getElem?_of_mem hmem
  obtain ⟨hid, hlt⟩ := h.registered.numbered i o hi (hns ▸ hname)
  exact hid ▸ Nat.ne_of_lt hlt

theorem Inv.addWriteToken (h : Inv sys) (hn : sys.nodes[k]? = some n) {nameSet : String}
    {tclass : TransportClass} (htc : tclass ≠ .undefinedTransport)
    (hany : n.ends.any (·.ns = nameSet) = true) :
    ∃ x, Node.atEnd nameSet (fun e => .ok (e.addWriteToken tclass)) n.ends = .ok x ∧
      Inv { sys with
        nodes := sys.nodes.set k { n with ends := x.1, requests := n.requests ++ x.2 } } := by
  have hok := h.nodes k n hn
  obtain ⟨l₁, e, l₂, hlist, hns, hat⟩ := atEnd_split (fun e => .ok (e.addWriteToken tclass)) hany
  have hmem : e ∈ n.ends := by rw [hlist]; simp
  have he := hok.ends e hmem
  refine ⟨_, hat, ?_⟩
  have hends (e' : ChannelEnd) (hns' : e'.ns = e.ns) :
      ∀ d ∈ n.ends, ∃ d' ∈ l₁ ++ e' :: l₂, d'.ns = d.ns := by
    intro d hd
    rw [hlist] at hd
    obtain hd | hd := List.mem_append.mp hd
    · exact ⟨d, List.mem_append_left _ hd, rfl⟩
    · obtain rfl | hd := List.mem_cons.mp hd
      · exact ⟨e', by simp, hns'⟩
      · exact ⟨d, by simp [hd], rfl⟩
  by_cases hundef : e.transportClass = .undefinedTransport
  · generalize he' : ({ e with transportClass := tclass } : ChannelEnd) = e'
    have hrun : e.addWriteToken tclass = (e', if validId e.id then [e'.report] else []) := by
      simp only [ChannelEnd.addWriteToken, hundef, if_true, he']
    have hlog : e'.log = e.log := by rw [← he']
    have hid : e'.id = e.id := by rw [← he']
    have hname : e'.ns = e.ns := by rw [← he']
    -- an end without a class has no master yet
    have hstage (o : ChannelOrganiser) (ho : organiser sys.manager e.ns = some o) :
        Stage o k e' ∧ (validId e.id ∧ e.id.location = k ∨ e.log = []) := by
      have hobject := h.object_lt he.named ho
      have hlocation := h.location hn
      obtain hs | ⟨log, id, service, destinations⟩ | ⟨-, valid, -, -, -, -, transport, -⟩ :=
        (he.present o ho).1
      · exact ⟨.waiting (he' ▸ ⟨hs.log, hs.id, hs.service, hs.destinations⟩), .inr hs.log⟩
      · exact ⟨he' ▸ .named log id service destinations,
          .inl ⟨id ▸ ⟨hlocation, hobject⟩, id ▸ rfl⟩⟩
      · obtain ⟨hm, hons⟩ := organiser_eq_some ho
        refine absurd ?_ ((h.registered.sane o hm (hons ▸ he.named)).defined valid)
        rw [← transport, hundef]
    refine h.setNode hn ?_ (hends _ (by rw [hrun, hname]))
    rw [hrun]
    refine hok.replace hlist hname hok.read_le (fun d hd _ => hok.ends d hd)
      ⟨hname ▸ he.named, fun hnone => ?_, fun o ho => ?_⟩
      (fun d hd _ => hok.registry d hd) (fun o ho hne => ?_) (fun r hr => ?_) fun _ => ?_
    · have hwaiting := he.absent (hname ▸ hnone)
      exact he' ▸ ⟨hwaiting.log, hwaiting.id, hwaiting.service, hwaiting.destinations⟩
    · rw [hname] at ho
      rw [hlog]
      exact ⟨(hstage o ho).1, (he.present o ho).2⟩
    · exact hok.registry e hmem o ho (hlog ▸ hne)
    · split at hr
      · rename_i hvalid
        obtain rfl := List.mem_singleton.mp hr
        cases ho : organiser sys.manager e.ns with
        | none =>
          rw [(he.absent ho).id] at hvalid
          exact absurd rfl hvalid.1
        | some o =>
          obtain ⟨-, hlocation⟩ | hnil := (hstage o ho).2
          · refine ⟨rfl, ?_, ?_, hname, o, rfl⟩
            · rw [← hlocation, ← hid]
              rfl
            · rw [← he']
              exact htc
          · have hwaiting := ((he.present o ho).1.id_iff (h.location hn)).mpr hnil
            rw [hwaiting] at hvalid
            exact absurd rfl hvalid.1
      · cases hr
    · rw [hlog]
      cases ho : organiser sys.manager e.ns with
      | none => exact .inl (he.absent ho).log
      | some o =>
        obtain ⟨hvalid, -⟩ | hnil := (hstage o ho).2
        · rw [if_pos hvalid]
          exact .inr (.inr ⟨e'.report, List.mem_append_right _ (List.mem_singleton_self _), rfl,
            hname⟩)
        · exact .inl hnil
  · have hrun : e.addWriteToken tclass = (e, []) := by
      simp only [ChannelEnd.addWriteToken, hundef, if_false]
    refine h.setNode hn ?_ (hends _ (by rw [hrun]))
    rw [hrun]
    refine hok.replace hlist rfl hok.read_le (fun d hd _ => hok.ends d hd) he
      (fun d hd _ => hok.registry d hd) (hok.registry e hmem) (fun r hr => (nomatch hr)) fun hdef => ?_
    rw [List.append_nil]
    exact hok.writing e hmem hdef

/-- The manager handles the request of a node. -/
theorem Inv.configurationRequest (h : Inv sys) (hn : sys.nodes[k]? = some n)
    {r : ChannelChangeNotification} {rs : List ChannelChangeNotification}
    (hrequests : n.requests = r :: rs)
    (hcount : organiser sys.manager r.nameSet = none → sys.manager.channelIdCount < 0xfffe) :
    Inv { sys with
      manager := (sys.manager.handleChannelConfigurationRequest r).1
      updates := sys.updates ++ (sys.manager.handleChannelConfigurationRequest r).2
      nodes := sys.nodes.set k { n with requests := rs } } := by
  have hok := h.nodes k n hn
  have hr : r ∈ n.requests := by rw [hrequests]; exact List.mem_cons_self
  have hrest (s : ChannelChangeNotification) (hs : s ∈ n.requests) : s = r ∨ s ∈ rs :=
    List.mem_cons.mp (hrequests ▸ hs)
  have hsub : rs.Sublist n.requests := hrequests ▸ List.sublist_cons_self r rs
  have hends : ∀ e ∈ n.ends, ∃ e' ∈ ({ n with requests := rs } : Node).ends, e'.ns = e.ns :=
    fun e he => ⟨e, he, rfl⟩
  have hfew : (sys.nodes.set k { n with requests := rs }).length ≤ 0xff := by
    rw [List.length_set]
    exact h.few
  cases htype : r.notificationType with
  | newChannelEnd =>
    obtain ⟨hlocation, hissued, e, he, hns⟩ := hok.announced r hr htype
    have hname : r.nameSet ≠ emptyNameSet := hns ▸ (hok.ends e he).named
    obtain ⟨o, hbefore, hons, hsane, hreg, hafter, hother⟩ :=
      h.registered.announce htype hname (fun o ho hx => hissued ⟨o, ho, hlocation ▸ hx⟩) hcount
    generalize sys.manager.handleChannelConfigurationRequest r = res at *
    rw [hlocation] at hafter
    have hgrows : Grows sys.manager sys.updates res.1 := by
      refine ⟨fun name p hp hsome => ?_, fun name p hp hnone hsome x hx => ?_⟩
      · by_cases hsame : name = r.nameSet
        · subst hsame
          obtain ho | ⟨ho, -⟩ := hbefore
          · obtain rfl := Option.some.inj (ho.symm.trans hsome)
            exact ⟨_, hafter, keeps_newChannelEnd o _ _⟩
          · rw [ho] at hsome
            cases hsome
        · exact ⟨p, (hother name hsame hp).trans hsome, .refl p⟩
      · by_cases hsame : name = r.nameSet
        · subst hsame
          obtain ho | ⟨-, hspec⟩ := hbefore
          · rw [ho] at hnone
            cases hnone
          · obtain rfl := Option.some.inj (hafter.symm.trans hsome)
            exact hsane.untold x hx (hspec ▸ List.not_mem_nil)
        · rw [hother name hsame hp, hnone] at hsome
          cases hsome
    -- no other id is issued
    have hissue (j : ℕ) (name : String) (hp : name ≠ emptyNameSet)
        (hnot : ¬ Issued sys.manager j name) (hne : name = r.nameSet → j ≠ k) :
        ¬ Issued res.1 j name := by
      rintro ⟨p, hp', hx⟩
      by_cases hsame : name = r.nameSet
      · have hj := hne hsame
        subst hsame
        obtain rfl := Option.some.inj (hafter.symm.trans hp')
        obtain hx | hx := List.mem_append.mp hx
        · obtain ho | ⟨-, hspec⟩ := hbefore
          · exact hnot ⟨o, ho, hx⟩
          · rw [hspec] at hx
            cases hx
        · exact hj (congrArg GlobalId.location (List.mem_singleton.mp hx))
      · exact hnot ⟨p, (hother name hsame hp).symm.trans hp', hx⟩
    refine ⟨hreg, fun j l hl => ?_, fun name p hp hsome x hx => ?_, hfew⟩
    · obtain ⟨rfl, rfl⟩ | ⟨hj, hl⟩ := getElem?_set_cases hl
      · refine hok.grows hgrows _ hsub (fun s hs hstype => ?_) (fun s hs hstype => ?_)
          fun s hs hstype => ?_
        · obtain ⟨-, hnot, d, hd, hdn⟩ := hok.announced s (hsub.subset hs) hstype
          have honce := hok.once
          rw [hrequests] at honce
          refine hissue j s.nameSet (hdn ▸ (hok.ends d hd).named) hnot fun hsame => ?_
          exact absurd hsame.symm ((List.pairwise_cons.mp honce).1 s hs htype hstype)
        · obtain rfl | hs := hrest s hs
          · exact .inr ⟨_, hafter, List.mem_append_right _ (List.mem_singleton_self _)⟩
          · exact .inl hs
        · obtain rfl | hs := hrest s hs
          · rw [htype] at hstype
            cases hstype
          · exact .inl hs
      · have hold := h.nodes j l hl
        refine hold.grows hgrows _ (List.Sublist.refl _) (fun s hs hstype => ?_)
          (fun s hs _ => .inl hs) fun s hs _ => .inl hs
        obtain ⟨-, hnot, d, hd, hdn⟩ := hold.announced s hs hstype
        exact hissue j s.nameSet (hdn ▸ (hold.ends d hd).named) hnot fun _ => hj
    · refine HasEnd.set (n := n) ?_ hn hends
      by_cases hsame : name = r.nameSet
      · subst hsame
        obtain rfl := Option.some.inj (hafter.symm.trans hsome)
        obtain hx | hx := List.mem_append.mp hx
        · obtain ho | ⟨-, hspec⟩ := hbefore
          · exact h.listed _ o hp ho x hx
          · rw [hspec] at hx
            cases hx
        · obtain rfl := List.mem_singleton.mp hx
          exact ⟨n, hn, e, he, hns⟩
      · exact h.listed name p hp ((hother name hsame hp).symm.trans hsome) x hx
  | removeEnd => exact absurd htype (hok.kinds r hr)
  | isWritingEnd =>
    obtain ⟨hlocation, htc, hname, o, ho⟩ := hok.reported r hr htype
    obtain ⟨hreg, ⟨o', ho', hkeeps, hspec, hvalid⟩, hother⟩ :=
      h.registered.writing htype hname ho (hlocation ▸ h.location hn) htc
    generalize sys.manager.handleChannelConfigurationRequest r = res at *
    have hgrows : Grows sys.manager sys.updates res.1 := by
      refine ⟨fun name p hp hsome => ?_, fun name p hp hnone hsome => ?_⟩
      · by_cases hsame : name = r.nameSet
        · subst hsame
          obtain rfl := Option.some.inj (ho.symm.trans hsome)
          exact ⟨o', ho', hkeeps⟩
        · exact ⟨p, (hother name hsame).trans hsome, .refl p⟩
      · by_cases hsame : name = r.nameSet
        · subst hsame
          rw [ho] at hnone
          cases hnone
        · rw [hother name hsame, hnone] at hsome
          cases hsome
    have hissue (j : ℕ) (name : String) (hnot : ¬ Issued sys.manager j name) :
        ¬ Issued res.1 j name := by
      rintro ⟨p, hp, hx⟩
      by_cases hsame : name = r.nameSet
      · subst hsame
        obtain rfl := Option.some.inj (ho'.symm.trans hp)
        rw [hspec, hkeeps.commonEndId] at hx
        exact hnot ⟨o, ho, hx⟩
      · exact hnot ⟨p, (hother name hsame).symm.trans hp, hx⟩
    refine ⟨hreg, fun j l hl => ?_, fun name p hp hsome x hx => ?_, hfew⟩
    · obtain ⟨rfl, rfl⟩ | ⟨-, hl⟩ := getElem?_set_cases hl
      · refine hok.grows hgrows _ hsub
          (fun s hs hstype => hissue j _ (hok.announced s (hsub.subset hs) hstype).2.1)
          (fun s hs hstype => ?_) fun s hs hstype => ?_
        · obtain rfl | hs := hrest s hs
          · rw [htype] at hstype
            cases hstype
          · exact .inl hs
        · obtain rfl | hs := hrest s hs
          · exact .inr ⟨o', ho', hvalid⟩
          · exact .inl hs
      · have hold := h.nodes j l hl
        exact hold.grows hgrows _ (List.Sublist.refl _)
          (fun s hs hstype => hissue j _ (hold.announced s hs hstype).2.1)
          (fun s hs _ => .inl hs) fun s hs _ => .inl hs
    · refine HasEnd.set (n := n) ?_ hn hends
      by_cases hsame : name = r.nameSet
      · subst hsame
        obtain rfl := Option.some.inj (ho'.symm.trans hsome)
        exact h.listed _ o hp ho x (hspec ▸ hx)
      · exact h.listed name p hp ((hother name hsame).symm.trans hsome) x hx

/-- The first update for an end issues its id. -/
theorem Told.first {o : ChannelOrganiser} {x : GlobalId} {us : List ChannelEndUpdate}
    {u : ChannelEndUpdate} (h : Told o x us) (hu : [u] <+: us) : u = idIssued x o.ns := by
  unfold Told at h
  split at h
  · obtain ⟨adds, rfl, -⟩ := h
    exact (List.cons_prefix_cons.mp hu).1
  · subst h
    exact (List.cons_prefix_cons.mp hu).1

/-- The second one tells about the master. -/
theorem Told.second {o : ChannelOrganiser} {x : GlobalId} {us : List ChannelEndUpdate}
    {u v : ChannelEndUpdate} (h : Told o x us) (hu : [v, u] <+: us) :
    validId o.masterId ∧ u = o.setMaster x := by
  unfold Told at h
  split at h
  · rename_i hvalid
    obtain ⟨adds, rfl, -⟩ := h
    exact ⟨hvalid, (List.cons_prefix_cons.mp (List.cons_prefix_cons.mp hu).2).1⟩
  · subst h
    have hlen := hu.length_le
    simp at hlen

/-- The others add destinations. -/
theorem Told.later {o : ChannelOrganiser} {x : GlobalId} {us vs : List ChannelEndUpdate}
    {u v w : ChannelEndUpdate} (h : Told o x us) (hu : v :: w :: vs ++ [u] <+: us) :
    ∃ y, u = addDestination x y := by
  unfold Told at h
  split at h
  · obtain ⟨adds, rfl, -⟩ := h
    have hvs := (List.cons_prefix_cons.mp (List.cons_prefix_cons.mp hu).2).2
    have hmem := hvs.subset (List.mem_append_right vs (List.mem_singleton_self u))
    obtain ⟨y, -, hy⟩ := List.mem_map.mp hmem
    exact ⟨y, hy.symm⟩
  · subst h
    have hlen := hu.length_le
    simp at hlen

/-- An end interprets the next update that its organiser has sent to it, which does not fail. An
end that gets its id reports that it is writing. -/
theorem Stage.adjust {o : ChannelOrganiser} {e : ChannelEnd} (h : Stage o k e)
    (hdefined : validId o.masterId → o.transportclass ≠ .undefinedTransport)
    {us : List ChannelEndUpdate} (htold : Told o ⟨k, o.commonEndId⟩ us) {u : ChannelEndUpdate}
    (hu : e.log ++ [u] <+: us) :
    ∃ e' rs, e.adjustChannelEnd k u = .ok (e', rs) ∧ Stage o k e' ∧ e'.ns = e.ns ∧
      e'.log = e.log ++ [u] ∧
      (e.log = [] ∧ u = idIssued ⟨k, o.commonEndId⟩ o.ns ∧
          e'.transportClass = e.transportClass ∧
          rs = (if e'.transportClass = .undefinedTransport then [] else [e'.report]) ∧
          e'.id = ⟨k, o.commonEndId⟩ ∨
        e.log ≠ [] ∧ u.update ≠ .idIssued ∧ rs = [] ∧ validId o.masterId) := by
  cases h with
  | waiting h =>
    rw [h.log, List.nil_append] at hu
    obtain rfl := htold.first hu
    have hrun : e.adjustChannelEnd k (idIssued ⟨k, o.commonEndId⟩ o.ns) =
        .ok (({ e with
            log := e.log ++ [idIssued ⟨k, o.commonEndId⟩ o.ns]
            id := ⟨k, o.commonEndId⟩ } : ChannelEnd),
          if e.transportClass = .undefinedTransport then [] else
            [({ e with
              log := e.log ++ [idIssued ⟨k, o.commonEndId⟩ o.ns]
              id := ⟨k, o.commonEndId⟩ } : ChannelEnd).report]) := by
      simp only [ChannelEnd.adjustChannelEnd, idIssued, if_true]
    refine ⟨_, _, hrun, ?_, rfl, rfl, .inl ⟨h.log, rfl, rfl, rfl, rfl⟩⟩
    exact .named (by dsimp only; rw [h.log]; rfl) rfl h.service h.destinations
  | named log id service destinations =>
    rw [log] at hu
    obtain ⟨hvalid, rfl⟩ := htold.second hu
    have hrun : e.adjustChannelEnd k (o.setMaster ⟨k, o.commonEndId⟩) =
        .ok (({ e with
          log := e.log ++ [o.setMaster ⟨k, o.commonEndId⟩]
          masterId := o.masterId
          transportClass := o.transportclass
          isMaster := e.id = o.masterId
          service := true } : ChannelEnd), []) := by
      simp only [ChannelEnd.adjustChannelEnd, setMaster, if_true, ChannelEnd.installService,
        service, Bool.false_eq_true, if_false]
      rfl
    refine ⟨_, _, hrun, ?_, rfl, rfl, .inr ⟨by rw [log]; exact List.cons_ne_nil _ _,
      fun h => (nomatch h), rfl, hvalid⟩⟩
    exact .mastered [] hvalid (by dsimp only; rw [log]; rfl) id rfl rfl rfl destinations
  | mastered adds valid log id service master transport destinations =>
    rw [log] at hu
    obtain ⟨y, rfl⟩ := htold.later hu
    have hrun : e.adjustChannelEnd k (addDestination ⟨k, o.commonEndId⟩ y) =
        .ok (({ e with
          log := e.log ++ [addDestination ⟨k, o.commonEndId⟩ y]
          destinations := e.destinations ++ [y.location] } : ChannelEnd), []) := by
      have hdef : e.transportClass ≠ .undefinedTransport := transport ▸ hdefined valid
      simp only [ChannelEnd.adjustChannelEnd, addDestination, id, if_true,
        ChannelEnd.addRemoteDestination, hdef, if_false]
      rfl
    refine ⟨_, _, hrun, ?_, rfl, rfl, .inr ⟨by rw [log]; exact List.cons_ne_nil _ _,
      fun h => (nomatch h), rfl, valid⟩⟩
    refine .mastered (adds ++ [y]) valid ?_ id service master transport ?_
    · dsimp only
      rw [log, List.map_append]
      rfl
    · dsimp only
      rw [destinations, List.map_append]
      rfl

/-- A node reads the next update. -/
theorem Inv.registryUpdate (h : Inv sys) (hn : sys.nodes[k]? = some n) {u : ChannelEndUpdate}
    (hu : sys.updates[n.read]? = some u) :
    ∃ n', n.handleChannelRegistryUpdate k u = .ok n' ∧
      Inv { sys with nodes := sys.nodes.set k n' } := by
  have hok := h.nodes k n hn
  have hread : n.read + 1 ≤ sys.updates.length := (List.getElem?_eq_some_iff.mp hu).1
  have htake : sys.updates.take (n.read + 1) = sys.updates.take n.read ++ [u] := by
    rw [List.take_add_one, hu]
    rfl
  -- ends to which the update is not sent
  have hothers (d : ChannelEnd) (hd : d ∈ n.ends)
      (hne : ∀ o, organiser sys.manager d.ns = some o → u.endId ≠ ⟨k, o.commonEndId⟩) :
      EndOk sys.manager sys.updates k (n.read + 1) d := by
    refine ⟨(hok.ends d hd).named, (hok.ends d hd).absent, fun o ho => ?_⟩
    obtain ⟨hstage, hlog⟩ := (hok.ends d hd).present o ho
    rw [htake, sentTo_append, sentTo_cons_of_ne _ (hne o ho), sentTo_nil, List.append_nil]
    exact ⟨hstage, hlog⟩
  unfold Node.handleChannelRegistryUpdate Node.enterId
  by_cases hlocation : u.endId.location = k
  · rw [if_pos hlocation]
    obtain ⟨o, hmem, hon, hspec⟩ := h.registered.known u (List.mem_of_getElem? hu)
    have ho := h.registered.organiser_of_mem hmem hon
    have hsane := h.registered.sane o hmem hon
    have hx : u.endId = ⟨k, o.commonEndId⟩ := by
      rw [← hlocation, ← hsane.object _ hspec]
    obtain ⟨l, hl, e₀, he₀, hns₀⟩ := h.listed o.ns o hon ho _ hspec
    rw [hlocation] at hl
    obtain rfl := Option.some.inj (hn.symm.trans hl)
    have hany : n.ends.any (·.ns = o.ns) = true :=
      List.any_eq_true.mpr ⟨e₀, he₀, decide_eq_true hns₀⟩
    obtain ⟨l₁, e, l₂, hlist, hns, hat⟩ := atEnd_split (·.adjustChannelEnd k u) hany
    have he : e ∈ n.ends := by rw [hlist]; simp
    obtain ⟨hstage, hlog⟩ := (hok.ends e he).present o (hns ▸ ho)
    have hstart : e.log ++ [u] <+: sentTo ⟨k, o.commonEndId⟩ sys.updates := by
      have hlast : e.log ++ [u] = sentTo ⟨k, o.commonEndId⟩ (sys.updates.take (n.read + 1)) := by
        rw [htake, sentTo_append, sentTo_cons_self _ hx, hlog]
        rfl
      rw [hlast]
      exact (List.take_prefix _ _).filter _
    obtain ⟨e', rs, hrun, hstage', hns', hlog', hcase⟩ :=
      hstage.adjust hsane.defined (hx ▸ hsane.told _ hspec) hstart
    -- the object ids of other channels are different
    have hobject (d : ChannelEnd) (hd : d ∈ n.ends) (hdn : d.ns ≠ e.ns) (p : ChannelOrganiser)
        (hp : organiser sys.manager d.ns = some p) : p.commonEndId ≠ o.commonEndId := by
      obtain ⟨hpm, hpn⟩ := organiser_eq_some hp
      intro hsame
      have heq := h.registered.eq_of_object hpm hmem (hpn ▸ (hok.ends d hd).named) hon hsame
      exact hdn (hpn.symm.trans ((congrArg ChannelOrganiser.ns heq).trans hns.symm))
    generalize hreg : (if u.update = .idIssued ∧ n.ends.any (·.ns = u.nameSet) = true then
      ({ n with read := n.read + 1, registry := (u.endId.object, u.nameSet) :: n.registry } : Node)
      else { n with read := n.read + 1 }) = n₁
    have hn₁ : n₁ = { n with read := n.read + 1, registry := n₁.registry } := by
      rw [← hreg]
      split <;> rfl
    have hlookup : n₁.registry.lookup o.commonEndId = some o.ns ∧
        ∀ c, c ≠ o.commonEndId → n₁.registry.lookup c = n.registry.lookup c := by
      obtain ⟨-, hid, -⟩ | ⟨hne, hupdate, -⟩ := hcase
      · rw [← hreg, if_pos ⟨by rw [hid]; rfl, by rw [hid]; exact hany⟩, hid]
        refine ⟨List.lookup_cons_self, fun c hc => ?_⟩
        change List.lookup c ((o.commonEndId, o.ns) :: n.registry) = _
        rw [List.lookup_cons, beq_false_of_ne hc]
      · rw [← hreg, if_neg fun h => hupdate h.1]
        exact ⟨hns ▸ hok.registry e he o (hns ▸ ho) hne, fun _ _ => rfl⟩
    refine ⟨⟨l₁ ++ e' :: l₂, n₁.registry, n.requests ++ rs, n.read + 1⟩, ?_, ?_⟩
    · rw [hn₁]
      dsimp only
      rw [hx, hlookup.1]
      dsimp only
      rw [hat, hrun]
      rfl
    · refine h.setNode hn (hok.replace hlist hns' hread (fun d hd hdn => hothers d hd
        fun p hp hux => hobject d hd hdn p hp ?_) ⟨hns' ▸ (hok.ends e he).named, fun hnone => ?_,
          fun p hp => ?_⟩ (fun d hd hdn p hp hdl => ?_) (fun p hp _ => ?_) (fun r hr => ?_)
          fun htc => ?_) fun d hd => ?_
      · exact (congrArg GlobalId.object (hux.symm.trans hx))
      · rw [hns', hns, ho] at hnone
        cases hnone
      · rw [hns', hns, ho] at hp
        obtain rfl := Option.some.inj hp
        refine ⟨hstage', ?_⟩
        rw [hlog', hlog, htake, sentTo_append, sentTo_cons_self _ hx]
        rfl
      · rw [hlookup.2 _ (hobject d hd hdn p hp)]
        exact hok.registry d hd p hp hdl
      · rw [hns, ho] at hp
        obtain rfl := Option.some.inj hp
        rw [hlookup.1, hns]
      · obtain ⟨-, -, -, hrs, hid⟩ | ⟨-, -, hrs, -⟩ := hcase
        · rw [hrs] at hr
          split at hr
          · cases hr
          · rename_i htc
            obtain rfl := List.mem_singleton.mp hr
            exact ⟨rfl, congrArg GlobalId.location hid, htc, hns', o, hns ▸ ho⟩
        · rw [hrs] at hr
          cases hr
      · obtain ⟨-, -, -, hrs, -⟩ | ⟨-, -, -, hvalid⟩ := hcase
        · rw [hrs, if_neg htc]
          exact .inr (.inr ⟨e'.report, List.mem_append_right _ (List.mem_singleton_self _), rfl,
            hns'⟩)
        · exact .inr (.inl ⟨o, hns ▸ ho, hvalid⟩)
      · rw [hlist] at hd
        obtain hd | hd := List.mem_append.mp hd
        · exact ⟨d, List.mem_append_left _ hd, rfl⟩
        · obtain rfl | hd := List.mem_cons.mp hd
          · exact ⟨e', by simp, hns'⟩
          · exact ⟨d, by simp [hd], rfl⟩
  · rw [if_neg hlocation]
    refine ⟨_, rfl, h.setNode hn ?_ fun e he => ⟨e, he, rfl⟩⟩
    exact ⟨hread, hok.nodup,
      fun d hd => hothers d hd fun o _ hux => hlocation (congrArg GlobalId.location hux),
      hok.registry, hok.announced, hok.once, hok.reported, hok.kinds, hok.pending, hok.writing⟩

end Steps

end Dueca.Connect
