import Dueca.Connect.Ends

/-!
# Runs that connect channel ends

In a run in which less than 65533 names get an object id, no assertion fails, and each end hears
its id, then one master, and then its destinations. Once nothing is under way, all ends of a
channel with a writer are connected with each other.
-/

namespace Dueca.Connect

open Dueca.Lib ChannelOrganiser

/-- A channel has a name, and there is an object id for a name that is new. -/
def Meets (sys : System) : Input → Prop
  | .findOrCreateChannel _ nameSet => nameSet ≠ emptyNameSet
  | .configurationRequest k =>
    ∀ n ∈ sys.nodes[k]?, ∀ r ∈ n.requests.head?,
      organiser sys.manager r.nameSet = none → sys.manager.channelIdCount < 0xfffe
  | _ => True

instance (sys : System) (input : Input) : Decidable (Meets sys input) := by
  cases input <;> unfold Meets <;> infer_instance

/-- An end has interpreted its id, then one master, and then destinations. -/
structure Heard (e : ChannelEnd) (adds : List GlobalId) : Prop where
  log : e.log = idIssued e.id e.ns ::
    { update := .setMaster, endId := e.id, destinationId := e.masterId,
      transportclass := e.transportClass } :: adds.map (addDestination e.id)
  service : e.service = true
  destinations : e.destinations = adds.map GlobalId.location

/-- Nothing is under way to or from the manager. -/
def System.Quiet (sys : System) : Prop :=
  ∀ n ∈ sys.nodes, n.requests = [] ∧ n.read = sys.updates.length

instance (sys : System) : Decidable sys.Quiet := inferInstanceAs (Decidable (∀ n ∈ _, _))

/-- An end in a node. -/
def EndAt (sys : System) (k : ℕ) (e : ChannelEnd) : Prop :=
  ∃ n, sys.nodes[k]? = some n ∧ e ∈ n.ends

/-- The ends have been told the right things, each once. -/
structure Connected (sys : System) : Prop where
  /-- An end has nothing yet, its id, or a master and some of its destinations. -/
  order : ∀ k e, EndAt sys k e → e.log = [] ∧ e.id = {} ∨
    e.log = [idIssued e.id e.ns] ∧ e.service = false ∨ ∃ adds, Heard e adds
  /-- Ends of a name share an object id that no other name has. -/
  ids : ∀ k e, EndAt sys k e → e.log ≠ [] → validId e.id ∧ e.id.location = k ∧
    ∀ j d, EndAt sys j d → d.log ≠ [] → (d.id.object = e.id.object ↔ d.ns = e.ns)
  /-- Ends of a name share a master and a class of transport. -/
  master : ∀ k e, EndAt sys k e → e.service = true →
    validId e.masterId ∧ e.transportClass ≠ .undefinedTransport ∧
    ∀ j d, EndAt sys j d → d.service = true → d.ns = e.ns →
      d.masterId = e.masterId ∧ d.transportClass = e.transportClass
  /-- Destinations are different, and are other ends of the name. -/
  destinations : ∀ k e adds, EndAt sys k e → Heard e adds → adds.Nodup ∧
    ∀ y ∈ adds, y.object = e.id.object ∧ y.location ≠ k ∧ HasEnd sys.nodes y.location e.ns
  /-- At last, no destination of a channel with a writing end is left out. -/
  complete : sys.Quiet → ∀ k e, EndAt sys k e →
    (∃ j d, EndAt sys j d ∧ d.ns = e.ns ∧ d.transportClass ≠ .undefinedTransport) →
    ∃ adds, Heard e adds ∧ ∀ j, HasEnd sys.nodes j e.ns → j ≠ k → ⟨j, e.id.object⟩ ∈ adds

section

variable {sys : System} {k : ℕ} {e : ChannelEnd}

theorem inv_start {nodes : ℕ} (h : nodes ≤ 0xff) : Inv (System.start nodes) := by
  have hnode (k : ℕ) (n : Node) (hn : (System.start nodes).nodes[k]? = some n) : n = {} :=
    List.eq_of_mem_replicate (List.mem_of_getElem? hn)
  refine ⟨⟨.inl ⟨rfl, rfl⟩, ⟨Nat.le_refl 2, show 2 < 0xffff by decide⟩, fun i o ho => ?_, fun i j o p ho => ?_,
    fun o ho => (nomatch ho), fun u hu => (nomatch hu)⟩, fun k n hn => ?_,
    fun name o hname ho => (nomatch ho), ?_⟩
  · cases ho
  · cases ho
  · obtain rfl := hnode k n hn
    exact ⟨Nat.le_refl 0, List.nodup_nil, fun e he => (nomatch he), fun e he => (nomatch he),
      fun r hr => (nomatch hr), List.Pairwise.nil, fun r hr => (nomatch hr),
      fun r hr => (nomatch hr), fun e he => (nomatch he), fun e he => (nomatch he)⟩
  · exact (List.length_replicate ..).symm ▸ h

/-- A step keeps the invariant, or was not possible. -/
theorem Inv.step (h : Inv sys) (input : Input) (hmeets : Meets sys input) :
    (∃ t, step sys input = .ok t ∧ Inv t) ∨ Connect.step sys input = .error .disabled := by
  cases input with
  | findOrCreateChannel k nameSet =>
    cases hn : sys.nodes[k]? with
    | none =>
      right
      simp only [Connect.step, hn]
    | some n =>
      left
      refine ⟨_, ?_, h.findOrCreateChannel hn hmeets⟩
      simp only [Connect.step, hn]
  | addWriteToken k nameSet tclass =>
    cases hn : sys.nodes[k]? with
    | none =>
      right
      simp only [Connect.step, hn]
    | some n =>
      by_cases hnot : tclass = .undefinedTransport ∨ n.ends.any (·.ns = nameSet) = false
      · right
        simp only [Connect.step, hn, hnot, if_true]
      · left
        obtain ⟨htc, hany⟩ := not_or.mp hnot
        obtain ⟨x, hx, hinv⟩ := h.addWriteToken hn htc (eq_true_of_ne_false hany)
        refine ⟨_, ?_, hinv⟩
        simp only [Connect.step, hn, hnot, if_false, hx]
        rfl
  | configurationRequest k =>
    cases hn : sys.nodes[k]? with
    | none =>
      right
      simp only [Connect.step, hn]
    | some n =>
      cases hr : n.requests with
      | nil =>
        right
        simp only [Connect.step, hn, hr]
      | cons r rs =>
        left
        refine ⟨_, ?_, h.configurationRequest hn hr (hmeets n hn r (by rw [hr]; rfl))⟩
        simp only [Connect.step, hn, hr]
  | registryUpdate k =>
    cases hn : sys.nodes[k]? with
    | none =>
      right
      simp only [Connect.step, hn]
    | some n =>
      cases hu : sys.updates[n.read]? with
      | none =>
        right
        simp only [Connect.step, hn, hu]
      | some u =>
        left
        obtain ⟨n', hread, hinv⟩ := h.registryUpdate hn hu
        refine ⟨_, ?_, hinv⟩
        simp only [Connect.step, hn, hu, hread]
        rfl

/-! ### What the ends have heard -/

/-- An end that has interpreted something has an organiser. -/
theorem Inv.stage (h : Inv sys) (he : EndAt sys k e) (hlog : e.log ≠ []) :
    ∃ o, organiser sys.manager e.ns = some o ∧ o.ns = e.ns ∧ e.ns ≠ emptyNameSet ∧
      Sane o sys.updates ∧ Stage o k e ∧
      e.log <+: sentTo ⟨k, o.commonEndId⟩ sys.updates ∧ (⟨k, o.commonEndId⟩ : GlobalId) ∈ o.endSpec := by
  obtain ⟨n, hn, he⟩ := he
  have hend := (h.nodes k n hn).ends e he
  cases ho : organiser sys.manager e.ns with
  | none => exact absurd (hend.absent ho).log hlog
  | some o =>
    obtain ⟨hmem, hons⟩ := organiser_eq_some ho
    obtain ⟨hstage, hsent⟩ := hend.present o ho
    have hsane := h.registered.sane o hmem (hons ▸ hend.named)
    have hstart : e.log <+: sentTo ⟨k, o.commonEndId⟩ sys.updates := by
      rw [hsent]
      exact (List.take_prefix _ _).filter _
    refine ⟨o, rfl, hons, hend.named, hsane, hstage, hstart, ?_⟩
    by_contra hnot
    rw [hsane.untold _ rfl hnot] at hstart
    exact hlog (List.prefix_nil.mp hstart)

/-- What an end that has its id is. -/
theorem Stage.id_of_log {o : ChannelOrganiser} (h : Stage o k e) (hlog : e.log ≠ []) :
    e.id = ⟨k, o.commonEndId⟩ := by
  cases h with
  | waiting h => exact absurd h.log hlog
  | named _ id => exact id
  | mastered _ _ _ id => exact id

theorem Stage.of_service {o : ChannelOrganiser} (h : Stage o k e) (hservice : e.service = true) :
    validId o.masterId ∧ e.masterId = o.masterId ∧ e.transportClass = o.transportclass ∧
      e.log ≠ [] := by
  cases h with
  | waiting h =>
    rw [h.service] at hservice
    cases hservice
  | named _ _ service =>
    rw [service] at hservice
    cases hservice
  | mastered adds valid log id service master transport =>
    exact ⟨valid, master, transport, by rw [log]; exact List.cons_ne_nil _ _⟩

theorem Stage.heard {o : ChannelOrganiser} (h : Stage o k e) (hons : o.ns = e.ns) :
    e.log = [] ∧ e.id = {} ∨ e.log = [idIssued e.id e.ns] ∧ e.service = false ∨
      ∃ adds, Heard e adds := by
  cases h with
  | waiting h => exact .inl ⟨h.log, h.id⟩
  | named log id service => exact .inr (.inl ⟨by rw [log, id, hons], service⟩)
  | mastered adds valid log id service master transport destinations =>
    refine .inr (.inr ⟨adds, ?_, service, destinations⟩)
    rw [log, id, hons, master, transport]
    rfl

theorem addDestination_inj {x y z : GlobalId} (h : addDestination x y = addDestination x z) :
    y = z := congrArg ChannelEndUpdate.destinationId h

/-- Of what an end is told, it has heard a first part. -/
theorem Heard.told {adds : List GlobalId} (h : Heard e adds) {o : ChannelOrganiser} {x : GlobalId}
    {us : List ChannelEndUpdate} (htold : Told o x us) (hstart : e.log <+: us) (hid : e.id = x) :
    ∃ all, us = idIssued x o.ns :: o.setMaster x :: all.map (addDestination x) ∧ all.Nodup ∧
      (∀ y, y ∈ all ↔ y ∈ o.endSpec ∧ y ≠ x) ∧ adds <+: all := by
  unfold Told at htold
  rw [h.log, hid] at hstart
  split at htold
  · obtain ⟨all, rfl, hnodup, hiff⟩ := htold
    have hadds := (List.cons_prefix_cons.mp (List.cons_prefix_cons.mp hstart).2).2
    refine ⟨all, rfl, hnodup, hiff, ?_⟩
    exact (List.prefix_map_iff_of_injective fun _ _ => addDestination_inj).mp hadds
  · subst htold
    have hlen := hstart.length_le
    simp at hlen

/-- When nothing is under way, an end has interpreted all that was sent to it. -/
theorem Inv.log_of_quiet (h : Inv sys) (hquiet : sys.Quiet) (he : EndAt sys k e) :
    ∃ o, organiser sys.manager e.ns = some o ∧ (⟨k, o.commonEndId⟩ : GlobalId) ∈ o.endSpec ∧
      e.log = sentTo ⟨k, o.commonEndId⟩ sys.updates ∧ e.log ≠ [] := by
  obtain ⟨n, hn, he⟩ := he
  have hok := h.nodes k n hn
  obtain ⟨hrequests, hread⟩ := hquiet n (List.mem_of_getElem? hn)
  obtain ⟨o, ho, hmem⟩ | ⟨r, hr, -⟩ := hok.pending e he
  · obtain ⟨hom, hons⟩ := organiser_eq_some ho
    have hlog := ((hok.ends e he).present o ho).2
    rw [hread, List.take_length] at hlog
    have htold := (h.registered.sane o hom (hons ▸ (hok.ends e he).named)).told _ hmem
    refine ⟨o, ho, hmem, hlog, ?_⟩
    rw [hlog]
    unfold Told at htold
    split at htold
    · obtain ⟨adds, hadds, -⟩ := htold
      rw [hadds]
      exact List.cons_ne_nil _ _
    · rw [htold]
      exact List.cons_ne_nil _ _
  · rw [hrequests] at hr
    cases hr

/-- When nothing is under way, a channel with a writing end has a master. -/
theorem Inv.master_of_quiet (h : Inv sys) (hquiet : sys.Quiet) (he : EndAt sys k e)
    (htc : e.transportClass ≠ .undefinedTransport) : HasMaster sys.manager e.ns := by
  obtain ⟨-, -, -, -, hlog⟩ := h.log_of_quiet hquiet he
  obtain ⟨n, hn, he⟩ := he
  obtain hnil | hmaster | ⟨r, hr, -⟩ := (h.nodes k n hn).writing e he htc
  · exact absurd hnil hlog
  · exact hmaster
  · rw [(hquiet n (List.mem_of_getElem? hn)).1] at hr
    cases hr

theorem Inv.connected (h : Inv sys) : Connected sys where
  order k e he := by
    by_cases hlog : e.log = []
    · obtain ⟨n, hn, hmem⟩ := he
      have hend := (h.nodes k n hn).ends e hmem
      cases ho : organiser sys.manager e.ns with
      | none => exact .inl ⟨hlog, (hend.absent ho).id⟩
      | some o => exact .inl ⟨hlog, ((hend.present o ho).1.id_iff (h.location hn)).mpr hlog⟩
    · obtain ⟨o, -, hons, -, -, hstage, -⟩ := h.stage he hlog
      exact hstage.heard hons
  ids k e he hlog := by
    obtain ⟨o, ho, hons, hname, -, hstage, -⟩ := h.stage he hlog
    have hid := hstage.id_of_log hlog
    obtain ⟨n, hn, -⟩ := he
    refine ⟨hid ▸ ⟨h.location hn, h.object_lt hname ho⟩, congrArg GlobalId.location hid,
      fun j d hd hdlog => ?_⟩
    obtain ⟨p, hp, hpns, hdname, -, hdstage, -⟩ := h.stage hd hdlog
    rw [hdstage.id_of_log hdlog, hid]
    constructor
    · intro hobject
      have heq := h.registered.eq_of_object (organiser_eq_some hp).1 (organiser_eq_some ho).1
        (hpns ▸ hdname) (hons ▸ hname) hobject
      rw [← hpns, heq, hons]
    · intro hns
      rw [hns, ho] at hp
      exact congrArg ChannelOrganiser.commonEndId (Option.some.inj hp).symm
  master k e he hservice := by
    have hlog : e.log ≠ [] := by
      obtain ⟨n, hn, hmem⟩ := he
      have hend := (h.nodes k n hn).ends e hmem
      cases ho : organiser sys.manager e.ns with
      | none =>
        rw [(hend.absent ho).service] at hservice
        cases hservice
      | some o => exact ((hend.present o ho).1.of_service hservice).2.2.2
    obtain ⟨o, ho, -, -, hsane, hstage, -⟩ := h.stage he hlog
    obtain ⟨hvalid, hmaster, htransport, -⟩ := hstage.of_service hservice
    refine ⟨hmaster ▸ hvalid, htransport ▸ hsane.defined hvalid, fun j d hd hdservice hns => ?_⟩
    obtain ⟨n, hn, hmem⟩ := hd
    obtain ⟨-, hdmaster, hdtransport, -⟩ := ((((h.nodes j n hn).ends d hmem).present o
      (hns ▸ ho)).1).of_service hdservice
    exact ⟨hdmaster.trans hmaster.symm, hdtransport.trans htransport.symm⟩
  destinations k e adds he hheard := by
    have hlog : e.log ≠ [] := by
      rw [hheard.log]
      exact List.cons_ne_nil _ _
    obtain ⟨o, ho, hons, hname, hsane, hstage, hstart, hmem⟩ := h.stage he hlog
    have hid := hstage.id_of_log hlog
    obtain ⟨all, -, hnodup, hiff, hadds⟩ := hheard.told (hsane.told _ hmem) hstart hid
    refine ⟨hnodup.sublist hadds.sublist, fun y hy => ?_⟩
    obtain ⟨hspec, hne⟩ := (hiff y).mp (hadds.subset hy)
    have hobject := hsane.object y hspec
    refine ⟨by rw [hobject, hid], fun hlocation => hne ?_, h.listed e.ns o hname ho y hspec⟩
    rw [← hlocation, ← hobject]
  complete hquiet k e he := by
    rintro ⟨j, d, hd, hns, htc⟩
    obtain ⟨p, hp, hvalid⟩ := h.master_of_quiet hquiet hd htc
    obtain ⟨o, ho, hmem, hsent, hlog⟩ := h.log_of_quiet hquiet he
    rw [hns, ho] at hp
    obtain rfl := Option.some.inj hp
    obtain ⟨o', ho', hons, hname, hsane, hstage, hstart, -⟩ := h.stage he hlog
    obtain rfl := Option.some.inj (ho.symm.trans ho')
    have hid := hstage.id_of_log hlog
    have htold := hsane.told _ hmem
    unfold Told at htold
    rw [if_pos hvalid, ← hsent] at htold
    obtain ⟨all, hall, -, hiff⟩ := htold
    have hheard : Heard e all := by
      obtain hnil | ⟨hone, -⟩ | ⟨adds, hadds⟩ := hstage.heard hons
      · exact absurd hnil.1 hlog
      · rw [hone] at hall
        have hlen := congrArg List.length hall
        simp at hlen
      · have hsame := hadds.log
        rw [hall, hid] at hsame
        have hmap := (List.cons_eq_cons.mp (List.cons_eq_cons.mp hsame).2).2
        obtain rfl := List.map_injective_iff.mpr (fun _ _ => addDestination_inj) hmap
        exact hadds
    refine ⟨all, hheard, fun l hl hne => ?_⟩
    obtain ⟨n, hn, c, hc, hcns⟩ := hl
    obtain ⟨q, hq, hqmem, -⟩ := h.log_of_quiet hquiet ⟨n, hn, hc⟩
    rw [hcns, ho] at hq
    obtain rfl := Option.some.inj hq
    rw [hid]
    exact (hiff _).mpr ⟨hqmem, fun hsame => hne (congrArg GlobalId.location hsame)⟩

end

/-- Three nodes with a channel. The first creates its end and writes it, another end joins before
this has been handled, and one after. -/
def joining : List Input :=
  [.findOrCreateChannel 0 "D://a", .configurationRequest 0, .registryUpdate 0,
    .findOrCreateChannel 1 "D://a", .configurationRequest 1, .addWriteToken 0 "D://a" .regular,
    .configurationRequest 0, .findOrCreateChannel 2 "D://a", .configurationRequest 2] ++
  List.replicate 11 (.registryUpdate 0) ++ List.replicate 12 (.registryUpdate 1) ++
  List.replicate 12 (.registryUpdate 2)

end Dueca.Connect
