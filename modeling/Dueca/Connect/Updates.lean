import Dueca.Connect.Model
import Mathlib.Data.List.Nodup

/-!
# What the organisers send

For each end, the updates of the manager begin with its id. When there is a master the next one
tells about that, and all that follow add destinations, one for each other end.
-/

namespace Dueca.Connect

open Dueca.Lib ChannelOrganiser

/-- The updates for an end. -/
def sentTo (x : GlobalId) (us : List ChannelEndUpdate) : List ChannelEndUpdate :=
  us.filter (·.endId = x)

@[simp] theorem sentTo_append (x : GlobalId) (us vs : List ChannelEndUpdate) :
    sentTo x (us ++ vs) = sentTo x us ++ sentTo x vs := List.filter_append ..

@[simp] theorem sentTo_nil (x : GlobalId) : sentTo x [] = [] := rfl

theorem sentTo_cons_self {x : GlobalId} {u : ChannelEndUpdate} (us : List ChannelEndUpdate)
    (h : u.endId = x) : sentTo x (u :: us) = u :: sentTo x us :=
  List.filter_cons_of_pos (decide_eq_true h)

theorem sentTo_cons_of_ne {x : GlobalId} {u : ChannelEndUpdate} (us : List ChannelEndUpdate)
    (h : u.endId ≠ x) : sentTo x (u :: us) = sentTo x us :=
  List.filter_cons_of_neg (by simpa using h)

theorem endId_idIssued (x : GlobalId) (ns : String) : (idIssued x ns).endId = x := rfl

theorem endId_setMaster (o : ChannelOrganiser) (x : GlobalId) : (o.setMaster x).endId = x := rfl

theorem endId_addDestination (x y : GlobalId) : (addDestination x y).endId = x := rfl

theorem sentTo_eq_nil {x : GlobalId} {us : List ChannelEndUpdate} (h : ∀ u ∈ us, u.endId ≠ x) :
    sentTo x us = [] := List.filter_eq_nil_iff.mpr fun u hu => by simpa using h u hu

theorem sentTo_eq_self {x : GlobalId} {us : List ChannelEndUpdate} (h : ∀ u ∈ us, u.endId = x) :
    sentTo x us = us := List.filter_eq_self.mpr fun u hu => decide_eq_true (h u hu)

/-- The updates of a loop over different ends, in which each gets updates of its own. -/
theorem sentTo_flatMap {x : GlobalId} {es : List GlobalId} (hes : es.Nodup)
    {f : GlobalId → List ChannelEndUpdate} (hf : ∀ e ∈ es, ∀ u ∈ f e, u.endId = e) :
    sentTo x (es.flatMap f) = if x ∈ es then f x else [] := by
  induction es with
  | nil => rfl
  | cons e es ih =>
    obtain ⟨hnot, hes⟩ := List.nodup_cons.mp hes
    have hrest := ih hes fun d hd => hf d (List.mem_cons_of_mem e hd)
    rw [List.flatMap_cons, sentTo_append, hrest]
    by_cases hx : x = e
    · subst hx
      rw [sentTo_eq_self (hf x List.mem_cons_self), if_neg hnot, if_pos List.mem_cons_self,
        List.append_nil]
    · rw [sentTo_eq_nil fun u hu hux => hx (hux.symm.trans (hf e List.mem_cons_self u hu)),
        List.nil_append]
      simp [hx]

/-- What an end is told: its id and, when there is a master, that and all other ends. -/
def Told (o : ChannelOrganiser) (x : GlobalId) (us : List ChannelEndUpdate) : Prop :=
  if validId o.masterId then
    ∃ adds : List GlobalId, us = idIssued x o.ns :: o.setMaster x :: adds.map (addDestination x) ∧
      adds.Nodup ∧ ∀ y, y ∈ adds ↔ y ∈ o.endSpec ∧ y ≠ x
  else us = [idIssued x o.ns]

/-- An organiser, when all these updates have been sent. -/
structure Sane (o : ChannelOrganiser) (us : List ChannelEndUpdate) : Prop where
  nodup : o.endSpec.Nodup
  object : ∀ x ∈ o.endSpec, x.object = o.commonEndId
  defined : validId o.masterId → o.transportclass ≠ .undefinedTransport
  told : ∀ x ∈ o.endSpec, Told o x (sentTo x us)
  untold : ∀ x, x.object = o.commonEndId → x ∉ o.endSpec → sentTo x us = []

section Organiser

variable {o : ChannelOrganiser} {us : List ChannelEndUpdate} {x : GlobalId}

/-- Updates for other channels do not matter. -/
theorem Sane.frame (h : Sane o us) {vs : List ChannelEndUpdate}
    (hvs : ∀ v ∈ vs, v.endId.object ≠ o.commonEndId) : Sane o (us ++ vs) := by
  have hsent (x : GlobalId) (hx : x.object = o.commonEndId) :
      sentTo x (us ++ vs) = sentTo x us := by
    rw [sentTo_append, sentTo_eq_nil fun v hv hvx => hvs v hv (hvx ▸ hx), List.append_nil]
  refine ⟨h.nodup, h.object, h.defined, fun x hx => ?_, fun x hx hnot => ?_⟩
  · rw [hsent x (h.object x hx)]
    exact h.told x hx
  · rw [hsent x hx]
    exact h.untold x hx hnot

theorem takeWhile_ne_concat {es : List GlobalId} (h : x ∉ es) :
    (es ++ [x]).takeWhile (· ≠ x) = es := by
  have hne : ∀ e ∈ es, decide (e ≠ x) = true := fun e he =>
    decide_eq_true (ne_of_mem_of_not_mem he h)
  rw [List.takeWhile_append_of_pos hne]
  simp

/-- What the end that is new, and the ones before it, are told. -/
theorem sentTo_newChannelEnd (hnodup : o.endSpec.Nodup) (hx : x ∉ o.endSpec)
    (hvalid : validId o.masterId) :
    sentTo x (o.newChannelEnd o.ns x).2 =
        idIssued x o.ns :: o.setMaster x :: o.endSpec.map (addDestination x) ∧
      ∀ y, y ≠ x → sentTo y (o.newChannelEnd o.ns x).2 =
        if y ∈ o.endSpec then [addDestination y x] else [] := by
  have hout : (o.newChannelEnd o.ns x).2 = idIssued x o.ns :: o.setMaster x ::
      o.endSpec.flatMap fun e => [addDestination e x, addDestination x e] := by
    simp only [newChannelEnd, hvalid, if_true, takeWhile_ne_concat hx]
    rfl
  have hself (es : List GlobalId) (hes : x ∉ es) :
      sentTo x (es.flatMap fun e => [addDestination e x, addDestination x e]) =
        es.map (addDestination x) := by
    induction es with
    | nil => rfl
    | cons e es ih =>
      have hne : (addDestination e x).endId ≠ x := fun h => hes (h ▸ List.mem_cons_self)
      have hrest := ih fun h => hes (List.mem_cons_of_mem e h)
      rw [List.flatMap_cons, sentTo_append, sentTo_cons_of_ne _ hne,
        sentTo_cons_self _ (endId_addDestination x e), hrest]
      rfl
  have hother (y : GlobalId) (hy : y ≠ x) (es : List GlobalId) (hes : es.Nodup) :
      sentTo y (es.flatMap fun e => [addDestination e x, addDestination x e]) =
        if y ∈ es then [addDestination y x] else [] := by
    induction es with
    | nil => rfl
    | cons e es ih =>
      obtain ⟨hnot, hes⟩ := List.nodup_cons.mp hes
      have hne : (addDestination x e).endId ≠ y := fun h => hy h.symm
      rw [List.flatMap_cons, sentTo_append, ih hes]
      by_cases hye : e = y
      · subst hye
        rw [sentTo_cons_self _ (endId_addDestination e x), sentTo_cons_of_ne _ hne, if_neg hnot,
          if_pos List.mem_cons_self]
        rfl
      · have hne' : (addDestination e x).endId ≠ y := hye
        rw [sentTo_cons_of_ne _ hne', sentTo_cons_of_ne _ hne]
        simp [Ne.symm hye]
  constructor
  · rw [hout, sentTo_cons_self _ (endId_idIssued x o.ns),
      sentTo_cons_self _ (endId_setMaster o x), hself _ hx]
  · intro y hy
    have hne : (idIssued x o.ns).endId ≠ y := fun h => hy h.symm
    have hne' : (o.setMaster x).endId ≠ y := fun h => hy h.symm
    rw [hout, sentTo_cons_of_ne _ hne, sentTo_cons_of_ne _ hne', hother y hy _ hnodup]

/-- An organiser takes a new end. -/
theorem Sane.newChannelEnd (h : Sane o us) (hobject : x.object = o.commonEndId)
    (hx : x ∉ o.endSpec) :
    Sane (o.newChannelEnd o.ns x).1 (us ++ (o.newChannelEnd o.ns x).2) := by
  have hnew : sentTo x us = [] := h.untold x hobject hx
  have hnodup : (o.endSpec ++ [x]).Nodup :=
    List.nodup_append.mpr ⟨h.nodup, List.nodup_singleton x, fun a ha b hb => by
      rintro rfl
      exact hx (List.mem_singleton.mp hb ▸ ha)⟩
  have hobjects : ∀ y ∈ o.endSpec ++ [x], y.object = o.commonEndId := by
    intro y hy
    obtain hy | hy := List.mem_append.mp hy
    · exact h.object y hy
    · exact List.mem_singleton.mp hy ▸ hobject
  by_cases hvalid : validId o.masterId
  · obtain ⟨hself, hother⟩ := sentTo_newChannelEnd h.nodup hx hvalid
    refine ⟨hnodup, hobjects, h.defined, fun y hy => ?_, fun y hy hnot => ?_⟩
    · change if validId o.masterId then _ else _
      rw [if_pos hvalid, sentTo_append]
      by_cases hyx : y = x
      · subst hyx
        rw [hnew, hself, List.nil_append]
        refine ⟨o.endSpec, rfl, h.nodup, fun z => ?_⟩
        change z ∈ o.endSpec ↔ z ∈ o.endSpec ++ [y] ∧ z ≠ y
        constructor
        · exact fun hz => ⟨List.mem_append_left _ hz, fun hzy => hx (hzy ▸ hz)⟩
        · rintro ⟨hz, hne⟩
          exact (List.mem_append.mp hz).resolve_right fun h => hne (List.mem_singleton.mp h)
      · have hmem : y ∈ o.endSpec :=
          (List.mem_append.mp hy).resolve_right fun h => hyx (List.mem_singleton.mp h)
        have htold := h.told y hmem
        unfold Told at htold
        rw [if_pos hvalid] at htold
        obtain ⟨adds, hadds, hnodup', hiff⟩ := htold
        have hnot : x ∉ adds := fun hmem => hx ((hiff x).mp hmem).1
        rw [hother y hyx, if_pos hmem, hadds]
        refine ⟨adds ++ [x], ?_, List.nodup_append.mpr ⟨hnodup', List.nodup_singleton x,
          fun a ha b hb => ?_⟩, fun z => ?_⟩
        · rw [List.map_append]
          rfl
        · rintro rfl
          exact hnot (List.mem_singleton.mp hb ▸ ha)
        · change z ∈ adds ++ [x] ↔ z ∈ o.endSpec ++ [x] ∧ z ≠ y
          rw [List.mem_append, List.mem_append, hiff, List.mem_singleton]
          constructor
          · rintro (⟨hz, hne⟩ | rfl)
            · exact ⟨.inl hz, hne⟩
            · exact ⟨.inr rfl, fun hzy => hyx hzy.symm⟩
          · rintro ⟨hz | rfl, hne⟩
            · exact .inl ⟨hz, hne⟩
            · exact .inr rfl
    · change y ∉ o.endSpec ++ [x] at hnot
      have hyx : y ≠ x := fun hyx => hnot (List.mem_append_right _ (hyx ▸ List.mem_singleton_self x))
      have hy' : y ∉ o.endSpec := fun hmem => hnot (List.mem_append_left _ hmem)
      rw [sentTo_append, h.untold y hy hy', hother y hyx, if_neg hy', List.append_nil]
  · have hout : (o.newChannelEnd o.ns x).2 = [idIssued x o.ns] := by
      simp only [ChannelOrganiser.newChannelEnd, hvalid, if_false]
    refine ⟨hnodup, hobjects, h.defined, fun y hy => ?_, fun y hy hnot => ?_⟩
    · change if validId o.masterId then _ else _
      rw [if_neg hvalid, sentTo_append, hout]
      by_cases hyx : y = x
      · subst hyx
        rw [hnew, sentTo_cons_self _ (endId_idIssued y o.ns)]
        rfl
      · have hmem : y ∈ o.endSpec :=
          (List.mem_append.mp hy).resolve_right fun h => hyx (List.mem_singleton.mp h)
        have htold := h.told y hmem
        unfold Told at htold
        rw [if_neg hvalid] at htold
        have hne : (idIssued x o.ns).endId ≠ y := fun h => hyx h.symm
        rw [htold, sentTo_cons_of_ne _ hne]
        rfl
    · change y ∉ o.endSpec ++ [x] at hnot
      have hne : (idIssued x o.ns).endId ≠ y := fun hxy =>
        hnot (List.mem_append_right _ (hxy ▸ List.mem_singleton_self x))
      rw [sentTo_append, h.untold y hy fun hmem => hnot (List.mem_append_left _ hmem), hout,
        sentTo_cons_of_ne _ hne]
      rfl

/-- An organiser hears of a writing end. -/
theorem Sane.isWritingEnd (h : Sane o us) (hvalid : validId x) {tc : TransportClass}
    (htc : tc ≠ .undefinedTransport) :
    Sane (o.isWritingEnd x tc).1 (us ++ (o.isWritingEnd x tc).2) ∧
      validId (o.isWritingEnd x tc).1.masterId := by
  unfold ChannelOrganiser.isWritingEnd
  by_cases hmaster : validId o.masterId
  · rw [if_pos hmaster, List.append_nil]
    exact ⟨h, hmaster⟩
  · rw [if_neg hmaster]
    dsimp only
    generalize ho : ({ o with masterId := x, transportclass := tc } : ChannelOrganiser) = o'
    have hmaster' : validId o'.masterId := ho ▸ hvalid
    have hspec : o'.endSpec = o.endSpec := by rw [← ho]
    have hsent (y : GlobalId) := sentTo_flatMap (x := y) h.nodup
      (f := fun e => o'.setMaster e :: (o.endSpec.filter (e ≠ ·)).map (addDestination e))
      fun e _ u hu => by
        obtain rfl | hu := List.mem_cons.mp hu
        · rfl
        · obtain ⟨d, -, rfl⟩ := List.mem_map.mp hu
          rfl
    refine ⟨⟨hspec ▸ h.nodup, fun y hy => ?_, fun _ => ?_, fun y hy => ?_, fun y hy hnot => ?_⟩,
      hvalid⟩
    · rw [h.object y (hspec ▸ hy), ← ho]
    · rw [← ho]
      exact htc
    · rw [hspec] at hy
      have htold := h.told y hy
      unfold Told at htold ⊢
      rw [if_neg hmaster] at htold
      rw [if_pos hmaster', sentTo_append, htold, hsent, if_pos hy]
      refine ⟨o.endSpec.filter (y ≠ ·), by rw [← ho]; rfl, h.nodup.filter _, fun z => ?_⟩
      rw [hspec, List.mem_filter, decide_eq_true_eq, ne_comm]
    · rw [hspec] at hnot
      rw [sentTo_append, h.untold y (by rw [hy, ← ho]) hnot, hsent, if_neg hnot]
      rfl

end Organiser

/-! ### The manager -/

/-- What holds for the manager, when all these updates have been sent. The index of an organiser
is its object id. -/
structure Registered (m : ChannelManager) (us : List ChannelEndUpdate) : Prop where
  length : m.channelOrganisation = [] ∧ m.channelIdCount = 2 ∨
    m.channelOrganisation.length = m.channelIdCount + 1
  count : 2 ≤ m.channelIdCount ∧ m.channelIdCount < 0xffff
  numbered : ∀ (i : ℕ) (o : ChannelOrganiser), m.channelOrganisation[i]? = some o → o.ns ≠ emptyNameSet →
    o.commonEndId = i ∧ i < 0xffff
  names : ∀ (i j : ℕ) (o p : ChannelOrganiser), m.channelOrganisation[i]? = some o →
    m.channelOrganisation[j]? = some p → o.ns = p.ns → o.ns ≠ emptyNameSet → i = j
  sane : ∀ o ∈ m.channelOrganisation, o.ns ≠ emptyNameSet → Sane o us
  known : ∀ u ∈ us, ∃ o ∈ m.channelOrganisation, o.ns ≠ emptyNameSet ∧ u.endId ∈ o.endSpec

/-- The organiser for a name. -/
def organiser (m : ChannelManager) (nameSet : String) : Option ChannelOrganiser :=
  m.channelOrganisation.find? (·.ns = nameSet)

theorem organiser_eq_some {m : ChannelManager} {nameSet : String} {o : ChannelOrganiser}
    (h : organiser m nameSet = some o) : o ∈ m.channelOrganisation ∧ o.ns = nameSet := by
  have hns := List.find?_some h
  exact ⟨List.mem_of_find?_eq_some h, of_decide_eq_true hns⟩

/-- The first organiser with the name handles a notification. -/
theorem handleFirst_split {notif : ChannelChangeNotification} {os : List ChannelOrganiser}
    {o : ChannelOrganiser} (h : os.find? (·.ns = notif.nameSet) = some o) :
    ∃ l₁ l₂, os = l₁ ++ o :: l₂ ∧
      handleFirst notif os = (l₁ ++ (o.handleEvent notif).1 :: l₂, (o.handleEvent notif).2) := by
  induction os with
  | nil => cases h
  | cons p os ih =>
    rw [List.find?_cons] at h
    by_cases hp : p.ns = notif.nameSet
    · simp only [hp, decide_true, Option.some.injEq] at h
      subst h
      refine ⟨[], os, rfl, ?_⟩
      rw [handleFirst, if_pos hp]
      rfl
    · simp only [hp, decide_false] at h
      obtain ⟨l₁, l₂, rfl, hfirst⟩ := ih h
      refine ⟨p :: l₁, l₂, rfl, ?_⟩
      rw [handleFirst, if_neg hp, hfirst]
      rfl

section Manager

variable {m : ChannelManager} {us : List ChannelEndUpdate} {o : ChannelOrganiser}

theorem Registered.organiser_of_mem (h : Registered m us) (ho : o ∈ m.channelOrganisation)
    (hname : o.ns ≠ emptyNameSet) : organiser m o.ns = some o := by
  cases hfind : organiser m o.ns with
  | none =>
    have hnot := List.find?_eq_none.mp hfind o ho
    simp at hnot
  | some p =>
    obtain ⟨hp, hns⟩ := organiser_eq_some hfind
    obtain ⟨i, hi⟩ := List.getElem?_of_mem ho
    obtain ⟨j, hj⟩ := List.getElem?_of_mem hp
    obtain rfl := h.names i j o p hi hj hns.symm hname
    rw [hi] at hj
    exact hj.symm

/-- Organisers with the same object id are the same. -/
theorem Registered.eq_of_object (h : Registered m us) {p : ChannelOrganiser}
    (ho : o ∈ m.channelOrganisation) (hp : p ∈ m.channelOrganisation)
    (hon : o.ns ≠ emptyNameSet) (hpn : p.ns ≠ emptyNameSet)
    (hsame : o.commonEndId = p.commonEndId) : o = p := by
  obtain ⟨i, hi⟩ := List.getElem?_of_mem ho
  obtain ⟨j, hj⟩ := List.getElem?_of_mem hp
  obtain rfl : i = j :=
    (h.numbered i o hi hon).1.symm.trans (hsame.trans (h.numbered j p hj hpn).1)
  exact Option.some.inj (hi.symm.trans hj)

/-- A new organiser, for a name that is not known. -/
theorem Registered.addOrganiser (h : Registered m us) {nameSet : String}
    (hname : nameSet ≠ emptyNameSet) (hnew : organiser m nameSet = none)
    (hcount : m.channelIdCount < 0xfffe) :
    Registered (m.addOrganiser nameSet) us ∧
      organiser (m.addOrganiser nameSet) nameSet =
        some { ns := nameSet, commonEndId := m.channelIdCount + 1 } ∧
      ∀ n, n ≠ nameSet → n ≠ emptyNameSet →
        organiser (m.addOrganiser nameSet) n = organiser m n := by
  have hoid : (m.channelIdCount + 1) % 2 ^ 16 = m.channelIdCount + 1 := Nat.mod_eq_of_lt (by omega)
  have hlow := h.count.1
  have hlen := h.length
  generalize hpad : List.replicate (m.channelIdCount + 1 - m.channelOrganisation.length)
    ({} : ChannelOrganiser) = pad
  have hadd : m.addOrganiser nameSet =
      { channelIdCount := m.channelIdCount + 1
        channelOrganisation := m.channelOrganisation ++ pad ++
          [{ ns := nameSet, commonEndId := m.channelIdCount + 1 }] } := by
    simp only [ChannelManager.addOrganiser, hoid, hpad]
  have hpadlen : (m.channelOrganisation ++ pad).length = m.channelIdCount + 1 := by
    rw [← hpad, List.length_append, List.length_replicate]
    obtain ⟨hnil, hzero⟩ | hlen := hlen
    · rw [hnil, List.length_nil]
      omega
    · omega
  have hempty : ∀ p ∈ pad, p.ns = emptyNameSet := by
    intro p hp
    rw [← hpad] at hp
    exact (List.eq_of_mem_replicate hp) ▸ rfl
  -- the organisers with a name are those before, and the new one
  have hget (i : ℕ) (p : ChannelOrganiser)
      (hp : (m.addOrganiser nameSet).channelOrganisation[i]? = some p)
      (hpn : p.ns ≠ emptyNameSet) : m.channelOrganisation[i]? = some p ∨
        i = m.channelIdCount + 1 ∧ p = { ns := nameSet, commonEndId := m.channelIdCount + 1 } := by
    rw [hadd] at hp
    obtain hlt | hge := Nat.lt_or_ge i (m.channelOrganisation ++ pad).length
    · rw [List.getElem?_append_left hlt] at hp
      obtain hlt | hge := Nat.lt_or_ge i m.channelOrganisation.length
      · rw [List.getElem?_append_left hlt] at hp
        exact .inl hp
      · rw [List.getElem?_append_right hge] at hp
        exact absurd (hempty p (List.mem_of_getElem? hp)) hpn
    · rw [List.getElem?_append_right hge] at hp
      have hmem := List.mem_singleton.mp (List.mem_of_getElem? hp)
      have hlt := (List.getElem?_eq_some_iff.mp hp).1
      rw [List.length_singleton] at hlt
      exact .inr ⟨by omega, hmem⟩
  have hunnamed (i : ℕ) (p : ChannelOrganiser) (hp : m.channelOrganisation[i]? = some p) :
      p.ns ≠ nameSet := by
    have hnot := List.find?_eq_none.mp hnew p (List.mem_of_getElem? hp)
    simpa using hnot
  have hindex (i : ℕ) (p : ChannelOrganiser) (hp : m.channelOrganisation[i]? = some p) :
      i ≤ m.channelIdCount := by
    have hlt := (List.getElem?_eq_some_iff.mp hp).1
    obtain ⟨hnil, -⟩ | hlen := hlen
    · rw [hnil] at hlt
      cases hlt
    · omega
  refine ⟨⟨.inr ?_, ?_, fun i p hp hpn => ?_, fun i j p q hp hq hsame hpn => ?_,
    fun p hp hpn => ?_, fun u hu => ?_⟩, ?_, fun n hn hne => ?_⟩
  · rw [hadd]
    simp only [List.length_append, List.length_singleton] at hpadlen ⊢
    omega
  · rw [hadd]
    exact ⟨by dsimp only; omega, by dsimp only; omega⟩
  · obtain hp | ⟨rfl, rfl⟩ := hget i p hp hpn
    · exact h.numbered i p hp hpn
    · exact ⟨rfl, by omega⟩
  · obtain hp | ⟨rfl, rfl⟩ := hget i p hp hpn
    · obtain hq | ⟨rfl, rfl⟩ := hget j q hq (hsame ▸ hpn)
      · exact h.names i j p q hp hq hsame hpn
      · exact absurd hsame (hunnamed i p hp)
    · obtain hq | ⟨rfl, rfl⟩ := hget j q hq (hsame ▸ hpn)
      · exact absurd hsame.symm (hunnamed j q hq)
      · rfl
  · obtain ⟨i, hi⟩ := List.getElem?_of_mem hp
    obtain hi | ⟨-, rfl⟩ := hget i p hi hpn
    · exact h.sane p (List.mem_of_getElem? hi) hpn
    · refine ⟨List.nodup_nil, fun x hx => (nomatch hx), fun hv => absurd rfl hv.1,
        fun x hx => (nomatch hx), fun x hx _ => sentTo_eq_nil fun u hu hux => ?_⟩
      -- no update has been sent with the new object id
      obtain ⟨q, hq, hqn, hmem⟩ := h.known u hu
      obtain ⟨j, hj⟩ := List.getElem?_of_mem hq
      have hobject := (h.sane q hq hqn).object _ hmem
      have hle := hindex j q hj
      rw [(h.numbered j q hj hqn).1, hux, hx] at hobject
      change m.channelIdCount + 1 = j at hobject
      omega
  · obtain ⟨q, hq, hqn, hmem⟩ := h.known u hu
    refine ⟨q, ?_, hqn, hmem⟩
    rw [hadd]
    exact List.mem_append_left _ (List.mem_append_left _ hq)
  · have hnone : pad.find? (·.ns = nameSet) = none := List.find?_eq_none.mpr fun p hp => by
      simp [hempty p hp, hname.symm]
    change (m.addOrganiser nameSet).channelOrganisation.find? _ = _
    rw [hadd, List.find?_append, List.find?_append, show m.channelOrganisation.find? _ = none
      from hnew, hnone]
    simp
  · have hnone : pad.find? (·.ns = n) = none := List.find?_eq_none.mpr fun p hp => by
      simp [hempty p hp, hne.symm]
    change (m.addOrganiser nameSet).channelOrganisation.find? _ = _
    rw [hadd, List.find?_append, List.find?_append, hnone]
    simp [organiser, Ne.symm hn]

/-- An organiser is replaced by what it is after a notification. -/
theorem Registered.replace (h : Registered m us) {l₁ l₂ : List ChannelOrganiser}
    (hlist : m.channelOrganisation = l₁ ++ o :: l₂) (hname : o.ns ≠ emptyNameSet)
    {o' : ChannelOrganiser} {vs : List ChannelEndUpdate} (hns : o'.ns = o.ns)
    (hid : o'.commonEndId = o.commonEndId) (hsane : Sane o' (us ++ vs))
    (hmono : ∀ x ∈ o.endSpec, x ∈ o'.endSpec) (hvs : ∀ v ∈ vs, v.endId ∈ o'.endSpec) :
    Registered { m with channelOrganisation := l₁ ++ o' :: l₂ } (us ++ vs) ∧
      organiser { m with channelOrganisation := l₁ ++ o' :: l₂ } o.ns = some o' ∧
      ∀ n, n ≠ o.ns → organiser { m with channelOrganisation := l₁ ++ o' :: l₂ } n =
        organiser m n := by
  have hget : m.channelOrganisation[l₁.length]? = some o := by
    rw [hlist, List.getElem?_append_right (Nat.le_refl _), Nat.sub_self]
    rfl
  have hnum := (h.numbered _ o hget hname).1
  -- the organisers are those before, but for this one
  have hcases (i : ℕ) (p : ChannelOrganiser) (hp : (l₁ ++ o' :: l₂)[i]? = some p) :
      i = l₁.length ∧ p = o' ∨ i ≠ l₁.length ∧ m.channelOrganisation[i]? = some p := by
    have hset : l₁ ++ o' :: l₂ = (l₁ ++ o :: l₂).set l₁.length o' := by
      rw [List.set_append_right _ _ (Nat.le_refl _), Nat.sub_self]
      rfl
    rw [hset, List.getElem?_set, ← hlist] at hp
    by_cases hi : l₁.length = i
    · subst hi
      rw [if_pos rfl] at hp
      split at hp
      · exact .inl ⟨rfl, (Option.some.inj hp).symm⟩
      · cases hp
    · rw [if_neg hi] at hp
      exact .inr ⟨Ne.symm hi, hp⟩
  have hlen : (l₁ ++ o' :: l₂).length = m.channelOrganisation.length := by
    rw [hlist]
    simp only [List.length_append, List.length_cons]
  have hne (i : ℕ) (p : ChannelOrganiser) (hp : m.channelOrganisation[i]? = some p)
      (hi : i ≠ l₁.length) : p.ns ≠ o.ns := fun hsame =>
    hi (h.names i _ p o hp hget hsame (hsame ▸ hname))
  refine ⟨⟨?_, h.count, fun i p hp hpn => ?_, fun i j p q hp hq hsame hpn => ?_,
    fun p hp hpn => ?_, fun u hu => ?_⟩, ?_, fun n hn => ?_⟩
  · obtain ⟨hnil, -⟩ | hlength := h.length
    · rw [hnil] at hlist
      simp at hlist
    · exact .inr (hlen.trans hlength)
  · obtain ⟨rfl, rfl⟩ | ⟨-, hp⟩ := hcases i p hp
    · rw [hid]
      exact h.numbered _ o hget hname
    · exact h.numbered i p hp hpn
  · obtain ⟨rfl, rfl⟩ | ⟨hi, hp'⟩ := hcases i p hp
    · obtain ⟨rfl, -⟩ | ⟨hj, hq'⟩ := hcases j q hq
      · rfl
      · exact absurd (hsame.symm.trans hns) (hne j q hq' hj)
    · obtain ⟨rfl, rfl⟩ | ⟨-, hq'⟩ := hcases j q hq
      · exact absurd (hsame.trans hns) (hne i p hp' hi)
      · exact h.names i j p q hp' hq' hsame hpn
  · obtain ⟨i, hi⟩ := List.getElem?_of_mem hp
    obtain ⟨-, rfl⟩ | ⟨hne', hi⟩ := hcases i p hi
    · exact hsane
    · refine (h.sane p (List.mem_of_getElem? hi) hpn).frame fun v hv hobject => hne' ?_
      have hnum' := (h.numbered i p hi hpn).1
      have hv := hsane.object _ (hvs v hv)
      rw [hid, hnum] at hv
      rw [hnum'] at hobject
      exact hobject.symm.trans hv
  · obtain hu | hu := List.mem_append.mp hu
    · obtain ⟨p, hp, hpn, hmem⟩ := h.known u hu
      rw [hlist] at hp
      obtain hp | hp := List.mem_append.mp hp
      · exact ⟨p, List.mem_append_left _ hp, hpn, hmem⟩
      · obtain rfl | hp := List.mem_cons.mp hp
        · exact ⟨o', by simp, hns ▸ hname, hmono _ hmem⟩
        · exact ⟨p, List.mem_append_right _ (List.mem_cons_of_mem _ hp), hpn, hmem⟩
    · exact ⟨o', by simp, hns ▸ hname, hvs u hu⟩
  · have hnone : l₁.find? (·.ns = o.ns) = none := List.find?_eq_none.mpr fun p hp => by
      obtain ⟨i, hi⟩ := List.getElem?_of_mem hp
      have hlt := (List.getElem?_eq_some_iff.mp hi).1
      have hp' : m.channelOrganisation[i]? = some p := by
        rw [hlist, List.getElem?_append_left hlt, hi]
      simpa using hne i p hp' (Nat.ne_of_lt hlt)
    change (l₁ ++ o' :: l₂).find? _ = _
    simp only [List.find?_append, hnone, List.find?_cons, hns, decide_true, Option.none_or]
  · change (l₁ ++ o' :: l₂).find? _ = m.channelOrganisation.find? _
    simp only [hlist, List.find?_append, List.find?_cons, hns, hn.symm, decide_false]

theorem addOrganiser_any {notif : ChannelChangeNotification} :
    m.channelOrganisation.any (·.ns = notif.nameSet) = true ↔
      (organiser m notif.nameSet).isSome := by
  rw [List.any_eq_true, organiser, List.find?_isSome]

/-- The first organiser with the name of a notification handles that. -/
theorem Registered.handleFirst (h : Registered m us) {notif : ChannelChangeNotification}
    (ho : organiser m notif.nameSet = some o) (hname : notif.nameSet ≠ emptyNameSet)
    {o' : ChannelOrganiser} {vs : List ChannelEndUpdate} (hevent : o.handleEvent notif = (o', vs))
    (hns : o'.ns = o.ns) (hid : o'.commonEndId = o.commonEndId) (hsane : Sane o' (us ++ vs))
    (hmono : ∀ x ∈ o.endSpec, x ∈ o'.endSpec) (hvs : ∀ v ∈ vs, v.endId ∈ o'.endSpec) :
    (handleFirst notif m.channelOrganisation).2 = vs ∧
      Registered { m with
        channelOrganisation := (handleFirst notif m.channelOrganisation).1 } (us ++ vs) ∧
      organiser { m with
        channelOrganisation := (handleFirst notif m.channelOrganisation).1 } notif.nameSet =
          some o' ∧
      ∀ n, n ≠ notif.nameSet → organiser { m with
        channelOrganisation := (handleFirst notif m.channelOrganisation).1 } n =
          organiser m n := by
  obtain ⟨l₁, l₂, hlist, hfirst⟩ := handleFirst_split ho
  have hons := (organiser_eq_some ho).2
  rw [hfirst, hevent]
  obtain ⟨hreg, hsome, hother⟩ :=
    h.replace hlist (hons ▸ hname) hns hid hsane hmono hvs
  exact ⟨rfl, hreg, hons ▸ hsome, hons ▸ hother⟩

/-- What an organiser keeps. A master remains. -/
structure Keeps (o o' : ChannelOrganiser) : Prop where
  ns : o'.ns = o.ns
  commonEndId : o'.commonEndId = o.commonEndId
  endSpec : ∀ x ∈ o.endSpec, x ∈ o'.endSpec
  master : validId o.masterId → o'.masterId = o.masterId ∧ o'.transportclass = o.transportclass

theorem Keeps.refl (o : ChannelOrganiser) : Keeps o o := ⟨rfl, rfl, fun _ h => h, fun _ => ⟨rfl, rfl⟩⟩

theorem keeps_newChannelEnd (o : ChannelOrganiser) (ns : String) (x : GlobalId) :
    Keeps o (o.newChannelEnd ns x).1 :=
  ⟨rfl, rfl, fun _ h => List.mem_append_left _ h, fun _ => ⟨rfl, rfl⟩⟩

theorem keeps_isWritingEnd (o : ChannelOrganiser) (x : GlobalId) (tc : TransportClass) :
    Keeps o (o.isWritingEnd x tc).1 ∧ (o.isWritingEnd x tc).1.endSpec = o.endSpec := by
  unfold ChannelOrganiser.isWritingEnd
  split
  · exact ⟨.refl o, rfl⟩
  · rename_i hnot
    exact ⟨⟨rfl, rfl, fun _ h => h, fun h => absurd h hnot⟩, rfl⟩

/-- All updates of an organiser are for its ends. -/
theorem endId_of_newChannelEnd {x : GlobalId} {v : ChannelEndUpdate} {ns : String}
    (hv : v ∈ (o.newChannelEnd ns x).2) : v.endId ∈ (o.newChannelEnd ns x).1.endSpec := by
  have hx : x ∈ o.endSpec ++ [x] := List.mem_append_right _ (List.mem_singleton_self x)
  unfold ChannelOrganiser.newChannelEnd at hv ⊢
  obtain rfl | hv := List.mem_cons.mp hv
  · exact hx
  · split at hv
    · obtain rfl | hv := List.mem_cons.mp hv
      · exact hx
      · obtain ⟨e, he, hv⟩ := List.mem_flatMap.mp hv
        have he := List.takeWhile_subset _ he
        obtain rfl | hv := List.mem_cons.mp hv
        · exact he
        · obtain rfl := List.mem_singleton.mp hv
          exact hx
    · cases hv

theorem endId_of_isWritingEnd {x : GlobalId} {tc : TransportClass} {v : ChannelEndUpdate}
    (hv : v ∈ (o.isWritingEnd x tc).2) : v.endId ∈ (o.isWritingEnd x tc).1.endSpec := by
  unfold ChannelOrganiser.isWritingEnd at hv ⊢
  split at hv
  · cases hv
  · rename_i hnot
    rw [if_neg hnot]
    obtain ⟨e, he, hv⟩ := List.mem_flatMap.mp hv
    obtain rfl | hv := List.mem_cons.mp hv
    · exact he
    · obtain ⟨d, -, rfl⟩ := List.mem_map.mp hv
      exact he

/-- The manager handles a new end. -/
theorem Registered.announce (h : Registered m us) {r : ChannelChangeNotification}
    (htype : r.notificationType = .newChannelEnd) (hname : r.nameSet ≠ emptyNameSet)
    (hfresh : ∀ o, organiser m r.nameSet = some o →
      (⟨r.globalId.location, o.commonEndId⟩ : GlobalId) ∉ o.endSpec)
    (hcount : organiser m r.nameSet = none → m.channelIdCount < 0xfffe) :
    ∃ o : ChannelOrganiser,
      (organiser m r.nameSet = some o ∨ organiser m r.nameSet = none ∧ o.endSpec = []) ∧
      o.ns = r.nameSet ∧ Sane o us ∧
      Registered (m.handleChannelConfigurationRequest r).1
        (us ++ (m.handleChannelConfigurationRequest r).2) ∧
      organiser (m.handleChannelConfigurationRequest r).1 r.nameSet =
        some (o.newChannelEnd o.ns ⟨r.globalId.location, o.commonEndId⟩).1 ∧
      ∀ n, n ≠ r.nameSet → n ≠ emptyNameSet →
        organiser (m.handleChannelConfigurationRequest r).1 n = organiser m n := by
  have hevent (o : ChannelOrganiser) (hons : o.ns = r.nameSet) :
      o.handleEvent r = ((o.newChannelEnd o.ns ⟨r.globalId.location, o.commonEndId⟩).1,
        (o.newChannelEnd o.ns ⟨r.globalId.location, o.commonEndId⟩).2) := by
    simp only [ChannelOrganiser.handleEvent, htype, hons]
  -- once there is an organiser, it takes the new end
  have hhandle (m₁ : ChannelManager) (h₁ : Registered m₁ us) (o : ChannelOrganiser)
      (ho : organiser m₁ r.nameSet = some o)
      (hx : (⟨r.globalId.location, o.commonEndId⟩ : GlobalId) ∉ o.endSpec) :=
    have hons := (organiser_eq_some ho).2
    h₁.handleFirst ho hname (hevent o hons) rfl rfl
      ((h₁.sane o (organiser_eq_some ho).1 (hons ▸ hname)).newChannelEnd rfl hx)
      (keeps_newChannelEnd o _ _).endSpec fun _ => endId_of_newChannelEnd
  unfold ChannelManager.handleChannelConfigurationRequest
  cases ho : organiser m r.nameSet with
  | some o =>
    rw [if_pos (addOrganiser_any.mpr (by rw [ho]; rfl))]
    obtain ⟨hvs, hreg, hsome, hother⟩ := hhandle m h o ho (hfresh o ho)
    obtain ⟨hmem, hons⟩ := organiser_eq_some ho
    exact ⟨o, .inl rfl, hons, h.sane o hmem (hons ▸ hname), hvs.symm ▸ hreg, hsome,
      fun n hn _ => hother n hn⟩
  | none =>
    rw [if_neg fun hany => by
      rw [addOrganiser_any, ho] at hany
      cases hany]
    obtain ⟨hadd, hnew, hsame⟩ := h.addOrganiser hname ho (hcount ho)
    obtain ⟨hvs, hreg, hsome, hother⟩ := hhandle _ hadd _ hnew (List.not_mem_nil)
    exact ⟨_, .inr ⟨rfl, rfl⟩, rfl, hadd.sane _ (organiser_eq_some hnew).1 hname,
      hvs.symm ▸ hreg, hsome, fun n hn hne => (hother n hn).trans (hsame n hn hne)⟩

/-- The manager handles the report of a writing end. -/
theorem Registered.writing (h : Registered m us) {r : ChannelChangeNotification}
    (htype : r.notificationType = .isWritingEnd) (hname : r.nameSet ≠ emptyNameSet)
    (ho : organiser m r.nameSet = some o) (hlocation : r.globalId.location ≠ 0xff)
    (htc : r.transportclass ≠ .undefinedTransport) :
    Registered (m.handleChannelConfigurationRequest r).1
        (us ++ (m.handleChannelConfigurationRequest r).2) ∧
      (∃ o', organiser (m.handleChannelConfigurationRequest r).1 r.nameSet = some o' ∧
        Keeps o o' ∧ o'.endSpec = o.endSpec ∧ validId o'.masterId) ∧
      ∀ n, n ≠ r.nameSet →
        organiser (m.handleChannelConfigurationRequest r).1 n = organiser m n := by
  obtain ⟨hmem, hons⟩ := organiser_eq_some ho
  obtain ⟨i, hi⟩ := List.getElem?_of_mem hmem
  have hnum := h.numbered i o hi (hons ▸ hname)
  have hvalid : validId ⟨r.globalId.location, o.commonEndId⟩ :=
    ⟨hlocation, hnum.1 ▸ Nat.ne_of_lt hnum.2⟩
  obtain ⟨hsane, hmaster⟩ := (h.sane o hmem (hons ▸ hname)).isWritingEnd hvalid htc
  obtain ⟨hkeeps, hspec⟩ := keeps_isWritingEnd o ⟨r.globalId.location, o.commonEndId⟩
    r.transportclass
  unfold ChannelManager.handleChannelConfigurationRequest
  rw [if_pos (addOrganiser_any.mpr (by rw [ho]; rfl))]
  have hevent : o.handleEvent r =
      ((o.isWritingEnd ⟨r.globalId.location, o.commonEndId⟩ r.transportclass).1,
        (o.isWritingEnd ⟨r.globalId.location, o.commonEndId⟩ r.transportclass).2) := by
    simp only [ChannelOrganiser.handleEvent, htype]
  obtain ⟨hvs, hreg, hsome, hother⟩ := h.handleFirst ho hname hevent hkeeps.ns hkeeps.commonEndId hsane hkeeps.endSpec fun _ => endId_of_isWritingEnd
  exact ⟨hvs.symm ▸ hreg, ⟨_, hsome, hkeeps, hspec, hmaster⟩, hother⟩

end Manager

end Dueca.Connect
