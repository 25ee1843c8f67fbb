import Dueca.Lib.Loop
import Mathlib.Data.List.Perm.Basic
import Mathlib.Data.List.TakeWhile

/-!
# A queue in which some items have to wait

Items are handled in their order. Some can only be handled once a door is open, which
others open; until then such an item goes to the back of the queue. At the back of an
empty queue it may get lost.
-/

namespace Dueca.Lib

variable {σ μ ε : Type*}

/-- What becomes of an item: it is taken, it is refused, or it has to wait. -/
inductive Handling | taken | refused | waits
  deriving DecidableEq, Repr

/-- A queue that is being served, with the items that were taken. -/
structure Serving (σ μ : Type*) where
  state : σ
  pending : List μ
  taken : List μ

/-- One turn: handle the next item. Where an item that waits goes is given by `back`. -/
def serveNext (handle : σ → μ → Except ε (σ × Handling)) (back : List μ → μ → List μ)
    (s : Serving σ μ) : Serving σ μ ⊕ Except ε (σ × List μ) :=
  match s.pending with
  | [] => .inr (.ok (s.state, s.taken))
  | m :: rest =>
    match handle s.state m with
    | .error e => .inr (.error e)
    | .ok (t, .taken) => .inl ⟨t, rest, s.taken ++ [m]⟩
    | .ok (t, .refused) => .inl ⟨t, rest, s.taken⟩
    | .ok (t, .waits) => .inl ⟨t, back rest m, s.taken⟩

/-- What handling does to the door. Items that wait do so while it is closed, and only
items that open it change it. -/
structure Door (handle : σ → μ → Except ε (σ × Handling)) (I : σ → Prop) (isOpen : σ → Bool)
    (waits opens : μ → Bool) : Prop where
  waiting : ∀ s m, I s → isOpen s = false → waits m = true → handle s m = .ok (s, .waits)
  handled : ∀ s m t h, I s → (isOpen s = true ∨ waits m = false) → handle s m = .ok (t, h) →
    h ≠ .waits ∧ I t
  opened : ∀ s m t, I s → opens m = true → handle s m = .ok (t, .taken) → isOpen t = true
  stays : ∀ s m t h, I s → isOpen s = true → handle s m = .ok (t, h) → isOpen t = true
  closed : ∀ s m t h, I s → isOpen s = false → waits m = false → opens m = false →
    handle s m = .ok (t, h) → isOpen t = false
  apart : ∀ m, opens m = true → waits m = false

/-- A queue to which items can be added at the back, as long as it is not empty. -/
structure Back (back : List μ → μ → List μ) : Prop where
  cons : ∀ m rest m', back (m :: rest) m' = (m :: rest) ++ [m']
  nil : ∀ m, back [] m ⊆ [m] ∧ (back [] m).length ≤ 1

/-- All items are taken in a row. -/
def takesAll (handle : σ → μ → Except ε (σ × Handling)) : σ → List μ → Bool
  | _, [] => true
  | s, m :: rest =>
    match handle s m with
    | .ok (t, .taken) => takesAll handle t rest
    | _ => false

/-- The order in which items are handled: when the door is closed, those that wait are
handled behind all others. -/
def inServiceOrder (waits opens : μ → Bool) (isOpen : Bool) (items : List μ) : List μ :=
  if isOpen then items
  else
    let before := items.takeWhile fun m => !opens m
    (before.filter fun m => !waits m) ++ (items.dropWhile fun m => !opens m) ++ before.filter waits

/-- The loop ends, and all items were taken. -/
def ServesAll (handle : σ → μ → Except ε (σ × Handling)) (back : List μ → μ → List μ)
    (s : Serving σ μ) : Prop :=
  ∃ t taken, Returns (serveNext handle back) s (.ok (t, taken)) ∧
    taken.Perm (s.taken ++ s.pending)

section Serving

variable {handle : σ → μ → Except ε (σ × Handling)} {back : List μ → μ → List μ}
variable {I : σ → Prop} {isOpen : σ → Bool} {waits opens : μ → Bool}
variable {s t : σ} {m : μ} {rest taken before after items : List μ}

theorem serveNext_nil :
    serveNext handle back ⟨s, [], taken⟩ = .inr (.ok (s, taken)) := rfl

theorem serveNext_taken (h : handle s m = .ok (t, .taken)) :
    serveNext handle back ⟨s, m :: rest, taken⟩ = .inl ⟨t, rest, taken ++ [m]⟩ := by
  simp only [serveNext, h]

theorem serveNext_refused (h : handle s m = .ok (t, .refused)) :
    serveNext handle back ⟨s, m :: rest, taken⟩ = .inl ⟨t, rest, taken⟩ := by
  simp only [serveNext, h]

theorem serveNext_waits (h : handle s m = .ok (t, .waits)) :
    serveNext handle back ⟨s, m :: rest, taken⟩ = .inl ⟨t, back rest m, taken⟩ := by
  simp only [serveNext, h]

theorem serveNext_error {e : ε} (h : handle s m = .error e) :
    serveNext handle back ⟨s, m :: rest, taken⟩ = .inr (.error e) := by
  simp only [serveNext, h]

theorem Back.length_le (hB : Back back) (rest : List μ) (m : μ) :
    (back rest m).length ≤ rest.length + 1 := by
  cases rest with
  | nil => exact (hB.nil m).2
  | cons m' rest => rw [hB.cons, List.length_append, List.length_singleton]

/-- A turn leads to no more items, taken and pending together. -/
theorem serveNext_length (hB : Back back) {u v : Serving σ μ}
    (h : serveNext handle back u = .inl v) :
    v.taken.length + v.pending.length ≤ u.taken.length + u.pending.length := by
  rw [serveNext] at h
  split at h
  · cases h
  · rename_i m rest hpending
    rw [hpending]
    split at h
    · cases h
    · cases h
      simp only [List.length_append, List.length_cons, List.length_nil]
      omega
    · cases h
      simp only [List.length_cons]
      omega
    · cases h
      have := hB.length_le rest m
      simp only [List.length_cons]
      omega

/-- Not more items are taken in the end than there were. -/
theorem length_taken_le (hB : Back back) {u : Serving σ μ}
    (h : Returns (serveNext handle back) u (.ok (t, taken))) :
    taken.length ≤ u.taken.length + u.pending.length := by
  have hall : ∀ t' taken', Except.ok (t, taken) = (Except.ok (t', taken') : Except ε (σ × List μ)) →
      taken'.length ≤ u.taken.length + u.pending.length := by
    refine h.invariant (I := fun v => v.taken.length + v.pending.length ≤
        u.taken.length + u.pending.length)
      (J := fun r => ∀ t' taken', r = .ok (t', taken') →
        taken'.length ≤ u.taken.length + u.pending.length)
      (fun v w hv hvw => Nat.le_trans (serveNext_length hB hvw) hv) (fun v r hv hr => ?_) le_rfl
    intro t' taken' hr'
    subst hr'
    rw [serveNext] at hr
    split at hr
    · cases hr
      omega
    · split at hr <;> cases hr
  exact hall t taken rfl

/-! ### One item -/

theorem servesAll_nil : ServesAll handle back ⟨s, [], taken⟩ :=
  ⟨s, taken, (returns_iff_done serveNext_nil).mpr rfl, by rw [List.append_nil]⟩

theorem servesAll_taken (h : handle s m = .ok (t, .taken)) :
    ServesAll handle back ⟨s, m :: rest, taken⟩ ↔
      ServesAll handle back ⟨t, rest, taken ++ [m]⟩ := by
  simp only [ServesAll, returns_iff_next (serveNext_taken h), List.append_assoc,
    List.singleton_append]

/-- An item that is refused is not taken in the end. -/
theorem not_servesAll_refused (hB : Back back) (h : handle s m = .ok (t, .refused)) :
    ¬ServesAll handle back ⟨s, m :: rest, taken⟩ := by
  rintro ⟨t', taken', hreturns, hperm⟩
  have hle := length_taken_le hB ((returns_iff_next (serveNext_refused h)).mp hreturns)
  have heq := hperm.length_eq
  simp only [List.length_append, List.length_cons] at heq hle
  omega

theorem not_servesAll_error {e : ε} (h : handle s m = .error e) :
    ¬ServesAll handle back ⟨s, m :: rest, taken⟩ := by
  rintro ⟨t', taken', hreturns, -⟩
  cases (returns_iff_done (serveNext_error h)).mp hreturns

/-- An item that waits behind others. -/
theorem servesAll_waits {m' : μ} (hB : Back back) (h : handle s m = .ok (s, .waits)) :
    ServesAll handle back ⟨s, m :: m' :: rest, taken⟩ ↔
      ServesAll handle back ⟨s, m' :: rest ++ [m], taken⟩ := by
  have hperm : (taken ++ m :: m' :: rest).Perm (taken ++ (m' :: rest ++ [m])) :=
    (List.perm_append_singleton m (m' :: rest)).symm.append_left taken
  simp only [ServesAll, returns_iff_next (serveNext_waits h), hB.cons]
  constructor
  · rintro ⟨t, taken', hreturns, htaken⟩
    exact ⟨t, taken', hreturns, htaken.trans hperm⟩
  · rintro ⟨t, taken', hreturns, htaken⟩
    exact ⟨t, taken', hreturns, htaken.trans hperm.symm⟩

/-! ### The whole queue -/

theorem takesAll_cons_taken (h : handle s m = .ok (t, .taken)) :
    takesAll handle s (m :: rest) = takesAll handle t rest := by
  simp only [takesAll, h]

theorem takesAll_cons_refused (h : handle s m = .ok (t, .refused)) :
    takesAll handle s (m :: rest) = false := by
  simp only [takesAll, h]

theorem takesAll_cons_error {e : ε} (h : handle s m = .error e) :
    takesAll handle s (m :: rest) = false := by
  simp only [takesAll, h]

/-- An item that does not wait is taken, and then the others are served; or else not all
items are taken. -/
theorem Door.cases_handled (hD : Door handle I isOpen waits opens) (hB : Back back) (hI : I s)
    (hgo : isOpen s = true ∨ waits m = false) (rest' : List μ) :
    (∃ t, handle s m = .ok (t, .taken) ∧ I t ∧
      (ServesAll handle back ⟨s, m :: rest, taken⟩ ↔
        ServesAll handle back ⟨t, rest, taken ++ [m]⟩) ∧
      takesAll handle s (m :: rest') = takesAll handle t rest') ∨
    ¬ServesAll handle back ⟨s, m :: rest, taken⟩ ∧ takesAll handle s (m :: rest') = false := by
  cases hhandle : handle s m with
  | error e => exact .inr ⟨not_servesAll_error hhandle, takesAll_cons_error hhandle⟩
  | ok r =>
    obtain ⟨t, h⟩ := r
    obtain ⟨hnot, hI'⟩ := hD.handled s m t h hI hgo hhandle
    cases h with
    | taken =>
      exact .inl ⟨t, rfl, hI', servesAll_taken hhandle, takesAll_cons_taken hhandle⟩
    | refused => exact .inr ⟨not_servesAll_refused hB hhandle, takesAll_cons_refused hhandle⟩
    | waits => exact absurd rfl hnot

/-- While no item has to wait, the queue is served in its order. -/
theorem Door.servesAll_open (hD : Door handle I isOpen waits opens) (hB : Back back) (hI : I s)
    (hgo : isOpen s = true ∨ ∀ m ∈ items, waits m = false ∧ opens m = false) :
    ServesAll handle back ⟨s, items, taken⟩ ↔ takesAll handle s items = true := by
  induction items generalizing s taken with
  | nil => exact iff_of_true servesAll_nil rfl
  | cons m rest ih =>
    have hm : isOpen s = true ∨ waits m = false :=
      hgo.imp id fun h => (h m List.mem_cons_self).1
    rcases hD.cases_handled hB hI hm rest with ⟨t, hhandle, hI', hserves, htakes⟩ | ⟨hnot, htakes⟩
    · rw [hserves, htakes, ih hI']
      by_cases hopen : isOpen s = true
      · exact .inl (hD.stays s m t _ hI hopen hhandle)
      · exact .inr fun m' hmem => (hgo.resolve_left hopen) m' (List.mem_cons_of_mem _ hmem)
    · rw [htakes]
      exact iff_of_false hnot Bool.false_ne_true

/-- Items that wait go behind all those up to the one that opens the door. -/
theorem Door.servesAll_closed (hD : Door handle I isOpen waits opens) (hB : Back back) (hI : I s)
    (hclosed : isOpen s = false) (hbefore : ∀ m ∈ before, opens m = false)
    (hopens : opens m = true) :
    ServesAll handle back ⟨s, before ++ m :: after, taken⟩ ↔
      takesAll handle s ((before.filter fun m => !waits m) ++ m :: after ++ before.filter waits) =
        true := by
  induction before generalizing s after taken with
  | nil =>
    simp only [List.filter_nil, List.nil_append, List.append_nil]
    rcases hD.cases_handled hB hI (.inr (hD.apart m hopens)) after with
      ⟨t, hhandle, hI', hserves, htakes⟩ | ⟨hnot, htakes⟩
    · rw [hserves, htakes]
      exact hD.servesAll_open hB hI' (.inl (hD.opened s m t hI hopens hhandle))
    · rw [htakes]
      exact iff_of_false hnot Bool.false_ne_true
  | cons b before ih =>
    have hb := hbefore b List.mem_cons_self
    have hrest : ∀ m ∈ before, opens m = false := fun m hm =>
      hbefore m (List.mem_cons_of_mem _ hm)
    by_cases hw : waits b = true
    · -- `b` goes to the back, behind those that waited before it
      have hwaits := hD.waiting s b hI hclosed hw
      have hturn : ServesAll handle back ⟨s, b :: (before ++ m :: after), taken⟩ ↔
          ServesAll handle back ⟨s, before ++ m :: (after ++ [b]), taken⟩ := by
        obtain ⟨m', l, hl⟩ : ∃ m' l, before ++ m :: after = m' :: l :=
          List.exists_cons_of_ne_nil (by simp)
        rw [hl, servesAll_waits hB hwaits, ← hl, List.append_assoc, List.cons_append]
      rw [List.cons_append, hturn, ih hI hclosed hrest, List.filter_cons_of_neg (by simp [hw]),
        List.filter_cons_of_pos hw]
      simp only [List.append_assoc, List.cons_append, List.nil_append]
    · have hw : waits b = false := by simpa using hw
      rw [List.filter_cons_of_pos (by simp [hw]), List.filter_cons_of_neg (by simp [hw])]
      simp only [List.cons_append]
      rcases hD.cases_handled hB hI (.inr hw)
        ((before.filter fun m => !waits m) ++ m :: after ++ before.filter waits) with
        ⟨t, hhandle, hI', hserves, htakes⟩ | ⟨hnot, htakes⟩
      · rw [hserves]
        rw [ih hI' (hD.closed s b t _ hI hclosed hw hb hhandle) hrest]
        simp only [List.append_assoc, List.cons_append] at htakes ⊢
        rw [htakes]
      · refine iff_of_false hnot ?_
        simp only [List.append_assoc, List.cons_append] at htakes ⊢
        rw [htakes]
        exact Bool.false_ne_true

/-- As long as nothing opens the door, no item that waits is taken. -/
theorem Door.not_servesAll_waiting (hD : Door handle I isOpen waits opens) (hB : Back back)
    (hI : I s) (hclosed : isOpen s = false) (hnone : ∀ m ∈ items, opens m = false)
    (hwaits : ∃ m ∈ items, waits m = true) : ¬ServesAll handle back ⟨s, items, []⟩ := by
  rintro ⟨t, taken, hreturns, hperm⟩
  obtain ⟨m, hmem, hw⟩ := hwaits
  have hall : ∀ t' taken', Except.ok (t, taken) = (Except.ok (t', taken') : Except ε (σ × List μ)) →
      ∀ m ∈ taken', waits m = false := by
    refine hreturns.invariant
      (I := fun u => I u.state ∧ isOpen u.state = false ∧ (∀ m ∈ u.pending, opens m = false) ∧
        ∀ m ∈ u.taken, waits m = false)
      (J := fun r => ∀ t' taken', r = .ok (t', taken') → ∀ m ∈ taken', waits m = false)
      (fun u v hu huv => ?_) (fun u r hu hr => ?_) ⟨hI, hclosed, hnone, fun m hm => by cases hm⟩
    · obtain ⟨hIu, hcu, hpu, htu⟩ := hu
      rw [serveNext] at huv
      split at huv
      · cases huv
      · rename_i m rest hpending
        rw [hpending] at hpu
        have hm := hpu m List.mem_cons_self
        have hrest : ∀ m ∈ rest, opens m = false := fun m hm => hpu m (List.mem_cons_of_mem _ hm)
        by_cases hw : waits m = true
        · simp only [hD.waiting u.state m hIu hcu hw, Sum.inl.injEq] at huv
          subst huv
          refine ⟨hIu, hcu, fun m' hm' => ?_, htu⟩
          cases rest with
          | nil => exact List.mem_singleton.mp ((hB.nil m).1 hm') ▸ hm
          | cons b rest =>
            rw [hB.cons] at hm'
            rcases List.mem_append.mp hm' with hm' | hm'
            · exact hrest m' hm'
            · exact List.mem_singleton.mp hm' ▸ hm
        · have hw : waits m = false := by simpa using hw
          split at huv
          · cases huv
          · rename_i t' hhandle
            cases huv
            refine ⟨(hD.handled _ m t' _ hIu (.inr hw) hhandle).2,
              hD.closed _ m t' _ hIu hcu hw hm hhandle, hrest, fun m' hm' => ?_⟩
            rcases List.mem_append.mp hm' with hm' | hm'
            · exact htu m' hm'
            · exact List.mem_singleton.mp hm' ▸ hw
          · rename_i t' hhandle
            cases huv
            exact ⟨(hD.handled _ m t' _ hIu (.inr hw) hhandle).2,
              hD.closed _ m t' _ hIu hcu hw hm hhandle, hrest, htu⟩
          · rename_i t' hhandle
            exact absurd rfl (hD.handled _ m t' _ hIu (.inr hw) hhandle).1
    · intro t' taken' hr'
      subst hr'
      rw [serveNext] at hr
      split at hr
      · cases hr
        exact hu.2.2.2
      · split at hr <;> cases hr
  have := hall t taken rfl m (hperm.symm.subset hmem)
  rw [hw] at this
  cases this

/-- All items are taken if no item waits for ever, and each is taken in its turn. -/
theorem Door.servesAll_iff (hD : Door handle I isOpen waits opens) (hB : Back back) (hI : I s) :
    ServesAll handle back ⟨s, items, []⟩ ↔
      (isOpen s = true ∨ (∃ m ∈ items, opens m = true) ∨ ∀ m ∈ items, waits m = false) ∧
        takesAll handle s (inServiceOrder waits opens (isOpen s) items) = true := by
  by_cases hopen : isOpen s = true
  · rw [hD.servesAll_open hB hI (.inl hopen), inServiceOrder, if_pos hopen]
    exact (and_iff_right (.inl hopen)).symm
  · have hclosed : isOpen s = false := by simpa using hopen
    rw [inServiceOrder, if_neg hopen]
    dsimp only
    cases hdrop : items.dropWhile fun m => !opens m with
    | nil =>
      have hnone : ∀ m ∈ items, opens m = false := by
        intro m hm
        have := List.dropWhile_eq_nil_iff.mp hdrop m hm
        simpa using this
      have htake : (items.takeWhile fun m => !opens m) = items := by
        have := List.takeWhile_append_dropWhile (p := fun m => !opens m) (l := items)
        rwa [hdrop, List.append_nil] at this
      rw [htake]
      by_cases hwaits : ∃ m ∈ items, waits m = true
      · refine iff_of_false (hD.not_servesAll_waiting hB hI hclosed hnone hwaits) ?_
        rintro ⟨hor, -⟩
        obtain ⟨m, hm, hw⟩ := hwaits
        rcases hor with h | ⟨m', hm', h⟩ | h
        · exact hopen h
        · rw [hnone m' hm'] at h
          cases h
        · rw [h m hm] at hw
          cases hw
      · have hall : ∀ m ∈ items, waits m = false := by
          intro m hm
          by_contra hw
          exact hwaits ⟨m, hm, by simpa using hw⟩
        rw [hD.servesAll_open hB hI (.inr fun m hm => ⟨hall m hm, hnone m hm⟩),
          List.filter_eq_self.mpr fun m hm => by simp [hall m hm],
          List.filter_eq_nil_iff.mpr fun m hm => by simp [hall m hm],
          List.append_nil, List.append_nil]
        exact (and_iff_right (.inr (.inr hall))).symm
    | cons m after =>
      have hm : opens m = true := by
        have := List.head?_dropWhile_not (fun m => !opens m) items
        rw [hdrop] at this
        simpa using this
      have hbefore : ∀ b ∈ items.takeWhile fun m => !opens m, opens b = false := by
        intro b hb
        have := List.mem_takeWhile_imp hb
        simpa using this
      have hsplit : items = (items.takeWhile fun m => !opens m) ++ m :: after := by
        rw [← hdrop, List.takeWhile_append_dropWhile]
      generalize (items.takeWhile fun m => !opens m) = before at hbefore hsplit ⊢
      subst hsplit
      rw [hD.servesAll_closed hB hI hclosed hbefore hm]
      exact (and_iff_right
        (.inr (.inl ⟨m, List.mem_append_right _ List.mem_cons_self, hm⟩))).symm

/-- Two items or more that all wait go round for ever. -/
theorem Door.not_ends_of_waiting (hD : Door handle I isOpen waits opens) (hB : Back back)
    (hI : I s) (hclosed : isOpen s = false) (hwaits : ∀ m ∈ items, waits m = true)
    (htwo : 2 ≤ items.length) : ¬Ends (serveNext handle back) ⟨s, items, taken⟩ := by
  refine not_ends_of_invariant (I := fun u => u.state = s ∧ (∀ m ∈ u.pending, waits m = true) ∧
    2 ≤ u.pending.length) (fun u hu => ?_) ⟨rfl, hwaits, htwo⟩
  obtain ⟨rfl, hu, hlen⟩ := hu
  obtain ⟨state, pending, taken⟩ := u
  obtain ⟨m, m', rest, rfl⟩ : ∃ m m' rest, pending = m :: m' :: rest := by
    match pending, hlen with
    | m :: m' :: rest, _ => exact ⟨m, m', rest, rfl⟩
  have hm := hD.waiting state m hI hclosed (hu m List.mem_cons_self)
  refine ⟨_, serveNext_waits hm, rfl, fun b hb => ?_, ?_⟩
  · rw [hB.cons] at hb
    rcases List.mem_append.mp hb with hb | hb
    · exact hu b (List.mem_cons_of_mem _ hb)
    · exact List.mem_singleton.mp hb ▸ hu m List.mem_cons_self
  · dsimp only
    rw [hB.cons]
    simp

end Serving

end Dueca.Lib
