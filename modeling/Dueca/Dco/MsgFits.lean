import Dueca.Dco.MsgSingle

/-!
# Reading containers and objects from msgpack

Whether an object is read back depends on what is in the target. A vector is given its new size
and its elements are read in place, but a list gets its elements behind the ones it has, and a
map keeps its entries. All values of a map are read in one variable. An optional value that is
not valid in the target stays so.
-/

namespace Dueca.Dco

open Dueca.Lib Dueca.Lib.MsgPack

/-! ### Values that can be read back -/

section Definitions

variable {n : ℕ} {K ι α β : Type} [LinearOrder ι] {rank : K → ι} [BEq α]

/-- A list has to be empty, and each element is read in a new one. -/
def ListFits (fresh : α) (F : α → α → Prop) (w v : List α) : Prop := w = [] ∧ ∀ a ∈ v, F fresh a

/-- All entries in the target are entries of the map. The values are read one after the other
in one variable. -/
def MapFits (keyFits : K → Prop) (fresh : α) (F : α → α → Prop) (w v : KeyMap rank α) : Prop :=
  (∀ e ∈ w.entries, ∃ f ∈ v.entries, e.1 = f.1 ∧ (e.2 == f.2) = true) ∧
    (∀ f ∈ v.entries, keyFits f.1) ∧ List.IsChain F (fresh :: v.entries.map (·.2))

/-- The target has to be valid, and what is written must not be nil. -/
def OptionalFits (IsNil : α → Prop) (F : α → α → Prop) (w v : FixOptional α) : Prop :=
  v.valid = true → ¬ IsNil v.value ∧ w.valid = true ∧ F w.value v.value

end Definitions

/-- The values that are written as nil. -/
def Ty.IsNil : (t : Ty) → t.Val → Prop
  | .optional t => fun (v : FixOptional t.Val) => v.valid = true → t.IsNil v.value
  | _ => fun _ => False

mutual

/-- All sizes fit in 32 bits. -/
def Ty.MsgSized : (t : Ty) → t.Val → Prop
  | .prim p => p.MsgSized
  | .fixvector n t => fun (v : FixVector n t.Val) => n < 2 ^ 32 ∧ ∀ a ∈ v.d, t.MsgSized a
  | .vector t => fun (v : List t.Val) => v.length < 2 ^ 32 ∧ ∀ a ∈ v, t.MsgSized a
  | .list t => fun (v : List t.Val) => v.length < 2 ^ 32 ∧ ∀ a ∈ v, t.MsgSized a
  | .map k t => fun (v : KeyMap k.rank t.Val) =>
    v.entries.length < 2 ^ 32 ∧ ∀ e ∈ v.entries, k.MsgSized e.1 ∧ t.MsgSized e.2
  | .optional t => fun (v : FixOptional t.Val) => v.valid = true → t.MsgSized v.value
  | .object c => fun (v : c.Val) => c.nMembers < 2 ^ 32 ∧ c.MembersSized v

def Members.MsgSized : (ms : Members) → ms.Val → Prop
  | .nil => fun _ => True
  | .cons _ t ms => fun (v : t.Val × ms.Val) => t.MsgSized v.1 ∧ ms.MsgSized v.2

def DcoClass.MembersSized : (c : DcoClass) → c.Val → Prop
  | .root ms => ms.MsgSized
  | .derived parent ms => fun (v : parent.Val × ms.Val) =>
    parent.MembersSized v.1 ∧ ms.MsgSized v.2

end

/-- All sizes fit in 32 bits, also the number of members. -/
def DcoClass.MsgSized (c : DcoClass) (v : c.Val) : Prop := (Ty.object c).MsgSized v

section Objects

variable (fresh : (t : Ty) → t.Val)

mutual

/-- The targets in which a value is read back. -/
def Ty.MsgFits : (t : Ty) → t.Val → t.Val → Prop
  | .prim p => fun _ v => p.MsgFits v
  | .fixvector n t => fun (w v : FixVector n t.Val) => List.Forall₂ t.MsgFits w.d v.d
  | .vector t => fun (w v : List t.Val) =>
    List.Forall₂ t.MsgFits (resize (fresh t) w v.length) v
  | .list t => ListFits (fresh t) t.MsgFits
  | .map k t => MapFits k.MsgFits (fresh t) t.MsgFits
  | .optional t => OptionalFits t.IsNil t.MsgFits
  | .object c => c.MsgFits

def Members.MsgFits : (ms : Members) → ms.Val → ms.Val → Prop
  | .nil => fun _ _ => True
  | .cons _ t ms => fun (w v : t.Val × ms.Val) => t.MsgFits w.1 v.1 ∧ ms.MsgFits w.2 v.2

def DcoClass.MsgFits : (c : DcoClass) → c.Val → c.Val → Prop
  | .root ms => ms.MsgFits
  | .derived parent ms => fun (w v : parent.Val × ms.Val) =>
    parent.MsgFits w.1 v.1 ∧ ms.MsgFits w.2 v.2

end

end Objects

mutual

/-- No maps. -/
def Ty.MapFree : Ty → Prop
  | .prim _ => True
  | .fixvector _ t => t.MapFree
  | .vector t => t.MapFree
  | .list t => t.MapFree
  | .map _ _ => False
  | .optional t => t.MapFree
  | .object c => c.MapFree

def Members.MapFree : Members → Prop
  | .nil => True
  | .cons _ t ms => t.MapFree ∧ ms.MapFree

def DcoClass.MapFree : DcoClass → Prop
  | .root ms => ms.MapFree
  | .derived parent ms => parent.MapFree ∧ ms.MapFree

end

/-! ### What is read -/

section Sequences

variable {α : Type} {S : MsgTraits α} {F : α → α → Prop} {fresh : α}

theorem length_unpackAll {as us : List α} {s s' : Bytes}
    (h : unpackAll S as s = .ok (us, s')) : us.length = as.length := by
  induction as generalizing us s with
  | nil =>
    cases h
    rfl
  | cons a as ih =>
    obtain ⟨⟨u, s₁⟩, -, h⟩ := bind_eq_ok.mp h
    obtain ⟨⟨us', s₂⟩, hus, h⟩ := bind_eq_ok.mp h
    cases h
    rw [List.length_cons, List.length_cons, ih hus]

/-- The loop for a list reads new elements in place. -/
theorem unpackPush_eq (fresh : α) (l : ℕ) (as : List α) (s : Bytes) :
    unpackPush fresh S l as s =
      Dco.unpackAll S (List.replicate l fresh) s >>= fun (us, s) => .ok (as ++ us, s) := by
  induction l generalizing as s with
  | zero =>
    change Except.ok (as, s) = .ok (as ++ [], s)
    rw [List.append_nil]
  | succ l ih =>
    change (S.unpack fresh s >>= _) = (S.unpack fresh s >>= _) >>= _
    cases S.unpack fresh s with
    | error f => rfl
    | ok r =>
      change unpackPush fresh S l (as ++ [r.1]) r.2 =
        (Dco.unpackAll S (List.replicate l fresh) r.2 >>= _) >>= _
      rw [ih]
      cases Dco.unpackAll S (List.replicate l fresh) r.2 with
      | error f => rfl
      | ok r' =>
        change Except.ok (as ++ [r.1] ++ r'.1, r'.2) = .ok (as ++ r.1 :: r'.1, r'.2)
        rw [List.append_assoc, List.singleton_append]

theorem forall₂_replicate_iff {v : List α} :
    List.Forall₂ F (List.replicate v.length fresh) v ↔ ∀ a ∈ v, F fresh a := by
  induction v with
  | nil => simp
  | cons a v ih => simp [List.replicate_succ, ih]

end Sequences

section Laws

variable {n : ℕ} {K ι α β : Type} [LinearOrder ι] {rank : K → ι} [BEq α] [BEq β]

/-- What is read over `w` where `v` has been written, if there is no exception. In any case
what is behind `v` is not looked at. -/
def MsgTraits.Gives (T : MsgTraits α) (w v : α) (res : Except UnpackFault α) : Prop :=
  ∀ rest, T.unpack w (T.pack v ++ rest) = res.map (·, rest)

/-- There is no exception, and the result is equal. -/
def IsCopy (res : Except UnpackFault α) (v : α) : Prop := ∃ u, res = .ok u ∧ (u == v) = true

/-- Values for which `P` holds are read back in targets that fit, and, if `E` holds, in no
others. Targets that are equal fit the same values. -/
structure MsgTraits.Lawful (T : MsgTraits α) (P : α → Prop) (F : α → α → Prop) (E : Prop) :
    Prop where
  reads : ∀ w v, P v → ∃ res, T.Gives w v res ∧ (F w v → IsCopy res v) ∧ (E → IsCopy res v → F w v)
  congr : ∀ w w' v, (w == w') = true → F w v → F w' v

variable {S : MsgTraits α} {T : MsgTraits β} {P : α → Prop} {Q : β → Prop} {F : α → α → Prop}
  {G : β → β → Prop} {D E : Prop} {fresh : α}

theorem MsgTraits.single_lawful (casts : FloatCasts) (p : Prim) :
    (MsgTraits.single casts p).Lawful p.MsgSized (fun _ v => p.MsgFits v) True where
  reads _ v hv := by
    obtain ⟨res, hres, hfits⟩ := p.reads casts v hv
    have hcopy : IsCopy res v ↔ res = .ok v :=
      ⟨fun ⟨u, hu, huv⟩ => hu.trans (congrArg _ (LawfulBEq.eq_of_beq huv)),
        fun h => ⟨v, h, BEq.rfl⟩⟩
    exact ⟨res, hres, fun h => hcopy.mpr (hfits.mpr h), fun _ h => hfits.mp (hcopy.mp h)⟩
  congr _ _ _ _ h := h

theorem MsgTraits.unit_lawful (E : Prop) :
    MsgTraits.unit.Lawful (fun _ => True) (fun _ _ => True) E where
  reads w _ _ := ⟨.ok w, fun _ => rfl, fun _ => ⟨w, rfl, rfl⟩, fun _ _ => trivial⟩
  congr _ _ _ _ h := h

theorem MsgTraits.Lawful.prod (hS : S.Lawful P F D) (hT : T.Lawful Q G E) :
    (S.prod T).Lawful (fun v => P v.1 ∧ Q v.2) (fun w v => F w.1 v.1 ∧ G w.2 v.2) (D ∧ E) where
  reads := by
    rintro ⟨w, x⟩ ⟨a, b⟩ ⟨ha, hb⟩
    obtain ⟨res, hres, hfits, htight⟩ := hS.reads w a ha
    obtain ⟨res', hres', hfits', htight'⟩ := hT.reads x b hb
    have hgives (rest : Bytes) : (S.prod T).unpack (w, x) ((S.prod T).pack (a, b) ++ rest) =
        (res >>= fun u => res' >>= fun u' => .ok (u, u')).map (·, rest) := by
      simp only [MsgTraits.prod, List.append_assoc, hres (T.pack b ++ rest)]
      cases res with
      | error f => rfl
      | ok u =>
        change (T.unpack x (T.pack b ++ rest) >>= _) = _
        rw [hres' rest]
        cases res' <;> rfl
    refine ⟨_, hgives, ?_, ?_⟩
    · rintro ⟨hw, hx⟩
      obtain ⟨u, rfl, hu⟩ := hfits hw
      obtain ⟨u', rfl, hu'⟩ := hfits' hx
      exact ⟨(u, u'), rfl, Bool.and_eq_true_iff.mpr ⟨hu, hu'⟩⟩
    · rintro ⟨hD, hE⟩ ⟨⟨u, u'⟩, hok, hcopy⟩
      obtain ⟨hu, hu'⟩ := Bool.and_eq_true_iff.mp hcopy
      cases res with
      | error f => cases hok
      | ok y =>
        cases res' with
        | error f => cases hok
        | ok y' =>
          cases hok
          exact ⟨htight hD ⟨u, rfl, hu⟩, htight' hE ⟨u', rfl, hu'⟩⟩
  congr := by
    rintro ⟨w, x⟩ ⟨w', x'⟩ v hww ⟨hw, hx⟩
    obtain ⟨hw', hx'⟩ := Bool.and_eq_true_iff.mp hww
    exact ⟨hS.congr _ _ _ hw' hw, hT.congr _ _ _ hx' hx⟩

/-! ### Sequences -/

theorem MsgTraits.Lawful.unpackAll (hS : S.Lawful P F E) {ws vs : List α}
    (hlen : ws.length = vs.length) (hvs : ∀ a ∈ vs, P a) :
    ∃ res : Except UnpackFault (List α),
      (∀ rest, unpackAll S ws (packAll S vs ++ rest) = res.map (·, rest)) ∧
        (List.Forall₂ F ws vs → IsCopy res vs) ∧ (E → IsCopy res vs → List.Forall₂ F ws vs) := by
  induction ws generalizing vs with
  | nil =>
    obtain rfl := List.length_eq_zero_iff.mp hlen.symm
    exact ⟨.ok [], fun _ => rfl, fun _ => ⟨[], rfl, rfl⟩, fun _ _ => .nil⟩
  | cons w ws ih =>
    cases vs with
    | nil => cases hlen
    | cons v vs =>
      obtain ⟨res, hres, hfits, htight⟩ := hS.reads w v (hvs v List.mem_cons_self)
      obtain ⟨res', hres', hfits', htight'⟩ :=
        ih (Nat.succ.inj hlen) fun a ha => hvs a (List.mem_cons_of_mem v ha)
      have hgives (rest : Bytes) : Dco.unpackAll S (w :: ws) (packAll S (v :: vs) ++ rest) =
          (res >>= fun u => res' >>= fun us => .ok (u :: us)).map (·, rest) := by
        change (S.unpack w (S.pack v ++ packAll S vs ++ rest) >>= _) = _
        rw [List.append_assoc, hres (packAll S vs ++ rest)]
        cases res with
        | error f => rfl
        | ok u =>
          change (Dco.unpackAll S ws (packAll S vs ++ rest) >>= _) = _
          rw [hres' rest]
          cases res' <;> rfl
      refine ⟨_, hgives, fun h => ?_, fun hE ⟨us, hok, hcopy⟩ => ?_⟩
      · obtain ⟨hw, hws⟩ := List.forall₂_cons.mp h
        obtain ⟨u, rfl, hu⟩ := hfits hw
        obtain ⟨us, rfl, hus⟩ := hfits' hws
        exact ⟨u :: us, rfl, Bool.and_eq_true_iff.mpr ⟨hu, hus⟩⟩
      · cases res with
        | error f => cases hok
        | ok u =>
          cases res' with
          | error f => cases hok
          | ok us' =>
            cases hok
            obtain ⟨hu, hus⟩ := Bool.and_eq_true_iff.mp hcopy
            exact .cons (htight hE ⟨u, rfl, hu⟩) (htight' hE ⟨us', rfl, hus⟩)

theorem forall₂_congr_left (hF : ∀ w w' v, (w == w') = true → F w v → F w' v)
    {ws ws' vs : List α} (h : (ws == ws') = true) (hws : List.Forall₂ F ws vs) :
    List.Forall₂ F ws' vs := by
  induction hws generalizing ws' with
  | nil =>
    cases ws' with
    | nil => exact .nil
    | cons => cases h
  | cons hw _ ih =>
    cases ws' with
    | nil => cases h
    | cons w' ws' =>
      obtain ⟨hw', hws'⟩ := Bool.and_eq_true_iff.mp h
      exact .cons (hF _ _ _ hw' hw) (ih hws')

theorem MsgTraits.Lawful.fixvector (hS : S.Lawful P F E) :
    (S.fixvector : MsgTraits (FixVector n α)).Lawful (fun v => n < 2 ^ 32 ∧ ∀ a ∈ v.d, P a)
      (fun w v => List.Forall₂ F w.d v.d) E where
  reads := by
    rintro ⟨ws, hws⟩ ⟨vs, hvs⟩ ⟨hn, hP⟩
    obtain ⟨res, hres, hfits, htight⟩ := hS.unpackAll (hws.trans hvs.symm) hP
    have hall (rest : Bytes) :
        (S.fixvector : MsgTraits (FixVector n α)).unpack ⟨ws, hws⟩
          ((S.fixvector : MsgTraits (FixVector n α)).pack ⟨vs, hvs⟩ ++ rest) =
        Dco.unpackAll S ws (packAll S vs ++ rest) >>= fun (d, s) =>
          if h : d.length = n then .ok (⟨d, h⟩, s) else .error .indexException := by
      change (unpackArraysize (arrayHeader vs.length ++ packAll S vs ++ rest) >>= _) = _
      rw [hvs, List.append_assoc, unpackArraysize_arrayHeader hn]
      exact if_neg (not_not.mpr rfl)
    cases res with
    | error f =>
      refine ⟨.error f, fun rest => ?_, fun h => ?_, fun _ h => ?_⟩
      · rw [hall rest, hres rest]
        rfl
      · obtain ⟨u, hu, -⟩ := hfits h
        cases hu
      · obtain ⟨u, hu, -⟩ := h
        cases hu
    | ok us =>
      have hlen : us.length = n := (length_unpackAll (hres [])).trans hws
      refine ⟨.ok ⟨us, hlen⟩, fun rest => ?_, fun h => ?_, fun hE h => ?_⟩
      · rw [hall rest, hres rest]
        exact dif_pos hlen
      · obtain ⟨u, hu, hcopy⟩ := hfits h
        cases hu
        exact ⟨_, rfl, hcopy⟩
      · obtain ⟨u, hu, hcopy⟩ := h
        cases hu
        exact htight hE ⟨us, rfl, hcopy⟩
  congr _ _ _ h := forall₂_congr_left hS.congr h

theorem MsgTraits.Lawful.list (hS : S.Lawful P F E) (fresh : α) :
    (S.list fresh).Lawful (fun v => v.length < 2 ^ 32 ∧ ∀ a ∈ v, P a) (ListFits fresh F) E where
  reads w v hv := by
    have hlength : (List.replicate v.length fresh).length = v.length := List.length_replicate
    obtain ⟨res, hres, hfits, htight⟩ := hS.unpackAll hlength hv.2
    have hgives (rest : Bytes) : (S.list fresh).unpack w ((S.list fresh).pack v ++ rest) =
        (res >>= fun us => .ok (w ++ us)).map (·, rest) := by
      change (unpackArraysize (arrayHeader v.length ++ packAll S v ++ rest) >>= _) = _
      rw [List.append_assoc, unpackArraysize_arrayHeader hv.1]
      change unpackPush fresh S v.length w (packAll S v ++ rest) = _
      rw [unpackPush_eq, hres rest]
      cases res <;> rfl
    refine ⟨_, hgives, ?_, fun hE ⟨u, hok, hcopy⟩ => ?_⟩
    · rintro ⟨rfl, hall⟩
      obtain ⟨us, rfl, hus⟩ := hfits (forall₂_replicate_iff.mpr hall)
      exact ⟨us, rfl, hus⟩
    · cases res with
      | error f => cases hok
      | ok us =>
        cases hok
        have hlen := length_eq_of_beq hcopy
        have hus := length_unpackAll (hres [])
        rw [List.length_append, hus, List.length_replicate] at hlen
        obtain rfl := List.length_eq_zero_iff.mp (Nat.add_eq_right.mp hlen)
        exact ⟨rfl, forall₂_replicate_iff.mp (htight hE ⟨us, rfl, hcopy⟩)⟩
  congr := by
    rintro w w' v h ⟨rfl, hall⟩
    exact ⟨List.length_eq_zero_iff.mp (length_eq_of_beq h).symm, hall⟩

/-! ### Optional values and objects -/

/-- The values for which `N` holds are written as nil, and no others. -/
def MsgTraits.NilFor (T : MsgTraits α) (P N : α → Prop) : Prop :=
  ∀ v, P v → (N v → T.pack v = [nilByte]) ∧ (¬ N v → NotNil (T.pack v))

theorem MsgTraits.Lawful.optional {N : α → Prop} (hS : S.Lawful P F E) (hN : S.NilFor P N) :
    S.optional.Lawful (fun v => v.valid = true → P v.value) (OptionalFits N F) E where
  reads := by
    rintro ⟨wvalid, w⟩ ⟨vvalid, v⟩ hv
    cases vvalid with
    | false =>
      refine ⟨.ok ⟨false, w⟩, fun rest => rfl, fun _ => ⟨_, rfl, rfl⟩, fun _ _ h => nomatch h⟩
    | true =>
      obtain ⟨hnil, hnot⟩ := hN v (hv rfl)
      by_cases hNv : N v
      · refine ⟨.ok ⟨false, w⟩, fun rest => ?_, fun h => absurd hNv (h rfl).1, fun _ h => ?_⟩
        · change S.optional.unpack ⟨wvalid, w⟩ (S.pack v ++ rest) = _
          rw [hnil hNv]
          rfl
        · obtain ⟨u, hu, hcopy⟩ := h
          cases hu
          cases (fixOptional_beq_iff.mp hcopy).1
      · obtain ⟨res, hres, hfits, htight⟩ := hS.reads w v (hv rfl)
        have hgives (rest : Bytes) : S.optional.unpack ⟨wvalid, w⟩ (S.pack v ++ rest) =
            (res >>= fun u => .ok ⟨wvalid, u⟩).map (·, rest) := by
          obtain ⟨b, bs, hpack, hb⟩ := hnot hNv
          have hread := hres rest
          rw [hpack] at hread ⊢
          change (if decide (b = nilByte) = true then _
            else S.unpack w (b :: bs ++ rest) >>= _) = _
          rw [if_neg (by simpa using hb), hread]
          cases res <;> rfl
        refine ⟨_, hgives, fun h => ?_, fun hE ⟨u, hok, hcopy⟩ _ => ⟨hNv, ?_⟩⟩
        · obtain ⟨-, rfl, hw⟩ := h rfl
          obtain ⟨u, rfl, hu⟩ := hfits hw
          exact ⟨_, rfl, fixOptional_beq_iff.mpr ⟨rfl, fun _ => hu⟩⟩
        · cases res with
          | error f => cases hok
          | ok u =>
            cases hok
            obtain ⟨rfl, hvalue⟩ := fixOptional_beq_iff.mp hcopy
            exact ⟨rfl, htight hE ⟨u, rfl, hvalue rfl⟩⟩
  congr := by
    intro w w' v h hw hv
    obtain ⟨hNv, hvalid, hvalue⟩ := hw hv
    obtain ⟨hvalid', hvalue'⟩ := fixOptional_beq_iff.mp h
    exact ⟨hNv, hvalid' ▸ hvalid, hS.congr _ _ _ (hvalue' hvalid) hvalue⟩

theorem MsgTraits.Lawful.object (hS : S.Lawful P F E) (members : ℕ) :
    (S.object members).Lawful (fun v => members < 2 ^ 32 ∧ P v) F E where
  reads w v hv := by
    obtain ⟨res, hres, hfits, htight⟩ := hS.reads w v hv.2
    refine ⟨res, fun rest => ?_, hfits, htight⟩
    change (unpackArraysize (arrayHeader members ++ S.pack v ++ rest) >>= _) = _
    rw [List.append_assoc, unpackArraysize_arrayHeader hv.1]
    exact (if_neg (not_not.mpr rfl)).trans (hres rest)
  congr := hS.congr

/-! ### Vectors and maps -/

theorem isChain_congr_head (hF : ∀ w w' v, (w == w') = true → F w v → F w' v) {w w' : α}
    {vs : List α} (h : (w == w') = true) (hchain : List.IsChain F (w :: vs)) :
    List.IsChain F (w' :: vs) := by
  cases vs with
  | nil => exact .singleton _
  | cons v vs =>
    obtain ⟨hv, hvs⟩ := List.isChain_cons_cons.mp hchain
    exact List.isChain_cons_cons.mpr ⟨hF _ _ _ h hv, hvs⟩

/-- Entries of equal maps are equal. -/
theorem exists_of_beq [BEq K] [LawfulBEq K] {es fs : List (K × α)} (h : (es == fs) = true)
    {f : K × α} (hf : f ∈ fs) : ∃ e ∈ es, e.1 = f.1 ∧ (e.2 == f.2) = true := by
  induction es generalizing fs with
  | nil =>
    obtain rfl := List.length_eq_zero_iff.mp (length_eq_of_beq h).symm
    cases hf
  | cons e es ih =>
    cases fs with
    | nil => cases h
    | cons g fs =>
      obtain ⟨hhead, htail⟩ := Bool.and_eq_true_iff.mp h
      obtain rfl | hf := List.mem_cons.mp hf
      · obtain ⟨hkey, hval⟩ := Bool.and_eq_true_iff.mp hhead
        exact ⟨e, List.mem_cons_self, LawfulBEq.eq_of_beq hkey, hval⟩
      · obtain ⟨e', he', hef⟩ := ih htail hf
        exact ⟨e', List.mem_cons_of_mem e he', hef⟩

variable [EquivBEq α]

theorem resize_beq {ws ws' : List α} (h : (ws == ws') = true) (fresh : α) (l : ℕ) :
    (resize fresh ws l == resize fresh ws' l) = true := by
  have hrel := list_beq_iff.mp h
  rw [resize, resize, hrel.length_eq]
  exact list_beq_iff.mpr (List.rel_append (List.forall₂_take l hrel)
    (list_beq_iff.mp ReflBEq.rfl))

theorem MsgTraits.Lawful.vector (hS : S.Lawful P F E) (fresh : α) :
    (S.vector fresh).Lawful (fun v => v.length < 2 ^ 32 ∧ ∀ a ∈ v, P a)
      (fun w v => List.Forall₂ F (resize fresh w v.length) v) E where
  reads w v hv := by
    obtain ⟨res, hres, hfits, htight⟩ :=
      hS.unpackAll (length_resize fresh w v.length) hv.2
    refine ⟨res, fun rest => ?_, hfits, htight⟩
    change (unpackArraysize (arrayHeader v.length ++ packAll S v ++ rest) >>= _) = _
    rw [List.append_assoc, unpackArraysize_arrayHeader hv.1]
    exact hres rest
  congr _ _ _ h := forall₂_congr_left hS.congr (resize_beq h fresh _)

/-- The loop for a map adds entries for its keys. -/
theorem MsgTraits.Lawful.unpackEmplace [BEq K] [LawfulBEq K] {R : MsgTraits K} {J : K → Prop}
    {keyFits : K → Prop} (hR : R.Lawful J (fun _ k => keyFits k) D) (hS : S.Lawful P F E)
    {es : List (K × α)} (hes : ∀ e ∈ es, J e.1 ∧ P e.2) (key : K) (val : α)
    (m : KeyMap rank α) :
    ∃ res : Except UnpackFault (KeyMap rank α),
      (∀ rest, unpackEmplace R S es.length key val m (packAll (R.prod S) es ++ rest) =
        res.map (·, rest)) ∧
      ((∀ e ∈ es, keyFits e.1) → List.IsChain F (val :: es.map (·.2)) →
        ∃ m', res = .ok m' ∧
          (∀ f ∈ m'.entries, f ∈ m.entries ∨ ∃ e ∈ es, f.1 = e.1 ∧ (f.2 == e.2) = true) ∧
          (∀ f ∈ m.entries, f ∈ m'.entries) ∧
          ∀ e ∈ es, ∃ f ∈ m'.entries, rank f.1 = rank e.1) := by
  induction es generalizing key val m with
  | nil =>
    refine ⟨.ok m, fun _ => rfl, fun _ _ => ⟨m, rfl, fun _ => .inl, fun _ => id, ?_⟩⟩
    exact fun _ he => absurd he List.not_mem_nil
  | cons e es ih =>
    obtain ⟨hJ, hP⟩ := hes e List.mem_cons_self
    obtain ⟨rk, hrk, hkey, -⟩ := hR.reads key e.1 hJ
    obtain ⟨rv, hrv, hval, -⟩ := hS.reads val e.2 hP
    have hread (rest : Bytes) : Dco.unpackEmplace R S (e :: es).length key val m
        (packAll (R.prod S) (e :: es) ++ rest) =
        (R.unpack key (R.pack e.1 ++ (S.pack e.2 ++ (packAll (R.prod S) es ++ rest))) >>=
          fun x => S.unpack val x.2 >>= fun y =>
            Dco.unpackEmplace R S es.length x.1 y.1 (m.emplace x.1 y.1) y.2) := by
      have hbytes : packAll (R.prod S) (e :: es) ++ rest =
          R.pack e.1 ++ (S.pack e.2 ++ (packAll (R.prod S) es ++ rest)) := by
        simp only [packAll, List.flatMap_cons, MsgTraits.prod, List.append_assoc]
      rw [hbytes]
      rfl
    cases rk with
    | error f =>
      refine ⟨.error f, fun rest => ?_, fun hkeys _ => ?_⟩
      · rw [hread, hrk]
        rfl
      · obtain ⟨k, hk, -⟩ := hkey (hkeys e List.mem_cons_self)
        cases hk
    | ok k =>
      cases rv with
      | error f =>
        refine ⟨.error f, fun rest => ?_, fun _ hchain => ?_⟩
        · rw [hread, hrk]
          change (S.unpack val _ >>= _) = _
          rw [hrv]
          rfl
        · obtain ⟨u, hu, -⟩ := hval (List.isChain_cons_cons.mp hchain).1
          cases hu
      | ok u =>
        obtain ⟨res, hres, hin⟩ :=
          ih (fun e' he' => hes e' (List.mem_cons_of_mem e he')) k u (m.emplace k u)
        refine ⟨res, fun rest => ?_, fun hkeys hchain => ?_⟩
        · rw [hread, hrk]
          change (S.unpack val _ >>= _) = _
          rw [hrv]
          exact hres rest
        · obtain ⟨hfirst, hchain⟩ := List.isChain_cons_cons.mp hchain
          obtain ⟨k', hk, hkk⟩ := hkey (hkeys e List.mem_cons_self)
          obtain ⟨u', hu, huu⟩ := hval hfirst
          cases hk
          cases hu
          obtain rfl := LawfulBEq.eq_of_beq hkk
          obtain ⟨m', rfl, hfrom, hkept, hkeys'⟩ :=
            hin (fun e' he' => hkeys e' (List.mem_cons_of_mem e he'))
              (isChain_congr_head hS.congr (BEq.symm huu) hchain)
          refine ⟨m', rfl, fun f hf => ?_, fun f hf => ?_, fun e' he' => ?_⟩
          · obtain hf | ⟨e', he', hfe⟩ := hfrom f hf
            · obtain hf | rfl := KeyMap.mem_emplace hf
              · exact .inl hf
              · exact .inr ⟨e, List.mem_cons_self, rfl, huu⟩
            · exact .inr ⟨e', List.mem_cons_of_mem e he', hfe⟩
          · exact hkept f (KeyMap.mem_emplace_of_mem hf _ _)
          · obtain rfl | he' := List.mem_cons.mp he'
            · obtain ⟨f, hf, hrank⟩ := m.exists_mem_emplace e'.1 u
              exact ⟨f, hkept f hf, hrank⟩
            · exact hkeys' e' he'

theorem MsgTraits.Lawful.map [BEq K] [LawfulBEq K] {R : MsgTraits K} {J : K → Prop}
    {keyFits : K → Prop} (hR : R.Lawful J (fun _ k => keyFits k) D) (hS : S.Lawful P F E)
    (freshKey : K) (fresh : α) :
    (MsgTraits.map freshKey fresh R S : MsgTraits (KeyMap rank α)).Lawful
      (fun v => v.entries.length < 2 ^ 32 ∧ ∀ e ∈ v.entries, J e.1 ∧ P e.2)
      (MapFits keyFits fresh F) False where
  reads w v hv := by
    obtain ⟨res, hres, hfits⟩ := hR.unpackEmplace hS hv.2 freshKey fresh w
    refine ⟨res, fun rest => ?_, fun ⟨hw, hkeys, hchain⟩ => ?_, False.elim⟩
    · change (unpackMapsize (mapHeader v.entries.length ++ packAll (R.prod S) v.entries ++ rest)
        >>= _) = _
      rw [List.append_assoc, unpackMapsize_mapHeader hv.1]
      exact hres rest
    · obtain ⟨m', rfl, hfrom, -, hall⟩ := hfits hkeys hchain
      refine ⟨m', rfl, list_beq_iff.mpr (KeyMap.forall₂_of_related m'.sorted v.sorted
        (fun e he => ?_) (fun f hf => ?_))⟩
      · have hmatch : ∃ f ∈ v.entries, e.1 = f.1 ∧ (e.2 == f.2) = true :=
          (hfrom e he).elim (hw e) id
        obtain ⟨f, hf, hkey, hval⟩ := hmatch
        exact ⟨f, hf, congrArg rank hkey,
          Bool.and_eq_true_iff.mpr ⟨beq_iff_eq.mpr hkey, hval⟩⟩
      · obtain ⟨e, he, hrank⟩ := hall f hf
        exact ⟨e, he, hrank⟩
  congr := by
    rintro w w' v h ⟨hw, hrest⟩
    refine ⟨fun e' he' => ?_, hrest⟩
    obtain ⟨e, he, hkey, hval⟩ := exists_of_beq h he'
    obtain ⟨f, hf, hkey', hval'⟩ := hw e he
    exact ⟨f, hf, hkey.symm.trans hkey', BEq.trans (BEq.symm hval) hval'⟩

end Laws

/-! ### Objects of generated classes -/

section Objects

variable (fresh : (t : Ty) → t.Val) (casts : FloatCasts)

/-- Only values that are optional are written as nil. -/
theorem Ty.msg_nilFor (t : Ty) : (t.msgTraits fresh casts).NilFor t.MsgSized t.IsNil := by
  cases t with
  | prim p => exact fun v hv => ⟨False.elim, fun _ => p.packMsg_notNil v hv⟩
  | fixvector n t =>
    intro v hv
    refine ⟨False.elim, fun _ => NotNil.append (arrayHeader_notNil ?_) _⟩
    exact (FixVector.size_d v).trans_lt hv.1
  | vector t => exact fun v hv => ⟨False.elim, fun _ => (arrayHeader_notNil hv.1).append _⟩
  | list t => exact fun v hv => ⟨False.elim, fun _ => (arrayHeader_notNil hv.1).append _⟩
  | map k t =>
    exact fun v hv => ⟨False.elim, fun _ => (sizeHeader_notNil (by decide +kernel) (by decide)
      ⟨(0xdf, 4), by decide, hv.1⟩).append _⟩
  | optional t =>
    rintro ⟨valid, v⟩ hv
    cases valid with
    | false => exact ⟨fun _ => rfl, fun h => absurd (fun hvalid => by cases hvalid) h⟩
    | true =>
      obtain ⟨hnil, hnot⟩ := t.msg_nilFor v (hv rfl)
      exact ⟨fun h => hnil (h rfl), fun h => hnot fun hv' => h fun _ => hv'⟩
  | object c => exact fun v hv => ⟨False.elim, fun _ => (arrayHeader_notNil hv.1).append _⟩

mutual

theorem Ty.msg_lawful : (t : Ty) →
    (t.msgTraits fresh casts).Lawful t.MsgSized (t.MsgFits fresh) t.MapFree
  | .prim p => MsgTraits.single_lawful casts p
  | .fixvector _ t => t.msg_lawful.fixvector
  | .vector t => t.msg_lawful.vector (fresh t)
  | .list t => t.msg_lawful.list (fresh t)
  | .map k t => (MsgTraits.single_lawful casts k).map t.msg_lawful (fresh (.prim k)) (fresh t)
  | .optional t => t.msg_lawful.optional (t.msg_nilFor fresh casts)
  | .object c => c.msg_lawful.object c.nMembers

theorem Members.msg_lawful : (ms : Members) →
    (ms.msgMembers fresh casts).Lawful ms.MsgSized (ms.MsgFits fresh) ms.MapFree
  | .nil => MsgTraits.unit_lawful True
  | .cons _ t ms => t.msg_lawful.prod ms.msg_lawful

theorem DcoClass.msg_lawful : (c : DcoClass) →
    (c.msgMembers fresh casts).Lawful c.MembersSized (c.MsgFits fresh) c.MapFree
  | .root ms => ms.msg_lawful
  | .derived parent ms => parent.msg_lawful.prod ms.msg_lawful

end

/-- Reading what has been written for `v`, in the target `w`, gives an object equal to `v`, and
stops exactly behind it. -/
def DcoClass.ReadsBack (c : DcoClass) (w v : c.Val) : Prop :=
  ∀ rest, ∃ u, (c.msgTraits fresh casts).unpack w ((c.msgTraits fresh casts).pack v ++ rest) =
    .ok (u, rest) ∧ (u == v) = true

end Objects

/-- A class with a small integer, an array and a list. -/
def msgSample : DcoClass :=
  .root (.cons [0x61] (.prim (.int true .w8)) (.cons [0x62] (.vector (.prim .bool))
    (.cons [0x63] (.list (.prim .bool)) .nil)))

def msgSampleVal (a : BitVec 8) (b c : List Bool) : msgSample.Val := (a, b, c, ())

theorem msgSample_sized {a : BitVec 8} {b c : List Bool} (hb : b.length < 2 ^ 32)
    (hc : c.length < 2 ^ 32) : msgSample.MsgSized (msgSampleVal a b c) :=
  ⟨by decide, trivial, ⟨hb, fun _ _ => trivial⟩, ⟨hc, fun _ _ => trivial⟩, trivial⟩

end Dueca.Dco
