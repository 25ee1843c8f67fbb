import Dueca.Dco.DiffCoding

/-!
# Objects sent as differences

A sender packs a first object completely, and then each next object as the difference to the
one before. A receiver unpacks the first object in one of its own, and each difference in a
copy of its previous result. A copy is any object that is equal; what a copy holds behind an
invalid optional value depends on how it was made.

The two agree as long as an optional value that becomes valid is not partly taken from what
was hidden behind the invalid one: the sender leaves out what is the same as its own hidden
value, and the hidden value of the receiver may be another.
-/

namespace Dueca.Dco

open Dueca.Lib

section Agreement

variable {n : ℕ} {α : Type} [BEq α] [EquivBEq α]

theorem agreesSingle_of_beq {m r q : α} (h : (r == q) = true) : AgreesSingle m r q :=
  fun hmr => BEq.symm (BEq.trans hmr h)

theorem agreesAll_of_beq {ms rs qs : List α} (h : (rs == qs) = true) (more : List α) :
    AgreesAll ms rs (qs.take ms.length ++ more) := by
  induction ms generalizing rs qs with
  | nil => cases rs <;> trivial
  | cons m ms ih =>
    cases rs with
    | nil => trivial
    | cons r rs =>
      cases qs with
      | nil => simp at h
      | cons q qs =>
        rw [List.cons_beq_cons, Bool.and_eq_true] at h
        exact ⟨agreesSingle_of_beq h.1, ih h.2⟩

theorem agreesVector_of_beq {m r q : List α} (hm : m.length < 2 ^ 32) (hr : r.length < 2 ^ 32)
    (h : (r == q) = true) (fresh : α) : AgreesVector fresh m r q := by
  refine ⟨fun hlen => ?_, agreesAll_of_beq h _⟩
  rw [Nat.mod_eq_of_lt hm, Nat.mod_eq_of_lt hr] at hlen
  exact (length_eq_of_beq h).symm.trans hlen.symm

end Agreement

section Objects

variable (fresh : (t : Ty) → t.Val)

/-- Each optional value that becomes valid agrees: where it is the same as what the reference
has hidden, what the receiver has hidden is the same too. -/
def Ty.RevivalsAgree : (t : Ty) → t.Val → t.Val → t.Val → Prop
  | .optional t => fun (m r q : FixOptional t.Val) => m.valid = true →
    if r.valid then t.RevivalsAgree m.value r.value q.value
    else t.Agrees fresh m.value r.value q.value
  | _ => fun _ _ _ => True

def Members.RevivalsAgree : (ms : Members) → ms.Val → ms.Val → ms.Val → Prop
  | .nil => fun _ _ _ => True
  | .cons _ t ms => fun (m r q : t.Val × ms.Val) =>
    t.RevivalsAgree fresh m.1 r.1 q.1 ∧ ms.RevivalsAgree m.2 r.2 q.2

def DcoClass.RevivalsAgree : (c : DcoClass) → c.Val → c.Val → c.Val → Prop
  | .root ms => ms.RevivalsAgree fresh
  | .derived parent ms => fun (m r q : parent.Val × ms.Val) =>
    parent.RevivalsAgree m.1 r.1 q.1 ∧ ms.RevivalsAgree fresh m.2 r.2 q.2

theorem Ty.agrees_of_beq (t : Ty) (m r q : t.Val) (hm : t.Sized m) (hr : t.Sized r)
    (h : (r == q) = true) (hrevive : t.RevivalsAgree fresh m r q) : t.Agrees fresh m r q := by
  induction t using Ty.diffTraits.induct with
  | case1 n t =>
    have hall : AgreesAll (FixVector.d m) r.d _ :=
      agreesAll_of_beq (show (r.d == q.d) = true from h) []
    rwa [List.append_nil, m.size_d.trans q.size_d.symm, List.take_length] at hall
  | case2 t => exact agreesVector_of_beq hm.1 hr.1 h (fresh t)
  | case3 t ih =>
    obtain ⟨hvalid, hvalue⟩ := fixOptional_beq_iff.mp h
    refine ⟨fun hmr => hvalid.symm.trans hmr.symm, fun hmv => ?_⟩
    have hrev := hrevive hmv
    split at hrev
    · rename_i hrv
      exact ih _ _ _ (hm hmv) (hr hrv) (hvalue hrv) hrev
    · exact hrev
  | case4 t hfix hvec hopt =>
    have hsingle : AgreesSingle m r q := agreesSingle_of_beq h
    cases t with
    | fixvector n t => exact (hfix n t rfl).elim
    | vector t => exact (hvec t rfl).elim
    | optional t => exact (hopt t rfl).elim
    | prim p => exact hsingle
    | list t => exact hsingle
    | map k t => exact hsingle
    | object c => exact hsingle

theorem Members.agrees_of_beq : (ms : Members) → ∀ m r q : ms.Val, ms.Sized m → ms.Sized r →
    (r == q) = true → ms.RevivalsAgree fresh m r q → ms.Agrees fresh m r q
  | .nil, _, _, _, _, _, _, _ => trivial
  | .cons _ t ms, m, r, q, hm, hr, h, hrevive => by
    obtain ⟨hfirst, hrest⟩ := Bool.and_eq_true_iff.mp h
    exact ⟨t.agrees_of_beq fresh m.1 r.1 q.1 hm.1 hr.1 hfirst hrevive.1,
      ms.agrees_of_beq m.2 r.2 q.2 hm.2 hr.2 hrest hrevive.2⟩

/-- An object that is equal to the reference agrees, when revivals do. -/
theorem DcoClass.agrees_of_beq : (c : DcoClass) → ∀ m r q : c.Val, c.Sized m → c.Sized r →
    (r == q) = true → c.RevivalsAgree fresh m r q → c.Agrees fresh m r q
  | .root ms, m, r, q, hm, hr, h, hrevive => ms.agrees_of_beq fresh m r q hm hr h hrevive
  | .derived parent ms, m, r, q, hm, hr, h, hrevive => by
    obtain ⟨hparent, hrest⟩ := Bool.and_eq_true_iff.mp h
    exact ⟨parent.agrees_of_beq m.1 r.1 q.1 hm.1 hr.1 hparent hrevive.1,
      ms.agrees_of_beq fresh m.2 r.2 q.2 hm.2 hr.2 hrest hrevive.2⟩

/-! ### Sender and receiver -/

variable (c : DcoClass)

/-- The last object sent, what the receiver made of it, and the bytes it did not take. -/
structure Transfer where
  ref : c.Val
  result : c.Val
  rest : Bytes

/-- The next object, and the copy in which its difference is unpacked. -/
structure Update where
  value : c.Val
  copy : c.Val

variable {c}

/-- The first object is packed completely, and unpacked in `target`. -/
def Transfer.start (value target : c.Val) : Except StoreFault (Transfer c) := do
  let (result, rest) ←
    (c.packTraits fresh).unpackobject target ((c.packTraits fresh).packobject value)
  return ⟨value, result, rest⟩

/-- Send a next object. -/
def transferStep (t : Transfer c) (u : Update c) : Except StoreFault (Transfer c) := do
  let s ← c.packDataDiff fresh u.value t.ref []
  let (result, rest) ← c.unPackDataDiff fresh u.copy s
  return ⟨u.value, result, rest⟩

/-- The receiver holds an object equal to the last one sent, and took exactly what was
packed. -/
def Reproduces (t : Transfer c) : Prop := (t.result == t.ref) = true ∧ t.rest = []

/-- The difference is unpacked in a copy of the previous result. -/
def TakesCopy (t : Transfer c) (u : Update c) : Prop := (u.copy == t.result) = true

/-- The sizes of the next object can be packed, and optional values that become valid agree
with what the copy has hidden. -/
def CanFollow (t : Transfer c) (u : Update c) : Prop :=
  c.Sized u.value ∧ c.RevivalsAgree fresh u.value t.ref u.copy

theorem Transfer.start_reproduces {value : c.Val} (target : c.Val) (hsized : c.Sized value) :
    ∃ t : Transfer c, Transfer.start fresh value target = .ok t ∧ Reproduces t ∧
      t.ref = value := by
  obtain ⟨result, hresult, hbeq⟩ := c.unpack_pack fresh target value [] hsized
  refine ⟨⟨value, result, []⟩, ?_, ⟨hbeq, rfl⟩, rfl⟩
  rw [List.append_nil] at hresult
  rw [Transfer.start, hresult]
  rfl

theorem Transfer.step (hc : c.HasMembers) (t : Transfer c) (u : Update c)
    (ht : Reproduces t ∧ c.Sized t.ref) (hu : TakesCopy t u ∧ CanFollow fresh t u) :
    ∃ t', transferStep fresh t u = .ok t' ∧ Reproduces t' ∧ c.Sized t'.ref := by
  obtain ⟨code, hpack, hunpack⟩ := c.transfers fresh hc u.value t.ref hu.2.1
  have hcopy : (t.ref == u.copy) = true := BEq.symm (BEq.trans hu.1 ht.1.1)
  have hagrees := c.agrees_of_beq fresh u.value t.ref u.copy hu.2.1 ht.2 hcopy hu.2.2
  obtain ⟨result, hresult, hbeq⟩ := hunpack u.copy hagrees []
  refine ⟨⟨u.value, result, []⟩, ?_, ⟨hbeq, rfl⟩, hu.2.1⟩
  rw [List.append_nil] at hresult
  rw [transferStep, hpack, List.nil_append]
  change (c.unPackDataDiff fresh u.copy code >>= _) = _
  rw [hresult]
  rfl

/-- In every run in which the objects can follow each other the receiver holds what was
sent. -/
theorem reproduces_of_run (hc : c.HasMembers) (value target : c.Val) (hsized : c.Sized value) :
    ∃ t : Transfer c, Transfer.start fresh value target = .ok t ∧ Reproduces t ∧
      ∀ updates : List (Update c),
        Allowed (transferStep fresh) (fun t u => TakesCopy t u ∧ CanFollow fresh t u) t updates →
        ∃ t', exec (transferStep fresh) t updates = .ok t' ∧ Reproduces t' := by
  obtain ⟨t, hstart, ht, href⟩ := Transfer.start_reproduces fresh target hsized
  refine ⟨t, hstart, ht, fun updates hok => ?_⟩
  obtain ⟨t', hexec, ht', -⟩ :=
    exec_progress (fun t u ht hu => Transfer.step fresh hc t u ht hu)
      ⟨ht, href ▸ hsized⟩ hok
  exact ⟨t', hexec, ht'⟩

end Objects

/-- A vector of bytes and an optional byte. -/
def sampleClass : DcoClass :=
  .root (.cons [118] (.vector (.prim (.int false .w8)))
    (.cons [111] (.optional (.prim (.int false .w8))) .nil))

def sample (v : List (BitVec 8)) (o : FixOptional (BitVec 8)) : sampleClass.Val := (v, o, ())

theorem sample_sized {v : List (BitVec 8)} (h : v.length < 2 ^ 32) (o : FixOptional (BitVec 8)) :
    sampleClass.Sized (sample v o) :=
  ⟨⟨h, fun _ _ => trivial⟩, fun _ => trivial, trivial⟩

/-- The vector grows and shrinks, and the optional value becomes invalid and valid again. -/
theorem reproduces_sample :
    ∃ t t' : Transfer sampleClass,
      Transfer.start Ty.zero (sample [1, 2] ⟨true, 7⟩) sampleClass.zero = .ok t ∧
      exec (transferStep Ty.zero) t
        [⟨sample [1, 3, 2] ⟨false, 7⟩, t.result⟩,
          ⟨sample [1] ⟨true, 8⟩, sample [1, 3, 2] ⟨false, 7⟩⟩] = .ok t' ∧
      Reproduces t' := by
  obtain ⟨t, hstart, -, hrun⟩ :=
    reproduces_of_run Ty.zero (c := sampleClass) trivial (sample [1, 2] ⟨true, 7⟩)
      sampleClass.zero (sample_sized (by decide) _)
  obtain rfl : t = ⟨sample [1, 2] ⟨true, 7⟩, sample [1, 2] ⟨true, 7⟩, []⟩ :=
    Except.ok.inj (hstart.symm.trans rfl)
  have hstep : transferStep Ty.zero
      (⟨sample [1, 2] ⟨true, 7⟩, sample [1, 2] ⟨true, 7⟩, []⟩ : Transfer sampleClass)
      ⟨sample [1, 3, 2] ⟨false, 7⟩, sample [1, 2] ⟨true, 7⟩⟩ =
        .ok ⟨sample [1, 3, 2] ⟨false, 7⟩, sample [1, 3, 2] ⟨false, 7⟩, []⟩ := rfl
  obtain ⟨t', hexec, ht'⟩ := hrun [⟨sample [1, 3, 2] ⟨false, 7⟩, sample [1, 2] ⟨true, 7⟩⟩,
      ⟨sample [1] ⟨true, 8⟩, sample [1, 3, 2] ⟨false, 7⟩⟩]
    ((allowed_cons_ok hstep).mpr
      ⟨⟨rfl, sample_sized (by decide) _, trivial, nofun, trivial⟩,
        ⟨rfl, sample_sized (by decide) _, trivial, fun _ => nofun, trivial⟩,
        fun _ _ => allowed_nil⟩)
  exact ⟨_, t', hstart, hexec, ht'⟩

theorem not_reproduces_hidden_value :
    ∃ t t' : Transfer sampleClass,
      Transfer.start Ty.zero (sample [] ⟨false, 5⟩) sampleClass.zero = .ok t ∧
      transferStep Ty.zero t ⟨sample [] ⟨true, 5⟩, t.result⟩ = .ok t' ∧ ¬ Reproduces t' := by
  refine ⟨⟨_, sample [] ⟨false, 0⟩, []⟩, ⟨_, sample [] ⟨true, 0⟩, []⟩, rfl, rfl, ?_⟩
  rintro ⟨h, -⟩
  cases h

end Dueca.Dco
