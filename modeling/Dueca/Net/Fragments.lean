import Dueca.Net.ConfigData
import Mathlib.Data.List.Induction

/-!
# Configuration data in pieces

Configuration commands are put one behind the other, and the bytes arrive in pieces, with a call of
`decodeConfigData` after each piece. What the calls do is compared with what they would do if each
command were taken only with all that stands behind it, as the source does with the payload of a
client.
-/

namespace Dueca.Net.Wire

open Dueca.Lib
open Dueca.Dco (Bytes StoreFault)

variable {P : Type} {I B : UDPPeerConfig → Body P} {fails : Processed P → Bool}
variable {s rest mark later : Bytes} {e : Processed P} {cmd : UDPPeerConfig} {turns : ℕ}

/-! ### Whole commands -/

/-- The command at the front with what stands behind it, when it is all there. -/
def nextCommand (I : UDPPeerConfig → Body P) (s : Bytes) : Option (Processed P × Bytes) :=
  match UDPPeerConfig.unpack s with
  | .error _ => none
  | .ok (cmd, rest) =>
    match I cmd with
    | .nothing | .complete => some (.config cmd, rest)
    | .guarded r | .unguarded _ r => (r.read rest).toOption

/-- Every body is guarded, and its reader refuses less than all of it. -/
def Guarded (I : UDPPeerConfig → Body P) : Prop :=
  ∀ cmd, match I cmd with
    | .nothing | .complete => True
    | .guarded r => Whole r.read
    | .unguarded _ _ => False

theorem nextCommand_error {f : StoreFault} (h : UDPPeerConfig.unpack s = .error f) :
    nextCommand I s = none := by
  simp only [nextCommand, h]

theorem nextCommand_nothing (h : UDPPeerConfig.unpack s = .ok (cmd, rest))
    (hbody : I cmd = .nothing) : nextCommand I s = some (.config cmd, rest) := by
  simp only [nextCommand, h, hbody]

theorem nextCommand_complete (h : UDPPeerConfig.unpack s = .ok (cmd, rest))
    (hbody : I cmd = .complete) : nextCommand I s = some (.config cmd, rest) := by
  simp only [nextCommand, h, hbody]

theorem nextCommand_guarded {r : StoreReader (Processed P)}
    (h : UDPPeerConfig.unpack s = .ok (cmd, rest)) (hbody : I cmd = .guarded r) :
    nextCommand I s = (r.read rest).toOption := by
  simp only [nextCommand, h, hbody]

theorem toOption_eq_some {α : Type} {x : Except StoreFault α} {a : α} :
    x.toOption = some a ↔ x = .ok a := by
  cases x with
  | error f => exact ⟨nofun, nofun⟩
  | ok b => exact ⟨fun h => congrArg _ (Option.some.inj h), fun h => congrArg _ (Except.ok.inj h)⟩

theorem toOption_eq_none {α : Type} {x : Except StoreFault α} :
    x.toOption = none ↔ ∃ f, x = .error f := by
  cases x with
  | error f => exact ⟨fun _ => ⟨f, rfl⟩, fun _ => rfl⟩
  | ok b => exact ⟨nofun, nofun⟩

/-- A command is not empty. -/
theorem unpack_length_lt (h : UDPPeerConfig.unpack s = .ok (cmd, rest)) :
    rest.length < s.length :=
  UDPPeerConfig.unpack_whole.shorter ⟨.empty, trivial, rfl⟩ h

theorem Whole.append {α : Type} {r : Bytes → Except StoreFault (α × Bytes)} {a : α} (h : Whole r)
    (hr : r s = .ok (a, rest)) (more : Bytes) : r (s ++ more) = .ok (a, rest ++ more) := by
  obtain ⟨used, rfl, hmore, -⟩ := h.ok s a rest hr
  rw [List.append_assoc]
  exact hmore _

/-- The cases of a command that is taken. -/
theorem nextCommand_cases (hI : Guarded I) (h : nextCommand I s = some (e, rest)) :
    ∃ cmd rest₀, UDPPeerConfig.unpack s = .ok (cmd, rest₀) ∧
      ((I cmd = .nothing ∧ e = .config cmd ∧ rest = rest₀) ∨
        (I cmd = .complete ∧ e = .config cmd ∧ rest = rest₀) ∨
        ∃ r, I cmd = .guarded r ∧ Whole r.read ∧ r.read rest₀ = .ok (e, rest)) := by
  cases hcmd : UDPPeerConfig.unpack s with
  | error f =>
    rw [nextCommand_error hcmd] at h
    cases h
  | ok x =>
    obtain ⟨cmd, rest₀⟩ := x
    refine ⟨cmd, rest₀, rfl, ?_⟩
    have hguarded := hI cmd
    cases hbody : I cmd with
    | nothing =>
      rw [nextCommand_nothing hcmd hbody] at h
      cases h
      exact .inl ⟨rfl, rfl, rfl⟩
    | complete =>
      rw [nextCommand_complete hcmd hbody] at h
      cases h
      exact .inr (.inl ⟨rfl, rfl, rfl⟩)
    | guarded r =>
      rw [hbody] at hguarded
      rw [nextCommand_guarded hcmd hbody] at h
      exact .inr (.inr ⟨r, rfl, hguarded, toOption_eq_some.mp h⟩)
    | unguarded early r =>
      rw [hbody] at hguarded
      exact hguarded.elim

theorem nextCommand_length (hI : Guarded I) (h : nextCommand I s = some (e, rest)) :
    rest.length < s.length := by
  obtain ⟨cmd, rest₀, hcmd, ⟨-, -, rfl⟩ | ⟨-, -, rfl⟩ | ⟨r, -, -, hread⟩⟩ := nextCommand_cases hI h
  · exact unpack_length_lt hcmd
  · exact unpack_length_lt hcmd
  · exact (r.suffix _ _ _ hread).length_le.trans_lt (unpack_length_lt hcmd)

/-- A command that is all there is taken also when more has arrived. -/
theorem nextCommand_append (hI : Guarded I) (h : nextCommand I s = some (e, rest))
    (more : Bytes) : nextCommand I (s ++ more) = some (e, rest ++ more) := by
  obtain ⟨cmd, rest₀, hcmd, ⟨hbody, rfl, rfl⟩ | ⟨hbody, rfl, rfl⟩ | ⟨r, hbody, hr, hread⟩⟩ :=
    nextCommand_cases hI h
  · exact nextCommand_nothing (UDPPeerConfig.unpack_whole.append hcmd more) hbody
  · exact nextCommand_complete (UDPPeerConfig.unpack_whole.append hcmd more) hbody
  · rw [nextCommand_guarded (UDPPeerConfig.unpack_whole.append hcmd more) hbody]
    exact toOption_eq_some.mpr (hr.append hread more)

theorem nextCommand_nil : nextCommand I [] = none := rfl

/-! ### Calls that take whole commands -/

theorem ne_nil_of_unpack (h : UDPPeerConfig.unpack s = .ok (cmd, rest)) : s ≠ [] := by
  rintro rfl
  exact absurd (unpack_length_lt h) (Nat.not_lt_zero _)

theorem decodeFrom_error {f : StoreFault} (h : UDPPeerConfig.unpack s = .error f) :
    decodeFrom I fails turns mark s = ⟨[], some mark, false⟩ := by
  cases turns with
  | zero => rfl
  | succ turns =>
    unfold decodeFrom
    split
    · rfl
    · simp only [h]

theorem decodeFrom_nothing (h : UDPPeerConfig.unpack s = .ok (cmd, rest))
    (hbody : I cmd = .nothing) : decodeFrom I fails (turns + 1) mark s =
      (decodeFrom I fails turns rest rest).cons (.config cmd) := by
  rw [decodeFrom, if_neg (ne_nil_of_unpack h)]
  simp only [h, hbody]

theorem decodeFrom_complete (h : UDPPeerConfig.unpack s = .ok (cmd, rest))
    (hbody : I cmd = .complete) : decodeFrom I fails (turns + 1) mark s =
      ⟨[.config cmd], some rest, true⟩ := by
  rw [decodeFrom, if_neg (ne_nil_of_unpack h)]
  simp only [h, hbody]

theorem decodeFrom_guarded {r : StoreReader (Processed P)}
    (h : UDPPeerConfig.unpack s = .ok (cmd, rest)) (hbody : I cmd = .guarded r) :
    decodeFrom I fails (turns + 1) mark s =
      match r.read rest with
      | .error _ => ⟨[], some s, false⟩
      | .ok (e, rest') =>
        if fails e then ⟨[e], none, false⟩
        else (decodeFrom I fails turns rest' rest').cons e := by
  rw [decodeFrom, if_neg (ne_nil_of_unpack h)]
  simp only [h, hbody] <;> rfl

theorem decodeFrom_unguarded {early : Processed P} {r : StoreReader (Processed P)}
    (h : UDPPeerConfig.unpack s = .ok (cmd, rest)) (hbody : I cmd = .unguarded early r) :
    decodeFrom I fails (turns + 1) mark s =
      match r.read rest with
      | .error _ => ⟨[early], some rest, false⟩
      | .ok (e, rest') =>
        if fails e then ⟨[e], none, false⟩
        else (decodeFrom I fails turns rest rest').cons e := by
  rw [decodeFrom, if_neg (ne_nil_of_unpack h)]
  simp only [h, hbody] <;> rfl

/-- What is kept is the end of what there was. -/
theorem decodeFrom_suffix (hs : s <:+ mark) {kept : Bytes}
    (h : (decodeFrom I fails turns mark s).kept = some kept) : kept <:+ mark := by
  induction turns generalizing mark s with
  | zero =>
    cases h
    exact List.suffix_rfl
  | succ turns ih =>
    cases hcmd : UDPPeerConfig.unpack s with
    | error f =>
      rw [decodeFrom_error hcmd] at h
      cases h
      exact List.suffix_rfl
    | ok x =>
      obtain ⟨cmd, rest⟩ := x
      have hrest := (suffix_of_whole UDPPeerConfig.unpack_whole hcmd).trans hs
      cases hbody : I cmd with
      | nothing =>
        rw [decodeFrom_nothing hcmd hbody] at h
        exact (ih List.suffix_rfl h).trans hrest
      | complete =>
        rw [decodeFrom_complete hcmd hbody] at h
        cases h
        exact hrest
      | guarded r =>
        rw [decodeFrom_guarded hcmd hbody] at h
        cases hread : r.read rest with
        | error f =>
          simp only [hread] at h
          cases h
          exact hs
        | ok x =>
          obtain ⟨e, rest'⟩ := x
          simp only [hread] at h
          split at h
          · cases h
          · exact (ih List.suffix_rfl h).trans ((r.suffix _ _ _ hread).trans hrest)
      | unguarded early r =>
        rw [decodeFrom_unguarded hcmd hbody] at h
        cases hread : r.read rest with
        | error f =>
          simp only [hread] at h
          cases h
          exact hrest
        | ok x =>
          obtain ⟨e, rest'⟩ := x
          simp only [hread] at h
          split at h
          · cases h
          · exact (ih (r.suffix _ _ _ hread) h).trans hrest

/-- The bytes left in the buffer are those that decoding has kept. -/
theorem unread_saved (b : ConfigBuffer) {kept : Bytes}
    (h : (decode I fails b.unread).kept = some kept) :
    (b.saveForLater (b.unread.length - kept.length) (Nat.sub_le _ _)).unread = kept := by
  obtain ⟨used, hused⟩ := decodeFrom_suffix List.suffix_rfl h
  rw [b.unread_saveForLater, ← hused, List.length_append, Nat.add_sub_cancel, List.drop_left]

/-! ### Guarded and unguarded bodies -/

/-- What the source does with a command compares with what is done when its body is guarded: `weak`
knows the commands that are not guarded. -/
inductive BodyFits (F : Framing (Processed P) UInt8) (weak : Processed P → Bool)
    (cmd : UDPPeerConfig) : Body P → Body P → Prop
  | nothing : weak (.config cmd) = false → BodyFits F weak cmd .nothing .nothing
  | complete : BodyFits F weak cmd .complete .complete
  | guarded {r r' : StoreReader (Processed P)} :
    (∀ s x, r.read s = .ok x → r'.read s = .ok x ∧ weak x.1 = false) →
    BodyFits F weak cmd (.guarded r) (.guarded r')
  | unguarded {early : Processed P} {r : StoreReader (Processed P)} : ¬F.good early →
    (∀ s x, r.read s = .ok x → weak x.1 = true ∧ x.2.length < s.length) →
    BodyFits F weak cmd (.guarded r) (.unguarded early r)

/-- Whether the last command processed was not guarded; `flag` is for the one before. -/
def endsWeak (weak : Processed P → Bool) (flag : Bool) (events : List (Processed P)) : Bool :=
  (events.getLast?.map weak).getD flag

/-- A call ends in the middle of a command that is not guarded, or of a body that is taken although
it is not all there; or the last command was not guarded, and the next one cannot be read. -/
def CutsShort (B : UDPPeerConfig → Body P) (weak : Processed P → Bool) (flag : Bool)
    (d : Decoded P) : Prop :=
  d.complete = false ∧ ∃ kept, d.kept = some kept ∧
    match UDPPeerConfig.unpack kept with
    | .error _ => endsWeak weak flag d.events = true
    | .ok (cmd, rest) =>
      match B cmd with
      | .nothing | .complete => False
      | .guarded r => ∃ x, r.read rest = .ok x
      | .unguarded _ _ => True

section Compare

variable {F : Framing (Processed P) UInt8} {weak : Processed P → Bool} {flag : Bool}
variable {d : Decoded P}

@[simp] theorem endsWeak_nil : endsWeak weak flag [] = flag := rfl

theorem endsWeak_cons (events : List (Processed P)) :
    endsWeak weak flag (e :: events) = endsWeak weak (weak e) events := by
  cases events with
  | nil => rfl
  | cons e' events =>
    rw [endsWeak, endsWeak, List.getLast?_cons_cons]
    cases h : (e' :: events).getLast? with
    | none => exact absurd (List.getLast?_eq_none_iff.mp h) (List.cons_ne_nil _ _)
    | some last => rfl

theorem cutsShort_cons : CutsShort B weak flag (d.cons e) ↔ CutsShort B weak (weak e) d := by
  simp only [CutsShort, Decoded.cons, endsWeak_cons]

theorem cutsShort_error {f : StoreFault} (h : UDPPeerConfig.unpack s = .error f) :
    CutsShort B weak flag ⟨[], some s, false⟩ ↔ flag = true := by
  simp only [CutsShort, Option.some.injEq, exists_eq_left', h, endsWeak_nil, true_and]

theorem cutsShort_guarded {r : StoreReader (Processed P)}
    (h : UDPPeerConfig.unpack s = .ok (cmd, rest)) (hbody : B cmd = .guarded r) :
    CutsShort B weak flag ⟨[], some s, false⟩ ↔ ∃ x, r.read rest = .ok x := by
  simp only [CutsShort, Option.some.injEq, exists_eq_left', h, hbody, true_and]

theorem cutsShort_unguarded {early : Processed P} {r : StoreReader (Processed P)}
    (h : UDPPeerConfig.unpack s = .ok (cmd, rest)) (hbody : B cmd = .unguarded early r) :
    CutsShort B weak flag ⟨[], some s, false⟩ := by
  simp only [CutsShort, Option.some.injEq, exists_eq_left', h, hbody, true_and]

theorem not_cutsShort_fails : ¬CutsShort B weak flag ⟨[e], none, false⟩ := by
  rintro ⟨-, kept, hkept, -⟩
  cases hkept

/-- What becomes of a call that is cut short: something has been done for a command that was not
read, or bytes are kept that have been read, or a command has been read before it was all there. -/
def Spoilt (F : Framing (Processed P) UInt8) (d d' : Decoded P) : Prop :=
  (∃ e ∈ d'.events, ¬F.good e) ∨
    (d'.events = d.events ∧ ∃ kept kept', d.kept = some kept ∧ d'.kept = some kept' ∧
      kept' ≠ kept) ∨
    ∃ e more, d'.events = d.events ++ e :: more

theorem Spoilt.cons {d d' : Decoded P} (h : Spoilt F d d') (e : Processed P) :
    Spoilt F (d.cons e) (d'.cons e) := by
  rcases h with ⟨e', he', hgood⟩ | ⟨hevents, hkept⟩ | ⟨e', more, hevents⟩
  · exact .inl ⟨e', List.mem_cons_of_mem _ he', hgood⟩
  · exact .inr (.inl ⟨congrArg (e :: ·) hevents, hkept⟩)
  · exact .inr (.inr ⟨e', more, congrArg (e :: ·) hevents⟩)

/-- A call does what it would do if all bodies were guarded, unless it is cut short. -/
structure Compares (F : Framing (Processed P) UInt8) (B : UDPPeerConfig → Body P)
    (weak : Processed P → Bool) (flag : Bool) (d d' : Decoded P) : Prop where
  same : ¬CutsShort B weak flag d → d' = d
  spoilt : CutsShort B weak flag d → Spoilt F d d'

theorem Compares.cons {d d' : Decoded P} (h : Compares F B weak (weak e) d d') :
    Compares F B weak flag (d.cons e) (d'.cons e) := by
  refine ⟨fun hcut => ?_, fun hcut => ?_⟩
  · rw [h.same (mt cutsShort_cons.mpr hcut)]
  · exact (h.spoilt (cutsShort_cons.mp hcut)).cons e

theorem Compares.of_not_cut (hcut : ¬CutsShort B weak flag d) : Compares F B weak flag d d :=
  ⟨fun _ => rfl, fun h => absurd h hcut⟩

theorem decodeFrom_compares (hfits : ∀ cmd, BodyFits F weak cmd (I cmd) (B cmd))
    (hturns : s.length < turns) (hsame : flag = false → mark = s)
    (hmore : flag = true → s.length < mark.length) :
    Compares F B weak flag (decodeFrom I fails turns s s) (decodeFrom B fails turns mark s) := by
  induction turns generalizing mark s flag with
  | zero => exact absurd hturns (Nat.not_lt_zero _)
  | succ turns ih =>
    cases hcmd : UDPPeerConfig.unpack s with
    | error f =>
      rw [decodeFrom_error hcmd, decodeFrom_error hcmd]
      refine ⟨fun hcut => ?_, fun hcut => .inr (.inl ⟨rfl, s, mark, rfl, rfl, ?_⟩)⟩
      · rw [hsame (by simpa only [cutsShort_error hcmd, Bool.not_eq_true] using hcut)]
      · rintro rfl
        exact Nat.lt_irrefl _ (hmore ((cutsShort_error hcmd).mp hcut))
    | ok x =>
      obtain ⟨cmd, rest⟩ := x
      have hlt : rest.length < turns :=
        Nat.lt_of_lt_of_le (unpack_length_lt hcmd) (Nat.le_of_lt_succ hturns)
      have hfit := hfits cmd
      generalize hIcmd : I cmd = body at hfit
      generalize hBcmd : B cmd = body' at hfit
      cases hfit with
      | nothing hweak =>
        rw [decodeFrom_nothing hcmd hIcmd, decodeFrom_nothing hcmd hBcmd]
        exact (ih hlt (fun _ => rfl) fun h => nomatch hweak.symm.trans h).cons
      | complete =>
        rw [decodeFrom_complete hcmd hIcmd, decodeFrom_complete hcmd hBcmd]
        exact .of_not_cut fun hcut => nomatch hcut.1
      | @guarded r r' hread =>
        rw [decodeFrom_guarded hcmd hIcmd, decodeFrom_guarded hcmd hBcmd]
        cases hr : r.read rest with
        | error f =>
          -- what is left of the command is read in full, or by neither
          have hcut : CutsShort B weak flag _ ↔ _ := cutsShort_guarded hcmd hBcmd
          cases hr' : r'.read rest with
          | error f' => exact .of_not_cut fun h => by simpa [hr'] using hcut.mp h
          | ok x =>
            obtain ⟨e, rest'⟩ := x
            refine ⟨fun h => absurd (hcut.mpr ⟨_, hr'⟩) h, fun _ => ?_⟩
            by_cases hfails : fails e = true
            · exact .inr (.inr ⟨e, [], by simp only [if_pos hfails]; rfl⟩)
            · exact .inr (.inr ⟨e, _, by simp only [if_neg hfails]; rfl⟩)
        | ok x =>
          obtain ⟨e, rest'⟩ := x
          obtain ⟨hr', hweak⟩ := hread _ _ hr
          have hlt' := ((r.suffix _ _ _ hr).length_le).trans_lt hlt
          simp only [hr']
          by_cases hfails : fails e = true
          · rw [if_pos hfails, if_pos hfails]
            exact .of_not_cut not_cutsShort_fails
          · rw [if_neg hfails, if_neg hfails]
            exact (ih hlt' (fun _ => rfl) fun h => nomatch hweak.symm.trans h).cons
      | @unguarded early r hearly hread =>
        rw [decodeFrom_guarded hcmd hIcmd, decodeFrom_unguarded hcmd hBcmd]
        cases hr : r.read rest with
        | error f =>
          exact ⟨fun h => absurd (cutsShort_unguarded hcmd hBcmd) h,
            fun _ => .inl ⟨early, List.mem_singleton_self _, hearly⟩⟩
        | ok x =>
          obtain ⟨e, rest'⟩ := x
          obtain ⟨hweak, hless⟩ := hread _ _ hr
          have hlt' := ((r.suffix _ _ _ hr).length_le).trans_lt hlt
          by_cases hfails : fails e = true
          · simp only [if_pos hfails]
            exact .of_not_cut not_cutsShort_fails
          · simp only [if_neg hfails]
            exact (ih hlt' (fun h => nomatch hweak.symm.trans h) fun _ => hless).cons

theorem decode_compares (hfits : ∀ cmd, BodyFits F weak cmd (I cmd) (B cmd)) (s : Bytes) :
    Compares F B weak false (decode I fails s) (decode B fails s) :=
  decodeFrom_compares hfits (Nat.lt_succ_self _) (fun _ => rfl) nofun

/-! ### Encoded commands -/

/-- Commands are taken from the front, and the rest is kept unless the call has ended in another
exception; no command that is all there is left, unless the call has ended early. -/
def TakesFront (F : Framing (Processed P) UInt8) (cmds : List (Processed P)) (s : Bytes)
    (d : Decoded P) : Prop :=
  ∃ left rest, cmds = d.events ++ left ∧ s = F.encodeAll d.events ++ rest ∧
    (d.kept = none ∨ d.kept = some rest ∧ (d.complete = false → F.next rest = none))

theorem TakesFront.cons {cmds : List (Processed P)} (h : TakesFront F cmds rest d)
    (hs : s = F.encode e ++ rest) : TakesFront F (e :: cmds) s (d.cons e) := by
  obtain ⟨left, rest', rfl, rfl, hkept⟩ := h
  exact ⟨left, rest', rfl, by rw [hs, Decoded.cons, F.encodeAll_cons, List.append_assoc], hkept⟩

/-- This is what a call with guarded bodies does with encoded commands. -/
theorem takesFront (hI : Guarded I) (hnext : F.next = nextCommand I)
    {cmds : List (Processed P)} (hgood : ∀ c ∈ cmds, F.good c) (hturns : s.length < turns)
    (hs : s ++ later = F.encodeAll cmds) : TakesFront F cmds s (decodeFrom I fails turns s s) := by
  induction turns generalizing s cmds with
  | zero => exact absurd hturns (Nat.not_lt_zero _)
  | succ turns ih =>
    -- one command is taken
    have htaken : ∀ e rest', nextCommand I s = some (e, rest') → ∃ cs, cmds = e :: cs ∧
        s = F.encode e ++ rest' ∧ TakesFront F cs rest' (decodeFrom I fails turns rest' rest') := by
      intro e rest' hsome
      rw [← hnext] at hsome
      obtain ⟨cs, rfl, heq, -⟩ := F.next_prefix hgood ⟨later, hs⟩ hsome
      refine ⟨cs, rfl, heq, ih (fun c hc => hgood c (List.mem_cons_of_mem _ hc)) ?_ ?_⟩
      · exact Nat.lt_of_lt_of_le (F.next_length s e rest' hsome) (Nat.le_of_lt_succ hturns)
      · rw [heq, F.encodeAll_cons, List.append_assoc] at hs
        exact List.append_cancel_left hs
    -- none is there
    have hnone : nextCommand I s = none → TakesFront F cmds s ⟨[], some s, false⟩ :=
      fun h => ⟨cmds, s, rfl, rfl, .inr ⟨rfl, fun _ => hnext ▸ h⟩⟩
    cases hcmd : UDPPeerConfig.unpack s with
    | error f =>
      rw [decodeFrom_error hcmd]
      exact hnone (nextCommand_error hcmd)
    | ok x =>
      obtain ⟨cmd, rest⟩ := x
      have hguarded := hI cmd
      cases hbody : I cmd with
      | nothing =>
        obtain ⟨cs, rfl, heq, hfront⟩ := htaken _ _ (nextCommand_nothing hcmd hbody)
        rw [decodeFrom_nothing hcmd hbody]
        exact hfront.cons heq
      | complete =>
        obtain ⟨cs, rfl, heq, -⟩ := htaken _ _ (nextCommand_complete hcmd hbody)
        rw [decodeFrom_complete hcmd hbody]
        exact ⟨cs, rest, rfl, by rw [heq, F.encodeAll_cons, F.encodeAll_nil, List.append_nil],
          .inr ⟨rfl, nofun⟩⟩
      | guarded r =>
        have hnext' := nextCommand_guarded hcmd hbody
        rw [decodeFrom_guarded hcmd hbody]
        cases hread : r.read rest with
        | error f => exact hnone (hnext'.trans (toOption_eq_none.mpr ⟨f, hread⟩))
        | ok x =>
          obtain ⟨e, rest'⟩ := x
          obtain ⟨cs, rfl, heq, hfront⟩ :=
            htaken e rest' (hnext'.trans (toOption_eq_some.mpr hread))
          dsimp only
          split
          · exact ⟨cs, rest', rfl, by rw [heq, F.encodeAll_cons, F.encodeAll_nil, List.append_nil],
              .inl rfl⟩
          · exact hfront.cons heq
      | unguarded early r =>
        rw [hbody] at hguarded
        exact hguarded.elim

/-! ### Pieces -/

/-- The commands processed are the first ones; their bytes have arrived, and what is in the buffer
is what else has arrived, unless another exception has ended everything. No command that is all
there is left, unless the last call has come to the end of the initial configuration. -/
def Exactly (F : Framing (Processed P) UInt8) (cmds : List (Processed P)) (later : Bytes)
    (r : Receiver P) : Prop :=
  ∃ left rest, cmds = r.processed ++ left ∧ rest ++ later = F.encodeAll left ∧
    (r.stopped = false → r.buffer.unread = rest ∧ (r.complete = false → F.next rest = none))

/-- After these pieces, the call for one more is cut short. -/
def CallCutShort (B I : UDPPeerConfig → Body P) (fails weak : Processed P → Bool)
    (early : List Bytes) (piece : Bytes) : Prop :=
  (Receiver.receiveAll I fails early).stopped = false ∧
    CutsShort B weak false
      (decode I fails ((Receiver.receiveAll I fails early).buffer.unread ++ piece))

variable {cmds : List (Processed P)} {r : Receiver P} {piece : Bytes} {early : List Bytes}

theorem receiveAll_concat : Receiver.receiveAll B fails (early ++ [piece]) =
    (Receiver.receiveAll B fails early).receive B fails piece := by
  rw [Receiver.receiveAll, Receiver.receiveAll, List.foldl_append]
  rfl

theorem receive_stopped (h : r.stopped = true) : r.receive B fails piece = r := if_pos h

theorem receive_none (h : r.stopped = false)
    (hkept : (decode B fails (r.buffer.unread ++ piece)).kept = none) :
    r.receive B fails piece =
      { r with
        buffer := r.buffer.write piece
        processed := r.processed ++ (decode B fails (r.buffer.unread ++ piece)).events
        stopped := true } := by
  rw [← r.buffer.unread_write] at hkept ⊢
  unfold Receiver.receive
  rw [h, if_neg Bool.false_ne_true]
  dsimp only
  split
  · rfl
  · rename_i kept hsome
    exact nomatch hkept.symm.trans hsome

theorem receive_some (h : r.stopped = false) {kept : Bytes}
    (hkept : (decode B fails (r.buffer.unread ++ piece)).kept = some kept) :
    (r.receive B fails piece).stopped = false ∧
      (r.receive B fails piece).processed =
        r.processed ++ (decode B fails (r.buffer.unread ++ piece)).events ∧
      (r.receive B fails piece).complete =
        (decode B fails (r.buffer.unread ++ piece)).complete ∧
      (r.receive B fails piece).buffer.unread = kept := by
  rw [← r.buffer.unread_write] at hkept ⊢
  unfold Receiver.receive
  rw [h, if_neg Bool.false_ne_true]
  dsimp only
  split
  · rename_i hnone
    exact nomatch hkept.symm.trans hnone
  · rename_i kept' hsome
    cases hkept.symm.trans hsome
    exact ⟨rfl, rfl, rfl, unread_saved _ hkept⟩

/-- What later calls get. -/
theorem TakesFront.remain (h : TakesFront F cmds s d) (hs : s ++ later = F.encodeAll cmds) :
    ∃ left rest, cmds = d.events ++ left ∧ rest ++ later = F.encodeAll left ∧
      (d.kept = none ∨ d.kept = some rest ∧ (d.complete = false → F.next rest = none)) := by
  obtain ⟨left, rest, rfl, rfl, hkept⟩ := h
  rw [F.encodeAll_append, List.append_assoc] at hs
  exact ⟨left, rest, rfl, List.append_cancel_left hs, hkept⟩

/-- With guarded bodies, the commands are processed exactly. -/
theorem Exactly.receive (hI : Guarded I) (hnext : F.next = nextCommand I)
    (hgood : ∀ c ∈ cmds, F.good c) (h : Exactly F cmds (piece ++ later) r) :
    Exactly F cmds later (r.receive I fails piece) := by
  obtain ⟨left, rest, hcmds, hleft, hbuffer⟩ := h
  rw [← List.append_assoc] at hleft
  cases hstopped : r.stopped with
  | true =>
    rw [receive_stopped hstopped]
    exact ⟨left, _, hcmds, hleft, fun h => nomatch hstopped.symm.trans h⟩
  | false =>
    obtain ⟨hunread, -⟩ := hbuffer hstopped
    rw [← hunread] at hleft
    have hgood' : ∀ c ∈ left, F.good c :=
      fun c hc => hgood c (hcmds ▸ List.mem_append_right _ hc)
    have hfront : TakesFront F left _ (decode I fails (r.buffer.unread ++ piece)) :=
      takesFront hI hnext hgood' (Nat.lt_succ_self _) hleft
    obtain ⟨left', rest', hevents, hlater, hkept⟩ := hfront.remain hleft
    rcases hkept with hnone | ⟨hsome, hcomplete⟩
    · rw [receive_none hstopped hnone]
      exact ⟨left', rest', by rw [hcmds, List.append_assoc, ← hevents], hlater, nofun⟩
    · obtain ⟨hstop, hprocessed, hcomp, hkept⟩ := receive_some hstopped hsome
      refine ⟨left', rest', ?_, hlater, fun _ => ⟨hkept, fun hc => hcomplete (hcomp.symm.trans hc)⟩⟩
      rw [hprocessed, List.append_assoc, ← hevents, hcmds]

/-- A call that is not cut short does what it would do with guarded bodies. -/
theorem receive_eq (hfits : ∀ cmd, BodyFits F weak cmd (I cmd) (B cmd))
    (hcut : r.stopped = false → ¬CutsShort B weak false (decode I fails (r.buffer.unread ++ piece))) :
    r.receive B fails piece = r.receive I fails piece := by
  cases hstopped : r.stopped with
  | true => rw [receive_stopped hstopped, receive_stopped hstopped]
  | false =>
    have hdecode : decode B fails (r.buffer.write piece).unread =
        decode I fails (r.buffer.write piece).unread := by
      rw [r.buffer.unread_write]
      exact (decode_compares hfits _).same (hcut hstopped)
    unfold Receiver.receive
    rw [hstopped, if_neg Bool.false_ne_true, if_neg Bool.false_ne_true]
    simp only [hdecode]

/-- After a call that is cut short, the commands are not processed exactly. -/
theorem not_exactly_of_cutsShort (hI : Guarded I) (hnext : F.next = nextCommand I)
    (hfits : ∀ cmd, BodyFits F weak cmd (I cmd) (B cmd)) (hgood : ∀ c ∈ cmds, F.good c)
    (h : Exactly F cmds (piece ++ later) r) (hstopped : r.stopped = false)
    (hcut : CutsShort B weak false (decode I fails (r.buffer.unread ++ piece))) :
    ¬Exactly F cmds later (r.receive B fails piece) := by
  obtain ⟨left, rest, hcmds, hleft, hbuffer⟩ := h
  obtain ⟨hunread, -⟩ := hbuffer hstopped
  rw [← hunread, ← List.append_assoc] at hleft
  have hgood' : ∀ c ∈ left, F.good c := fun c hc => hgood c (hcmds ▸ List.mem_append_right _ hc)
  have hfront : TakesFront F left _ (decode I fails (r.buffer.unread ++ piece)) :=
    takesFront hI hnext hgood' (Nat.lt_succ_self _) hleft
  have hspoilt : Spoilt F (decode I fails (r.buffer.unread ++ piece))
      (decode B fails (r.buffer.unread ++ piece)) :=
    (decode_compares hfits _).spoilt hcut
  obtain ⟨hcomplete, kept, hkept, -⟩ := hcut
  obtain ⟨left', rest', hevents, hlater, hkept'⟩ := hfront.remain hleft
  obtain ⟨hrest, hnone⟩ : rest' = kept ∧ F.next kept = none := by
    rcases hkept' with h | ⟨h, hc⟩
    · exact nomatch h.symm.trans hkept
    · cases h.symm.trans hkept
      exact ⟨rfl, hc hcomplete⟩
  subst hrest
  rintro ⟨left'', rest'', hcmds'', hlater'', hbuffer''⟩
  -- what has been processed in this call
  have hprocessed : (r.receive B fails piece).processed =
      r.processed ++ (decode B fails (r.buffer.unread ++ piece)).events := by
    cases hk : (decode B fails (r.buffer.unread ++ piece)).kept with
    | none => rw [receive_none hstopped hk]
    | some k => exact (receive_some hstopped hk).2.1
  have hsame : left = (decode B fails (r.buffer.unread ++ piece)).events ++ left'' := by
    rw [hcmds, hprocessed, List.append_assoc] at hcmds''
    exact List.append_cancel_left hcmds''
  rcases hspoilt with ⟨e, he, hbad⟩ | ⟨hsameEvents, k, k', hk, hk', hne⟩ | ⟨e, more, hmore⟩
  · exact hbad (hgood' e (hsame ▸ List.mem_append_left _ he))
  · rw [hsameEvents] at hsame
    have hleft'' : left' = left'' := List.append_cancel_left (hevents.symm.trans hsame)
    obtain ⟨hstop, -, -, hunread'⟩ := receive_some hstopped hk'
    obtain ⟨hrest'', -⟩ := hbuffer'' hstop
    cases hk.symm.trans hkept
    rw [← hleft'', ← hlater, ← hrest'', hunread'] at hlater''
    exact hne (List.append_cancel_right hlater'')
  · rw [hmore, List.append_assoc] at hsame
    have hleft' : left' = e :: more ++ left'' := List.append_cancel_left (hevents.symm.trans hsame)
    -- the whole command would have been there
    rw [hleft', F.encodeAll_append, ← hlater'', ← List.append_assoc] at hlater
    have hrest := List.append_cancel_right hlater
    have hgoode : F.good e := hgood' e (hsame ▸ List.mem_append_right _ List.mem_cons_self)
    rw [hrest, F.encodeAll_cons, List.append_assoc, F.next_encode e _ hgoode] at hnone
    cases hnone

/-- As long as no call is cut short, the calls do what they would do with guarded bodies. -/
theorem receiveAll_eq (hfits : ∀ cmd, BodyFits F weak cmd (I cmd) (B cmd)) {pieces : List Bytes}
    (hnot : ∀ early piece late, pieces = early ++ piece :: late →
      Receiver.receiveAll B fails early = Receiver.receiveAll I fails early →
        ¬CallCutShort B I fails weak early piece) :
    ∀ early late, pieces = early ++ late →
      Receiver.receiveAll B fails early = Receiver.receiveAll I fails early := by
  intro early
  induction early using List.reverseRecOn with
  | nil => exact fun _ _ => rfl
  | append_singleton early piece ih =>
    intro late heq
    have heq' : pieces = early ++ piece :: late := by rw [heq, List.append_assoc]; rfl
    rw [receiveAll_concat, receiveAll_concat, ih _ heq']
    exact receive_eq hfits fun hstopped hcut => hnot early piece late heq' (ih _ heq')
      ⟨hstopped, hcut⟩

/-- With guarded bodies, the commands are processed exactly after each call. -/
theorem exactly_receiveAll (hI : Guarded I) (hnext : F.next = nextCommand I)
    (hgood : ∀ c ∈ cmds, F.good c) {pieces : List Bytes}
    (hpieces : pieces.flatten = F.encodeAll cmds) :
    ∀ early late, pieces = early ++ late →
      Exactly F cmds late.flatten (Receiver.receiveAll I fails early) := by
  intro early
  induction early using List.reverseRecOn with
  | nil =>
    rintro late rfl
    exact ⟨cmds, [], rfl, hpieces, fun _ => ⟨rfl, fun _ => F.next_nil⟩⟩
  | append_singleton early piece ih =>
    intro late heq
    rw [receiveAll_concat]
    exact (ih (piece :: late) (by rw [heq, List.append_assoc]; rfl)).receive hI hnext hgood

/-- The commands are processed exactly after each call, if and only if no call is cut short. -/
theorem exactly_iff (hI : Guarded I) (hnext : F.next = nextCommand I)
    (hfits : ∀ cmd, BodyFits F weak cmd (I cmd) (B cmd)) (hgood : ∀ c ∈ cmds, F.good c)
    {pieces : List Bytes} (hpieces : pieces.flatten = F.encodeAll cmds) :
    (∀ early late, pieces = early ++ late →
        Exactly F cmds late.flatten (Receiver.receiveAll B fails early)) ↔
      ∀ early piece late, pieces = early ++ piece :: late →
        ¬CallCutShort B I fails weak early piece := by
  have hideal : ∀ early late, pieces = early ++ late →
      Exactly F cmds late.flatten (Receiver.receiveAll I fails early) :=
    exactly_receiveAll hI hnext hgood hpieces
  constructor
  · intro hall
    have hnot : ∀ early piece late, pieces = early ++ piece :: late →
        Receiver.receiveAll B fails early = Receiver.receiveAll I fails early →
          ¬CallCutShort B I fails weak early piece := by
      rintro early piece late heq hsame ⟨hstopped, hcut⟩
      have hexact := hall (early ++ [piece]) late (by rw [heq, List.append_assoc]; rfl)
      rw [receiveAll_concat, hsame] at hexact
      exact not_exactly_of_cutsShort hI hnext hfits hgood (hideal early _ heq) hstopped hcut hexact
    exact fun early piece late heq =>
      hnot early piece late heq (receiveAll_eq hfits hnot early _ heq)
  · intro hnot early late heq
    rw [receiveAll_eq hfits (fun early piece late heq _ => hnot early piece late heq) early late heq]
    exact hideal early late heq

end Compare

end Dueca.Net.Wire
