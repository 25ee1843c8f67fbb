import Dueca.Lib.Strict
import Dueca.Dco.Unstream
import Dueca.Dco.MsgSingle

/-!
# Truncated msgpack data

Reading byte by byte never uses the iterator at its end, since each byte is checked for: it is the
same as reading from a list of bytes. These readers are strict: less than an encoding is refused.
-/

namespace Dueca.Dco

open Dueca.Lib Dueca.Lib.MsgPack

/-! ### No use of the iterator beyond the end -/

/-- A result without use of the iterator beyond the end. -/
def ReadFault.lift {α : Type} (x : Except UnpackFault α) : Except ReadFault α :=
  x.mapError .thrown

open ReadFault (lift)

section Lift

variable {α β : Type}

theorem lift_bind (x : Except UnpackFault α) (f : α → Except UnpackFault β) :
    lift (x >>= f) = lift x >>= fun a => lift (f a) := by
  cases x <;> rfl

theorem lift_eq_ok {x : Except UnpackFault α} {a : α} : lift x = .ok a ↔ x = .ok a := by
  cases x with
  | ok b => exact ⟨fun h => Except.ok.inj h ▸ rfl, fun h => Except.ok.inj h ▸ rfl⟩
  | error e => exact ⟨nofun, nofun⟩

theorem lift_eq_thrown {x : Except UnpackFault α} {e : UnpackFault} :
    lift x = .error (.thrown e) ↔ x = .error e := by
  cases x with
  | ok b => exact ⟨nofun, nofun⟩
  | error e' =>
    constructor
    · intro h
      cases h
      rfl
    · rintro h
      cases h
      rfl

theorem lift_ne_beyondEnd (x : Except UnpackFault α) : lift x ≠ .error .beyondEnd := by
  cases x <;> exact nofun

end Lift

namespace Unstream

theorem takeByte_eq (s : Bytes) : takeByte s = lift (nextFlag s) := by
  cases s <;> rfl

theorem takeBytes_eq (k : ℕ) (s : Bytes) : takeBytes k s = lift (nextBytes k s) := by
  induction k generalizing s with
  | zero => rfl
  | succ k ih =>
    cases s with
    | nil => rfl
    | cons b s =>
      change (takeBytes k s >>= fun x => _) = _
      rw [ih, nextBytes, nextBytes, List.length_cons]
      by_cases hlt : s.length < k
      · rw [if_pos hlt, if_pos (Nat.succ_lt_succ hlt)]
        rfl
      · rw [if_neg hlt, if_neg (mt Nat.lt_of_succ_lt_succ hlt)]
        rfl

theorem positive_eq (size k : ℕ) (s : Bytes) : positive size k s = lift (Dco.positive size k s) := by
  unfold positive Dco.positive
  split
  · rfl
  · rw [takeBytes_eq, lift_bind]
    rfl

theorem negative_eq (signed : Bool) (size k : ℕ) (s : Bytes) :
    negative signed size k s = lift (Dco.negative signed size k s) := by
  unfold negative Dco.negative
  split
  · rw [takeBytes_eq, lift_bind]
    rfl
  · rfl

theorem negativeB5_eq (signed : Bool) (flag : UInt8) (s : Bytes) :
    negativeB5 signed flag s = lift (Dco.negativeB5 signed flag s) := by
  cases signed <;> rfl

theorem unpackInt_eq (signed : Bool) (size : ℕ) (s : Bytes) :
    unpackInt signed size s = lift (Dco.unpackInt signed size s) := by
  rw [unpackInt, Dco.unpackInt, takeByte_eq, lift_bind]
  refine bind_congr fun x => ?_
  simp only [positive_eq, negative_eq, negativeB5_eq]
  repeat' split
  all_goals rfl

theorem unpackSize_eq (mask tag low : UInt8) (wide : List (UInt8 × ℕ)) (problem : String)
    (s : Bytes) :
    unpackSize mask tag low wide problem s = lift (Dco.unpackSize mask tag low wide problem s) := by
  rw [unpackSize, Dco.unpackSize, takeByte_eq, lift_bind]
  refine bind_congr fun x => ?_
  obtain ⟨flag, s⟩ := x
  dsimp only
  split
  · rfl
  · cases wide.find? fun w => w.1 = flag with
    | none => rfl
    | some w =>
      dsimp only
      rw [takeBytes_eq, lift_bind]
      rfl

theorem unpackBool_eq (s : Bytes) : unpackBool s = lift (Dco.unpackBool s) := by
  rw [unpackBool, Dco.unpackBool, takeByte_eq, lift_bind]
  refine bind_congr fun x => ?_
  dsimp only
  split
  · rfl
  · split <;> rfl

theorem unpackReal_eq (k : ℕ) (tag : UInt8) (cast : ℤ → BitVec (8 * k)) (problem : String)
    (s : Bytes) : unpackReal k tag cast problem s = lift (Dco.unpackReal k tag cast problem s) := by
  cases s with
  | nil => rfl
  | cons flag s =>
    change (if flag = tag then _ else _) = lift (if flag = tag then _ else _)
    split
    · change (takeBytes k s >>= fun x => _) = lift (nextBytes k s >>= fun x => _)
      rw [takeBytes_eq, lift_bind]
      rfl
    · rw [unpackInt_eq]
      cases Dco.unpackInt (decide (flag ≠ 0xcf)) 8 (flag :: s) <;> rfl

theorem unpackStrsize_eq (s : Bytes) : unpackStrsize s = lift (Dco.unpackStrsize s) :=
  unpackSize_eq ..

theorem unpackArraysize_eq (s : Bytes) : unpackArraysize s = lift (Dco.unpackArraysize s) :=
  unpackSize_eq ..

theorem unpackMapsize_eq (s : Bytes) : unpackMapsize s = lift (Dco.unpackMapsize s) :=
  unpackSize_eq ..

theorem unpackString_eq (s : Bytes) : unpackString s = lift (Dco.unpackString s) := by
  rw [unpackString, Dco.unpackString, unpackStrsize_eq, lift_bind]
  exact bind_congr fun x => takeBytes_eq x.1 x.2

theorem unpackDstring_eq (maxSize : ℕ) (s : Bytes) :
    unpackDstring maxSize s = lift (Dco.unpackDstring maxSize s) := by
  rw [unpackDstring, Dco.unpackDstring, unpackStrsize_eq, lift_bind]
  refine bind_congr fun x => ?_
  dsimp only
  split
  · rfl
  · rw [takeBytes_eq, lift_bind]
    refine bind_congr fun y => ?_
    split <;> rfl

theorem unpackIntVal_eq (signed : Bool) (w : Width) (s : Bytes) :
    unpackIntVal signed w s = lift (Dco.unpackIntVal signed w s) := by
  rw [unpackIntVal, Dco.unpackIntVal, unpackInt_eq, lift_bind]
  rfl

theorem unpackEnum_eq (w : Width) (s : Bytes) : unpackEnum w s = lift (Dco.unpackEnum w s) := by
  rw [unpackEnum, Dco.unpackEnum, unpackIntVal_eq, lift_bind]
  rfl

end Unstream

theorem Prim.unstream_eq (casts : FloatCasts) (p : Prim) (s : Bytes) :
    p.unstream casts s = lift (p.unpackMsg casts s) := by
  cases p with
  | bool => exact Unstream.unpackBool_eq s
  | int signed w => exact Unstream.unpackIntVal_eq signed w s
  | float => exact Unstream.unpackReal_eq ..
  | double => exact Unstream.unpackReal_eq ..
  | string => exact Unstream.unpackString_eq s
  | dstring maxSize => exact Unstream.unpackDstring_eq maxSize s
  | enum signed w names => exact Unstream.unpackEnum_eq w s

namespace Unstream

section Containers

variable {n : ℕ} {K ι α β : Type} [LinearOrder ι] {rank : K → ι} {T : Unstream α} {M : MsgTraits α}
variable {S : Unstream β} {N : MsgTraits β} {R : Unstream K} {L : MsgTraits K}

theorem all_eq (h : ∀ a s, T a s = lift (M.unpack a s)) (as : List α) (s : Bytes) :
    all T as s = lift (unpackAll M as s) := by
  induction as generalizing s with
  | nil => rfl
  | cons a as ih =>
    rw [all, unpackAll, h, lift_bind]
    refine bind_congr fun x => ?_
    dsimp only
    rw [ih, lift_bind]
    rfl

theorem push_eq (h : ∀ a s, T a s = lift (M.unpack a s)) (fresh : α) (l : ℕ) (as : List α)
    (s : Bytes) : push fresh T l as s = lift (unpackPush fresh M l as s) := by
  induction l generalizing as s with
  | zero => rfl
  | succ l ih =>
    rw [push, unpackPush, h, lift_bind]
    exact bind_congr fun x => ih (as ++ [x.1]) x.2

theorem emplace_eq (hkey : ∀ a s, R a s = lift (L.unpack a s))
    (h : ∀ a s, T a s = lift (M.unpack a s)) (l : ℕ) (key : K) (val : α) (m : KeyMap rank α)
    (s : Bytes) : emplace R T l key val m s = lift (unpackEmplace L M l key val m s) := by
  induction l generalizing key val m s with
  | zero => rfl
  | succ l ih =>
    rw [emplace, unpackEmplace, hkey, lift_bind]
    refine bind_congr fun x => ?_
    dsimp only
    rw [h, lift_bind]
    exact bind_congr fun y => ih x.1 y.1 (m.emplace x.1 y.1) y.2

theorem fixvector_eq (h : ∀ a s, T a s = lift (M.unpack a s)) (v : FixVector n α) (s : Bytes) :
    fixvector T v s = lift (M.fixvector.unpack v s) := by
  rw [fixvector, MsgTraits.fixvector, unpackArraysize_eq]
  dsimp only
  rw [lift_bind]
  refine bind_congr fun x => ?_
  split
  · rfl
  · rw [all_eq h, lift_bind]
    refine bind_congr fun y => ?_
    split <;> rfl

theorem vector_eq (h : ∀ a s, T a s = lift (M.unpack a s)) (fresh : α) (v : List α) (s : Bytes) :
    vector fresh T v s = lift ((M.vector fresh).unpack v s) := by
  rw [vector, MsgTraits.vector, unpackArraysize_eq]
  dsimp only
  rw [lift_bind]
  exact bind_congr fun x => all_eq h (resize fresh v x.1) x.2

theorem list_eq (h : ∀ a s, T a s = lift (M.unpack a s)) (fresh : α) (v : List α) (s : Bytes) :
    list fresh T v s = lift ((M.list fresh).unpack v s) := by
  rw [list, MsgTraits.list, unpackArraysize_eq]
  dsimp only
  rw [lift_bind]
  exact bind_congr fun x => push_eq h fresh x.1 v x.2

theorem prod_eq (h : ∀ a s, T a s = lift (M.unpack a s)) (h' : ∀ b s, S b s = lift (N.unpack b s))
    (v : α × β) (s : Bytes) : prod T S v s = lift ((M.prod N).unpack v s) := by
  rw [prod, MsgTraits.prod, h]
  dsimp only
  rw [lift_bind]
  refine bind_congr fun x => ?_
  rw [h', lift_bind]
  rfl

theorem map_eq (hkey : ∀ a s, R a s = lift (L.unpack a s)) (h : ∀ a s, T a s = lift (M.unpack a s))
    (freshKey : K) (fresh : α) (v : KeyMap rank α) (s : Bytes) :
    map freshKey fresh R T v s = lift ((MsgTraits.map freshKey fresh L M).unpack v s) := by
  rw [map, MsgTraits.map, unpackMapsize_eq]
  dsimp only
  rw [lift_bind]
  exact bind_congr fun x => emplace_eq hkey h x.1 freshKey fresh v x.2

theorem optional_eq (h : ∀ a s, T a s = lift (M.unpack a s)) (v : FixOptional α) (s : Bytes) :
    optional T v s = lift (M.optional.unpack v s) := by
  cases s with
  | nil => rfl
  | cons flag s =>
    change (if decide (flag = nilByte) then _ else _) = lift (if decide (flag = nilByte) then _ else _)
    split
    · rfl
    · rw [h, lift_bind]
      rfl

theorem object_eq (h : ∀ a s, T a s = lift (M.unpack a s)) (members : ℕ) (v : α) (s : Bytes) :
    object members T v s = lift ((M.object members).unpack v s) := by
  rw [object, MsgTraits.object, unpackArraysize_eq]
  dsimp only
  rw [lift_bind]
  refine bind_congr fun x => ?_
  split
  · rfl
  · exact h v x.2

end Containers

end Unstream

section Objects

variable (fresh : (t : Ty) → t.Val) (casts : FloatCasts)

mutual

/-- No value is read beyond the end. -/
theorem Ty.unstream_eq : ∀ (t : Ty) (v : t.Val) (s : Bytes),
    t.unstream fresh casts v s = lift ((t.msgTraits fresh casts).unpack v s)
  | .prim p, _, s => p.unstream_eq casts s
  | .fixvector _ t, v, s => Unstream.fixvector_eq t.unstream_eq v s
  | .vector t, v, s => Unstream.vector_eq t.unstream_eq (fresh t) v s
  | .list t, v, s => Unstream.list_eq t.unstream_eq (fresh t) v s
  | .map k t, v, s =>
    Unstream.map_eq (fun _ => k.unstream_eq casts) t.unstream_eq (fresh (.prim k)) (fresh t) v s
  | .optional t, v, s => Unstream.optional_eq t.unstream_eq v s
  | .object c, v, s => Unstream.object_eq c.unstream_eq c.nMembers v s

theorem Members.unstream_eq : ∀ (ms : Members) (v : ms.Val) (s : Bytes),
    ms.unstream fresh casts v s = lift ((ms.msgMembers fresh casts).unpack v s)
  | .nil, _, _ => rfl
  | .cons _ t ms, v, s => Unstream.prod_eq t.unstream_eq ms.unstream_eq v s

theorem DcoClass.unstream_eq : ∀ (c : DcoClass) (v : c.Val) (s : Bytes),
    c.unstream fresh casts v s = lift ((c.msgMembers fresh casts).unpack v s)
  | .root ms, v, s => ms.unstream_eq v s
  | .derived parent ms, v, s => Unstream.prod_eq parent.unstream_eq ms.unstream_eq v s

end

end Objects

/-! ### Less than an encoding -/

/-- The exception for data that cannot be read. -/
def IsMismatch (e : UnpackFault) : Prop := ∃ problem, e = .mismatch problem

theorem isMismatch (problem : String) : IsMismatch (.mismatch problem) := ⟨problem, rfl⟩

section Truncated

variable {short : UnpackFault → Prop} (hshort : ∀ problem, short (.mismatch problem))

include hshort

theorem nextFlag_strict : Strict short nextFlag where
  ok := by
    intro s flag rest h
    cases s with
    | nil => cases h
    | cons b s =>
      cases h
      refine ⟨[flag], rfl, fun _ => rfl, fun p q heq hq => ?_⟩
      cases p with
      | nil => exact ⟨_, hshort _, rfl⟩
      | cons c p =>
        have hnil := (List.append_eq_nil_iff.mp (List.cons.inj heq).2.symm).2
        exact absurd hnil hq
  error := by
    intro s e h _ p q heq
    cases s with
    | nil =>
      obtain ⟨rfl, -⟩ := List.append_eq_nil_iff.mp heq.symm
      exact ⟨_, hshort _, rfl⟩
    | cons b s => cases h

theorem nextBytes_strict (k : ℕ) : Strict short (nextBytes k) := .take k (hshort _)

theorem positive_strict (size k : ℕ) : Strict short (positive size k) := by
  unfold positive
  exact .ite (.throw _) ((nextBytes_strict hshort k).bind fun _ => .pure _)

theorem negative_strict (signed : Bool) (size k : ℕ) :
    Strict short (negative signed size k) := by
  unfold negative
  exact .ite ((nextBytes_strict hshort k).bind fun _ => .pure _) (.throw _)

omit hshort in
theorem negativeB5_strict (signed : Bool) (flag : UInt8) :
    Strict short (negativeB5 signed flag) := by
  unfold negativeB5
  exact .ite (.pure _) (.throw _)

theorem unpackInt_strict (signed : Bool) (size : ℕ) :
    Strict short (unpackInt signed size) := by
  unfold unpackInt
  refine (nextFlag_strict hshort).bind fun flag => ?_
  dsimp only
  refine .ite (.pure _) ?_
  refine .ite (negativeB5_strict signed flag) ?_
  refine .ite (positive_strict hshort size 1) ?_
  refine .ite (positive_strict hshort size 2) ?_
  refine .ite (positive_strict hshort size 4) ?_
  refine .ite (positive_strict hshort size 8) ?_
  refine .ite (negative_strict hshort signed size 1) ?_
  refine .ite (negative_strict hshort signed size 2) ?_
  refine .ite (negative_strict hshort signed size 4) ?_
  exact .ite (negative_strict hshort signed size 8) (.throw _)

theorem unpackSize_strict (mask tag low : UInt8) (wide : List (UInt8 × ℕ)) (problem : String) :
    Strict short (unpackSize mask tag low wide problem) := by
  unfold unpackSize
  refine (nextFlag_strict hshort).bind fun flag => ?_
  dsimp +instances only
  refine .ite (.pure _) ?_
  cases wide.find? fun w => w.1 = flag with
  | none => exact .throw _
  | some w => exact (nextBytes_strict hshort w.2).bind fun bs => .pure (ofBigEndian bs)

theorem unpackBool_strict : Strict short unpackBool := by
  unfold unpackBool
  refine (nextFlag_strict hshort).bind fun flag => ?_
  exact .ite (.pure _) (.ite (.pure _) (.throw _))

/-- The rest of `unpack_float` and `unpack_double` once the flag is known. -/
def realAfter (k : ℕ) (tag : UInt8) (cast : ℤ → BitVec (8 * k)) (problem : String) (flag : UInt8)
    (s : Bytes) : Except UnpackFault (BitVec (8 * k) × Bytes) :=
  if flag = tag then do
    let (_, s) ← nextFlag s
    let (bs, s) ← nextBytes k s
    return (BitVec.ofNat (8 * k) (ofBigEndian bs), s)
  else do
    let (i, s) ← (unpackInt (decide (flag ≠ 0xcf)) 8 s).mapError fun _ => .mismatch problem
    return (cast i, s)

/-- Exceptions of `unpack_int` are replaced by another one of the same kind. -/
theorem unpackReal_strict (k : ℕ) (tag : UInt8) (cast : ℤ → BitVec (8 * k)) (problem : String) :
    Strict short (unpackReal k tag cast problem) := by
  refine .peek (f := realAfter k tag cast problem) ⟨_, hshort _, rfl⟩ (fun flag s => ?_)
    (fun flag => ?_) fun flag => ?_
  · by_cases hflag : flag = tag
    · simp only [unpackReal, realAfter, nextFlag, bind, Except.bind, if_pos hflag]
    · simp only [unpackReal, realAfter, nextFlag, bind, Except.bind, if_neg hflag]
      cases unpackInt (decide (flag ≠ 0xcf)) 8 (flag :: s) <;> rfl
  · refine .ite ((nextFlag_strict hshort).bind fun _ => (nextBytes_strict hshort k).bind fun _ => .pure _) ?_
    exact ((unpackInt_strict (fun _ => trivial) _ 8).mapError fun _ => hshort problem).bind fun _ => .pure _
  · unfold RefusesNil realAfter
    split
    · exact ⟨_, hshort _, rfl⟩
    · exact ⟨_, hshort _, rfl⟩

theorem unpackStrsize_strict : Strict short unpackStrsize := unpackSize_strict hshort ..

theorem unpackArraysize_strict : Strict short unpackArraysize := unpackSize_strict hshort ..

theorem unpackMapsize_strict : Strict short unpackMapsize := unpackSize_strict hshort ..

theorem unpackString_strict : Strict short unpackString := by
  unfold unpackString
  exact (unpackStrsize_strict hshort).bind fun len => nextBytes_strict hshort len

theorem unpackDstring_strict (maxSize : ℕ) : Strict short (unpackDstring maxSize) := by
  unfold unpackDstring
  refine (unpackStrsize_strict hshort).bind fun len => ?_
  dsimp only
  refine .ite (.throw _) ((nextBytes_strict hshort len).bind fun bs => ?_)
  dsimp only
  exact .dite (fun h => .pure (DstringVal.ofBytes bs h)) fun _ => .throw _

theorem unpackIntVal_strict (signed : Bool) (w : Width) :
    Strict short (unpackIntVal signed w) := by
  unfold unpackIntVal
  exact (unpackInt_strict hshort signed w.bytes).bind fun _ => .pure _

theorem unpackEnum_strict (w : Width) : Strict short (unpackEnum w) := by
  unfold unpackEnum
  exact (unpackIntVal_strict hshort true .w32).bind fun _ => .pure _

theorem Prim.unpackMsg_strict (casts : FloatCasts) (p : Prim) :
    Strict short (p.unpackMsg casts) := by
  cases p with
  | bool => exact unpackBool_strict hshort
  | int signed w => exact unpackIntVal_strict hshort signed w
  | float => exact unpackReal_strict hshort 4 _ _ _
  | double => exact unpackReal_strict hshort 8 _ _ _
  | string => exact unpackString_strict hshort
  | dstring maxSize => exact unpackDstring_strict hshort maxSize
  | enum _ w _ => exact unpackEnum_strict hshort w

theorem nextFlag_refusesNil : RefusesNil short nextFlag := ⟨_, hshort _, rfl⟩

theorem Prim.unpackMsg_refusesNil (casts : FloatCasts) (p : Prim) :
    RefusesNil short (p.unpackMsg casts) := by
  cases p <;> exact ⟨_, hshort _, rfl⟩

section Containers

variable {n : ℕ} {K ι α β : Type} [LinearOrder ι] {rank : K → ι}
variable {S : MsgTraits K} {T : MsgTraits α} {U : MsgTraits β}

omit hshort in
theorem unpackAll_strict (hT : ∀ v, Strict short (T.unpack v)) :
    ∀ as, Strict short (unpackAll T as)
  | [] => .pure _
  | a :: as => (hT a).bind fun _ => (unpackAll_strict hT as).bind fun _ => .pure _

omit hshort in
theorem unpackPush_strict (fresh : α) (hT : ∀ v, Strict short (T.unpack v)) :
    ∀ l as, Strict short (unpackPush fresh T l as)
  | 0, _ => .pure _
  | l + 1, as => (hT fresh).bind fun val => unpackPush_strict fresh hT l (as ++ [val])

omit hshort in
theorem unpackEmplace_strict (hS : ∀ v, Strict short (S.unpack v))
    (hT : ∀ v, Strict short (T.unpack v)) :
    ∀ l key val (m : KeyMap rank α), Strict short (unpackEmplace S T l key val m)
  | 0, _, _, _ => .pure _
  | l + 1, key, val, m => (hS key).bind fun key => (hT val).bind fun val =>
    unpackEmplace_strict hS hT l key val (m.emplace key val)

theorem fixvector_strict (hT : ∀ v, Strict short (T.unpack v)) (v : FixVector n α) :
    Strict short ((MsgTraits.fixvector T).unpack v) := by
  refine (unpackArraysize_strict hshort).bind fun len => ?_
  refine .ite (.throw _) ((unpackAll_strict hT v.d).bind fun d => ?_)
  exact .dite (fun h => .pure (⟨d, h⟩ : FixVector n α)) fun _ => .throw _

theorem vector_strict (fresh : α) (hT : ∀ v, Strict short (T.unpack v)) (v : List α) :
    Strict short ((MsgTraits.vector fresh T).unpack v) :=
  (unpackArraysize_strict hshort).bind fun len => unpackAll_strict hT (resize fresh v len)

theorem list_strict (fresh : α) (hT : ∀ v, Strict short (T.unpack v)) (v : List α) :
    Strict short ((MsgTraits.list fresh T).unpack v) :=
  (unpackArraysize_strict hshort).bind fun len => unpackPush_strict fresh hT len v

omit hshort in
theorem prod_strict (hT : ∀ v, Strict short (T.unpack v)) (hU : ∀ v, Strict short (U.unpack v))
    (v : α × β) : Strict short ((MsgTraits.prod T U).unpack v) :=
  (hT v.1).bind fun _ => (hU v.2).bind fun _ => .pure _

theorem map_strict (freshKey : K) (fresh : α) (hS : ∀ v, Strict short (S.unpack v))
    (hT : ∀ v, Strict short (T.unpack v)) (v : KeyMap rank α) :
    Strict short ((MsgTraits.map freshKey fresh S T).unpack v) :=
  (unpackMapsize_strict hshort).bind fun len => unpackEmplace_strict hS hT len freshKey fresh v

/-- The next byte tells whether it is nil; when not, it is read again with the value. -/
theorem optional_strict (hT : ∀ v, Strict short (T.unpack v))
    (hnil : ∀ v, RefusesNil short (T.unpack v)) (v : FixOptional α) :
    Strict short ((MsgTraits.optional T).unpack v) := by
  let after (flag : UInt8) (s : Bytes) : Except UnpackFault (FixOptional α × Bytes) :=
    if flag = nilByte then nextFlag s >>= fun x => .ok (⟨false, v.value⟩, x.2)
    else T.unpack v.value s >>= fun x => .ok (⟨v.valid, x.1⟩, x.2)
  refine .peek (f := after) ⟨_, hshort _, rfl⟩ (fun flag s => ?_) (fun flag => ?_) fun flag => ?_
  · by_cases hflag : flag = nilByte
    · simp [MsgTraits.optional, isNil, nextFlag, after, hflag, bind, Except.bind]
      rfl
    · simp [MsgTraits.optional, isNil, nextFlag, after, hflag, bind, Except.bind]
      rfl
  · exact .ite ((nextFlag_strict hshort).bind fun _ => .pure _)
      ((hT v.value).bind fun value => .pure (⟨v.valid, value⟩ : FixOptional α))
  · by_cases hflag : flag = nilByte
    · simp only [after, if_pos hflag]
      exact (nextFlag_refusesNil hshort).bind
    · simp only [after, if_neg hflag]
      exact (hnil v.value).bind

theorem object_strict (members : ℕ) (hT : ∀ v, Strict short (T.unpack v)) (v : α) :
    Strict short ((MsgTraits.object members T).unpack v) :=
  (unpackArraysize_strict hshort).bind fun _ => .ite (.throw _) (hT v)

end Containers

section Objects

variable (fresh : (t : Ty) → t.Val) (casts : FloatCasts)

/-- At least one byte is read. -/
theorem Ty.unpack_refusesNil (t : Ty) (v : t.Val) :
    RefusesNil short ((t.msgTraits fresh casts).unpack v) := by
  cases t with
  | prim p => exact p.unpackMsg_refusesNil hshort casts
  | fixvector | vector | list | map | optional | object => exact ⟨_, hshort _, rfl⟩

end Objects

end Truncated

section Objects

variable (fresh : (t : Ty) → t.Val) (casts : FloatCasts) {short : UnpackFault → Prop}

mutual

/-- A beginning of an encoding is refused. -/
theorem Ty.unpack_strict (hshort : ∀ problem, short (.mismatch problem)) :
    ∀ (t : Ty) (v : t.Val), Strict short ((t.msgTraits fresh casts).unpack v)
  | .prim p, _ => p.unpackMsg_strict hshort casts
  | .fixvector _ t, v => fixvector_strict hshort (t.unpack_strict hshort) v
  | .vector t, v => vector_strict hshort (fresh t) (t.unpack_strict hshort) v
  | .list t, v => list_strict hshort (fresh t) (t.unpack_strict hshort) v
  | .map k t, v => map_strict hshort (fresh (.prim k)) (fresh t)
    (fun _ => k.unpackMsg_strict hshort casts) (t.unpack_strict hshort) v
  | .optional t, v =>
    optional_strict hshort (t.unpack_strict hshort) (t.unpack_refusesNil hshort fresh casts) v
  | .object c, v => object_strict hshort c.nMembers (c.unpack_strict hshort) v

theorem Members.unpack_strict (hshort : ∀ problem, short (.mismatch problem)) :
    ∀ (ms : Members) (v : ms.Val), Strict short ((ms.msgMembers fresh casts).unpack v)
  | .nil, _ => .pure _
  | .cons _ t ms, v => prod_strict (t.unpack_strict hshort) (ms.unpack_strict hshort) v

theorem DcoClass.unpack_strict (hshort : ∀ problem, short (.mismatch problem)) :
    ∀ (c : DcoClass) (v : c.Val), Strict short ((c.msgMembers fresh casts).unpack v)
  | .root ms, v => ms.unpack_strict hshort v
  | .derived parent ms, v =>
    prod_strict (parent.unpack_strict hshort) (ms.unpack_strict hshort) v

end

end Objects

end Dueca.Dco
