import Mathlib.Data.List.Induction
import Dueca.Lib.Cyclic
import Dueca.Reflect.Model

/-!
# Where messages stand

The words that the packer writes make one stream, and a message has its place in it. Here is what
the packer and an unpacker find in an area that shows a part of the stream.
-/

namespace Dueca.Reflect

open Dueca.Lib

variable {area ws data : List ℕ} {parcels rest : List Parcel} {marked : List (Parcel × Bool)}
variable {p : Parcel} {m : Message} {N head q n a b w sum at_ : ℕ}

/-! ### The room -/

/-- How far an index is ahead of the write index. -/
def ahead (N w x : ℕ) : ℕ := if w < x then x - w else x + N - w

theorem roundUpFree_spec {cbs : List ℕ} (hN : 2 ≤ N) (hw : w < N)
    (hcbs : ∀ x ∈ cbs, x < N ∧ x ≠ w) :
    (roundUpFree N w cbs < N ∧ roundUpFree N w cbs ≠ w) ∧
      (∀ x ∈ cbs, ahead N w (roundUpFree N w cbs) ≤ ahead N w x) ∧
      ahead N w (roundUpFree N w cbs) ≤ N - 1 ∧
      ((∀ x ∈ cbs, ahead N w x = N - 1) → ahead N w (roundUpFree N w cbs) = N - 1) := by
  induction cbs with
  | nil =>
    simp only [roundUpFree, List.foldr_nil, List.not_mem_nil, false_implies, implies_true, true_and,
      forall_const, ahead]
    split <;> split <;> omega
  | cons x cbs ih =>
    obtain ⟨⟨hx, hxw⟩, hcbs⟩ := List.forall_mem_cons.mp hcbs
    obtain ⟨⟨hlt, hne⟩, hle, hmax, hall⟩ := ih hcbs
    have hstep : roundUpFree N w (x :: cbs) =
        if ahead N w x < ahead N w (roundUpFree N w cbs) then x else roundUpFree N w cbs := by
      rw [roundUpFree, List.foldr_cons]
      change (if _ then x else roundUpFree N w cbs) = _
      refine if_congr ?_ rfl rfl
      unfold ahead
      change (w < x ∧ (x < roundUpFree N w cbs ∨ roundUpFree N w cbs < w)) ∨
        (x < w ∧ x < roundUpFree N w cbs ∧ roundUpFree N w cbs < w) ↔ _
      split <;> split <;> omega
    rw [hstep]
    split
    · rename_i hnear
      refine ⟨⟨hx, hxw⟩, ?_, by omega, fun h => h x List.mem_cons_self⟩
      refine List.forall_mem_cons.mpr ⟨le_rfl, fun y hy => ?_⟩
      exact hnear.le.trans (hle y hy)
    · rename_i hfar
      refine ⟨⟨hlt, hne⟩, List.forall_mem_cons.mpr ⟨not_lt.mp hfar, hle⟩, hmax, fun h => ?_⟩
      exact hall fun y hy => h y (List.mem_cons_of_mem x hy)

theorem freeSize_eq {cbs : List ℕ} (hN : 2 ≤ N) (hw : w < N) (hcbs : ∀ x ∈ cbs, x < N ∧ x ≠ w) :
    freeSize N w cbs = ahead N w (roundUpFree N w cbs) := by
  obtain ⟨⟨hlt, hne⟩, -⟩ := roundUpFree_spec hN hw hcbs
  rw [freeSize, ahead]
  split
  · rw [show N - w + roundUpFree N w cbs = roundUpFree N w cbs - w + N by omega,
      Nat.add_mod_right, Nat.mod_eq_of_lt (by omega)]
  · rw [show N - w + roundUpFree N w cbs = roundUpFree N w cbs + N - w by omega,
      Nat.mod_eq_of_lt (by omega)]

/-- An index of the window before the write index. -/
theorem ahead_eq (hab : a < b) (hb : b < a + N) :
    a % N < N ∧ a % N ≠ b % N ∧ ahead N (b % N) (a % N) = a + N - b := by
  have hN : 0 < N := by omega
  have ha := Nat.mod_lt a hN
  have hb' := Nat.mod_lt b hN
  have hne := mod_ne hab hb
  refine ⟨ha, hne, ?_⟩
  rw [← room_eq hab hb]
  generalize a % N = x at ha hne
  generalize b % N = y at hb' hne
  rw [ahead]
  split
  · rw [show N - y + x = x - y + N by omega, Nat.add_mod_right, Nat.mod_eq_of_lt (by omega)]
  · rw [Nat.mod_eq_of_lt (by omega)]
    omega

/-- The packer finds no more room than there is before the index of any reader. -/
theorem freeSize_le {cbs : List ℕ} (hN : 2 ≤ N) (hcbs : ∀ x ∈ cbs, ∃ c, x = c % N ∧ c < b ∧ b < c + N)
    (ha : a % N ∈ cbs) (hab : a < b) (hb : b < a + N) : freeSize N (b % N) cbs ≤ a + N - b := by
  have hwithin : ∀ x ∈ cbs, x < N ∧ x ≠ b % N := by
    intro x hx
    obtain ⟨c, rfl, hcb, hbc⟩ := hcbs x hx
    exact ⟨(ahead_eq hcb hbc).1, (ahead_eq hcb hbc).2.1⟩
  have hw : b % N < N := Nat.mod_lt b (by omega)
  rw [freeSize_eq hN hw hwithin, ← (ahead_eq hab hb).2.2]
  exact (roundUpFree_spec hN hw hwithin).2.1 _ ha

/-- If all readers are right behind the packer, it finds the room of an empty area. -/
theorem freeSize_of_released {cbs : List ℕ} (hN : 2 ≤ N) (hb : 0 < b)
    (hcbs : ∀ x ∈ cbs, x = (b - 1) % N) : freeSize N (b % N) cbs = N - 1 := by
  obtain ⟨hlt, hne, hahead⟩ := @ahead_eq N (b - 1) b (by omega) (by omega)
  have hw : b % N < N := Nat.mod_lt b (by omega)
  have hwithin : ∀ x ∈ cbs, x < N ∧ x ≠ b % N := fun x hx => hcbs x hx ▸ ⟨hlt, hne⟩
  rw [freeSize_eq hN hw hwithin]
  refine (roundUpFree_spec hN hw hwithin).2.2.2 fun x hx => ?_
  rw [hcbs x hx, hahead]
  omega

/-! ### Writing -/

theorem next_eq (hN : 0 < N) (a : ℕ) : next N (a % N) = (a + 1) % N := next_mod hN

/-- The writes of words from a place on, and of the index behind them. -/
def writesAt (N : ℕ) : ℕ → List ℕ → List Write
  | a, [] => [.index (a % N)]
  | a, x :: xs => .word (a % N) x :: writesAt N (a + 1) xs

theorem copyBuffer_eq (hN : 0 < N) (a : ℕ) (xs : List ℕ) :
    copyBuffer N (a % N) xs = (writesAt N a xs, (a + xs.length) % N) := by
  induction xs generalizing a with
  | nil => rfl
  | cons x xs ih =>
    simp only [copyBuffer, next_eq hN, ih, writesAt, List.length_cons, Prod.mk.injEq, true_and]
    congr 1
    omega

/-! ### Messages in the stream -/

def extent (parcels : List Parcel) : ℕ := (parcels.flatMap Parcel.words).length

@[simp] theorem extent_nil : extent [] = 0 := rfl

@[simp] theorem extent_cons : extent (p :: parcels) = p.words.length + extent parcels := by
  simp only [extent, List.flatMap_cons, List.length_append]

@[simp] theorem extent_append : extent (parcels ++ rest) = extent parcels + extent rest := by
  simp only [extent, List.flatMap_append, List.length_append]

/-- The words encode the message. -/
def Parcel.Sound (p : Parcel) : Prop := ∃ head data, Encodes p.message p.words head data

theorem Parcel.Sound.three_le (h : p.Sound) : 3 ≤ p.words.length := by
  obtain ⟨head, data, h⟩ := h
  rw [h.length_words]
  have hpos : 0 < p.message.payload.length := Nat.succ_pos _
  omega

theorem length_le_extent (h : ∀ p ∈ parcels, p.Sound) : 3 * parcels.length ≤ extent parcels := by
  induction parcels with
  | nil => exact le_rfl
  | cons p parcels ih =>
    obtain ⟨hp, hparcels⟩ := List.forall_mem_cons.mp h
    have hthree := hp.three_le
    have hrest := ih hparcels
    simp only [extent_cons, List.length_cons]
    omega

/-- The messages with a local end, with the places of their data, from place `at_` on. -/
def places (at_ : ℕ) : List (Parcel × Bool) → List (ℕ × Parcel)
  | [] => []
  | (p, here) :: marked =>
    (if here then [(at_ + 1, p)] else []) ++ places (at_ + p.words.length) marked

theorem places_append (at_ : ℕ) (marked more : List (Parcel × Bool)) :
    places at_ (marked ++ more) =
      places at_ marked ++ places (at_ + extent (marked.map Prod.fst)) more := by
  induction marked generalizing at_ with
  | nil => rfl
  | cons a marked ih =>
    obtain ⟨p, here⟩ := a
    simp only [List.cons_append, places, ih, List.map_cons, extent_cons, List.append_assoc,
      Nat.add_assoc]

/-- The data of a message is behind its head, and in front of its checksum. -/
theorem places_bounds (h : ∀ a ∈ marked, a.1.Sound) :
    ∀ o ∈ places at_ marked, at_ < o.1 ∧ o.1 + 2 ≤ at_ + extent (marked.map Prod.fst) := by
  induction marked generalizing at_ with
  | nil => nofun
  | cons a marked ih =>
    obtain ⟨p, here⟩ := a
    obtain ⟨hp, hmarked⟩ := List.forall_mem_cons.mp h
    have hthree := hp.three_le
    intro o ho
    simp only [List.map_cons, extent_cons]
    rcases List.mem_append.mp ho with ho | ho
    · cases here with
      | false => cases ho
      | true =>
        obtain rfl := List.mem_singleton.mp ho
        simp only at hthree ⊢
        omega
    · have hbounds := @ih (at_ + p.words.length) hmarked o ho
      omega

/-- The places go up. -/
theorem places_sorted (h : ∀ a ∈ marked, a.1.Sound) :
    (places at_ marked).Pairwise fun o o' => o.1 < o'.1 := by
  induction marked generalizing at_ with
  | nil => exact List.Pairwise.nil
  | cons a marked ih =>
    obtain ⟨p, here⟩ := a
    obtain ⟨hp, hmarked⟩ := List.forall_mem_cons.mp h
    have hthree := hp.three_le
    rw [places, List.pairwise_append]
    refine ⟨by cases here <;> simp, ih hmarked, fun o ho o' ho' => ?_⟩
    cases here with
    | false => cases ho
    | true =>
      obtain rfl := List.mem_singleton.mp ho
      have hlow := (places_bounds hmarked o' ho').1
      simp only at hthree ⊢
      omega

/-- A place belongs to a message. -/
theorem places_split {o : ℕ × Parcel} (h : o ∈ places at_ marked) :
    ∃ before after, marked = before ++ (o.2, true) :: after ∧
      o.1 = at_ + extent (before.map Prod.fst) + 1 := by
  induction marked generalizing at_ with
  | nil => cases h
  | cons a marked ih =>
    obtain ⟨p, here⟩ := a
    rcases List.mem_append.mp h with h | h
    · cases here with
      | false => cases h
      | true =>
        obtain rfl := List.mem_singleton.mp h
        exact ⟨[], marked, rfl, rfl⟩
    · obtain ⟨before, after, rfl, ho⟩ := ih h
      refine ⟨(p, here) :: before, after, rfl, ?_⟩
      rw [ho, List.map_cons, extent_cons, Nat.add_assoc at_]

/-! ### Reading -/

/-- The area shows the words from place `q` on. -/
def Shows (area : List ℕ) : ℕ → List ℕ → Prop
  | _, [] => True
  | q, w :: ws => area[q % area.length]? = some w ∧ Shows area (q + 1) ws

theorem shows_append {xs ys : List ℕ} :
    Shows area q (xs ++ ys) ↔ Shows area q xs ∧ Shows area (q + xs.length) ys := by
  induction xs generalizing q with
  | nil => simp [Shows]
  | cons x xs ih =>
    simp only [List.cons_append, Shows, ih, List.length_cons, and_assoc, Nat.add_right_comm,
      Nat.add_assoc]

/-- What the area retains of a stream, it shows. -/
theorem shows_of_retains {before after : List ℕ} (h : Retains area (before ++ ws ++ after))
    (hle : (before ++ ws ++ after).length ≤ before.length + area.length) :
    Shows area before.length ws := by
  induction ws generalizing before with
  | nil => trivial
  | cons w ws ih =>
    refine ⟨h.read ?_ hle, ?_⟩
    · rw [List.append_assoc, List.getElem?_append_right le_rfl, Nat.sub_self]
      rfl
    · have hassoc : before ++ (w :: ws) ++ after = (before ++ [w]) ++ ws ++ after := by simp
      rw [hassoc] at h hle
      have hshows := ih h (hle.trans (by simp))
      simpa using hshows

theorem readWord_eq {idx : ℕ} (h : area[idx]? = some w) : readWord area idx = .ok w := by
  rw [readWord, h]

/-- The checksum over data that ends before the write index. -/
theorem amalgiData_eq (hN : area.length = N) (hpos : 0 < N) (h : Shows area (q + 1) data)
    (hb : q + data.length < b) (hwindow : b ≤ q + N) :
    amalgiData area N (b % N) data.length (q % N) sum =
      .ok (some ((q + data.length) % N, data.foldl (fun i d => amalgi d i) sum)) := by
  induction data generalizing q sum with
  | nil => rfl
  | cons d data ih =>
    obtain ⟨hd, hdata⟩ := h
    rw [List.length_cons] at hb
    have hnot : (q + 1) % N ≠ b % N := mod_ne (by omega) (by omega)
    rw [hN] at hd
    rw [List.length_cons, amalgiData, next_eq hpos, if_neg hnot, readWord_eq hd]
    refine (ih hdata (by omega) (by omega)).trans ?_
    rw [List.foldl_cons, Nat.add_right_comm, Nat.add_assoc]

/-- The messages, with whether their channels have a local end. -/
def mark (hasLocalEnd : ℕ → Bool) (parcels : List Parcel) : List (Parcel × Bool) :=
  parcels.map fun p => (p, hasLocalEnd p.message.channel)

@[simp] theorem map_fst_mark (hasLocalEnd : ℕ → Bool) :
    (mark hasLocalEnd parcels).map Prod.fst = parcels := by
  simp [mark, Function.comp_def]

/-- What the first stage passes on of a message. -/
def infoAt (N : ℕ) (o : ℕ × Parcel) : HeadInfo where
  channel := o.2.message.channel
  index := o.1 % N
  size := o.2.message.payload.length
  entry := 0

/-- Where a scan stands after these messages. -/
def Scan.after (s : Scan) (N at_ : ℕ) (marked : List (Parcel × Bool)) : Scan where
  stage1 := if marked = [] then s.stage1 else (at_ + extent (marked.map Prod.fst) - 1) % N
  commanded0 := s.commanded0 <|> (places at_ marked).head?.map fun o => o.1 % N
  commanded := ((places at_ marked).getLast?.map fun o => o.1 % N).getD s.commanded
  work := s.work ++ (places at_ marked).map (infoAt N)
  asked := s.asked ++ marked.map fun a => (a.1.message.channel, a.2)
  failed := s.failed

theorem Scan.after_nil (s : Scan) : s.after N at_ [] = s := by
  simp [Scan.after, places]

theorem Scan.after_cons (s : Scan) (hN : 0 < N) (hmax : N ≤ 65536) (here : Bool) (idx : ℕ)
    (hidx : idx = (at_ + p.words.length - 1) % N) :
    (s.handle (infoAt N (at_ + 1, p)) here idx).after N (at_ + p.words.length) marked =
      s.after N at_ ((p, here) :: marked) := by
  have hsize : (infoAt N (at_ + 1, p)).size ≠ 0 := Nat.succ_ne_zero _
  have hindex : (infoAt N (at_ + 1, p)).getIndex = (at_ + 1) % N :=
    Nat.mod_eq_of_lt ((Nat.mod_lt _ hN).trans_le hmax)
  -- the last word of the message is where the scan stands if there is no other
  have hstage (x : ℕ) : (if marked = [] then idx else
      (at_ + p.words.length + extent (marked.map Prod.fst) - 1) % N) =
      if (p, here) :: marked = [] then x
      else (at_ + extent (((p, here) :: marked).map Prod.fst) - 1) % N := by
    rw [if_neg (List.cons_ne_nil _ _), List.map_cons, extent_cons, ← Nat.add_assoc]
    split
    · rename_i hnil
      rw [hidx, hnil, List.map_nil, extent_nil, Nat.add_zero]
    · rfl
  cases here with
  | false =>
    simp only [Scan.handle, Scan.after, hstage s.stage1, places, if_true, Bool.false_eq_true,
      if_false, List.nil_append, List.map_cons, List.append_assoc, List.singleton_append]
    rfl
  | true =>
    simp only [Scan.handle, Scan.after, hstage s.stage1, places, hsize, hindex, if_true,
      Bool.true_eq_false, if_false, List.map_cons, List.append_assoc, List.singleton_append,
      List.head?_cons, Option.map_some]
    congr 1
    · cases s.commanded0 <;> rfl
    · cases (places (at_ + p.words.length) marked) with
      | nil => rfl
      | cons o os => rfl

/-- The first stage passes the check for all messages that it can see, and stops behind them. -/
theorem scan_eq {hasLocalEnd : ℕ → Bool} {fuel : ℕ} {s : Scan} (hlen : area.length = N)
    (hN : 0 < N) (hmax : N ≤ 65536) (hat : 0 < at_) (hsound : ∀ p ∈ rest, p.Sound)
    (hshows : Shows area at_ (rest.flatMap Parcel.words)) (hwindow : extent rest + 1 < N)
    (hfuel : rest.length < fuel) :
    scan hasLocalEnd area N ((at_ + extent rest) % N) fuel ((at_ - 1) % N) s =
      .ok (s.after N at_ (mark hasLocalEnd rest)) := by
  induction rest generalizing at_ fuel s with
  | nil =>
    obtain ⟨fuel, rfl⟩ := Nat.exists_eq_succ_of_ne_zero (Nat.ne_of_gt hfuel)
    rw [scan, next_eq hN, Nat.sub_add_cancel hat, if_pos (by simp)]
    exact congrArg Except.ok s.after_nil.symm
  | cons p rest ih =>
    obtain ⟨fuel, rfl⟩ := Nat.exists_eq_succ_of_ne_zero (Nat.ne_of_gt (Nat.zero_lt_of_lt hfuel))
    obtain ⟨⟨head, data, hp⟩, hrest⟩ := List.forall_mem_cons.mp hsound
    have hwords : p.words.length = data.length + 2 := by simp [hp.words]
    rw [List.flatMap_cons, shows_append, hp.words, List.cons_append] at hshows
    obtain ⟨⟨hhead, hdata⟩, hmore⟩ := hshows
    obtain ⟨hdata, hcheck, -⟩ := shows_append.mp hdata
    rw [← List.cons_append, ← hp.words] at hmore
    rw [hlen] at hhead hcheck
    rw [extent_cons] at hwindow ⊢
    set new := at_ + (p.words.length + extent rest) with hnew
    -- neither the head nor the checksum is at the write index
    have hnot₁ : at_ % N ≠ new % N := mod_ne (by omega) (by omega)
    have hnot₂ : (at_ + data.length + 1) % N ≠ new % N := mod_ne (by omega) (by omega)
    have hinfo : headInfo N head (at_ % N) = infoAt N (at_ + 1, p) := by
      rw [hp.info, Nat.mod_add_mod]
      rfl
    have hcount : (infoAt N (at_ + 1, p)).words = data.length := hp.length.symm
    have hsum : amalgiData area N (new % N) data.length (at_ % N) (amalgi head 0) =
        .ok (some ((at_ + data.length) % N, checksum (head :: data))) :=
      amalgiData_eq hlen hN hdata (by omega) (by omega)
    have hlast : at_ + data.length + 1 = at_ + p.words.length - 1 := by omega
    have hih := @ih (at_ + p.words.length) fuel
      (s.handle (infoAt N (at_ + 1, p)) (hasLocalEnd p.message.channel)
        ((at_ + p.words.length - 1) % N)) (by omega) hrest hmore (by omega)
      (Nat.lt_of_succ_lt_succ hfuel)
    rw [Nat.add_assoc, ← hnew, Scan.after_cons s hN hmax _ _ rfl] at hih
    rw [scan, next_eq hN, Nat.sub_add_cancel hat, if_neg hnot₁, readWord_eq hhead]
    simp only [bind, Except.bind, hinfo, hcount, hsum, next_eq hN, if_neg hnot₂]
    rw [Nat.add_right_comm] at hcheck
    rw [readWord_eq hcheck]
    simp only [hp.checked, ne_eq, not_true_eq_false, if_false]
    rw [hlast]
    exact hih

theorem mapM_range {f : ℕ → Except Fault ℕ} {xs : List ℕ}
    (h : ∀ i x, xs[i]? = some x → f i = .ok x) : (List.range xs.length).mapM f = .ok xs := by
  induction xs using List.reverseRecOn with
  | nil => rfl
  | append_singleton xs x ih =>
    have hxs := ih fun i y hy => h i y ((List.getElem?_append_left
      (List.getElem?_eq_some_iff.mp hy).1).trans hy)
    have hx := h xs.length x List.getElem?_concat_length
    rw [List.length_append, List.length_singleton, List.range_succ, List.mapM_append, hxs]
    simp only [List.mapM_cons, List.mapM_nil, hx]
    rfl

theorem Shows.get (h : Shows area q ws) {i : ℕ} {x : ℕ} (hx : ws[i]? = some x) :
    area[(q + i) % area.length]? = some x := by
  induction ws generalizing q i with
  | nil => cases hx
  | cons w ws ih =>
    obtain ⟨hw, hws⟩ := h
    cases i with
    | zero =>
      cases hx
      exact hw
    | succ i =>
      rw [← Nat.add_assoc, Nat.add_right_comm]
      exact ih hws hx

/-- The second stage reads the data, whether or not it goes over the end of the area. -/
theorem dataWords_eq {u : Unpacker} {hi : HeadInfo} (hlen : u.area.length = N) (hN : 0 < N)
    (hmax : N ≤ 65536) (hindex : hi.index = q % N) (hwords : data.length = hi.words)
    (hshows : Shows u.area q data) (hfits : N < q % N + hi.words → hi.words ≤ u.objectBufferSize) :
    u.dataWords N hi = .ok data := by
  have hlt := Nat.mod_lt q hN
  have hget : hi.getIndex = q % N := by
    rw [HeadInfo.getIndex, hindex, Nat.mod_eq_of_lt (hlt.trans_le hmax)]
  rw [Unpacker.dataWords, hget, ← hwords]
  split
  · rename_i hle
    refine mapM_range fun i x hx => readWord_eq ?_
    have hi := (List.getElem?_eq_some_iff.mp hx).1
    have hread := hshows.get hx
    rwa [hlen, ← Nat.mod_add_mod, Nat.mod_eq_of_lt (by omega)] at hread
  · rename_i hgt
    have hroom := hfits (by omega)
    rw [if_neg (by omega)]
    refine mapM_range fun i x hx => readWord_eq ?_
    rw [Nat.mod_add_mod, ← hlen]
    exact hshows.get hx

end Dueca.Reflect
