import Dueca.Lib.Linked
import Dueca.Lib.Run
import Mathlib.Data.List.TakeWhile
import Mathlib.Data.List.Perm.Basic
import Mathlib.Tactic.Ring

/-!
# The queue of activities

An activity manager keeps the activities that are to be run in a linked list between two
sentinels, the most important one first. Importance grows with the order of the activity, and with
the age of the item. The comparison of two items works on differences of ticks, as numbers of 32
bits, and a new item is put behind the last one that is not less important. The manager with
priority zero does not compare.

The importance can be computed exactly, and the comparison agrees with it if none of its numbers
exceeds 32 bits. Then the list stays sorted.

`despatched` records the items taken from the list; nothing in the model reads it.
-/

namespace Dueca.Activity

open Dueca.Lib

/-- A number of 32 bits. A sum or a product that does not fit is not defined; it wraps here. -/
def wrap (x : ℤ) : ℤ := x.bmod (2 ^ 32)

/-- `ActivityItem::time_weight`. -/
def timeWeight : ℤ := 100

/-- An item. A sentinel has no activity, and so no order. -/
structure ActivityItem where
  order : Option ℤ
  validityStart : ℕ
  prev : Option ℕ := none
  next : Option ℕ := none
  deriving DecidableEq, Repr

/-- A pointer that is null, or a loop without an end. -/
inductive QueueFault | nullPointer | outOfFuel
  deriving DecidableEq, Repr

/-- `ActivityItem::operator<`, for the orders of the activities and the starts. -/
def lessImportant (order start order' start' : ℤ) : Bool :=
  if start' < start then
    wrap (wrap (order - order') - wrap (timeWeight * wrap (start - start'))) < 0
  else wrap (wrap (order - order') + wrap (timeWeight * wrap (start' - start))) < 0

/-- The comparison of two items. -/
def ActivityItem.lt (a b : ActivityItem) : Except QueueFault Bool :=
  match a.order, b.order with
  | some order, some order' => .ok (lessImportant order a.validityStart order' b.validityStart)
  | _, _ => .error .nullPointer

/-- The manager. Items have addresses; that of the head is zero, that of the tail one. -/
structure ActivityManager where
  prio : ℕ
  items : ℕ → ActivityItem
  free : ℕ
  qsize : ℤ
  despatched : List ℕ := []

namespace ActivityManager

abbrev head : ℕ := 0

abbrev tail : ℕ := 1

/-- The constructor. -/
def init (prio : ℕ) : ActivityManager where
  prio := prio
  items i :=
    if i = head then { order := none, validityStart := 0, next := some tail }
    else { order := none, validityStart := 0, prev := some head }
  free := 2
  qsize := 0

def setPrev (m : ActivityManager) (i : ℕ) (p : Option ℕ) : ActivityManager :=
  { m with items := Function.update m.items i { m.items i with prev := p } }

def setNext (m : ActivityManager) (i : ℕ) (p : Option ℕ) : ActivityManager :=
  { m with items := Function.update m.items i { m.items i with next := p } }

/-- Insert an item behind another one, which has to have one behind it. -/
def insertAfter (m : ActivityManager) (this toInsert : ℕ) : Except QueueFault ActivityManager :=
  match (m.items this).next with
  | none => .error .nullPointer
  | some next =>
    .ok ((((m.setPrev toInsert (some this)).setNext toInsert (some next)).setPrev next
      (some toInsert)).setNext this (some toInsert))

/-- Insert an item before another one. -/
def insertBefore (m : ActivityManager) (this toInsert : ℕ) : Except QueueFault ActivityManager :=
  match (m.items this).prev with
  | none => .error .nullPointer
  | some prev =>
    .ok ((((m.setNext toInsert (some this)).setPrev toInsert (some prev)).setNext prev
      (some toInsert)).setPrev this (some toInsert))

/-- Take out the item behind another one, which has to have one behind it. -/
def popAfter (m : ActivityManager) (this : ℕ) : Except QueueFault (ℕ × ActivityManager) :=
  match (m.items this).next with
  | none => .error .nullPointer
  | some tmp =>
    match (m.items tmp).next with
    | none => .error .nullPointer
    | some next => .ok (tmp, (m.setNext this (some next)).setPrev next (some this))

/-- The loop in `schedule`, which goes back from the tail. -/
def findPlace (m : ActivityManager) (item : ActivityItem) : ℕ → ℕ → Except QueueFault ℕ
  | 0, _ => .error .outOfFuel
  | fuel + 1, tmp =>
    if tmp = head then .ok tmp
    else
      match (m.items tmp).lt item with
      | .error e => .error e
      | .ok false => .ok tmp
      | .ok true =>
        match (m.items tmp).prev with
        | none => .error .nullPointer
        | some prev => m.findPlace item fuel prev

/-- A new item at the next free address. -/
def allocate (m : ActivityManager) (item : ActivityItem) : ActivityManager :=
  { m with items := Function.update m.items m.free item, free := m.free + 1 }

/-- `schedule`, for an activity of this order. The loop cannot go on for longer than there are
items. -/
def schedule (m : ActivityManager) (order : ℤ) (validityStart : ℕ) :
    Except QueueFault ActivityManager :=
  let item : ActivityItem := { order := some order, validityStart := validityStart }
  let m' := m.allocate item
  let place : Except QueueFault ActivityManager :=
    if m.prio = 0 then m'.insertBefore tail m.free
    else
      match (m'.items tail).prev with
      | none => .error .nullPointer
      | some last =>
        match m'.findPlace item m'.free last with
        | .error e => .error e
        | .ok tmp => m'.insertAfter tmp m.free
  match place with
  | .error e => .error e
  | .ok m' => .ok { m' with qsize := m'.qsize + 1 }

/-- The next item is taken, if there is one. -/
def takeNext (m : ActivityManager) : Except QueueFault ActivityManager :=
  if (m.items head).next = some tail then .ok m
  else
    match m.popAfter head with
    | .error e => .error e
    | .ok (i, m') =>
      .ok { m' with qsize := m'.qsize - 1, despatched := m'.despatched ++ [i] }

/-- The items from an address on, up to the tail. -/
def walk (m : ActivityManager) : ℕ → ℕ → List ℕ
  | 0, _ => []
  | fuel + 1, i =>
    match (m.items i).next with
    | none => []
    | some j => if j = tail then [] else j :: m.walk fuel j

/-- The items in the list. -/
def queue (m : ActivityManager) : List ℕ := m.walk m.free head

end ActivityManager

/-- What is done with the list. -/
inductive QueueInput
  | schedule (order : ℤ) (validityStart : ℕ)
  | takeNext
  deriving DecidableEq, Repr

def queueStep (m : ActivityManager) : QueueInput → Except QueueFault ActivityManager
  | .schedule order validityStart => m.schedule order validityStart
  | .takeNext => m.takeNext

/-! ### The list as it ought to be -/

/-- The importance of an item. -/
def importance (order start : ℤ) : ℤ := order - timeWeight * start

/-- A number that has 32 bits. -/
def Fits (x : ℤ) : Prop := -2 ^ 31 ≤ x ∧ x < 2 ^ 31

/-- No number in a comparison exceeds 32 bits. -/
def InRange (order start order' start' : ℤ) : Prop :=
  Fits (order - order') ∧ Fits (timeWeight * (start - start')) ∧
    Fits (timeWeight * (start' - start)) ∧
    Fits (importance order start - importance order' start')

instance (x : ℤ) : Decidable (Fits x) := inferInstanceAs (Decidable (_ ∧ _))

instance (order start order' start' : ℤ) : Decidable (InRange order start order' start') :=
  inferInstanceAs (Decidable (_ ∧ _ ∧ _ ∧ _))

def ActivityItem.key (a : ActivityItem) : ℤ := importance (a.order.getD 0) a.validityStart

/-- One item is before another: it is more important, or was there first. -/
def ActivityManager.Before (m : ActivityManager) (i j : ℕ) : Prop :=
  (m.items j).key < (m.items i).key ∨ (m.items j).key = (m.items i).key ∧ i < j

/-- The list leads from one sentinel to the other and back, it is sorted, the counter is right and
each item that was scheduled has been taken or is in it. Addresses grow in the order of
scheduling. -/
structure WellQueued (m : ActivityManager) (queue : List ℕ) : Prop where
  forward : Segment (fun i => (m.items i).next) (0 :: (queue ++ [1])) none
  backward : Segment (fun i => (m.items i).prev) (1 :: (queue.reverse ++ [0])) none
  sorted : queue.Pairwise m.Before
  qsize : m.qsize = queue.length
  free : 2 ≤ m.free
  activities : ∀ i ∈ queue, (m.items i).order.isSome
  complete : (m.despatched ++ queue).Perm (List.range' 2 (m.free - 2))

/-- A new item can be compared with all items of the list. -/
def Comparable (m : ActivityManager) : QueueInput → Prop
  | .schedule order start =>
    ∀ i ∈ m.queue, InRange ((m.items i).order.getD 0) (m.items i).validityStart order start
  | .takeNext => True

instance (m : ActivityManager) : DecidablePred (Comparable m)
  | .schedule order start =>
    inferInstanceAs (Decidable (∀ i ∈ m.queue,
      InRange ((m.items i).order.getD 0) (m.items i).validityStart order start))
  | .takeNext => inferInstanceAs (Decidable True)

variable {m m' : ActivityManager} {item : ActivityItem} {as bs xs ys zs queue : List ℕ}
variable {i j n p q this toInsert : ℕ} {order start order' start' : ℤ} {r : Option ℕ}

/-! ### The comparison -/

theorem wrap_of_fits {x : ℤ} (h : Fits x) : wrap x = x := by
  obtain ⟨hlow, hhigh⟩ := h
  unfold wrap
  rw [Int.bmod_eq_of_le] <;> omega

theorem Fits.of_timeWeight {x : ℤ} (h : Fits (timeWeight * x)) : Fits x := by
  obtain ⟨hlow, hhigh⟩ := h
  unfold timeWeight at hlow hhigh
  constructor <;> omega

/-- In range, the comparison is that of the exact keys. -/
theorem lt_iff (h : InRange order start order' start') :
    lessImportant order start order' start' = true ↔
      importance order start < importance order' start' := by
  obtain ⟨horder, hstart, hstart', hsum⟩ := h
  unfold importance at hsum ⊢
  unfold lessImportant
  rw [wrap_of_fits horder, wrap_of_fits hstart.of_timeWeight, wrap_of_fits hstart,
    wrap_of_fits hstart'.of_timeWeight, wrap_of_fits hstart']
  have hdiff : order - order' - timeWeight * (start - start') =
      order - timeWeight * start - (order' - timeWeight * start') := by ring
  have hdiff' : order - order' + timeWeight * (start' - start) =
      order - timeWeight * start - (order' - timeWeight * start') := by ring
  rw [hdiff, hdiff', wrap_of_fits hsum, ite_self, decide_eq_true_iff]
  omega

/-! ### Pointers -/

namespace ActivityManager

def nexts (m : ActivityManager) (i : ℕ) : Option ℕ := (m.items i).next

def prevs (m : ActivityManager) (i : ℕ) : Option ℕ := (m.items i).prev

/-- The items but for their pointers. -/
def content (m : ActivityManager) (i : ℕ) : Option ℤ × ℕ :=
  ((m.items i).order, (m.items i).validityStart)

@[simp] theorem nexts_setPrev : (m.setPrev i r).nexts = m.nexts := by
  funext j
  by_cases h : j = i <;> simp [nexts, setPrev, h]

@[simp] theorem prevs_setNext : (m.setNext i r).prevs = m.prevs := by
  funext j
  by_cases h : j = i <;> simp [prevs, setNext, h]

@[simp] theorem nexts_setNext : (m.setNext i r).nexts = Function.update m.nexts i r := by
  funext j
  by_cases h : j = i <;> simp [nexts, setNext, h]

@[simp] theorem prevs_setPrev : (m.setPrev i r).prevs = Function.update m.prevs i r := by
  funext j
  by_cases h : j = i <;> simp [prevs, setPrev, h]

@[simp] theorem content_setPrev : (m.setPrev i r).content = m.content := by
  funext j
  by_cases h : j = i <;> simp [content, setPrev, h]

@[simp] theorem content_setNext : (m.setNext i r).content = m.content := by
  funext j
  by_cases h : j = i <;> simp [content, setNext, h]

/-- Only the pointers of two managers differ. -/
structure SameContent (m m' : ActivityManager) : Prop where
  prio : m'.prio = m.prio
  content : m'.content = m.content
  free : m'.free = m.free
  qsize : m'.qsize = m.qsize
  despatched : m'.despatched = m.despatched

/-- An item is inserted between two neighbours. -/
theorem insertAfter_eq (hforward : Segment m.nexts (as ++ p :: q :: bs) none)
    (hbackward : Segment m.prevs (as ++ p :: q :: bs).reverse none)
    (hnodup : (as ++ p :: q :: bs).Nodup) (hnew : n ∉ as ++ p :: q :: bs) :
    ∃ m', m.insertAfter p n = .ok m' ∧ Segment m'.nexts (as ++ p :: n :: q :: bs) none ∧
      Segment m'.prevs (as ++ p :: n :: q :: bs).reverse none ∧ SameContent m m' := by
  have hreverse : (as ++ p :: q :: bs).reverse = bs.reverse ++ q :: p :: as.reverse := by simp
  have hreverse' : (as ++ p :: n :: q :: bs).reverse = bs.reverse ++ q :: n :: p :: as.reverse := by
    simp
  have hp : p ∉ as ++ q :: bs := (List.nodup_cons.mp (List.nodup_middle.mp hnodup)).1
  have hnodup' := hreverse ▸ List.nodup_reverse.mpr hnodup
  have hq : q ∉ bs.reverse ++ p :: as.reverse := (List.nodup_cons.mp (List.nodup_middle.mp hnodup')).1
  have hnew' : n ∉ bs.reverse ++ q :: p :: as.reverse := by rwa [← hreverse, List.mem_reverse]
  rw [hreverse] at hbackward
  have hnext : m.nexts p = some q := hforward.next_eq
  have hprev : m.prevs q = some p := hbackward.next_eq
  have hnp : n ≠ p := fun h => hnew (by simp [h])
  have hnq : n ≠ q := fun h => hnew (by simp [h])
  unfold insertAfter
  rw [show (m.items p).next = some q from hnext]
  refine ⟨_, rfl, ?_, ?_, ⟨rfl, by simp, rfl, rfl, rfl⟩⟩
  · simp only [nexts_setNext, nexts_setPrev]
    refine hforward.splice (fun a ha => ?_) ?_ ?_
    · have hap : a ≠ p := fun h => hp (h ▸ ha)
      have han : a ≠ n := by
        rintro rfl
        exact hnew (by simp only [List.mem_append, List.mem_cons] at ha ⊢; tauto)
      rw [Function.update_of_ne hap, Function.update_of_ne han]
    · rw [Function.update_of_ne hnp, Function.update_self, hnext]
    · rw [Function.update_self]
  · rw [hreverse']
    simp only [prevs_setNext, prevs_setPrev]
    refine hbackward.splice (fun a ha => ?_) ?_ ?_
    · have haq : a ≠ q := fun h => hq (h ▸ ha)
      have han : a ≠ n := by
        rintro rfl
        exact hnew' (by simp only [List.mem_append, List.mem_cons] at ha ⊢; tauto)
      rw [Function.update_of_ne haq, Function.update_of_ne han]
    · rw [Function.update_of_ne hnq, Function.update_self, hprev]
    · rw [Function.update_self]

/-- The item between two neighbours is taken out. -/
theorem popAfter_eq (hforward : Segment m.nexts (as ++ p :: n :: q :: bs) none)
    (hbackward : Segment m.prevs (as ++ p :: n :: q :: bs).reverse none)
    (hnodup : (as ++ p :: n :: q :: bs).Nodup) :
    ∃ m', m.popAfter p = .ok (n, m') ∧ Segment m'.nexts (as ++ p :: q :: bs) none ∧
      Segment m'.prevs (as ++ p :: q :: bs).reverse none ∧ SameContent m m' := by
  have hreverse : (as ++ p :: n :: q :: bs).reverse = bs.reverse ++ q :: n :: p :: as.reverse := by
    simp
  have hreverse' : (as ++ p :: q :: bs).reverse = bs.reverse ++ q :: p :: as.reverse := by simp
  have hp : p ∉ as ++ n :: q :: bs := (List.nodup_cons.mp (List.nodup_middle.mp hnodup)).1
  have hnodup' := hreverse ▸ List.nodup_reverse.mpr hnodup
  have hq : q ∉ bs.reverse ++ n :: p :: as.reverse :=
    (List.nodup_cons.mp (List.nodup_middle.mp hnodup')).1
  rw [hreverse] at hbackward
  have hnext : m.nexts p = some n := hforward.next_eq
  have hforward' : Segment m.nexts ((as ++ [p]) ++ n :: q :: bs) none := by
    rwa [List.append_assoc]
  have hnext' : m.nexts n = some q := hforward'.next_eq
  have hbackward' : Segment m.prevs ((bs.reverse ++ [q]) ++ n :: p :: as.reverse) none := by
    rwa [List.append_assoc]
  have hprev : m.prevs n = some p := hbackward'.next_eq
  unfold popAfter
  rw [show (m.items p).next = some n from hnext]
  simp only [show (m.items n).next = some q from hnext']
  refine ⟨_, rfl, ?_, ?_, ⟨rfl, by simp, rfl, rfl, rfl⟩⟩
  · simp only [nexts_setNext, nexts_setPrev]
    refine hforward.drop (fun a ha => ?_) ?_
    · have hap : a ≠ p := by
        rintro rfl
        exact hp (by simp only [List.mem_append, List.mem_cons] at ha ⊢; tauto)
      rw [Function.update_of_ne hap]
    · rw [Function.update_self, hnext']
  · rw [hreverse']
    simp only [prevs_setNext, prevs_setPrev]
    refine hbackward.drop (fun a ha => ?_) ?_
    · have haq : a ≠ q := by
        rintro rfl
        exact hq (by simp only [List.mem_append, List.mem_cons] at ha ⊢; tauto)
      rw [Function.update_of_ne haq]
    · rw [Function.update_self, hprev]

/-- The items that the comparison calls less important than a new one. -/
def less (m : ActivityManager) (order start : ℤ) (i : ℕ) : Bool :=
  lessImportant ((m.items i).order.getD 0) (m.items i).validityStart order start

/-- From the tail, the loop passes the items that are less important. -/
theorem findPlace_eq {fuel : ℕ} (hbackward : Segment m.prevs (xs ++ [0]) none)
    (hactivities : ∀ i ∈ xs, (m.items i).order.isSome) (hzero : 0 ∉ xs)
    (hfuel : xs.length < fuel) {validityStart : ℕ} :
    m.findPlace { order := some order, validityStart := validityStart } fuel
        ((xs ++ [0]).headD 0) =
      .ok ((xs.dropWhile (m.less order validityStart) ++ [0]).headD 0) := by
  induction xs generalizing fuel with
  | nil =>
    obtain ⟨fuel, rfl⟩ := Nat.exists_eq_add_of_lt hfuel
    rfl
  | cons i xs ih =>
    cases fuel with
    | zero => cases hfuel
    | succ fuel =>
      have hi : i ≠ 0 := fun h => hzero (h ▸ List.mem_cons_self)
      obtain ⟨o, ho⟩ := Option.isSome_iff_exists.mp (hactivities i List.mem_cons_self)
      have hlt : (m.items i).lt { order := some order, validityStart := validityStart } =
          .ok (m.less order validityStart i) := by
        simp only [ActivityItem.lt, ho, less, Option.getD_some]
      have hprev : (m.items i).prev = some ((xs ++ [0]).headD 0) := by
        have h := hbackward.1
        change (m.items i).prev = _ at h
        rw [h]
        cases xs <;> rfl
      rw [List.cons_append, List.headD_cons, findPlace, if_neg hi, hlt]
      cases hless : m.less order validityStart i with
      | false => simp only [List.dropWhile_cons, hless, Bool.false_eq_true, if_false,
          List.cons_append, List.headD_cons]
      | true =>
        simp only [hprev, List.dropWhile_cons, hless, if_true]
        exact ih hbackward.2 (fun j hj => hactivities j (List.mem_cons_of_mem i hj))
          (fun h => hzero (List.mem_cons_of_mem i h)) (Nat.lt_of_succ_lt_succ hfuel)

end ActivityManager

/-! ### Steps -/

namespace WellQueued

theorem reverse_eq (queue : List ℕ) :
    (0 :: (queue ++ [1])).reverse = 1 :: (queue.reverse ++ [0]) := by simp

theorem backward' (h : WellQueued m queue) :
    Segment m.prevs (0 :: (queue ++ [1])).reverse none := by
  rw [reverse_eq]
  exact h.backward

theorem mem_bounds (h : WellQueued m queue) (hi : i ∈ queue) : 2 ≤ i ∧ i < m.free := by
  have hmem := h.complete.subset (List.mem_append_right _ hi)
  have hfree := h.free
  rw [List.mem_range'_1] at hmem
  omega

theorem nodup (h : WellQueued m queue) : (0 :: (queue ++ [1])).Nodup := by
  have hqueue : queue.Nodup :=
    (List.nodup_append.mp (h.complete.nodup_iff.mpr List.nodup_range')).2.1
  have hzero : 0 ∉ queue := fun hi => absurd (h.mem_bounds hi).1 (by decide)
  have hone : 1 ∉ queue := fun hi => absurd (h.mem_bounds hi).1 (by decide)
  simp only [List.nodup_cons, List.mem_append, hzero, List.mem_singleton, List.nodup_append, hqueue,
    List.nodup_nil, List.not_mem_nil, not_false_eq_true, and_true, or_self, true_and,
    zero_ne_one]
  rintro i hi _ rfl rfl
  exact hone hi

theorem length_le (h : WellQueued m queue) : queue.length ≤ m.free - 2 := by
  have hlength := h.complete.length_eq
  rw [List.length_append, List.length_range'] at hlength
  omega

end WellQueued

theorem walk_eq {fuel : ℕ} (h : Segment m.nexts (i :: (xs ++ [1])) none) (hone : 1 ∉ xs)
    (hfuel : xs.length < fuel) : m.walk fuel i = xs := by
  induction xs generalizing i fuel with
  | nil =>
    cases fuel with
    | zero => cases hfuel
    | succ fuel =>
      have hnext : (m.items i).next = some 1 := h.1
      simp only [ActivityManager.walk, hnext, if_true]
  | cons j xs ih =>
    cases fuel with
    | zero => cases hfuel
    | succ fuel =>
      have hnext : (m.items i).next = some j := h.1
      have hj : j ≠ 1 := fun hj => hone (hj ▸ List.mem_cons_self)
      simp only [ActivityManager.walk, hnext, if_neg hj]
      rw [ih h.2 (fun h => hone (List.mem_cons_of_mem j h)) (Nat.lt_of_succ_lt_succ hfuel)]

theorem WellQueued.queue_eq (h : WellQueued m queue) : m.queue = queue := by
  have hlength := h.length_le
  have hfree := h.free
  exact walk_eq h.forward (fun hi => absurd (h.mem_bounds hi).1 (by decide)) (by omega)

theorem wellQueued_init (prio : ℕ) : WellQueued (.init prio) [] where
  forward := ⟨rfl, rfl, trivial⟩
  backward := ⟨rfl, rfl, trivial⟩
  sorted := List.Pairwise.nil
  qsize := rfl
  free := le_rfl
  activities := fun _ hi => absurd hi List.not_mem_nil
  complete := List.Perm.refl _

theorem ActivityManager.SameContent.key_eq (h : m.SameContent m') (i : ℕ) : (m'.items i).key = (m.items i).key := by
  have hcontent := congrFun h.content i
  simp only [ActivityManager.content, Prod.mk.injEq] at hcontent
  simp only [ActivityItem.key, hcontent]

/-- The most important item is taken. -/
theorem wellQueued_takeNext (h : WellQueued m queue) :
    ∃ m' queue', m.takeNext = .ok m' ∧ m'.prio = m.prio ∧ WellQueued m' queue' := by
  have hforward : Segment m.nexts (0 :: (queue ++ [1])) none := h.forward
  unfold ActivityManager.takeNext
  cases queue with
  | nil =>
    have hnext : (m.items 0).next = some 1 := hforward.1
    rw [if_pos hnext]
    exact ⟨m, [], rfl, rfl, h⟩
  | cons x rest =>
    have hnext : (m.items 0).next = some x := hforward.1
    have hx := (h.mem_bounds List.mem_cons_self).1
    obtain ⟨q, bs, hrest⟩ : ∃ q bs, rest ++ [1] = q :: bs := by
      cases rest with
      | nil => exact ⟨1, [], rfl⟩
      | cons y rest => exact ⟨y, rest ++ [1], rfl⟩
    have hbackward := h.backward'
    have hnodup := h.nodup
    rw [List.cons_append, hrest] at hforward hbackward hnodup
    obtain ⟨m', hpop, hforward', hbackward', hsame⟩ :=
      ActivityManager.popAfter_eq (show Segment m.nexts ([] ++ 0 :: x :: q :: bs) none from hforward)
        hbackward hnodup
    rw [List.nil_append, ← hrest] at hforward' hbackward'
    have hne : ¬ (m.items 0).next = some 1 := by
      rw [hnext]
      exact fun h => absurd (Option.some.inj h) (by omega)
    rw [if_neg hne, hpop]
    refine ⟨_, rest, rfl, hsame.prio, ?_⟩
    exact
      { forward := hforward'
        backward := by
          rw [WellQueued.reverse_eq] at hbackward'
          exact hbackward'
        sorted := by
          refine (List.pairwise_cons.mp h.sorted).2.imp fun hbefore => ?_
          simpa only [ActivityManager.Before, hsame.key_eq] using hbefore
        qsize := by
          have hqsize := h.qsize
          simp only [hsame.qsize, hqsize, List.length_cons]
          omega
        free := hsame.free ▸ h.free
        activities := by
          intro i hi
          have hcontent := congrArg Prod.fst (congrFun hsame.content i)
          simp only [ActivityManager.content] at hcontent
          exact hcontent ▸ h.activities i (List.mem_cons_of_mem x hi)
        complete := by
          simp only [hsame.despatched, hsame.free, List.append_assoc, List.singleton_append]
          exact h.complete }

/-- A test that holds for all before one for which it holds stops at once. -/
theorem not_of_mem_dropWhile {f : ℕ → Bool} (h : xs.Pairwise fun i j => f j = true → f i = true)
    (hi : i ∈ xs.dropWhile f) : f i = false := by
  induction xs with
  | nil => cases hi
  | cons j xs ih =>
    obtain ⟨hj, hxs⟩ := List.pairwise_cons.mp h
    rw [List.dropWhile_cons] at hi
    split at hi
    · exact ih hxs hi
    · rename_i hfalse
      rcases List.mem_cons.mp hi with rfl | hmem
      · exact Bool.eq_false_iff.mpr hfalse
      · exact Bool.eq_false_iff.mpr fun htrue => hfalse (hj i hmem htrue)

theorem allocate_items (hi : i < m.free) : (m.allocate item).items i = m.items i :=
  Function.update_of_ne hi.ne ..

theorem WellQueued.allocate (h : WellQueued m queue) (item : ActivityItem) :
    Segment (m.allocate item).nexts (0 :: (queue ++ [1])) none ∧
      Segment (m.allocate item).prevs (0 :: (queue ++ [1])).reverse none := by
  have hlt : ∀ i ∈ 0 :: (queue ++ [1]), (m.allocate item).items i = m.items i := by
    intro i hi
    have hfree := h.free
    apply allocate_items
    rcases List.mem_cons.mp hi with rfl | hi
    · omega
    · rcases List.mem_append.mp hi with hi | hi
      · exact (h.mem_bounds hi).2
      · rw [List.mem_singleton.mp hi]
        omega
  refine ⟨h.forward.congr fun i hi => ?_, h.backward'.congr fun i hi => ?_⟩
  · exact congrArg ActivityItem.next (hlt i hi)
  · exact congrArg ActivityItem.prev (hlt i (List.mem_reverse.mp hi))

/-- The new item is inserted where the list is split. -/
theorem WellQueued.insert (h : WellQueued m queue) (item : ActivityItem)
    (hsplit : queue = ys ++ zs) :
    ∃ m', (m.allocate item).insertAfter ((ys.reverse ++ [0]).headD 0) m.free = .ok m' ∧
      Segment m'.nexts (0 :: ((ys ++ m.free :: zs) ++ [1])) none ∧
      Segment m'.prevs (0 :: ((ys ++ m.free :: zs) ++ [1])).reverse none ∧
      (m.allocate item).SameContent m' := by
  obtain ⟨hforward, hbackward⟩ := h.allocate item
  obtain ⟨as, p, hp⟩ : ∃ as p, 0 :: ys = as ++ [p] := by
    rcases List.eq_nil_or_concat (0 :: ys) with hnil | ⟨as, p, hp⟩
    · cases hnil
    · exact ⟨as, p, hp.trans List.concat_eq_append⟩
  obtain ⟨q, bs, hq⟩ : ∃ q bs, zs ++ [1] = q :: bs := by
    cases zs with
    | nil => exact ⟨1, [], rfl⟩
    | cons z zs => exact ⟨z, zs ++ [1], rfl⟩
  have hplace : (ys.reverse ++ [0]).headD 0 = p := by
    have hreverse := congrArg List.reverse hp
    rw [List.reverse_cons, List.reverse_append, List.reverse_singleton] at hreverse
    rw [hreverse]
    rfl
  have hlist : 0 :: (queue ++ [1]) = as ++ p :: q :: bs := by
    rw [hsplit, List.append_assoc, hq, ← List.cons_append, hp, List.append_assoc]
    rfl
  have hlist' : 0 :: ((ys ++ m.free :: zs) ++ [1]) = as ++ p :: m.free :: q :: bs := by
    rw [List.append_assoc, List.cons_append, hq, ← List.cons_append, hp, List.append_assoc]
    rfl
  have hnodup := h.nodup
  have hnew : m.free ∉ 0 :: (queue ++ [1]) := by
    have hfree := h.free
    intro hmem
    rcases List.mem_cons.mp hmem with hmem | hmem
    · omega
    · rcases List.mem_append.mp hmem with hmem | hmem
      · exact absurd (h.mem_bounds hmem).2 (Nat.lt_irrefl _)
      · have := List.mem_singleton.mp hmem
        omega
  rw [hlist] at hforward hbackward hnodup hnew
  rw [hplace, hlist']
  exact ActivityManager.insertAfter_eq hforward hbackward hnodup hnew

/-- Between more important and less important items the new item is sorted. -/
theorem WellQueued.sorted_insert (h : WellQueued m queue) (hsplit : queue = ys ++ zs) {key : ℤ}
    (hkey : ∀ i ∈ ys ++ zs, (m'.items i).key = (m.items i).key)
    (hnew : (m'.items m.free).key = key) (hys : ∀ i ∈ ys, key ≤ (m.items i).key)
    (hzs : ∀ i ∈ zs, (m.items i).key < key) : (ys ++ m.free :: zs).Pairwise m'.Before := by
  have hsorted : (ys ++ zs).Pairwise m'.Before := by
    rw [← hsplit]
    refine List.Pairwise.imp_of_mem (fun {i j} hi hj hbefore => ?_) h.sorted
    rw [hsplit] at hi hj
    unfold ActivityManager.Before
    rwa [hkey i hi, hkey j hj]
  obtain ⟨hsys, hszs, hcross⟩ := List.pairwise_append.mp hsorted
  refine List.pairwise_append.mpr ⟨hsys, List.pairwise_cons.mpr ⟨fun z hz => ?_, hszs⟩, ?_⟩
  · left
    rw [hnew, hkey z (List.mem_append_right ys hz)]
    exact hzs z hz
  · intro y hy z hz
    rcases List.mem_cons.mp hz with rfl | hz
    · have hle := hys y hy
      have hlt := (h.mem_bounds (hsplit ▸ List.mem_append_left zs hy : y ∈ queue)).2
      unfold ActivityManager.Before
      rw [hnew, hkey y (List.mem_append_left zs hy)]
      omega
    · exact hcross y hy z hz

/-- A new item goes behind the last one that is not less important. -/
theorem wellQueued_schedule (h : WellQueued m queue) (hprio : m.prio ≠ 0) {validityStart : ℕ}
    (hrange : ∀ i ∈ queue,
      InRange ((m.items i).order.getD 0) (m.items i).validityStart order validityStart) :
    ∃ m' queue', m.schedule order validityStart = .ok m' ∧ m'.prio = m.prio ∧
      WellQueued m' queue' := by
  obtain ⟨item, hitem⟩ : ∃ item : ActivityItem,
      item = { order := some order, validityStart := validityStart } := ⟨_, rfl⟩
  obtain ⟨hforward, hbackward⟩ := h.allocate item
  have hlength := h.length_le
  have hfree := h.free
  have hold : ∀ i ∈ queue, (m.allocate item).items i = m.items i :=
    fun i hi => allocate_items (h.mem_bounds hi).2
  have hnewitem : (m.allocate item).items m.free = item := Function.update_self ..
  -- the loop splits the list
  obtain ⟨less, hless⟩ : ∃ less, less = (m.allocate item).less order validityStart := ⟨_, rfl⟩
  have hless_iff : ∀ i ∈ queue, less i = true ↔
      (m.items i).key < importance order validityStart := by
    intro i hi
    rw [hless, ActivityManager.less, hold i hi]
    exact lt_iff (hrange i hi)
  have hmono : queue.reverse.Pairwise fun i j => less j = true → less i = true := by
    rw [List.pairwise_reverse]
    refine List.Pairwise.imp_of_mem (fun {i j} hi hj hbefore hlt => ?_) h.sorted
    rw [hless_iff _ hi] at hlt
    rw [hless_iff _ hj]
    rcases hbefore with hlt' | ⟨heq, -⟩ <;> omega
  obtain ⟨ys, hys⟩ : ∃ ys, ys = (queue.reverse.dropWhile less).reverse := ⟨_, rfl⟩
  obtain ⟨zs, hzs⟩ : ∃ zs, zs = (queue.reverse.takeWhile less).reverse := ⟨_, rfl⟩
  have hsplit : queue = ys ++ zs := by
    rw [hys, hzs, ← List.reverse_append, List.takeWhile_append_dropWhile, List.reverse_reverse]
  have hys' : ∀ i ∈ ys, importance order validityStart ≤ (m.items i).key := by
    intro i hi
    have hmem : i ∈ queue := hsplit ▸ List.mem_append_left zs hi
    rw [hys, List.mem_reverse] at hi
    have hnot := not_of_mem_dropWhile hmono hi
    rw [Bool.eq_false_iff, ne_eq, hless_iff i hmem] at hnot
    omega
  have hzs' : ∀ i ∈ zs, (m.items i).key < importance order validityStart := by
    intro i hi
    have hmem : i ∈ queue := hsplit ▸ List.mem_append_right ys hi
    rw [hzs, List.mem_reverse] at hi
    exact (hless_iff i hmem).mp (List.mem_takeWhile_imp hi)
  -- the pointers
  have hplace : (m.allocate item).findPlace item (m.allocate item).free
      ((queue.reverse ++ [0]).headD 0) = .ok ((ys.reverse ++ [0]).headD 0) := by
    have hactivities : ∀ i ∈ queue.reverse, ((m.allocate item).items i).order.isSome := by
      intro i hi
      rw [hold i (List.mem_reverse.mp hi)]
      exact h.activities i (List.mem_reverse.mp hi)
    have hzero : 0 ∉ queue.reverse := fun hi =>
      absurd (h.mem_bounds (List.mem_reverse.mp hi)).1 (by decide)
    have hfuel : queue.reverse.length < (m.allocate item).free := by
      rw [List.length_reverse]
      exact lt_of_le_of_lt hlength (Nat.lt_succ_of_le (Nat.sub_le _ _))
    rw [WellQueued.reverse_eq] at hbackward
    rw [hys, List.reverse_reverse, hless, hitem]
    exact ActivityManager.findPlace_eq (hitem ▸ hbackward.2) (hitem ▸ hactivities) hzero
      (hitem ▸ hfuel)
  obtain ⟨m', hinsert, hforward', hbackward', hsame⟩ := h.insert item hsplit
  have hlast : ((m.allocate item).items 1).prev = some ((queue.reverse ++ [0]).headD 0) := by
    rw [WellQueued.reverse_eq] at hbackward
    have hprev : (m.allocate item).prevs 1 = _ := hbackward.1
    rw [show ((m.allocate item).items 1).prev = (m.allocate item).prevs 1 from rfl, hprev]
    cases queue.reverse <;> rfl
  have hkey : ∀ i ∈ queue, (m'.items i).key = (m.items i).key := fun i hi => by
    rw [hsame.key_eq, hold i hi]
  have hnewkey : (m'.items m.free).key = importance order validityStart := by
    rw [hsame.key_eq, hnewitem, hitem]
    rfl
  refine ⟨{ m' with qsize := m'.qsize + 1 }, ys ++ m.free :: zs, ?_, hsame.prio, ?_⟩
  · simp only [ActivityManager.schedule, if_neg hprio, ← hitem, hlast, hplace, hinsert]
  · exact
      { forward := hforward'
        backward := by
          rw [WellQueued.reverse_eq] at hbackward'
          exact hbackward'
        sorted := by
          rw [hsplit] at hkey
          exact h.sorted_insert hsplit hkey hnewkey hys' hzs'
        qsize := by
          have hqsize := h.qsize
          have hqsize' : m'.qsize = m.qsize := hsame.qsize
          simp only [hqsize', hqsize, hsplit, List.length_append, List.length_cons]
          omega
        free := by
          have hfree' : m'.free = m.free + 1 := hsame.free
          simp only [hfree']
          omega
        activities := by
          intro i hi
          have hcontent := congrArg Prod.fst (congrFun hsame.content i)
          simp only [ActivityManager.content] at hcontent
          change (m'.items i).order.isSome
          rw [hcontent]
          rcases List.mem_append.mp hi with hi | hi
          · have hmem : i ∈ queue := hsplit ▸ List.mem_append_left zs hi
            exact hold i hmem ▸ h.activities i hmem
          · rcases List.mem_cons.mp hi with rfl | hi
            · rw [hnewitem, hitem]
              rfl
            · have hmem : i ∈ queue := hsplit ▸ List.mem_append_right ys hi
              exact hold i hmem ▸ h.activities i hmem
        complete := by
          have hdespatched : m'.despatched = m.despatched := hsame.despatched
          have hfree' : m'.free = m.free + 1 := hsame.free
          simp only [hdespatched, hfree']
          have hcomplete := h.complete
          rw [hsplit, ← List.append_assoc] at hcomplete
          rw [← List.append_assoc, show m.free + 1 - 2 = (m.free - 2) + 1 by omega,
            List.range'_concat, show 2 + 1 * (m.free - 2) = m.free by omega]
          exact List.perm_middle.trans
            ((hcomplete.cons m.free).trans (List.perm_append_singleton _ _).symm) }

/-! ### Runs -/

/-- As long as new items can be compared, the list stays sorted and keeps all its items; and in
range the comparison of two items is that of their exact keys. -/
theorem wellQueued_of_run {prio : ℕ} (hprio : prio ≠ 0) {ins : List QueueInput}
    (hins : Allowed queueStep Comparable (.init prio) ins) :
    (∃ m, exec queueStep (.init prio) ins = .ok m ∧ WellQueued m m.queue) ∧
      ∀ order start order' start', InRange order start order' start' →
        (lessImportant order start order' start' = true ↔
          importance order start < importance order' start') := by
  have hstep : ∀ m input, (m.prio ≠ 0 ∧ ∃ queue, WellQueued m queue) → Comparable m input →
      ∃ m', queueStep m input = .ok m' ∧ m'.prio ≠ 0 ∧ ∃ queue, WellQueued m' queue := by
    rintro m input ⟨hprio, queue, h⟩ hrange
    cases input with
    | schedule order start =>
      simp only [Comparable, h.queue_eq] at hrange
      obtain ⟨m', queue', hstep, hprio', h'⟩ := wellQueued_schedule h hprio hrange
      exact ⟨m', hstep, hprio' ▸ hprio, queue', h'⟩
    | takeNext =>
      obtain ⟨m', queue', hstep, hprio', h'⟩ := wellQueued_takeNext h
      exact ⟨m', hstep, hprio' ▸ hprio, queue', h'⟩
  refine ⟨?_, fun _ _ _ _ => lt_iff⟩
  obtain ⟨m, hexec, -, queue, h⟩ := exec_progress hstep ⟨hprio, [], wellQueued_init prio⟩ hins
  exact ⟨m, hexec, h.queue_eq ▸ h⟩

/-- Two items are scheduled and one is taken. -/
theorem wellQueued_two_items :
    (∃ m, exec queueStep (.init 1) [.schedule 0 100, .schedule 5 20, .takeNext] = .ok m ∧
      WellQueued m m.queue) ∧
      ∀ order start order' start', InRange order start order' start' →
        (lessImportant order start order' start' = true ↔
          importance order start < importance order' start') :=
  wellQueued_of_run (by decide)
    ((@allowed_of_checks _ _ _ _ _ _ _ (fun m input => decide (Comparable m input)))
      (fun _ _ h => of_decide_eq_true h) (by decide +kernel))

/-- Of two items with the first and the last tick, the later one is put before the older one. -/
theorem not_wellQueued_last_tick :
    ¬ ∀ prio, prio ≠ 0 → ∀ ins : List QueueInput,
      (∀ order start, .schedule order start ∈ ins → Fits order ∧ start < 2 ^ 32) →
      ∃ m, exec queueStep (.init prio) ins = .ok m ∧ WellQueued m m.queue := by
  intro h
  obtain ⟨m, hexec, hwell⟩ := h 1 (by decide) [.schedule 0 0, .schedule 0 4294967295] (by
    intro order start hmem
    simp only [List.mem_cons, QueueInput.schedule.injEq, List.not_mem_nil, or_false] at hmem
    obtain ⟨rfl, rfl⟩ | ⟨rfl, rfl⟩ := hmem <;> decide)
  obtain ⟨m', hexec', htest⟩ := exists_of_endsIn queueStep (.init 1)
    [.schedule 0 0, .schedule 0 4294967295]
    (fun m => decide (m.queue = [3, 2] ∧ (m.items 3).key < (m.items 2).key)) (by decide +kernel)
  obtain rfl := Except.ok.inj (hexec.symm.trans hexec')
  obtain ⟨hqueue, hkey⟩ := of_decide_eq_true htest
  have hsorted := hwell.sorted
  rw [hqueue] at hsorted
  have hbefore := (List.pairwise_cons.mp hsorted).1 2 (List.mem_singleton_self 2)
  unfold ActivityManager.Before at hbefore
  omega

end Dueca.Activity
