import Mathlib.Data.List.Basic

/-!
# Flagged items in groups

An item is a flag and some symbols. Items are written in groups: a group is a head, which
tells the flag of its items and how many there are, and behind the head are the symbols of
its items. A writer puts an item in the group that is open when it has the same flag and the
group is not full, and else closes the group and opens another.
-/

namespace Dueca.Lib

variable {β : Type} (head : Bool → ℕ → β) (limit : ℕ)

/-- The symbols of a list of items. -/
def payload (xs : List (Bool × List β)) : List β := xs.flatMap Prod.snd

@[simp] theorem payload_nil : payload ([] : List (Bool × List β)) = [] := rfl

@[simp] theorem payload_cons (x : Bool × List β) (xs : List (Bool × List β)) :
    payload (x :: xs) = x.2 ++ payload xs := List.flatMap_cons

theorem payload_concat (xs : List (Bool × List β)) (x : Bool × List β) :
    payload (xs ++ [x]) = payload xs ++ x.2 := by
  simp [payload]

/-- The symbols are the groups of a list of items. The head of a group is given the number of
items behind the first. -/
inductive Grouped : List (Bool × List β) → List β → Prop
  | nil : Grouped [] []
  | group {d : Bool} {x : Bool × List β} {xs ys : List (Bool × List β)} {code : List β}
      (hlen : xs.length < limit) (hflag : ∀ y ∈ x :: xs, y.1 = d) (hrest : Grouped ys code) :
      Grouped (x :: xs ++ ys) (head d xs.length :: payload (x :: xs) ++ code)

namespace Grouped

variable {head limit} {xs ys : List (Bool × List β)} {code : List β}

/-- A group behind the others. -/
theorem concat (h : Grouped head limit ys code) {d : Bool} {x : Bool × List β}
    (hlen : xs.length < limit) (hflag : ∀ y ∈ x :: xs, y.1 = d) :
    Grouped head limit (ys ++ x :: xs) (code ++ head d xs.length :: payload (x :: xs)) := by
  induction h with
  | nil => simpa using Grouped.group hlen hflag Grouped.nil
  | group hlen' hflag' _ ih =>
    have hcons := Grouped.group hlen' hflag' ih
    simpa only [List.append_assoc, List.cons_append] using hcons

/-- What is before a reader that has to take `count` more items from the group it is in:
items, and behind the last one `tail`. -/
def Ahead (head : Bool → ℕ → β) (limit : ℕ) (items : List (Bool × List β)) (tail : List β)
    (count : ℕ) (d : Bool) (symbols : List β) : Prop :=
  ∃ xs ys code, items = xs ++ ys ∧ xs.length = count ∧ (∀ y ∈ xs, y.1 = d) ∧
    Grouped head limit ys code ∧ symbols = payload xs ++ code ++ tail

variable {items : List (Bool × List β)} {tail symbols : List β} {count : ℕ} {d e : Bool}
  {p : List β}

theorem ahead (h : Grouped head limit ys code) :
    Ahead head limit ys tail 0 d (code ++ tail) :=
  ⟨[], ys, code, rfl, rfl, nofun, h, rfl⟩

/-- Between two groups the next symbol is a head. -/
theorem Ahead.between (h : Ahead head limit ((e, p) :: items) tail 0 d symbols) :
    ∃ n rest, symbols = head e n :: (p ++ rest) ∧ n < limit ∧
      Ahead head limit items tail n e rest := by
  obtain ⟨xs, ys, code, hitems, hcount, -, hys, rfl⟩ := h
  obtain rfl := List.eq_nil_of_length_eq_zero hcount
  rw [List.nil_append] at hitems
  subst hitems
  generalize hall : (e, p) :: items = all at hys
  cases hys with
  | nil => cases hall
  | @group d' x xs zs code hlen hflag hrest =>
    rw [List.cons_append, List.cons.injEq] at hall
    obtain ⟨rfl, rfl⟩ := hall
    obtain rfl : e = d' := hflag _ List.mem_cons_self
    refine ⟨xs.length, payload xs ++ code ++ tail, ?_, hlen,
      xs, zs, code, rfl, rfl, fun y hy => hflag y (List.mem_cons_of_mem _ hy), hrest, rfl⟩
    simp

/-- Within a group the symbols of the next item follow. -/
theorem Ahead.within (h : Ahead head limit ((e, p) :: items) tail (count + 1) d symbols) :
    e = d ∧ ∃ rest, symbols = p ++ rest ∧ Ahead head limit items tail count d rest := by
  obtain ⟨xs, ys, code, hitems, hcount, hflag, hys, rfl⟩ := h
  cases xs with
  | nil => cases hcount
  | cons x xs =>
    rw [List.cons_append, List.cons.injEq] at hitems
    obtain ⟨rfl, rfl⟩ := hitems
    refine ⟨hflag _ List.mem_cons_self, payload xs ++ code ++ tail, by simp, xs, ys, code, rfl,
      by simpa using hcount, fun y hy => hflag y (List.mem_cons_of_mem _ hy), hys, rfl⟩

/-- When no items are left, what is before the reader is the tail. -/
theorem Ahead.nil (h : Ahead head limit [] tail count d symbols) : symbols = tail := by
  obtain ⟨xs, ys, code, hitems, -, -, hys, rfl⟩ := h
  obtain ⟨rfl, rfl⟩ := List.append_eq_nil_iff.mp hitems.symm
  cases hys
  simp

end Grouped

/-! ### Writing -/

/-- The groups that are closed, and the one that is open: its flag, the number of its items
behind the first, and their symbols. -/
structure GroupWriter (β : Type) where
  closed : List β := []
  last : Option (Bool × ℕ × List β) := none

namespace GroupWriter

/-- All groups, with the open one closed. -/
def finish (w : GroupWriter β) : List β :=
  match w.last with
  | none => w.closed
  | some (d, n, p) => w.closed ++ head d n :: p

/-- Write an item. -/
def push (w : GroupWriter β) (x : Bool × List β) : GroupWriter β :=
  match w.last with
  | none => { w with last := some (x.1, 0, x.2) }
  | some (d, n, p) =>
    if d = x.1 ∧ n + 1 < limit then { w with last := some (d, n + 1, p ++ x.2) }
    else { closed := w.finish head, last := some (x.1, 0, x.2) }

/-- Write a list of items. -/
def pushAll (w : GroupWriter β) (xs : List (Bool × List β)) : GroupWriter β :=
  xs.foldl (push head limit) w

/-- The groups of a list of items. -/
def groups (xs : List (Bool × List β)) : List β := (pushAll head limit {} xs).finish head

@[simp] theorem pushAll_nil (w : GroupWriter β) : pushAll head limit w [] = w := rfl

@[simp] theorem pushAll_cons (w : GroupWriter β) (x : Bool × List β) (xs : List (Bool × List β)) :
    pushAll head limit w (x :: xs) = pushAll head limit (w.push head limit x) xs := rfl

theorem pushAll_append (w : GroupWriter β) (xs ys : List (Bool × List β)) :
    pushAll head limit w (xs ++ ys) = pushAll head limit (pushAll head limit w xs) ys :=
  List.foldl_append

/-- What a writer holds after a list of items. -/
def Wrote (w : GroupWriter β) (items : List (Bool × List β)) : Prop :=
  match w.last with
  | none => items = [] ∧ w.closed = []
  | some (d, n, p) =>
    ∃ ys x xs, items = ys ++ x :: xs ∧ Grouped head limit ys w.closed ∧ n = xs.length ∧
      n < limit ∧ p = payload (x :: xs) ∧ ∀ y ∈ x :: xs, y.1 = d

variable {head limit} {w : GroupWriter β} {items : List (Bool × List β)}

theorem Wrote.finish (h : w.Wrote head limit items) :
    Grouped head limit items (w.finish head) := by
  unfold Wrote at h
  unfold GroupWriter.finish
  split at h
  · obtain ⟨rfl, hclosed⟩ := h
    exact hclosed ▸ Grouped.nil
  · obtain ⟨ys, x, xs, rfl, hys, rfl, hlen, rfl, hflag⟩ := h
    exact hys.concat hlen hflag

theorem Wrote.push (hlimit : 0 < limit) (h : w.Wrote head limit items) (x : Bool × List β) :
    (w.push head limit x).Wrote head limit (items ++ [x]) := by
  have hfinish := h.finish
  unfold Wrote at h
  unfold GroupWriter.push
  split at h
  · obtain ⟨rfl, hclosed⟩ := h
    exact ⟨[], x, [], rfl, hclosed ▸ Grouped.nil, rfl, hlimit, by simp, by simp⟩
  · rename_i d n p _
    obtain ⟨ys, y, xs, rfl, hys, hn, hlen, hp, hflag⟩ := h
    split
    · -- the item goes in the open group
      rename_i hsame
      refine ⟨ys, y, xs ++ [x], by simp, hys, by simp [hn], hsame.2, ?_, ?_⟩
      · rw [hp, ← List.cons_append, payload_concat]
      · simp only [List.mem_cons, List.mem_append, List.not_mem_nil, or_false]
        rintro z (rfl | hz | rfl)
        · exact hflag _ List.mem_cons_self
        · exact hflag z (List.mem_cons_of_mem _ hz)
        · exact hsame.1.symm
    · exact ⟨ys ++ y :: xs, x, [], rfl, hfinish, rfl, hlimit, by simp, by simp⟩

theorem Wrote.pushAll (hlimit : 0 < limit) (h : w.Wrote head limit items)
    (xs : List (Bool × List β)) :
    (pushAll head limit w xs).Wrote head limit (items ++ xs) := by
  induction xs generalizing w items with
  | nil => rwa [List.append_nil]
  | cons x xs ih =>
    have hrest := ih (h.push hlimit x)
    rwa [List.append_assoc, List.singleton_append] at hrest

/-- What the writer leaves are the groups of the items written. -/
theorem grouped (hlimit : 0 < limit) (xs : List (Bool × List β)) :
    Grouped head limit xs (groups head limit xs) := by
  have hnone : ({} : GroupWriter β).Wrote head limit [] := ⟨rfl, rfl⟩
  exact (hnone.pushAll hlimit xs).finish

/-- A writer has an open group when it has written something. -/
theorem last_push (w : GroupWriter β) (x : Bool × List β) :
    (w.push head limit x).last ≠ none := by
  unfold GroupWriter.push
  split
  · nofun
  · split <;> nofun

theorem last_pushAll (w : GroupWriter β) {xs : List (Bool × List β)} (h : xs ≠ []) :
    (pushAll head limit w xs).last ≠ none := by
  obtain ⟨ys, x, rfl⟩ := List.eq_nil_or_concat xs |>.resolve_left h
  rw [List.concat_eq_append, pushAll_append]
  exact last_push _ x

end GroupWriter

end Dueca.Lib
