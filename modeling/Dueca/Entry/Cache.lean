import Dueca.Entry.Data
import Mathlib.Data.List.Induction

/-!
# The cache for early data

Data that comes in for an entry before the entry can take it is kept in a
`UCEntryDataCache`: a list of raw messages, linked from `head` to `tail`, and the
message that was given out last, in `instore`.

Nobody resets `tail` when the last message is given out. The next message is then
linked behind one that was given out before, and `head` stays null.
-/

namespace Dueca.Entry

open Dueca.Lib

variable {M : Type}

/-- A cached message. -/
structure UCRawDataCache (M : Type) where
  data : M
  next : Option ℕ := none
  deriving DecidableEq, Repr

/-- The cache, with the messages that exist and the next address for one. -/
structure UCEntryDataCache (M : Type) where
  nodes : ℕ → Option (UCRawDataCache M)
  fresh : ℕ
  head : Option ℕ
  tail : Option ℕ
  instore : Option ℕ

namespace UCEntryDataCache

def create : UCEntryDataCache M where
  nodes _ := none
  fresh := 0
  head := none
  tail := none
  instore := none

/-- The message at an address. -/
def node (c : UCEntryDataCache M) (a : ℕ) : Except Fault (UCRawDataCache M) :=
  match c.nodes a with
  | some n => .ok n
  | none => .error .freedPointer

/-- There is data to process. -/
def isNotEmpty (c : UCEntryDataCache M) : Bool := c.head.isSome

/-- Add a message to the list. -/
def append (c : UCEntryDataCache M) (m : M) : Except Fault (UCEntryDataCache M) :=
  let nodes := Function.update c.nodes c.fresh (some { data := m })
  match c.tail with
  | some t => do
    let n ← c.node t
    -- `setNext` asserts that it has no next yet
    require n.next.isNone
    pure { c with
      nodes := Function.update nodes t (some { n with next := some c.fresh })
      fresh := c.fresh + 1
      tail := some c.fresh }
  | none => pure { c with
      nodes := nodes
      fresh := c.fresh + 1
      head := some c.fresh
      tail := some c.fresh }

/-- Free the message given out before; deleting a null pointer does nothing. -/
def deleteInstore (c : UCEntryDataCache M) : Except Fault (UCEntryDataCache M) :=
  match c.instore with
  | some a => do
    let _ ← c.node a
    pure { c with nodes := Function.update c.nodes a none }
  | none => pure c

/-- Give out the next message. -/
def getStore (c : UCEntryDataCache M) : Except Fault (M × UCEntryDataCache M) := do
  let c ← c.deleteInstore
  let a ← follow c.head
  let n ← c.node a
  pure (n.data, { c with instore := some a, head := n.next })

end UCEntryDataCache

open UCEntryDataCache

/-! ### Calls -/

inductive CacheOp (M : Type)
  | append (m : M)
  | getStore
  deriving DecidableEq, Repr

/-- A call, with the messages given out so far. -/
def serve (s : UCEntryDataCache M × List M) :
    CacheOp M → Except Fault (UCEntryDataCache M × List M)
  | .append m => do pure (← s.1.append m, s.2)
  | .getStore => do
    let (m, c) ← s.1.getStore
    pure (c, s.2 ++ [m])

/-- The messages appended by a list of calls. -/
def appended (ops : List (CacheOp M)) : List M :=
  ops.filterMap fun
    | .append m => some m
    | .getStore => none

/-- The number of messages that a list of calls asks for. -/
def requested (ops : List (CacheOp M)) : ℕ :=
  ops.countP fun
    | .append _ => false
    | .getStore => true

/-- After the calls, the messages given out are the first ones appended, and the cache
has data exactly if there are more. -/
def ServedInOrder (ops : List (CacheOp M)) : Prop :=
  ∃ c, exec serve (create, []) ops = .ok (c, (appended ops).take (requested ops)) ∧
    requested ops ≤ (appended ops).length ∧
    (c.isNotEmpty = true ↔ requested ops < (appended ops).length)

/-- The cache is a queue: that holds at any time. -/
def IsFifo (ops : List (CacheOp M)) : Prop := ∀ pre, pre <+: ops → ServedInOrder pre

/-- Each call finds a message that was not given out yet, except the first one, which
appends. -/
def Prompt (ops : List (CacheOp M)) : Prop :=
  ∀ pre op, pre ++ [op] <+: ops →
    requested pre < (appended pre).length ∨ pre = [] ∧ op ≠ .getStore

theorem appended_concat_append (ops : List (CacheOp M)) (m : M) :
    appended (ops ++ [.append m]) = appended ops ++ [m] := by
  simp [appended]

theorem appended_concat_getStore (ops : List (CacheOp M)) :
    appended (ops ++ [.getStore]) = appended ops := by
  simp [appended]

theorem requested_concat_append (ops : List (CacheOp M)) (m : M) :
    requested (ops ++ [.append m]) = requested ops := by
  simp [requested]

theorem requested_concat_getStore (ops : List (CacheOp M)) :
    requested (ops ++ [.getStore]) = requested ops + 1 := by
  simp [requested]

/-! ### Waiting messages -/

/-- Of all the messages, the first `k` were given out. The last of them still exists, and
those that wait are linked up to the tail. -/
structure Caches (c : UCEntryDataCache M) (all : List M) (k : ℕ) : Prop where
  le : k ≤ all.length
  fresh : c.fresh = all.length
  node : ∀ a m, k ≤ a + 1 → all[a]? = some m →
    c.nodes a = some ⟨m, if a + 1 < all.length then some (a + 1) else none⟩
  head : c.head = if k < all.length then some k else none
  tail : c.tail = if all = [] then none else some (all.length - 1)
  instore : c.instore = if k = 0 then none else some (k - 1)

variable {c c' : UCEntryDataCache M} {all : List M} {k : ℕ} {m : M}

theorem caches_create : Caches (create : UCEntryDataCache M) [] 0 where
  le := le_rfl
  fresh := rfl
  node a m _ h := by simp at h
  head := rfl
  tail := rfl
  instore := rfl

theorem Caches.isNotEmpty_iff (h : Caches c all k) : c.isNotEmpty = true ↔ k < all.length := by
  rw [isNotEmpty, h.head]
  split <;> simp [*]

/-- The last message exists, and has no next one. -/
theorem Caches.node_last (h : Caches c all k) (hne : all ≠ []) :
    ∃ m, c.nodes (all.length - 1) = some ⟨m, none⟩ := by
  have hpos := List.length_pos_iff.mpr hne
  obtain ⟨m, hm⟩ : ∃ m, all[all.length - 1]? = some m :=
    ⟨_, List.getElem?_eq_getElem (Nat.sub_lt hpos Nat.one_pos)⟩
  refine ⟨m, ?_⟩
  have hnode := h.node _ m (by have := h.le; omega) hm
  rwa [if_neg (by omega)] at hnode

/-- A message is appended to the cache: it goes behind the tail, whether or not the tail
was given out. -/
theorem append_of_tail (h : Caches c all k) (hne : all ≠ []) (m : M) :
    ∃ c', c.append m = .ok c' ∧ c'.head = c.head := by
  obtain ⟨n, hn⟩ := h.node_last hne
  simp [append, h.tail, hne, UCEntryDataCache.node, hn, require, bind, Except.bind, pure,
    Except.pure]

/-- A message is appended while another one waits, or as the first one. -/
theorem caches_append (h : Caches c all k) (hwait : k < all.length ∨ all = []) (m : M) :
    ∃ c', c.append m = .ok c' ∧ Caches c' (all ++ [m]) k := by
  rcases eq_or_ne all [] with rfl | hne
  · have hk : k = 0 := Nat.le_zero.mp h.le
    subst hk
    have hfresh : c.fresh = 0 := h.fresh
    refine ⟨_, by simp only [append, h.tail, if_true]; rfl, ?_⟩
    exact {
      le := Nat.zero_le _
      fresh := by simp [hfresh]
      node := by
        intro a m' _ hm'
        cases a with
        | zero => simpa [hfresh, eq_comm] using hm'
        | succ a => simp at hm'
      head := by simp [hfresh]
      tail := by simp [hfresh]
      instore := h.instore }
  · have hpos := List.length_pos_iff.mpr hne
    have hwait : k < all.length := hwait.resolve_right hne
    obtain ⟨n, hn⟩ := h.node_last hne
    refine ⟨_, by
      simp only [append, h.tail, if_neg hne, UCEntryDataCache.node, hn, bind, Except.bind,
        Option.isNone_none, require, if_true]
      rfl, ?_⟩
    exact {
      le := by simp only [List.length_append]; omega
      fresh := by simp [h.fresh]
      node := by
        intro a m' hk hm'
        dsimp only
        rcases lt_trichotomy a all.length with hlt | rfl | hgt
        · rw [List.getElem?_append_left hlt] at hm'
          have hnode := h.node a m' hk hm'
          by_cases hlast : a = all.length - 1
          · subst hlast
            obtain ⟨rfl, -⟩ := UCRawDataCache.mk.inj (Option.some.inj (hnode.symm.trans hn))
            simp [h.fresh, Nat.sub_add_cancel hpos]
          · rw [Function.update_of_ne hlast, Function.update_of_ne (by rw [h.fresh]; omega), hnode,
              if_pos (by omega), if_pos (by simp only [List.length_append]; omega)]
        · rw [List.getElem?_concat_length] at hm'
          cases hm'
          rw [Function.update_of_ne (by omega), h.fresh, Function.update_self,
            if_neg (by simp)]
        · rw [List.getElem?_eq_none (by simp; omega)] at hm'
          cases hm'
      head := by
        dsimp only
        rw [h.head, if_pos hwait, if_pos (by simp only [List.length_append]; omega)]
      tail := by simp [h.fresh]
      instore := h.instore }

theorem Caches.deleteInstore (h : Caches c all k) :
    ∃ nodes, c.deleteInstore = .ok { c with nodes } ∧ ∀ a, k ≤ a → nodes a = c.nodes a := by
  rw [UCEntryDataCache.deleteInstore]
  split
  · rename_i i hi
    rw [h.instore] at hi
    split at hi
    · cases hi
    · obtain rfl := Option.some.inj hi
      obtain ⟨m, hm⟩ : ∃ m, all[k - 1]? = some m :=
        ⟨_, List.getElem?_eq_getElem (by have := h.le; omega)⟩
      have hnode := h.node (k - 1) m (by omega) hm
      simp only [UCEntryDataCache.node, hnode, bind, Except.bind]
      refine ⟨_, rfl, fun a ha => ?_⟩
      rw [Function.update_of_ne (by omega)]
  · exact ⟨c.nodes, rfl, fun _ _ => rfl⟩

/-- The first message that waits is given out. -/
theorem caches_getStore (h : Caches c all k) (hm : all[k]? = some m) :
    ∃ c', c.getStore = .ok (m, c') ∧ Caches c' all (k + 1) := by
  have hlt : k < all.length := (List.getElem?_eq_some_iff.mp hm).1
  obtain ⟨nodes, hdelete, hnodes⟩ := h.deleteInstore
  have hnode := h.node k m (by omega) hm
  refine ⟨{ c with
    nodes := nodes
    instore := some k
    head := if k + 1 < all.length then some (k + 1) else none }, ?_, ?_⟩
  · simp only [getStore, hdelete, h.head, if_pos hlt, UCEntryDataCache.node, hnodes k le_rfl, hnode,
      bind, Except.bind, follow, pure, Except.pure]
  · exact {
      le := hlt
      fresh := h.fresh
      node := fun a m' hk hm' => by
        dsimp only
        rw [hnodes a (by omega)]
        exact h.node a m' (by omega) hm'
      head := rfl
      tail := h.tail
      instore := by simp }

/-- When no message waits, none can be given out. -/
theorem getStore_of_none (h : c.head = none) : ∀ r, c.getStore ≠ .ok r := by
  intro r hr
  rw [getStore] at hr
  obtain ⟨c₁, hdelete, hr⟩ := bind_eq_ok.mp hr
  have hhead : c₁.head = none := by
    rw [UCEntryDataCache.deleteInstore] at hdelete
    split at hdelete
    · obtain ⟨_, _, hdelete⟩ := bind_eq_ok.mp hdelete
      obtain rfl := pure_eq_ok.mp hdelete
      exact h
    · obtain rfl := pure_eq_ok.mp hdelete
      exact h
  obtain ⟨a, ha, -⟩ := bind_eq_ok.mp hr
  rw [follow_eq_ok, hhead] at ha
  cases ha

/-! ### The messages that wait, as a list -/

/-- The messages that the cache will give out. When there is none, new ones are not reached. -/
def Pending (c : UCEntryDataCache M) (l : List M) : Prop :=
  l = [] ∧ c.head = none ∨ ∃ all k, Caches c all k ∧ k < all.length ∧ l = all.drop k

/-- A message goes behind those that wait; when there is none it is lost. -/
def backInCache : List M → M → List M
  | [], _ => []
  | m :: rest, m' => (m :: rest) ++ [m']

theorem Caches.pending (h : Caches c all k) : Pending c (all.drop k) := by
  by_cases hlt : k < all.length
  · exact .inr ⟨all, k, h, hlt, rfl⟩
  · exact .inl ⟨List.drop_eq_nil_of_le (by omega), by rw [h.head, if_neg hlt]⟩

theorem Pending.isNotEmpty_iff {l : List M} (h : Pending c l) : c.isNotEmpty = true ↔ l ≠ [] := by
  rcases h with ⟨rfl, hhead⟩ | ⟨all, k, hc, hlt, rfl⟩
  · simp [isNotEmpty, hhead]
  · rw [hc.isNotEmpty_iff, ne_eq, List.drop_eq_nil_iff]
    omega

/-- The first message is given out; a later one goes behind the others, if there are any. -/
theorem Pending.getStore {rest : List M} (h : Pending c (m :: rest)) :
    ∃ c', c.getStore = .ok (m, c') ∧ Pending c' rest ∧
      ∀ m', ∃ c'', c'.append m' = .ok c'' ∧ Pending c'' (backInCache rest m') := by
  rcases h with ⟨hnil, -⟩ | ⟨all, k, hc, hlt, heq⟩
  · cases hnil
  · rw [List.drop_eq_getElem_cons hlt] at heq
    obtain ⟨rfl, rfl⟩ := List.cons.inj heq
    obtain ⟨c', hget, hc'⟩ := caches_getStore hc (List.getElem?_eq_getElem hlt)
    refine ⟨c', hget, hc'.pending, fun m' => ?_⟩
    by_cases hmore : k + 1 < all.length
    · obtain ⟨c'', happend, hc''⟩ := caches_append hc' (.inl hmore) m'
      refine ⟨c'', happend, ?_⟩
      have hpending := hc''.pending
      rw [List.drop_append_of_le_length hc'.le] at hpending
      rwa [List.drop_eq_getElem_cons hmore] at hpending ⊢
    · have hnil : all.drop (k + 1) = [] := List.drop_eq_nil_of_le (by omega)
      obtain ⟨c'', happend, hhead⟩ := append_of_tail hc' (List.ne_nil_of_length_pos (by omega)) m'
      refine ⟨c'', happend, .inl ⟨by rw [hnil]; rfl, ?_⟩⟩
      rw [hhead, hc'.head, if_neg hmore]

/-! ### Runs -/

theorem prompt_concat {ops : List (CacheOp M)} {op : CacheOp M} :
    Prompt (ops ++ [op]) ↔ Prompt ops ∧
      (requested ops < (appended ops).length ∨ ops = [] ∧ op ≠ .getStore) := by
  constructor
  · intro h
    exact ⟨fun pre o hpre => h pre o (hpre.trans (List.prefix_append _ _)),
      h ops op (List.prefix_refl _)⟩
  · rintro ⟨h, hlast⟩ pre o hpre
    rcases List.prefix_concat_iff.mp hpre with heq | hpre
    · obtain ⟨rfl, hop⟩ := List.append_inj' heq rfl
      obtain rfl := List.singleton_inj.mp hop
      exact hlast
    · exact h pre o hpre

theorem isFifo_concat {ops : List (CacheOp M)} {op : CacheOp M} :
    IsFifo (ops ++ [op]) ↔ IsFifo ops ∧ ServedInOrder (ops ++ [op]) := by
  constructor
  · intro h
    exact ⟨fun pre hpre => h pre (hpre.trans (List.prefix_append _ _)), h _ (List.prefix_refl _)⟩
  · rintro ⟨h, hlast⟩ pre hpre
    rcases List.prefix_concat_iff.mp hpre with rfl | hpre
    · exact hlast
    · exact h pre hpre

/-- As long as each call finds a message that waits, the cache holds what it should. -/
theorem caches_of_prompt {ops : List (CacheOp M)} (h : Prompt ops) :
    ∃ c, exec serve (create, []) ops = .ok (c, (appended ops).take (requested ops)) ∧
      Caches c (appended ops) (requested ops) := by
  induction ops using List.reverseRecOn with
  | nil => exact ⟨create, rfl, caches_create⟩
  | append_singleton ops op ih =>
    obtain ⟨h, hlast⟩ := prompt_concat.mp h
    obtain ⟨c, hexec, hc⟩ := ih h
    cases op with
    | append m =>
      have hwait : requested ops < (appended ops).length ∨ appended ops = [] :=
        hlast.imp id fun h => by rw [h.1]; rfl
      obtain ⟨c', happend, hc'⟩ := caches_append hc hwait m
      refine ⟨c', ?_, ?_⟩
      · rw [exec_concat]
        refine ⟨_, hexec, ?_⟩
        rw [appended_concat_append, requested_concat_append,
          List.take_append_of_le_length hc.le]
        simp only [serve, happend, bind, Except.bind, pure, Except.pure]
      · rwa [appended_concat_append, requested_concat_append]
    | getStore =>
      have hlt : requested ops < (appended ops).length := by
        rcases hlast with hlt | ⟨-, hne⟩
        · exact hlt
        · exact absurd rfl hne
      obtain ⟨c', hget, hc'⟩ := caches_getStore hc (List.getElem?_eq_getElem hlt)
      refine ⟨c', ?_, ?_⟩
      · rw [exec_concat]
        refine ⟨_, hexec, ?_⟩
        rw [appended_concat_getStore, requested_concat_getStore,
          List.take_succ_eq_append_getElem hlt]
        simp only [serve, hget, bind, Except.bind, pure, Except.pure]
      · rwa [appended_concat_getStore, requested_concat_getStore]

theorem servedInOrder_of_prompt {ops : List (CacheOp M)} (h : Prompt ops) : ServedInOrder ops := by
  obtain ⟨c, hexec, hc⟩ := caches_of_prompt h
  exact ⟨c, hexec, hc.le, hc.isNotEmpty_iff⟩

/-- A call that finds no message that waits: the cache has none to give out, or does not
get to the new one. -/
theorem not_servedInOrder {ops : List (CacheOp M)} {op : CacheOp M} (h : Prompt ops)
    (hall : (appended ops).length ≤ requested ops) (hop : ops = [] → op = .getStore) :
    ¬ServedInOrder (ops ++ [op]) := by
  rintro ⟨c', hexec', hle, hmore⟩
  obtain ⟨c, hexec, hc⟩ := caches_of_prompt h
  obtain ⟨s, hs, hstep⟩ := exec_concat.mp hexec'
  obtain rfl := Except.ok.inj (hexec.symm.trans hs)
  have hhead : c.head = none := by rw [hc.head, if_neg (by omega)]
  cases op with
  | append m =>
    have hne : appended ops ≠ [] := by
      intro hnil
      have hget : ops ≠ [] := fun hops => nomatch hop hops
      obtain ⟨first, ops, rfl⟩ := List.exists_cons_of_ne_nil hget
      have hfirst := h [] first (by simp)
      cases first with
      | append m => simp [appended] at hnil
      | getStore => simp [appended] at hfirst
    obtain ⟨c₁, happend, hsame⟩ := append_of_tail hc hne m
    simp only [serve, happend, bind, Except.bind, pure, Except.pure, Except.ok.injEq,
      Prod.mk.injEq] at hstep
    obtain ⟨rfl, -⟩ := hstep
    rw [isNotEmpty, hsame, hhead, requested_concat_append, appended_concat_append,
      List.length_append] at hmore
    have := hc.le
    simp only [Option.isSome_none, Bool.false_eq_true, List.length_singleton, false_iff] at hmore
    omega
  | getStore =>
    rw [serve] at hstep
    obtain ⟨r, hget, -⟩ := bind_eq_ok.mp hstep
    exact getStore_of_none hhead r hget

/-- The cache is a queue exactly as long as each call finds a message that waits. -/
theorem isFifo_iff_prompt (ops : List (CacheOp M)) : IsFifo ops ↔ Prompt ops := by
  induction ops using List.reverseRecOn with
  | nil =>
    refine ⟨fun _ pre op h => by simp at h, fun _ pre hpre => ?_⟩
    obtain rfl := List.prefix_nil.mp hpre
    exact servedInOrder_of_prompt fun pre op h => by simp at h
  | append_singleton ops op ih =>
    rw [isFifo_concat, ih]
    constructor
    · rintro ⟨h, hserved⟩
      refine prompt_concat.mpr ⟨h, ?_⟩
      by_contra hnot
      push Not at hnot
      exact not_servedInOrder h hnot.1 hnot.2 hserved
    · intro h
      exact ⟨(prompt_concat.mp h).1, servedInOrder_of_prompt h⟩

end Dueca.Entry
