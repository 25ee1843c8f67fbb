import Dueca.Dusime.Model
import Dueca.Lib.Tree
import Mathlib.Data.Multiset.Basic
import Mathlib.Order.Fin.Basic

/-!
# The combined state of modules

The status of a module is its state and its simulation state, each with the time at which it was
actual. In a tree of entities and modules the status of an inner node is combined out of those of
its children, from a cleared status on.

Simulation states and times may be combined in any order and grouping. Module states may not: the
table has a state for an unprepared module that is combined with a safe one, and none for a safe
one that is combined with an unprepared one.
-/

namespace Dueca.Status

open Dueca.Lib
open Dueca.Dusime (SimulationState)

/-- The states of a module; `neutral` is no state. -/
inductive ModuleState
  | unPrepared
  | initialPrep
  | safe
  | prepared
  | on
  | neutral
  | undefined
  deriving DecidableEq, Repr

namespace ModuleState

/-- `operator &=`: the row of the table for this state, and the column for the other one. -/
def combine : ModuleState → ModuleState → ModuleState
  | unPrepared, on | unPrepared, undefined => undefined
  | unPrepared, _ => unPrepared
  | initialPrep, unPrepared => unPrepared
  | initialPrep, on | initialPrep, undefined => undefined
  | initialPrep, _ => initialPrep
  | safe, safe | safe, prepared | safe, neutral => safe
  | safe, _ => undefined
  | prepared, unPrepared => unPrepared
  | prepared, initialPrep => initialPrep
  | prepared, safe => safe
  | prepared, prepared | prepared, neutral => prepared
  | prepared, _ => undefined
  | on, on | on, neutral => on
  | on, _ => undefined
  | neutral, o => o
  | undefined, _ => undefined

/-- Neither switched on nor without a state. -/
def Off (m : ModuleState) : Prop := m ≠ on ∧ m ≠ neutral

instance : DecidablePred Off := fun m => inferInstanceAs (Decidable (m ≠ on ∧ m ≠ neutral))

end ModuleState

abbrev Tick := Fin (2 ^ 32)

/-- `MAX_TIMETICK`. -/
def maxTick : Tick := Fin.last _

/-- The status of a module. -/
@[ext]
structure StatusT1 where
  mstate : ModuleState
  sstate : SimulationState
  mActualisedAt : Tick
  sActualisedAt : Tick
  deriving DecidableEq

namespace StatusT1

/-- `operator &=`. The oldest time is kept. -/
def combine (s o : StatusT1) : StatusT1 where
  mstate := s.mstate.combine o.mstate
  sstate := s.sstate.combine o.sstate
  mActualisedAt := min s.mActualisedAt o.mActualisedAt
  sActualisedAt := min s.sActualisedAt o.sActualisedAt

/-- The status that `clear` gives. -/
def clear : StatusT1 := ⟨.neutral, .neutral, maxTick, maxTick⟩

end StatusT1

open ModuleState

/-- Without a safe module, or without one that is not prepared for safe mode, order does not
matter; nor does it when one is on or undefined, for then all orders give `undefined`. -/
def Harmonious (values : Multiset StatusT1) : Prop :=
  (∃ s ∈ values, s.mstate = safe) → (∃ s ∈ values, s.mstate = unPrepared ∨ s.mstate = initialPrep) →
    ∃ s ∈ values, s.mstate = on ∨ s.mstate = undefined

/-! ### Operations that mingle -/

/-- Simulation states may be combined in any order. -/
theorem mingles_simulationState : Mingles (fun _ => True) SimulationState.combine .neutral where
  unit := trivial
  closed _ _ := trivial
  comm {a b} _ _ := SimulationState.combine_comm a b
  assoc {a b c} _ _ _ := by cases a <;> cases b <;> cases c <;> rfl
  unit_op {a} _ := by cases a <;> rfl

theorem mingles_tick : Mingles (fun _ => True) (min : Tick → Tick → Tick) maxTick where
  unit := trivial
  closed _ _ := trivial
  comm {a b} _ _ := min_comm a b
  assoc {a b c} _ _ _ := min_assoc a b c
  unit_op {a} _ := min_eq_right (Fin.le_last a)

/-- Without safe mode, module states may be combined in any order. -/
theorem mingles_unsafe : Mingles (fun m => m ≠ safe) ModuleState.combine .neutral where
  unit := nofun
  closed {a b} := by cases a <;> cases b <;> decide
  comm {a b} := by cases a <;> cases b <;> decide
  assoc {a b c} := by cases a <;> cases b <;> cases c <;> decide
  unit_op _ := rfl

/-- So may they when all are prepared for safe mode. -/
theorem mingles_prepared :
    Mingles (fun m => m ≠ unPrepared ∧ m ≠ initialPrep) ModuleState.combine .neutral where
  unit := ⟨nofun, nofun⟩
  closed {a b} := by cases a <;> cases b <;> decide
  comm {a b} := by cases a <;> cases b <;> decide
  assoc {a b c} := by cases a <;> cases b <;> cases c <;> decide
  unit_op _ := rfl

/-! ### Trees -/

variable {t t' : Lib.Tree StatusT1}

/-- One module that is on or undefined leaves nothing else. -/
theorem on_or_undefined_of_mem {t : Lib.Tree ModuleState} {m : ModuleState} (hm : m ∈ t.leaves)
    (h : m = on ∨ m = undefined) :
    t.combined ModuleState.combine .neutral = on ∨
      t.combined ModuleState.combine .neutral = undefined :=
  Tree.combined_of_mem (Q := fun m => m = on ∨ m = undefined)
    (fun a b => by cases a <;> cases b <;> decide) hm h

/-- One module that is not on leaves no state in which all are on. -/
theorem off_of_mem {t : Lib.Tree ModuleState} {m : ModuleState} (hm : m ∈ t.leaves) (h : m.Off) :
    (t.combined ModuleState.combine .neutral).Off :=
  Tree.combined_of_mem (Q := Off) (fun a b => by cases a <;> cases b <;> decide) hm h

theorem mstate_combined (t : Lib.Tree StatusT1) :
    (t.combined StatusT1.combine .clear).mstate =
      (t.map StatusT1.mstate).combined ModuleState.combine .neutral :=
  (Tree.combined_map (fun _ _ => rfl) rfl t).symm

theorem mem_leaves_map {s : StatusT1} (hs : s ∈ t.leaves) :
    s.mstate ∈ (t.map StatusT1.mstate).leaves := by
  rw [Tree.leaves_map]
  exact List.mem_map_of_mem hs

/-- A safe module beside one that is on or undefined. -/
theorem mstate_undefined {s o : StatusT1} (hs : s ∈ t.leaves) (hsafe : s.mstate = safe)
    (ho : o ∈ t.leaves) (hon : o.mstate = on ∨ o.mstate = undefined) :
    (t.combined StatusT1.combine .clear).mstate = undefined := by
  rw [mstate_combined]
  have hoff := off_of_mem (mem_leaves_map hs) (hsafe ▸ ⟨nofun, nofun⟩)
  exact (on_or_undefined_of_mem (mem_leaves_map ho) hon).resolve_left hoff.1

/-- The combination of a part of the status depends on neither order nor grouping, when it
mingles. -/
theorem part_eq {α : Type} {K : α → Prop} {op : α → α → α} {e : α} (h : Mingles K op e)
    {f : StatusT1 → α} (hop : ∀ a b, f (StatusT1.combine a b) = op (f a) (f b))
    (he : f .clear = e) (hperm : t.leaves.Perm t'.leaves) (hK : ∀ s ∈ t.leaves, K (f s)) :
    f (t.combined StatusT1.combine .clear) = f (t'.combined StatusT1.combine .clear) := by
  rw [← Tree.combined_map hop he, ← Tree.combined_map hop he]
  refine h.combined_eq_of_perm ?_ ?_
  · rw [Tree.leaves_map, Tree.leaves_map]
    exact hperm.map f
  · rw [Tree.leaves_map]
    exact List.forall_mem_map.mpr hK

theorem mstate_eq (hperm : t.leaves.Perm t'.leaves) (h : Harmonious ↑t.leaves) :
    (t.combined StatusT1.combine .clear).mstate = (t'.combined StatusT1.combine .clear).mstate := by
  by_cases hsafe : ∃ s ∈ t.leaves, s.mstate = safe
  · by_cases hprep : ∃ s ∈ t.leaves, s.mstate = unPrepared ∨ s.mstate = initialPrep
    · obtain ⟨o, ho, hon⟩ := h hsafe hprep
      obtain ⟨s, hs, hsafe⟩ := hsafe
      rw [mstate_undefined hs hsafe ho hon,
        mstate_undefined (hperm.mem_iff.mp hs) hsafe (hperm.mem_iff.mp ho) hon]
    · refine part_eq mingles_prepared (fun _ _ => rfl) rfl hperm fun s hs => ?_
      exact not_or.mp fun hbad => hprep ⟨s, hs, hbad⟩
  · exact part_eq mingles_unsafe (fun _ _ => rfl) rfl hperm fun s hs hbad => hsafe ⟨s, hs, hbad⟩

/-! ### Modules in a row -/

/-- Modules below one entity. -/
def row (values : List StatusT1) : Lib.Tree StatusT1 := .node (values.map .leaf)

theorem leaves_row (values : List StatusT1) : (row values).leaves = values :=
  Tree.leavesAll_leaf values

theorem mstate_foldl (values : List StatusT1) (s : StatusT1) :
    (values.foldl StatusT1.combine s).mstate =
      (values.map StatusT1.mstate).foldl ModuleState.combine s.mstate := by
  induction values generalizing s with
  | nil => rfl
  | cons v values ih => exact ih (s.combine v)

theorem mstate_row (values : List StatusT1) :
    ((row values).combined StatusT1.combine .clear).mstate =
      (values.map StatusT1.mstate).foldl ModuleState.combine .neutral := by
  rw [row, Tree.combined, Tree.combinedFrom_leaf, mstate_foldl]
  rfl

theorem foldl_undefined (ms : List ModuleState) :
    ms.foldl ModuleState.combine undefined = undefined := by
  induction ms with
  | nil => rfl
  | cons m ms ih => exact ih

/-- A module that is not prepared, in front of others that are neither on nor undefined. -/
theorem foldl_ne_undefined {ms : List ModuleState} (h : ∀ m ∈ ms, ¬ (m = on ∨ m = undefined))
    {m : ModuleState} (hm : m = unPrepared ∨ m = initialPrep) :
    ms.foldl ModuleState.combine m ≠ undefined := by
  induction ms generalizing m with
  | nil => rcases hm with rfl | rfl <;> nofun
  | cons o ms ih =>
    refine ih (fun m hm => h m (List.mem_cons_of_mem _ hm)) ?_
    have ho := h o List.mem_cons_self
    rcases hm with rfl | rfl <;> cases o <;> revert ho <;> decide

/-- The combined status depends on neither the order nor the grouping of the modules, if and only if
no safe module stands beside one that is not prepared for it, or one is on or undefined. -/
theorem combined_eq_iff_harmonious (values : Multiset StatusT1) :
    (∀ t t' : Lib.Tree StatusT1, (t.leaves : Multiset StatusT1) = values →
      (t'.leaves : Multiset StatusT1) = values →
        t.combined StatusT1.combine .clear = t'.combined StatusT1.combine .clear) ↔
      Harmonious values := by
  constructor
  · rintro h ⟨s, hs, hsafe⟩ ⟨u, hu, hprep⟩
    by_contra hno
    have hne : u ≠ s := by
      rintro rfl
      rw [hsafe] at hprep
      rcases hprep with hprep | hprep <;> cases hprep
    obtain ⟨rest, rfl⟩ := Multiset.exists_cons_of_mem hs
    obtain ⟨rest, rfl⟩ := Multiset.exists_cons_of_mem
      ((Multiset.mem_cons.mp hu).resolve_left hne)
    induction rest using Quot.inductionOn with
    | h l =>
      have heq := congrArg StatusT1.mstate (h (row (s :: u :: l)) (row (u :: s :: l))
        (congrArg _ (leaves_row _)) ((congrArg _ (leaves_row _)).trans
          (Multiset.coe_eq_coe.mpr (List.Perm.swap ..))))
      rw [mstate_row, mstate_row] at heq
      have hfirst : ((s :: u :: l).map StatusT1.mstate).foldl ModuleState.combine neutral =
          undefined := by
        simp only [List.map_cons, List.foldl_cons, hsafe]
        rcases hprep with hprep | hprep <;> rw [hprep] <;> exact foldl_undefined _
      rw [hfirst] at heq
      refine foldl_ne_undefined ?_ hprep heq.symm
      intro m hm hon
      obtain ⟨o, ho, rfl⟩ := List.mem_map.mp hm
      refine hno ⟨o, ?_, hon⟩
      rcases List.mem_cons.mp ho with rfl | ho
      · exact Multiset.mem_cons_self ..
      · exact Multiset.mem_cons_of_mem (Multiset.mem_cons_of_mem (Multiset.mem_coe.mpr ho))
  · rintro h t t' rfl ht'
    have hperm := (Multiset.coe_eq_coe.mp ht').symm
    refine StatusT1.ext (mstate_eq hperm h) ?_ ?_ ?_
    · exact part_eq mingles_simulationState (fun _ _ => rfl) rfl hperm fun _ _ => trivial
    · exact part_eq mingles_tick (fun _ _ => rfl) rfl hperm fun _ _ => trivial
    · exact part_eq mingles_tick (fun _ _ => rfl) rfl hperm fun _ _ => trivial

/-- A safe module and one that is not prepared, in the two orders. -/
theorem combined_ne_safe_unPrepared :
    ¬ ∀ (values : Multiset StatusT1) (t t' : Lib.Tree StatusT1),
      (t.leaves : Multiset StatusT1) = values → (t'.leaves : Multiset StatusT1) = values →
        t.combined StatusT1.combine .clear = t'.combined StatusT1.combine .clear := by
  intro h
  have heq := h _ (row [⟨safe, .neutral, 0, 0⟩, ⟨unPrepared, .neutral, 0, 0⟩])
    (row [⟨unPrepared, .neutral, 0, 0⟩, ⟨safe, .neutral, 0, 0⟩]) rfl
    (by rw [leaves_row, leaves_row]; exact Multiset.coe_eq_coe.mpr (List.Perm.swap ..))
  have hstates := congrArg StatusT1.mstate heq
  rw [mstate_row, mstate_row] at hstates
  cases hstates

end Dueca.Status
