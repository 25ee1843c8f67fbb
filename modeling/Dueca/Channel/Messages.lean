import Mathlib.Data.List.Basic

/-!
# Channel configuration messages

The vocabulary shared by a channel's ends and its master: entry ids, global ids,
the `UChannelCommRequest` message with its types, the time and reading options of
a token, and the data class registry.

Machine integers are natural numbers; where a fixed width matters the reduction
is written out at the operation.
-/

namespace Dueca

/-- `MAX_TIMETICK`, the largest `TimeTickType` (`uint32_t`). -/
def maxTimeTick : ℕ := 0xffffffff

/-- The `entryid_type` (`uint16_t`) value for which any entry match is acceptable. -/
def entryAny : ℕ := 0xffff

/-- The entry is selected by label. -/
def entryBylabel : ℕ := 0xfffe

/-- A node number and the number of an object in that node. -/
structure GlobalId where
  location : ℕ := 0xff
  object : ℕ := 0xffff
  deriving DecidableEq, Repr

/-- What a message asks for; the order of the constructors is the order of the
source's enumeration. -/
inductive UChannelMessageType
  | diffData | fullData | fullDataReq | removeSaveupCmd | timeJump
  | cleanEntryCmd | invalidateEntryCmd | newEntryConf | newEndWelcome | deleteEntryCmd
  | newEntryReq | deleteEntryReq | cleanEntryConf | newClientNotif | leaveClientNotif
  | newEndJoins | dummyMessage
  deriving DecidableEq, Repr

/-- A message between the ends of a channel and its master. -/
structure UChannelCommRequest where
  type : UChannelMessageType := .dummyMessage
  extra : ℕ := 0
  data0 : ℕ := 0
  data1 : ℕ := 0
  origin : GlobalId := {}
  dataclassname : String := ""
  entrylabel : String := ""
  deriving DecidableEq, Repr

/-- The time aspect a token asks for. -/
inductive EntryTimeAspect | continuous | events | anyTimeAspect
  deriving DecidableEq, Repr

/-- How a token reads its data. -/
inductive ReadingMode | readAllData | readReservation | jumpToMatchTime | adaptEventStream
  deriving DecidableEq, Repr

/-- Whether a token in this mode claims a reservation. -/
def isReadingModeReservation (m : ReadingMode) : Bool := m == .readReservation

/-- Whether a token in this mode reads an entry sequentially. -/
def isSequentialRead (m : ReadingMode) (eventtype : Bool) : Bool :=
  if m == .adaptEventStream then eventtype
  else m == .readAllData || m == .readReservation

/-- Whether a time aspect accepts an event entry, or a stream entry. -/
def areClientAndEntryTimingCompatible (m : EntryTimeAspect) (entryisevent : Bool) : Bool :=
  m == .anyTimeAspect || (m == .events && entryisevent) || (m == .continuous && !entryisevent)

/-- The registered data classes. `getParent` gives the empty string for a class
without parent; `height` bounds the number of ancestors, as classes are
registered after their parents. -/
structure DataClassRegistry where
  getParent : String → String
  height : String → ℕ
  height_parent : ∀ c, c ≠ "" → getParent c ≠ "" → height (getParent c) < height c

namespace DataClassRegistry

/-- Walk up from a class, at most `n` steps. -/
def ancestry (getParent : String → String) : ℕ → String → List String
  | 0, _ => []
  | n + 1, c => if c = "" then [] else c :: ancestry getParent n (getParent c)

/-- A class followed by its parent, its parent's parent, and so on. -/
def lineage (reg : DataClassRegistry) (c : String) : List String :=
  ancestry reg.getParent (reg.height c + 1) c

/-- Whether entries of class `classname` can be read as `tryclass`. -/
def isCompatible (reg : DataClassRegistry) (tryclass classname : String) : Bool :=
  (reg.lineage classname).contains tryclass

/-- One step up the parent chain: the class itself, then the lineage of its parent. -/
theorem lineage_eq_cons (reg : DataClassRegistry) {c : String} (hc : c ≠ "") :
    ∃ rest, reg.lineage c = c :: rest :=
  ⟨_, by simp only [lineage, ancestry, if_neg hc]; rfl⟩

end DataClassRegistry

/-- A registry without inheritance. -/
def flatRegistry : DataClassRegistry := ⟨fun _ => "", fun _ => 0, fun _ _ h => absurd rfl h⟩

end Dueca
