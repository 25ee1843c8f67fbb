import Dueca.Inter.Entry

/-!
# Replicated data keep their time spans

A point that is sent without its start gets it from the last tick of the writer. That is
the tick at which the point before it ended, if the writer has taken in the record of that
point. A node whose writer came later, or that had to skip a record, gives the next
connected point the wrong start.
-/

namespace Dueca.Inter

open Dueca.Lib

variable {s t : Replication} {r r' : EntryReader} {n n' : Node} {w : EntryWriter}
variable {rec : Record} {recs recs' : List Record} {translates : DataTimeSpec → Bool} {k : ℕ}
variable {eventType : Bool}

/-! ### The statement -/

/-- Every point that was written has the span of the point that was read. -/
def KeepsSpans (s : Replication) : Prop := ∀ k, ∀ p ∈ (s.nodes k).written, p.2 = p.1

/-- A record without a start comes to a writer whose last tick is the end of the record
that was sent before it, and a record that is skipped, or of which the span cannot be
translated, fits its size mark. -/
structure InStep (translates : DataTimeSpec → Bool) (n : Node) (rec : Record) : Prop where
  skipped : n.target = none → rec.bytes < 65536
  refused : ∀ w, n.target = some w → translates (w.writeChannel rec).2 = false →
    rec.bytes < 65536
  connected : ∀ w, n.target = some w → w.eventType = false → rec.spanskip = false →
    w.lasttick = rec.prev

/-- The condition on an event: the records of a message that is unpacked are in step. -/
def Follows (s : Replication) : ReplicationEvent → Prop
  | .unpackPayload k translates => ∀ m ms, (s.nodes k).inbox = m :: ms →
      Allowed (unpackRecord translates) (InStep translates) { s.nodes k with inbox := ms } m
  | _ => True

/-! ### Records -/

/-- How the span of a point is sent. -/
structure Coded (eventType : Bool) (rec : Record) : Prop where
  event : eventType = true → rec.ticks = [rec.read.validityEnd] ∧
    rec.read.validityStart = rec.read.validityEnd
  skip : eventType = false → rec.spanskip = true →
    rec.ticks = [rec.read.validityStart, rec.read.validityEnd]
  connected : eventType = false → rec.spanskip = false →
    rec.ticks = [rec.read.validityEnd] ∧ rec.read.validityStart = rec.prev

theorem coded_nextRecord (h : r.nextRecord = some rec) :
    Coded r.eventType rec ∧ rec.prev = r.lasttick := by
  unfold EntryReader.nextRecord at h
  split at h
  · cases h
  rename_i p _
  by_cases hcond : r.lasttick ≠ (r.spanOf p).validityStart ∧ ¬ r.eventType
  · rw [if_pos hcond] at h
    cases h
    exact ⟨⟨fun h => absurd h hcond.2, fun _ _ => rfl, nofun⟩, rfl⟩
  · rw [if_neg hcond] at h
    cases h
    refine ⟨⟨fun hevent => ⟨rfl, ?_⟩, nofun, fun hstream _ => ⟨rfl, ?_⟩⟩, rfl⟩
    · simp only [EntryReader.spanOf, hevent, if_true]
    · simp only [hstream, Bool.false_eq_true, not_false_eq_true, and_true, not_not] at hcond
      exact hcond.symm

/-- The span restored for a record is the one that was read, exactly when the writer's last
tick is right for a record without a start. -/
theorem writeChannel_eq_read_iff (hcoded : Coded w.eventType rec) :
    (w.writeChannel rec).2 = rec.read ↔
      (w.eventType = false → rec.spanskip = false → w.lasttick = rec.prev) := by
  cases hevent : w.eventType with
  | true =>
    obtain ⟨hticks, hpoint⟩ := hcoded.event hevent
    simp only [EntryWriter.writeChannel, hevent, if_true, hticks, List.getD_cons_zero,
      Bool.true_eq_false, false_implies, iff_true]
    exact congrArg (DataTimeSpec.mk · rec.read.validityEnd) hpoint.symm
  | false =>
    cases hskip : rec.spanskip with
    | true =>
      have hticks := hcoded.skip hevent hskip
      simp only [EntryWriter.writeChannel, hevent, hskip, if_true, hticks, List.getD_cons_zero,
        List.getD_cons_succ, Bool.false_eq_true, if_false, Bool.true_eq_false, false_implies,
        implies_true]
    | false =>
      obtain ⟨hticks, hstart⟩ := hcoded.connected hevent hskip
      simp only [EntryWriter.writeChannel, hevent, hskip, hticks, List.getD_cons_zero,
        Bool.false_eq_true, if_false, true_implies, ← hstart]
      constructor
      · intro h
        exact congrArg DataTimeSpec.validityStart h
      · intro h
        rw [h]

theorem writeChannel_eventType : (w.writeChannel rec).1.eventType = w.eventType := by
  unfold EntryWriter.writeChannel
  split <;> rfl

/-! ### Unpacking -/

/-- What is kept at a node that follows an entry of the given type. -/
structure Node.Sound (eventType : Bool) (n : Node) : Prop where
  coded : ∀ m ∈ n.inbox, ∀ rec ∈ m, Coded eventType rec
  writer : ∀ w, n.writer = some w → w.eventType = eventType
  written : ∀ p ∈ n.written, p.2 = p.1

theorem Node.target_eq (h : n.target = some w) : n.configured = true ∧ n.writer = some w := by
  unfold Node.target at h
  split at h
  · exact ⟨‹_›, h⟩
  · cases h

theorem gobble_eq (h : rec.bytes < 65536) : n.gobble rec = .ok n := if_pos h

/-- A record in step is unpacked with the span that was read. -/
theorem Node.Sound.of_unpackRecord (hn : n.Sound eventType) (hrec : Coded eventType rec)
    (hstep : InStep translates n rec) :
    ∃ n', unpackRecord translates n rec = .ok n' ∧ n'.Sound eventType := by
  cases htarget : n.target with
  | none =>
    refine ⟨n, ?_, hn⟩
    rw [unpackRecord, htarget]
    exact gobble_eq (hstep.skipped htarget)
  | some w =>
    have hw : w.eventType = eventType := hn.writer w (Node.target_eq htarget).2
    have hread : (w.writeChannel rec).2 = rec.read :=
      (writeChannel_eq_read_iff (hw ▸ hrec)).mpr (hstep.connected w htarget)
    have hwriter : ∀ v, some (w.writeChannel rec).1 = some v → v.eventType = eventType := by
      intro v hv
      cases hv
      exact writeChannel_eventType.trans hw
    by_cases htranslates : translates (w.writeChannel rec).2 = true
    · refine ⟨{ n with
        writer := some (w.writeChannel rec).1
        written := n.written ++ [(rec.read, (w.writeChannel rec).2)] }, ?_, hn.coded, hwriter, ?_⟩
      · simp only [unpackRecord, htarget, if_pos htranslates]
      · intro p hp
        obtain hp | hp := List.mem_append.mp hp
        · exact hn.written p hp
        · obtain rfl := List.mem_singleton.mp hp
          exact hread
    · refine ⟨{ n with writer := some (w.writeChannel rec).1 }, ?_, hn.coded, hwriter, hn.written⟩
      simp only [unpackRecord, htarget, if_neg htranslates]
      exact gobble_eq (hstep.refused w htarget (Bool.eq_false_iff.mpr htranslates))

/-- So is a message. -/
theorem Node.Sound.of_unpackPayload (hn : n.Sound eventType)
    (hstep : ∀ m ms, n.inbox = m :: ms →
      Allowed (unpackRecord translates) (InStep translates) { n with inbox := ms } m) :
    ∃ n', unpackPayload translates n = .ok n' ∧ n'.Sound eventType := by
  cases hinbox : n.inbox with
  | nil =>
    refine ⟨n, ?_, hn⟩
    rw [unpackPayload, hinbox]
  | cons m ms =>
    have hsound : Node.Sound eventType { n with inbox := ms } :=
      ⟨fun m' hm' => hn.coded m' (hinbox ▸ List.mem_cons_of_mem m hm'), hn.writer, hn.written⟩
    have hmessage : ∀ rec ∈ m, Coded eventType rec := hn.coded m (hinbox ▸ List.mem_cons_self)
    rw [unpackPayload, hinbox]
    exact exec_progress (fun n rec hn hok => hn.of_unpackRecord hok.2 hok.1) hsound
      ((hstep m ms hinbox).and_mem hmessage)

/-! ### Packing -/

theorem flushOlderSets_kept (r : EntryReader) :
    r.flushOlderSets.eventType = r.eventType ∧ r.flushOlderSets.lasttick = r.lasttick ∧
      r.flushOlderSets.points = r.points := by
  unfold EntryReader.flushOlderSets
  split <;> exact ⟨rfl, rfl, rfl⟩

/-- The reader as it reads: its history is dropped before the first point. -/
def EntryReader.flushFirst (r : EntryReader) : EntryReader :=
  if r.firstread then { r.flushOlderSets with firstread := false } else r

theorem flushFirst_kept (r : EntryReader) :
    r.flushFirst.eventType = r.eventType ∧ r.flushFirst.lasttick = r.lasttick ∧
      r.flushFirst.points = r.points := by
  unfold EntryReader.flushFirst
  split
  · exact flushOlderSets_kept r
  · exact ⟨rfl, rfl, rfl⟩

/-- What reading does: either nothing is packed, and the last tick stays, or the record of
the next point is. -/
theorem readChannel_cases (r : EntryReader) (room : ℕ) :
    ((r.readChannel room).2 = none ∧ (r.readChannel room).1.lasttick = r.lasttick ∧
        (r.readChannel room).1.eventType = r.eventType) ∨
      ∃ rec, r.flushFirst.nextRecord = some rec ∧ headerBytes + rec.bytes ≤ room ∧
        r.readChannel room = ({ r.flushFirst with
          readIndex := r.flushFirst.readIndex + 1
          lasttick := rec.read.validityEnd }, some rec) := by
  obtain ⟨htype, htick, -⟩ := flushFirst_kept r
  have hflush : (if r.firstread then { r.flushOlderSets with firstread := false } else r) =
      r.flushFirst := rfl
  simp only [EntryReader.readChannel, hflush]
  split
  case isFalse => exact .inl ⟨rfl, rfl, rfl⟩
  case isTrue =>
    cases hnext : r.flushFirst.nextRecord with
    | none => exact .inl ⟨rfl, htick, htype⟩
    | some rec =>
      by_cases hroom : headerBytes + rec.bytes ≤ room
      · exact .inr ⟨rec, rfl, hroom, if_pos hroom⟩
      · simp only [if_neg hroom]
        exact .inl ⟨trivial, htick, htype⟩

/-- Records one behind the other: each says that the one before it ended where it did. -/
def Chain : ℕ → List Record → ℕ → Prop
  | lo, [], hi => lo = hi
  | lo, rec :: recs, hi => rec.prev = lo ∧ Chain rec.read.validityEnd recs hi

theorem Chain.append {lo mid hi : ℕ} (h : Chain lo recs mid) (h' : Chain mid recs' hi) :
    Chain lo (recs ++ recs') hi := by
  induction recs generalizing lo with
  | nil =>
    cases h
    exact h'
  | cons rec recs ih => exact ⟨h.1, ih h.2⟩

/-- What is packed is coded, and starts where the last message ended. -/
theorem packRecords_spec (fuel room : ℕ) :
    (r.packRecords fuel room).1.eventType = r.eventType ∧
      (∀ rec ∈ (r.packRecords fuel room).2, Coded r.eventType rec) ∧
      Chain r.lasttick (r.packRecords fuel room).2 (r.packRecords fuel room).1.lasttick := by
  induction fuel generalizing r room with
  | zero => exact ⟨rfl, nofun, rfl⟩
  | succ fuel ih =>
    obtain ⟨htype, htick, -⟩ := flushFirst_kept r
    obtain ⟨hnone, hkept, hkind⟩ | ⟨rec, hnext, -, hread⟩ := readChannel_cases r room
    · have hstop : r.packRecords (fuel + 1) room = ((r.readChannel room).1, []) := by
        rw [EntryReader.packRecords]
        split
        · rename_i r' heq
          rw [heq]
        · rename_i r' rec heq
          rw [heq] at hnone
          cases hnone
      rw [hstop]
      exact ⟨hkind, nofun, hkept.symm⟩
    · obtain ⟨hcoded, hprev⟩ := coded_nextRecord hnext
      rw [htype] at hcoded
      rw [htick] at hprev
      rw [EntryReader.packRecords, hread]
      obtain ⟨hkind, hrest, hchain⟩ := ih (r := { r.flushFirst with
          readIndex := r.flushFirst.readIndex + 1
          lasttick := rec.read.validityEnd }) (room - (headerBytes + rec.bytes))
      refine ⟨hkind.trans htype, ?_, hprev, hchain⟩
      intro rec' hmem
      obtain rfl | hmem := List.mem_cons.mp hmem
      · exact hcoded
      · exact htype ▸ hrest rec' hmem

/-! ### Runs -/

/-- The invariant. -/
def Sound (s : Replication) : Prop := ∀ k, (s.nodes k).Sound s.reader.eventType

theorem Node.Sound.of_inbox (hn : n.Sound eventType) (hinbox : n'.inbox = n.inbox)
    (hwriter : ∀ w, n'.writer = some w → w.eventType = eventType)
    (hwritten : n'.written = n.written) : n'.Sound eventType :=
  ⟨hinbox ▸ hn.coded, hwriter, hwritten ▸ hn.written⟩

theorem Sound.setNode (hs : Sound s) (hn : n.Sound s.reader.eventType) : Sound (s.setNode k n) := by
  intro j
  by_cases hj : j = k
  · subst hj
    simpa [Replication.setNode] using hn
  · simpa [Replication.setNode, Function.update_of_ne hj] using hs j

theorem Sound.setReader (hs : Sound s) (htype : r.eventType = s.reader.eventType) :
    Sound (s.setReader r) := fun k => htype.symm ▸ hs k

theorem Sound.send (hs : Sound s) (hm : ∀ rec ∈ recs, Coded s.reader.eventType rec) :
    Sound (s.send recs) := by
  intro k
  by_cases hjoined : (s.nodes k).joined = true
  · have hnode : (s.send recs).nodes k =
        { s.nodes k with inbox := (s.nodes k).inbox ++ [recs] } := if_pos hjoined
    rw [hnode]
    refine ⟨fun m hmem => ?_, (hs k).writer, (hs k).written⟩
    obtain hold | hnew := List.mem_append.mp hmem
    · exact (hs k).coded m hold
    · obtain rfl := List.mem_singleton.mp hnew
      exact hm
  · have hnode : (s.send recs).nodes k = s.nodes k := if_neg hjoined
    rw [hnode]
    exact hs k

theorem sound_left {l : List (DataTimeSpec × DataTimeSpec)} (h : ∀ p ∈ l, p.2 = p.1) :
    Node.Sound eventType { written := l } := by
  refine ⟨fun m hm => ?_, fun w hw => ?_, h⟩
  · cases hm
  · cases hw

/-- One step of the replication. -/
theorem Sound.step {e : ReplicationEvent} (hs : Sound s) (hok : Follows s e) :
    ∃ t, replicationStep s e = .ok t ∧ Sound t := by
  cases e with
  | written p => exact ⟨_, rfl, hs.setReader rfl⟩
  | tokenIsValid => exact ⟨_, rfl, hs.setReader rfl⟩
  | flushEntry =>
    refine ⟨_, rfl, hs.setReader ?_⟩
    unfold EntryReader.flushEntry
    split
    · exact (flushOlderSets_kept s.reader).1
    · rfl
  | packPayload room =>
    obtain ⟨htype, hcoded, -⟩ := packRecords_spec (r := s.reader) (s.reader.points.length + 1) room
    exact ⟨_, rfl, (hs.setReader htype).send fun rec hrec => htype.symm ▸ hcoded rec hrec⟩
  | join k => exact ⟨_, rfl, hs.setNode ((hs k).of_inbox rfl (hs k).writer rfl)⟩
  | leave k => exact ⟨_, rfl, hs.setNode (sound_left (hs k).written)⟩
  | setChannel k configured => exact ⟨_, rfl, hs.setNode ((hs k).of_inbox rfl (hs k).writer rfl)⟩
  | addWriter k =>
    refine ⟨_, rfl, hs.setNode ((hs k).of_inbox rfl (fun w hw => ?_) rfl)⟩
    cases hw
    rfl
  | removeWriter k => exact ⟨_, rfl, hs.setNode ((hs k).of_inbox rfl nofun rfl)⟩
  | unpackPayload k translates =>
    obtain ⟨n, hn, hsound⟩ := (hs k).of_unpackPayload hok
    exact ⟨s.setNode k n, by simp only [replicationStep, hn], hs.setNode hsound⟩

/-- Whether a record is in step. -/
def inStepTest (n : Node) (rec : Record) : Bool :=
  rec.bytes < 65536 &&
    match n.target with
    | none => true
    | some w => w.eventType || rec.spanskip || w.lasttick == rec.prev

theorem inStep_of_test (n : Node) (rec : Record) (h : inStepTest n rec = true) :
    InStep translates n rec := by
  simp only [inStepTest, Bool.and_eq_true, decide_eq_true_eq] at h
  refine ⟨fun _ => h.1, fun _ _ _ => h.1, fun w htarget hw hskip => ?_⟩
  have htick := h.2
  rw [htarget] at htick
  simpa [hw, hskip] using htick

/-- Whether the records of a message that is unpacked are. -/
def followsTest (s : Replication) : ReplicationEvent → Bool
  | .unpackPayload k translates =>
    match (s.nodes k).inbox with
    | [] => true
    | m :: ms =>
      checks (unpackRecord translates) inStepTest { s.nodes k with inbox := ms } m
  | _ => true

theorem follows_of_test (s : Replication) (e : ReplicationEvent) (h : followsTest s e = true) :
    Follows s e := by
  cases e with
  | unpackPayload =>
    intro m ms hinbox
    simp only [followsTest, hinbox] at h
    exact allowed_of_checks inStep_of_test h
  | _ => trivial

/-- A point before the writer is there is skipped; the one after it leaves a gap, and the
third follows on that one in a message of its own, as there is no room for it at first. -/
def gapRun : List ReplicationEvent :=
  [.join 0, .setChannel 0 true, .tokenIsValid, .written ⟨⟨10, 20⟩, 4⟩, .packPayload 1000,
    .unpackPayload 0 fun _ => true, .addWriter 0, .written ⟨⟨25, 30⟩, 4⟩, .written ⟨⟨30, 40⟩, 4⟩,
    .packPayload 20, .packPayload 20, .unpackPayload 0 fun _ => true,
    .unpackPayload 0 fun _ => true]

end Dueca.Inter
