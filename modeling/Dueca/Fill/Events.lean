import Dueca.Dco.Transfer
import Dueca.Entry.Packer
import Dueca.Fill.Transport

/-!
# Events in bulk

The data that a bulk channel transports are messages of its entries. An entry for events that
packs in full sends the type of the message, its own number, the tick and the object. A channel
end takes the type and the number, and its entry takes the tick and makes an object of the rest.
-/

namespace Dueca.Fill

open Dueca.Lib Dueca.Dco

/-- An event of an entry. -/
structure EventMessage (c : DcoClass) where
  entry : ℕ
  tick : ℕ
  object : c.Val

variable {c : DcoClass} (fresh : (t : Ty) → t.Val) (target : c.Val)

namespace EventMessage

def Fits (m : EventMessage c) : Prop := m.entry < 256 ^ 2 ∧ m.tick < 256 ^ 4 ∧ c.Sized m.object

/-- Equal, as objects are compared. -/
def Same (m m' : EventMessage c) : Prop :=
  m'.entry = m.entry ∧ m'.tick = m.tick ∧ (m'.object == m.object) = true

/-- `UChannelEntry::packData`. -/
def packData (m : EventMessage c) : Bytes :=
  [Entry.Item.request .fullData, .entryId m.entry, .tick m.tick,
    .object ((c.packTraits fresh).packobject m.object)].flatMap Entry.Item.code

end EventMessage

/-- `UnifiedChannel::unPackData` for full data, and `UChannelEntry::unPackData`. -/
def unPackEvent (s : Bytes) : Except StoreFault (EventMessage c × Bytes) := do
  let (type, s) ← unPackNat 1 s
  let (entry, s) ← unPackNat 2 s
  let (tick, s) ← unPackNat 4 s
  let (object, s) ← (c.packTraits fresh).unpackobject target s
  -- there are no messages of another type in the channel
  if type = Entry.Request.fullData.code.toNat then return (⟨entry, tick, object⟩, s)
  else throw .dataCorrupt

/-- An event is unpacked from the front of what has been packed. -/
theorem unPackEvent_packData {m : EventMessage c} (hm : m.Fits) (rest : Bytes) :
    ∃ m', unPackEvent fresh target (m.packData fresh ++ rest) = .ok (m', rest) ∧ m.Same m' := by
  obtain ⟨hentry, htick, hsized⟩ := hm
  obtain ⟨object, hobject, hbeq⟩ := c.unpack_pack fresh target m.object rest hsized
  refine ⟨⟨m.entry, m.tick, object⟩, ?_, rfl, rfl, hbeq⟩
  have hbytes : m.packData fresh ++ rest = bigEndian 1 1 ++ (bigEndian 2 m.entry ++
      (bigEndian 4 m.tick ++ ((c.packTraits fresh).packobject m.object ++ rest))) := by
    simp [EventMessage.packData, Entry.Item.code, Entry.Request.code, bigEndian]
  simp only [unPackEvent, hbytes, unPackNat_bigEndian (k := 1) (n := 1) (by decide),
    unPackNat_bigEndian hentry, unPackNat_bigEndian htick, bind, Except.bind]
  rw [hobject]
  rfl

/-- The messages of such an entry, as the packers see them. -/
def eventCode : ChannelCode where
  Packs _ d := ∃ m : EventMessage c, m.Fits ∧ d = m.packData fresh
  unPackData _ _ d :=
    d.length - ((unPackEvent fresh target d).toOption.map (·.2.length)).getD d.length
  header := by
    rintro - d ⟨m, -, rfl⟩
    simp [EventMessage.packData, Entry.Item.code]
  takes := by
    rintro - d rest ⟨m, hm, rfl⟩
    obtain ⟨m', hm', -⟩ := unPackEvent_packData fresh target hm rest
    rw [hm']
    simp [Except.toOption]

theorem wholeSets_prefix (as : List PackedSet) (n : ℕ) : wholeSets as n <+: as := by
  induction as generalizing n with
  | nil => exact List.nil_prefix
  | cons a as ih =>
    unfold wholeSets
    split
    · exact List.cons_prefix_cons.mpr ⟨rfl, ih _⟩
    · exact List.nil_prefix

/-- All that is packed is an event, from which the receiver makes an equal one. It meets them in
order, and with nothing under way it has met all. -/
structure Receives (s : Transport (eventCode fresh target)) : Prop where
  made : ∀ a ∈ s.packer.packed, ∃ m m' : EventMessage c, a.data = m.packData fresh ∧
    unPackEvent fresh target a.data = .ok (m', []) ∧ m.Same m'
  inOrder : s.unpacker.passed.map Prod.fst <+: s.packer.packed
  all : s.flight = [] → s.packer.bytesToSend = 0 → s.packer.fill.getSize = 0 →
    s.unpacker.passed.map Prod.fst = s.packer.packed

/-- In every run in which the tags have room, the events that are packed are received. -/
theorem receives_of_run (sendId : Bool) (location : UInt8) {n : ℕ} (hn : n < 2 ^ 31)
    {events : List (FillEvent (eventCode fresh target))}
    (hroom : Allowed (fillStep sendId) (TagRoom sendId) (start _ location n) events)
    {s : Transport (eventCode fresh target)}
    (hexec : exec (fillStep sendId) (start _ location n) events = .ok s) :
    Receives fresh target s := by
  have hinv : Inv sendId n s := by
    refine exec_invariant (fun s e t h hok ht => ?_) (inv_start location n) hroom hexec
    obtain ⟨t', ht', hinv⟩ | hfault := h.step hn hok
    · exact Except.ok.inj (ht'.symm.trans ht) ▸ hinv
    · rw [hfault] at ht
      cases ht
  have hall := hinv.reassembles hn
  refine ⟨fun a ha => ?_, hall.whole ▸ wholeSets_prefix _ _, hall.all⟩
  obtain ⟨m, hm, hdata⟩ := hinv.stored.codes a ha
  obtain ⟨m', hm', hsame⟩ := unPackEvent_packData fresh target hm []
  rw [List.append_nil, ← hdata] at hm'
  exact ⟨m, m', hdata, hm', hsame⟩

/-- An event of entry 2 at tick 40. -/
def sampleEvent : EventMessage sampleClass := ⟨2, 40, sample [1, 2] ⟨true, 7⟩⟩

theorem receives_sample :
    ∃ (events : List (FillEvent (eventCode Ty.zero sampleClass.zero))) (s : _),
      exec (fillStep true) (start _ 1 256) events = .ok s ∧ s.unpacker.passed.length = 1 ∧
        Receives Ty.zero sampleClass.zero s := by
  let u : PackUnit (eventCode Ty.zero sampleClass.zero) :=
    ⟨⟨⟨1, 5⟩, sampleEvent.packData Ty.zero⟩, true, sampleEvent,
      ⟨by decide, by decide, sample_sized (by decide) _⟩, rfl⟩
  obtain ⟨s, hs, htest⟩ := exists_of_endsIn (fillStep true)
    (start (eventCode Ty.zero sampleClass.zero) 1 256)
    [.notification u, .stuffMessage 900, .despatch fun _ => true]
    (fun s => s.unpacker.passed.length = 1) (by decide +kernel)
  exact ⟨_, s, hs, of_decide_eq_true htest,
    receives_of_run Ty.zero sampleClass.zero true 1 (by decide)
      (allowed_of_checks tagRoom_of_test (by decide +kernel)) hs⟩

end Dueca.Fill
