import Dueca.Lib.History
import Dueca.Reflect.Ring

/-!
# Delivery through the shared memory area

In careful runs all messages arrive at all readers with an end of their channel, and no word of a
message is overwritten before its readers are done with it. Three things need care. The packer
must not fill the free room up to its last word: an area that is full looks empty to it. An
unpacker must not run its first stage while the message at the index that it published last still
waits to be unpacked: it would go back to an older index, which the packer may have passed. And a
message over the end of the area must fit the buffer of the unpacker.
-/

namespace Dueca.Reflect

open Dueca.Lib

variable {w w' : World} {l : Link} {g : Trace} {N : ℕ} {parcels : List Parcel}

/-- The messages with a local end at this reader, as far as it came across them, and the places of
their data. -/
def World.itemsOf (w : World) (l : Link) : List (ℕ × Parcel) :=
  places 1 (w.parcels.zip (l.unpacker.asked.map Prod.snd))

/-- The messages come in order, each once and unchanged, to those channels that have a local end.
The area still holds the messages that are not done with, heads included, and the packer does not
count them as room. -/
structure LinkSafe (w : World) (l : Link) : Prop where
  inOrder : l.unpacker.asked.map Prod.fst =
    (w.parcels.take l.unpacker.asked.length).map fun p => p.message.channel
  delivered : l.unpacker.delivered =
    ((w.itemsOf l).take l.unpacker.delivered.length).map delivery
  waiting : (w.itemsOf l).length = l.unpacker.delivered.length + l.unpacker.work.length
  checked : l.unpacker.failures = 0
  notOverwritten : ∀ o ∈ (w.itemsOf l).drop l.unpacker.delivered.length,
    1 + extent w.parcels ≤ o.1 - 1 + w.areaSize
  unread : w.room + extent (w.parcels.drop l.unpacker.asked.length) < w.areaSize

/-- The first stage once more, and its index becomes visible. -/
def Link.onceMore (areaSize : ℕ) (hasLocalEnd : ℕ → Bool) (l : Link) : Except Fault Link := do
  let l' ← l.distribute areaSize hasLocalEnd
  pure { l' with cb := l'.unpacker.published, releasing := [] }

/-- All readers are safe, and when they have unpacked everything, and ran their first stage once
more, the packer finds the room of an empty area. -/
structure Safe (w : World) : Prop where
  links : ∀ l ∈ w.links, LinkSafe w l
  emptied : (∀ l ∈ w.links, l.unpacker.asked.length = w.parcels.length ∧ l.unpacker.work = []) →
    ∀ hasLocalEnd, ∃ links, w.links.mapM (Link.onceMore w.areaSize hasLocalEnd) = .ok links ∧
      freeSize w.areaSize w.areaWriteIdx (links.map Link.cb) = w.areaSize - 1

/-- What is on its way arrives, a first stage takes all that is visible, and a second stage takes
the next message. -/
def Advances (w : World) (a : Step) (w' : World) : Prop :=
  match a with
  | .arrive i => ∀ l ∈ w.links[i]?, ∃ l' ∈ w'.links[i]?, l'.coming = l.coming.tail
  | .distribute i _ => ∀ l ∈ w.links[i]?, ∃ l' ∈ w'.links[i]?,
    l.coming = [] → l'.unpacker.asked.length = w'.parcels.length
  | .despatch i => ∀ l ∈ w.links[i]?, ∃ l' ∈ w'.links[i]?,
    l'.unpacker.work = l.unpacker.work.tail
  | _ => True

/-- The state after the step is safe, and the step does what it is for. -/
structure Delivers (w : World) (a : Step) (w' : World) : Prop where
  safe : Safe w'
  advances : Advances w a w'

/-- Channels and sizes fit the head of a message, and entries that are packed are valid. The
packer does not fill the free room. The message at the index that was published last is not
waiting when the first stage runs. A message over the end fits the buffer. -/
def Careful (w : World) : Step → Prop
  | .notification u => u.channel < 0x8000
  | .packWorkR packData stale => ∃ store parcels queue,
    w.packing packData stale = .ok (store, parcels, queue) ∧ store.length < w.room ∧
      ∀ p ∈ parcels, p.message.payload.length < 0x10000
  | .distribute i _ => ∀ l ∈ w.links[i]?, ∀ hi ∈ l.unpacker.work,
    hi.index ≠ l.unpacker.published
  | .despatch i => ∀ l ∈ w.links[i]?, ∀ hi ∈ l.unpacker.work.head?,
    w.areaSize < hi.index + hi.words → hi.words ≤ l.unpacker.objectBufferSize
  | _ => True

/-- There is a trace for each reader. -/
structure Inv (w : World) : Prop where
  two_le : 2 ≤ w.areaSize
  le_max : w.areaSize ≤ 65536
  writeIdx : w.areaWriteIdx = (1 + extent w.parcels) % w.areaSize
  queue : ∀ u ∈ w.workQueue, u.channel < 0x8000
  sound : ∀ p ∈ w.parcels, p.Sound
  tracks : ∀ l ∈ w.links, ∃ g, Tracks w.areaSize w.parcels l g

/-! ### Safety -/

theorem zip_marked {marked : List (Parcel × Bool)} {later : List Parcel} :
    (marked.map Prod.fst ++ later).zip (marked.map Prod.snd) = marked := by
  induction marked with
  | nil => simp
  | cons a marked ih => simpa using ih

namespace Tracks

theorem parcels_eq (h : Tracks N parcels l g) :
    ∃ later, parcels = g.marked.map Prod.fst ++ later := by
  obtain ⟨later, hlater⟩ := h.marked_seen.trans h.seen
  exact ⟨later, hlater.symm⟩

/-- Without writes on their way, all messages are visible. -/
theorem seen_eq (h : Tracks N parcels l g) (hsound : ∀ p ∈ parcels, p.Sound)
    (hcoming : l.coming = []) : g.seen = parcels := by
  have hfollows := h.follows
  rw [hcoming] at hfollows
  obtain ⟨later, hlater⟩ := h.seen
  have hextent : extent g.seen + extent later = extent parcels := by rw [← hlater, extent_append]
  have hthree := @length_le_extent later fun p hp =>
    hsound p (hlater ▸ List.mem_append_right _ hp)
  have hnil : later = [] := List.eq_nil_of_length_eq_zero (by have := hfollows.2; omega)
  rw [← hlater, hnil, List.append_nil]

theorem length_asked (h : Tracks N parcels l g) :
    l.unpacker.asked.length = (g.marked.map Prod.fst).length := by
  rw [h.asked, List.length_map, List.length_map]

theorem itemsOf_eq (h : Tracks w.areaSize w.parcels l g) :
    w.itemsOf l = g.reported ++ g.done ++ g.waiting := by
  obtain ⟨later, hlater⟩ := h.parcels_eq
  have hsnd : l.unpacker.asked.map Prod.snd = g.marked.map Prod.snd := by
    rw [h.asked, List.map_map]
    rfl
  rw [World.itemsOf, hlater, hsnd, zip_marked, h.items]

theorem extent_drop (h : Tracks N parcels l g) :
    g.passed + extent (parcels.drop l.unpacker.asked.length) = extent parcels := by
  obtain ⟨later, rfl⟩ := h.parcels_eq
  rw [h.length_asked, List.drop_left, extent_append]
  rfl

end Tracks

theorem Inv.links_within (h : Inv w) :
    ∀ x ∈ w.links.map Link.cb, ∃ c, x = c % w.areaSize ∧ c < 1 + extent w.parcels ∧
      1 + extent w.parcels < c + w.areaSize := by
  intro x hx
  obtain ⟨l, hl, rfl⟩ := List.mem_map.mp hx
  obtain ⟨g, hg⟩ := h.tracks l hl
  refine ⟨g.cb, hg.cb, ?_, hg.window⟩
  have hle := hg.returned_le g.cb List.mem_cons_self
  have hbehind := hg.behind
  have hpassed := hg.passed_le
  omega

theorem Inv.room_le (h : Inv w) (hl : l ∈ w.links) (hg : Tracks w.areaSize w.parcels l g) :
    w.room + (1 + extent w.parcels) ≤ g.cb + w.areaSize := by
  have hmem : g.cb % w.areaSize ∈ w.links.map Link.cb := hg.cb ▸ List.mem_map_of_mem hl
  have hle := hg.returned_le g.cb List.mem_cons_self
  have hbehind := hg.behind
  have hpassed := hg.passed_le
  have hroom := freeSize_le h.two_le h.links_within hmem (by omega) hg.window
  rw [← h.writeIdx] at hroom
  change w.room ≤ _ at hroom
  have hwindow := hg.window
  omega

theorem Inv.linkSafe (h : Inv w) (hl : l ∈ w.links) : LinkSafe w l := by
  obtain ⟨g, hg⟩ := h.tracks l hl
  have hdelivered : l.unpacker.delivered.length = (g.reported ++ g.done).length := by
    rw [hg.delivered, List.length_map]
  obtain ⟨later, hlater⟩ := hg.parcels_eq
  constructor
  · rw [hg.length_asked, hlater, List.take_left, hg.asked, List.map_map, List.map_map]
    rfl
  · rw [hdelivered, hg.itemsOf_eq, List.take_left, hg.delivered]
  · rw [hdelivered, hg.itemsOf_eq, hg.work, List.length_append, List.length_map]
  · exact hg.checked
  · rw [hdelivered, hg.itemsOf_eq, List.drop_left]
    intro o ho
    have hbefore := hg.before o (List.mem_append_right _ ho)
    have hwindow := hg.window_released
    omega
  · have hroom := h.room_le hl hg
    have hle := hg.returned_le g.cb List.mem_cons_self
    have hbehind := hg.behind
    have hdrop := hg.extent_drop
    omega

theorem mapM_ok {f : Link → Except Fault Link} {Q : Link → Prop} {ls : List Link}
    (h : ∀ l ∈ ls, ∃ l', f l = .ok l' ∧ Q l') : ∃ ls', ls.mapM f = .ok ls' ∧ ∀ l' ∈ ls', Q l' := by
  induction ls with
  | nil => exact ⟨[], rfl, nofun⟩
  | cons l ls ih =>
    obtain ⟨⟨l', hl', hQ⟩, hls⟩ := List.forall_mem_cons.mp h
    obtain ⟨ls', hls', hall⟩ := ih hls
    refine ⟨l' :: ls', ?_, List.forall_mem_cons.mpr ⟨hQ, hall⟩⟩
    simp only [List.mapM_cons, hl', hls', bind, Except.bind, pure, Except.pure]

theorem Inv.safe (h : Inv w) : Safe w where
  links _ hl := h.linkSafe hl
  emptied hdone hasLocalEnd := by
    have hpos : 0 < w.areaSize := by have := h.two_le; omega
    have hlinks : ∀ l ∈ w.links, ∃ l', l.onceMore w.areaSize hasLocalEnd = .ok l' ∧
        l'.cb = (1 + extent w.parcels - 1) % w.areaSize := by
      intro l hl
      obtain ⟨hasked, hwork⟩ := hdone l hl
      obtain ⟨g, hg⟩ := h.tracks l hl
      obtain ⟨rest, hrest⟩ := hg.marked_seen
      have hwaiting : g.waiting = [] := List.map_eq_nil_iff.mp (hg.work.symm.trans hwork)
      have hnone : rest = [] := by
        obtain ⟨later, hlater⟩ := hg.seen
        have hlen := congrArg List.length hlater
        rw [← hrest, List.length_append, List.length_append, ← hg.length_asked, hasked] at hlen
        exact List.eq_nil_of_length_eq_zero (by omega)
      obtain ⟨l', hl', hg'⟩ := @Tracks.distribute _ _ _ _ rest hasLocalEnd hg hpos h.le_max h.sound
        hrest (by rw [hwork]; nofun)
      refine ⟨_, by rw [Link.onceMore, hl']; rfl, ?_⟩
      rw [hg'.published]
      have hdrop := hg.extent_drop
      rw [hasked, List.drop_length, extent_nil] at hdrop
      subst hnone
      simp only [Trace.distributed, Trace.returns, hwaiting, if_true, mark, List.map_nil, places,
        List.head?_nil, Option.map_none, Option.getD_none, extent_nil]
      congr 1
      omega
    obtain ⟨links, hmap, hall⟩ := mapM_ok hlinks
    refine ⟨links, hmap, ?_⟩
    rw [h.writeIdx]
    refine freeSize_of_released h.two_le (by omega) fun x hx => ?_
    obtain ⟨l', hl', rfl⟩ := List.mem_map.mp hx
    exact hall l' hl'

/-! ### Steps -/

/-- What is packed are whole messages, from the queue. -/
theorem packQueue_spec {packData : PackUnit → Packing} {stale : ℕ → UInt8} {room : ℕ}
    {queue queue' : List PackUnit} {store store' : List ℕ}
    (h : packQueue packData stale room queue store = .ok (store', parcels, queue'))
    (hqueue : ∀ u ∈ queue, u.channel < 0x8000)
    (hsize : ∀ p ∈ parcels, p.message.payload.length < 0x10000) :
    store' = store ++ parcels.flatMap Parcel.words ∧ (∀ p ∈ parcels, p.Sound) ∧
      ∀ u ∈ queue', u.channel < 0x8000 := by
  induction queue generalizing store parcels with
  | nil =>
    cases h
    exact ⟨(List.append_nil _).symm, nofun, nofun⟩
  | cons u queue ih =>
    obtain ⟨hu, hrest⟩ := List.forall_mem_cons.mp hqueue
    have hstop : store = store ++ ([] : List Parcel).flatMap Parcel.words := by simp
    unfold packQueue at h
    split at h
    · cases h
      exact ⟨hstop, nofun, hqueue⟩
    · split at h
      · cases h
      · cases h
        exact ⟨hstop, nofun, hrest⟩
      · rename_i code rest _
        simp only at h
        split at h
        · obtain ⟨⟨store₁, parcels₁, queue₁⟩, hpack, hresult⟩ := bind_eq_ok.mp h
          cases hresult
          obtain ⟨hfirst, hsize₁⟩ := List.forall_mem_cons.mp hsize
          obtain ⟨rfl, hsound, hleft⟩ := ih hpack hrest hsize₁
          refine ⟨by simp, List.forall_mem_cons.mpr ⟨?_, hsound⟩, hleft⟩
          exact packMessage_encodes stale _ hu hfirst
        · cases h
          exact ⟨hstop, nofun, hqueue⟩

theorem packing_spec {packData : PackUnit → Packing} {stale : ℕ → UInt8} {store : List ℕ}
    {queue : List PackUnit} (hpack : w.packing packData stale = .ok (store, parcels, queue))
    (h : Inv w) (hsize : ∀ p ∈ parcels, p.message.payload.length < 0x10000) :
    store = parcels.flatMap Parcel.words ∧ (∀ p ∈ parcels, p.Sound) ∧
      ∀ u ∈ queue, u.channel < 0x8000 := by
  unfold World.packing at hpack
  simp only at hpack
  split at hpack
  · cases hpack
    exact ⟨rfl, nofun, h.queue⟩
  · exact packQueue_spec hpack h.queue hsize

theorem Inv.packWorkR (h : Inv w) {packData : PackUnit → Packing} {stale : ℕ → UInt8}
    (hok : Careful w (.packWorkR packData stale)) :
    ∃ w', w.packWorkR packData stale = .ok w' ∧ Inv w' := by
  obtain ⟨store, parcels, queue, hpack, hroom, hsize⟩ := hok
  obtain ⟨rfl, hsound, hqueue⟩ := packing_spec hpack h hsize
  have hpos : 0 < w.areaSize := by have := h.two_le; omega
  have hcopy : copyBuffer w.areaSize w.areaWriteIdx (parcels.flatMap Parcel.words) = _ :=
    h.writeIdx ▸ copyBuffer_eq hpos (1 + extent w.parcels) (parcels.flatMap Parcel.words)
  refine ⟨_, by rw [World.packWorkR, hpack]; simp only [bind, Except.bind, hcopy]; rfl, ?_⟩
  refine ⟨h.two_le, h.le_max, ?_, hqueue, ?_, ?_⟩
  · rw [extent_append, ← Nat.add_assoc]
    rfl
  · exact List.forall_mem_append.mpr ⟨h.sound, hsound⟩
  · intro l' hl'
    obtain ⟨l, hl, rfl⟩ := List.mem_map.mp hl'
    obtain ⟨g, hg⟩ := h.tracks l hl
    refine ⟨g, hg.packed ?_⟩
    have hle := h.room_le hl hg
    change extent parcels < w.room at hroom
    rw [extent_append]
    omega

/-- What happens at one reader leaves the others as they are. -/
theorem Inv.onLink (h : Inv w) {i : ℕ} {f : Link → Except Fault Link} {Q : Link → Link → Prop}
    (hf : ∀ l ∈ w.links[i]?, ∀ g, Tracks w.areaSize w.parcels l g →
      ∃ l' g', f l = .ok l' ∧ Tracks w.areaSize w.parcels l' g' ∧ Q l l') :
    ∃ w', w.onLink i f = .ok w' ∧ Inv w' ∧ w'.parcels = w.parcels ∧
      ∀ l ∈ w.links[i]?, ∃ l' ∈ w'.links[i]?, Q l l' := by
  unfold World.onLink
  cases hget : w.links[i]? with
  | none => exact ⟨w, rfl, h, rfl, nofun⟩
  | some l =>
    obtain ⟨g, hg⟩ := h.tracks l (List.mem_of_getElem? hget)
    obtain ⟨l', g', hl', hg', hQ⟩ := hf l hget g hg
    refine ⟨{ w with links := w.links.set i l' }, by simp only [hl', bind, Except.bind]; rfl,
      { h with tracks := ?_ }, rfl, ?_⟩
    · intro x hx
      rcases List.mem_or_eq_of_mem_set hx with hx | rfl
      · exact h.tracks x hx
      · exact ⟨g', hg'⟩
    · intro x hx
      cases hx
      exact ⟨l', List.getElem?_set_self (List.getElem?_eq_some_iff.mp hget).1, hQ⟩

/-- A careful step goes through, and delivers. -/
theorem Inv.step {a : Step} (h : Inv w) (hok : Careful w a) :
    ∃ w', step w a = .ok w' ∧ Delivers w a w' ∧ Inv w' := by
  have hpos : 0 < w.areaSize := by have := h.two_le; omega
  cases a with
  | notification u =>
    have hI : Inv { w with workQueue := w.workQueue ++ [u] } := { h with
      queue := List.forall_mem_append.mpr ⟨h.queue, List.forall_mem_singleton.mpr hok⟩ }
    exact ⟨_, rfl, ⟨hI.safe, trivial⟩, hI⟩
  | packWorkR packData stale =>
    obtain ⟨w', hw', hI⟩ := h.packWorkR hok
    exact ⟨w', hw', ⟨hI.safe, trivial⟩, hI⟩
  | arrive i =>
    obtain ⟨w', hw', hI, -, hQ⟩ := @Inv.onLink _ h i (fun l => .ok l.arrive)
      (fun l l' => l'.coming = l.coming.tail) fun l _ g hg => by
        obtain ⟨g', hg'⟩ := hg.arrive hpos
        refine ⟨l.arrive, g', rfl, hg', ?_⟩
        rw [Link.arrive]
        split <;> simp_all
    exact ⟨w', hw', ⟨hI.safe, hQ⟩, hI⟩
  | distribute i hasLocalEnd =>
    obtain ⟨w', hw', hI, hparcels, hQ⟩ := @Inv.onLink _ h i
      (fun l => l.distribute w.areaSize hasLocalEnd)
      (fun l l' => l.coming = [] → l'.unpacker.asked.length = w.parcels.length)
      fun l hl g hg => by
        obtain ⟨rest, hrest⟩ := hg.marked_seen
        obtain ⟨l', hl', hg'⟩ := @Tracks.distribute _ _ _ _ rest hasLocalEnd hg hpos h.le_max
          h.sound hrest (hok l hl)
        refine ⟨l', _, hl', hg', fun hcoming => ?_⟩
        rw [hg'.length_asked, ← hg.seen_eq h.sound hcoming, ← hrest]
        change ((g.marked ++ mark hasLocalEnd rest).map Prod.fst).length = _
        rw [List.map_append, map_fst_mark]
    refine ⟨w', hw', ⟨hI.safe, fun l hl => ?_⟩, hI⟩
    obtain ⟨l', hl', hall⟩ := hQ l hl
    exact ⟨l', hl', fun hcoming => (hall hcoming).trans (congrArg List.length hparcels.symm)⟩
  | despatch i =>
    obtain ⟨w', hw', hI, -, hQ⟩ := @Inv.onLink _ h i (fun l => l.despatch w.areaSize)
      (fun l l' => l'.unpacker.work = l.unpacker.work.tail) fun l hl g hg =>
        hg.despatch hpos h.le_max h.sound (hok l hl)
    exact ⟨w', hw', ⟨hI.safe, hQ⟩, hI⟩
  | release i =>
    obtain ⟨w', hw', hI, -, -⟩ := @Inv.onLink _ h i (fun l => .ok l.release) (fun _ _ => True)
      fun l _ g hg => by
        obtain ⟨g', hg'⟩ := hg.release
        exact ⟨l.release, g', rfl, hg', trivial⟩
    exact ⟨w', hw', ⟨hI.safe, trivial⟩, hI⟩

/-! ### Runs -/

theorem inv_start {areaSize objectBufferSize : ℕ} {buffers : List ℕ} (hN : 2 ≤ areaSize)
    (hmax : areaSize ≤ 65536) : Inv (.start areaSize objectBufferSize buffers) where
  two_le := hN
  le_max := hmax
  writeIdx := (Nat.mod_eq_of_lt hN).symm
  queue := nofun
  sound := nofun
  tracks l hl := by
    obtain ⟨buffer, -, rfl⟩ := List.mem_map.mp hl
    have harea : (List.replicate areaSize 0)[0]? = some 0 := by
      rw [List.getElem?_replicate, if_pos (by omega)]
    exact ⟨⟨[], [], [], [], 0, 0, [], 1, []⟩, {
      items := rfl
      asked := rfl
      delivered := rfl
      workDone := rfl
      work := rfl
      stage1 := (Nat.zero_mod _).symm
      stage2Done := (Nat.zero_mod _).symm
      stage2Commanded := (Nat.zero_mod _).symm
      checked := rfl
      published := (Nat.zero_mod _).symm
      behind := le_rfl
      before := nofun
      turn := fun h => absurd rfl h
      cb := (Nat.zero_mod _).symm
      releasing := rfl
      returned := List.pairwise_singleton _ _
      returned_le := by simp
      window := by
        change 1 + 0 < 0 + areaSize
        omega
      length := List.length_replicate
      retains := retains_start harea
      newWriteIdx := (Nat.mod_eq_of_lt hN).symm
      marked_seen := List.prefix_rfl
      seen := List.prefix_rfl
      seen_le := le_rfl
      visible_le := le_rfl
      follows := ⟨rfl, rfl⟩ }⟩

/-- In a run of careful steps, whatever their order, every step delivers. -/
theorem delivers_of_run {areaSize : ℕ} (objectBufferSize : ℕ) (buffers : List ℕ)
    (hN : 2 ≤ areaSize) (hmax : areaSize ≤ 65536) (as : List Step)
    (hok : Allowed step Careful (.start areaSize objectBufferSize buffers) as) :
    Throughout step Delivers (.start areaSize objectBufferSize buffers) as :=
  throughout_of_allowed (I := fun w _ => Inv w) (fun _ _ _ hI ha => hI.step ha)
    (inv_start hN hmax) hok

/-- A test for careful steps. -/
def carefulTest (w : World) : Step → Bool
  | .notification u => decide (u.channel < 0x8000)
  | .packWorkR packData stale =>
    match w.packing packData stale with
    | .ok (store, parcels, _) =>
      decide (store.length < w.room) &&
        parcels.all fun p => decide (p.message.payload.length < 0x10000)
    | .error _ => false
  | .distribute i _ => w.links[i]?.all fun l =>
    l.unpacker.work.all fun hi => decide (hi.index ≠ l.unpacker.published)
  | .despatch i => w.links[i]?.all fun l => l.unpacker.work.head?.all fun hi =>
    decide (w.areaSize < hi.index + hi.words → hi.words ≤ l.unpacker.objectBufferSize)
  | _ => true

theorem careful_of_carefulTest (w : World) (a : Step) (h : carefulTest w a = true) :
    Careful w a := by
  cases a with
  | notification u =>
    have hchannel : u.channel < 0x8000 := of_decide_eq_true h
    exact hchannel
  | packWorkR packData stale =>
    simp only [carefulTest] at h
    split at h
    · rename_i store parcels queue hpack
      rw [Bool.and_eq_true, List.all_eq_true] at h
      exact ⟨store, parcels, queue, hpack, of_decide_eq_true h.1, fun p hp =>
        of_decide_eq_true (h.2 p hp)⟩
    · cases h
  | distribute i hasLocalEnd =>
    intro l hl hi hhi
    simp only [carefulTest, Option.all_eq_true] at h
    exact of_decide_eq_true (List.all_eq_true.mp (h l hl) hi hhi)
  | despatch i =>
    intro l hl hi hhi
    simp only [carefulTest, Option.all_eq_true] at h
    exact of_decide_eq_true (h l hl hi hhi)
  | arrive i => trivial
  | release i => trivial

/-- An entry that packs this many bytes. -/
def packBytes (n : ℕ) (u : PackUnit) : Packing :=
  .data (.ofNat u.tick) ((List.range n).map fun i => .ofNat i)

/-- Two messages are read, a third goes over the end of the area, and one of two readers has no
end of its channel. -/
def overTheEnd : List Step := List.flatten [
  [.notification ⟨3, 0, 1⟩, .notification ⟨4, 0, 1⟩, .packWorkR (packBytes 40) fun _ => 0xaa],
  List.replicate 27 (.arrive 0), List.replicate 27 (.arrive 1),
  [.distribute 0 fun _ => true, .distribute 1 (· == 3), .despatch 0, .despatch 1, .despatch 0,
    .distribute 0 fun _ => true, .distribute 1 (· == 3)],
  List.replicate 2 (.release 0), List.replicate 2 (.release 1),
  [.notification ⟨4, 1, 2⟩, .packWorkR (packBytes 60) fun _ => 0xbb],
  List.replicate 19 (.arrive 0), List.replicate 19 (.arrive 1),
  [.distribute 0 fun _ => true, .distribute 1 (· == 3), .despatch 0, .distribute 0 fun _ => true]]

theorem delivers_overTheEnd : Throughout step Delivers (.start 40 40 [40, 10]) overTheEnd :=
  delivers_of_run 40 [40, 10] (by decide) (by decide) overTheEnd
    (allowed_of_checks careful_of_carefulTest (by decide +kernel))

/-- A message fills the area up to its last word. The packer takes it for empty then, and the next
message overwrites the first, which no one has read. -/
theorem not_delivers_full :
    ¬ Throughout step Delivers (.start 24 24 [24]) ([.notification ⟨3, 0, 1⟩,
      .packWorkR (packBytes 83) fun _ => 0, .notification ⟨3, 0, 2⟩] ++
      [.packWorkR (packBytes 83) fun _ => 0]) := by
  intro h
  obtain ⟨t, u, ht, hu, hP⟩ := h.last
  obtain ⟨t', ht', htest⟩ := exists_of_endsIn step (.start 24 24 [24])
    [.notification ⟨3, 0, 1⟩, .packWorkR (packBytes 83) fun _ => 0, .notification ⟨3, 0, 2⟩]
    (fun w => match step w (.packWorkR (packBytes 83) fun _ => 0) with
      | .ok w => w.links.any fun l =>
        decide (w.areaSize ≤ extent (w.parcels.drop l.unpacker.asked.length))
      | .error _ => false) (by decide +kernel)
  obtain rfl := Except.ok.inj (ht.symm.trans ht')
  rw [hu, List.any_eq_true] at htest
  obtain ⟨l, hl, hover⟩ := htest
  have hunread := (hP.safe.links l hl).unread
  have hover := of_decide_eq_true hover
  omega

end Dueca.Reflect
