import Dueca.Reflect.Layout

/-!
# What unpackers and packer know of each other

Places in the stream of words do not go round. In their terms an unpacker has passed some
messages, has unpacked some of those for channels with a local end, and has returned places up to
which the area may be used; what it sees of the stream, and what the packer sees of the returned
places, is older.
-/

namespace Dueca.Reflect

open Dueca.Lib

variable {parcels new : List Parcel} {items more : List (ℕ × Parcel)} {o : ℕ × Parcel}
variable {coming : List Write} {l l' : Link} {N n v x : ℕ} {xs before : List ℕ}

/-! ### The stream -/

/-- The words in the area since the start. The first is the sentinel. -/
def stream (parcels : List Parcel) : List ℕ := 0 :: parcels.flatMap Parcel.words

theorem length_stream : (stream parcels).length = 1 + extent parcels := Nat.add_comm _ _

theorem stream_append : stream (parcels ++ new) = stream parcels ++ new.flatMap Parcel.words := by
  simp only [stream, List.flatMap_append, List.cons_append]

/-- The writes bring the stream from place `n` on, and the write index from `v` on, which is at
the end of a message each time. -/
def Follows (N : ℕ) (parcels : List Parcel) : ℕ → ℕ → List Write → Prop
  | n, v, [] => n = 1 + extent parcels ∧ v = 1 + extent parcels
  | n, v, .word idx x :: coming =>
    idx = n % N ∧ (stream parcels)[n]? = some x ∧ Follows N parcels (n + 1) v coming
  | n, _, .index idx :: coming =>
    idx = n % N ∧ (∃ seen, seen <+: parcels ∧ n = 1 + extent seen) ∧ Follows N parcels n n coming

theorem follows_writesAt (h : stream parcels = before ++ xs) :
    Follows N parcels before.length v (writesAt N before.length xs) := by
  induction xs generalizing before with
  | nil =>
    have hlen : before.length = 1 + extent parcels := by
      rw [← length_stream, h, List.append_nil]
    exact ⟨rfl, ⟨parcels, List.prefix_rfl, hlen⟩, hlen, hlen⟩
  | cons x xs ih =>
    have hassoc : stream parcels = (before ++ [x]) ++ xs := by simp [h]
    refine ⟨rfl, ?_, ?_⟩
    · rw [h, List.getElem?_append_right le_rfl, Nat.sub_self]
      rfl
    · simpa using ih hassoc

/-- More messages are written behind what is on its way. -/
theorem Follows.packed (h : Follows N parcels n v coming) :
    Follows N (parcels ++ new) n v
      (coming ++ writesAt N (1 + extent parcels) (new.flatMap Parcel.words)) := by
  induction coming generalizing n v with
  | nil =>
    obtain ⟨rfl, rfl⟩ := h
    rw [List.nil_append, ← length_stream]
    exact follows_writesAt stream_append
  | cons write coming ih =>
    cases write with
    | word idx x =>
      obtain ⟨hidx, hx, hrest⟩ := h
      refine ⟨hidx, ?_, ih hrest⟩
      rw [stream_append, List.getElem?_append_left (List.getElem?_eq_some_iff.mp hx).1, hx]
    | index idx =>
      obtain ⟨hidx, ⟨seen, hseen, hn⟩, hrest⟩ := h
      exact ⟨hidx, ⟨seen, hseen.trans (List.prefix_append _ _), hn⟩, ih hrest⟩

/-! ### Places of several messages -/

/-- The place of the last one. -/
def lastPlace (items : List (ℕ × Parcel)) : ℕ := (items.getLast?.map Prod.fst).getD 0

@[simp] theorem lastPlace_nil : lastPlace [] = 0 := rfl

@[simp] theorem lastPlace_concat : lastPlace (items ++ [o]) = o.1 := by simp [lastPlace]

theorem lastPlace_append_of_ne (h : more ≠ []) : lastPlace (items ++ more) = lastPlace more := by
  obtain ⟨init, o, rfl⟩ := List.eq_nil_or_concat more |>.resolve_left h
  rw [List.concat_eq_append, ← List.append_assoc, lastPlace_concat, lastPlace_concat]

theorem lastPlace_mem (h : items ≠ []) : ∃ o ∈ items, lastPlace items = o.1 := by
  obtain ⟨init, o, rfl⟩ := List.eq_nil_or_concat items |>.resolve_left h
  rw [List.concat_eq_append]
  exact ⟨o, by simp, lastPlace_concat⟩

theorem le_lastPlace (h : items.Pairwise fun o o' => o.1 < o'.1) (ho : o ∈ items) :
    o.1 ≤ lastPlace items := by
  obtain ⟨init, o', rfl⟩ :=
    List.eq_nil_or_concat items |>.resolve_left (List.ne_nil_of_mem ho)
  rw [List.concat_eq_append] at h ho ⊢
  rw [lastPlace_concat]
  rcases List.mem_append.mp ho with ho | ho
  · exact ((List.pairwise_append.mp h).2.2 o ho o' (List.mem_singleton_self o')).le
  · rw [List.mem_singleton.mp ho]

/-- The last index of a list of places, where `d` stands for none. -/
theorem getLast_index (d : ℕ) (h : items = [] → d = x) (hx : items ≠ [] → lastPlace items % N = x) :
    ((items.map fun o => o.1 % N).getLast?).getD d = x := by
  rcases List.eq_nil_or_concat items with rfl | ⟨init, o, rfl⟩
  · exact h rfl
  · have hlast := hx (by simp)
    rw [List.concat_eq_append, lastPlace_concat] at hlast
    simpa using hlast

/-! ### Unpackers -/

/-- What a channel is given to unpack. -/
def delivery (o : ℕ × Parcel) : ℕ × List UInt8 := (o.2.message.channel, o.2.message.payload)

/-- What is behind the indices of an unpacker: the messages that it passed, those for local ends
that the first stage knows to be unpacked, those that are unpacked, and those waiting; the place
it returned last; the returned places that the packer sees or will see; and how many words, and
which messages, are visible to it. -/
structure Trace where
  marked : List (Parcel × Bool)
  reported : List (ℕ × Parcel)
  done : List (ℕ × Parcel)
  waiting : List (ℕ × Parcel)
  released : ℕ
  cb : ℕ
  releasing : List ℕ
  visible : ℕ
  seen : List Parcel

namespace Trace

variable (g : Trace)

def passed : ℕ := extent (g.marked.map Prod.fst)

end Trace

/-- The unpacker is where the trace says. -/
structure Tracks (N : ℕ) (parcels : List Parcel) (l : Link) (g : Trace) : Prop where
  items : places 1 g.marked = g.reported ++ g.done ++ g.waiting
  asked : l.unpacker.asked = g.marked.map fun a => (a.1.message.channel, a.2)
  delivered : l.unpacker.delivered = (g.reported ++ g.done).map delivery
  workDone : l.unpacker.workDone = g.done.map fun o => o.1 % N
  work : l.unpacker.work = g.waiting.map (infoAt N)
  stage1 : l.unpacker.stage1 = g.passed % N
  stage2Done : l.unpacker.stage2Done = lastPlace g.reported % N
  stage2Commanded : l.unpacker.stage2Commanded = lastPlace (places 1 g.marked) % N
  checked : l.unpacker.failures = 0
  published : l.unpacker.published = g.released % N
  behind : g.released ≤ g.passed
  before : ∀ o ∈ g.done ++ g.waiting, g.released ≤ o.1
  turn : g.done ++ g.waiting ≠ [] →
    g.released ≤ lastPlace g.reported ∨ g.released ∈ (g.done ++ g.waiting).map Prod.fst
  cb : l.cb = g.cb % N
  releasing : l.releasing = g.releasing.map (· % N)
  returned : (g.cb :: g.releasing).Pairwise (· ≤ ·)
  returned_le : ∀ a ∈ g.cb :: g.releasing, a ≤ g.released
  window : 1 + extent parcels < g.cb + N
  length : l.unpacker.area.length = N
  retains : Retains l.unpacker.area ((stream parcels).take g.visible)
  newWriteIdx : l.unpacker.newWriteIdx = (1 + extent g.seen) % N
  marked_seen : g.marked.map Prod.fst <+: g.seen
  seen : g.seen <+: parcels
  seen_le : 1 + extent g.seen ≤ g.visible
  visible_le : g.visible ≤ 1 + extent parcels
  follows : Follows N parcels g.visible (1 + extent g.seen) l.coming

variable {g : Trace}

theorem extent_le_of_prefix {ps qs : List Parcel} (h : ps <+: qs) : extent ps ≤ extent qs := by
  obtain ⟨rest, rfl⟩ := h
  rw [extent_append]
  exact Nat.le_add_right _ _

namespace Tracks

theorem passed_le (h : Tracks N parcels l g) : g.passed ≤ extent parcels :=
  extent_le_of_prefix (h.marked_seen.trans h.seen)

/-- The words on from the returned place fit the area. -/
theorem window_released (h : Tracks N parcels l g) : 1 + extent parcels < g.released + N :=
  h.window.trans_le (Nat.add_le_add_right (h.returned_le g.cb List.mem_cons_self) N)

theorem marked_sound (h : Tracks N parcels l g) (hsound : ∀ p ∈ parcels, p.Sound) :
    ∀ a ∈ g.marked, a.1.Sound := fun a ha =>
  hsound a.1 ((h.marked_seen.trans h.seen).subset (List.mem_map_of_mem ha))

theorem places_le (h : Tracks N parcels l g) (hsound : ∀ p ∈ parcels, p.Sound) :
    ∀ o ∈ places 1 g.marked, 1 < o.1 ∧ o.1 < g.passed := by
  intro o ho
  have hbounds := places_bounds (h.marked_sound hsound) o ho
  refine ⟨hbounds.1, ?_⟩
  rw [Trace.passed]
  omega

theorem sorted (h : Tracks N parcels l g) (hsound : ∀ p ∈ parcels, p.Sound) :
    (g.reported ++ g.done ++ g.waiting).Pairwise fun o o' => o.1 < o'.1 :=
  h.items ▸ places_sorted (h.marked_sound hsound)

/-! ### Packing, and the way to and from the packer -/

/-- The packer may use the room in front of the index that it sees. -/
theorem packed (h : Tracks N parcels l g) (hroom : 1 + extent (parcels ++ new) < g.cb + N) :
    Tracks N (parcels ++ new)
      { l with coming := l.coming ++ writesAt N (1 + extent parcels) (new.flatMap Parcel.words) }
      g where
  items := h.items
  asked := h.asked
  delivered := h.delivered
  workDone := h.workDone
  work := h.work
  stage1 := h.stage1
  stage2Done := h.stage2Done
  stage2Commanded := h.stage2Commanded
  checked := h.checked
  published := h.published
  behind := h.behind
  before := h.before
  turn := h.turn
  cb := h.cb
  releasing := h.releasing
  returned := h.returned
  returned_le := h.returned_le
  window := hroom
  length := h.length
  retains := by
    rw [stream_append, List.take_append_of_le_length (length_stream ▸ h.visible_le)]
    exact h.retains
  newWriteIdx := h.newWriteIdx
  marked_seen := h.marked_seen
  seen := h.seen.trans (List.prefix_append _ _)
  seen_le := h.seen_le
  visible_le := by
    rw [extent_append]
    exact h.visible_le.trans (by omega)
  follows := h.follows.packed

/-- The packer sees a later index. -/
theorem release (h : Tracks N parcels l g) : ∃ g', Tracks N parcels l.release g' := by
  cases hreleasing : g.releasing with
  | nil =>
    have hnil : l.releasing = [] := by rw [h.releasing, hreleasing, List.map_nil]
    have hsame : l.release = l := by simp only [Link.release, hnil]
    exact ⟨g, hsame.symm ▸ h⟩
  | cons a as =>
    have hcons : l.releasing = a % N :: as.map (· % N) := by
      rw [h.releasing, hreleasing, List.map_cons]
    have hrel : l.release = { l with cb := a % N, releasing := as.map (· % N) } := by
      simp only [Link.release, hcons]
    have hreturned := h.returned
    have hle := h.returned_le
    rw [hreleasing] at hreturned hle
    obtain ⟨hfirst, hrest⟩ := List.pairwise_cons.mp hreturned
    refine ⟨{ g with cb := a, releasing := as }, ?_⟩
    rw [hrel]
    exact { h with
      cb := rfl
      releasing := rfl
      returned := hrest
      returned_le := (List.forall_mem_cons.mp hle).2
      window := h.window.trans_le (Nat.add_le_add_right (hfirst a List.mem_cons_self) N) }

/-- A write becomes visible at the unpacker. -/
theorem arrive (h : Tracks N parcels l g) (hN : 0 < N) :
    ∃ g', Tracks N parcels l.arrive g' := by
  have hfollows := h.follows
  cases hcoming : l.coming with
  | nil =>
    have hsame : l.arrive = l := by simp only [Link.arrive, hcoming]
    exact ⟨g, hsame.symm ▸ h⟩
  | cons write coming =>
    have harrive : l.arrive = { l with unpacker := l.unpacker.see write, coming := coming } := by
      simp only [Link.arrive, hcoming]
    rw [hcoming] at hfollows
    rw [harrive]
    cases write with
    | word idx x =>
      obtain ⟨rfl, hx, hrest⟩ := hfollows
      have hlt := (List.getElem?_eq_some_iff.mp hx).1
      have hlen : ((stream parcels).take g.visible).length = g.visible :=
        List.length_take_of_le hlt.le
      have htake : (stream parcels).take g.visible ++ [x] =
          (stream parcels).take (g.visible + 1) := by
        rw [List.take_add_one, hx, Option.toList_some]
      have hretains : Retains (l.unpacker.area.set (g.visible % N) x)
          ((stream parcels).take (g.visible + 1)) := by
        have hwrite := @Retains.write _ _ _ x h.retains (h.length.symm ▸ hN)
        rwa [hlen, h.length, htake] at hwrite
      exact ⟨{ g with visible := g.visible + 1 }, { h with
        length := List.length_set.trans h.length
        retains := hretains
        seen_le := h.seen_le.trans (Nat.le_succ _)
        visible_le := @length_stream parcels ▸ hlt
        follows := hrest }⟩
    | index idx =>
      obtain ⟨rfl, ⟨seen, hseen, hn⟩, hrest⟩ := hfollows
      have hle : 1 + extent g.seen ≤ 1 + extent seen := hn ▸ h.seen_le
      have hsee {ps : List Parcel} (hmarked : g.marked.map Prod.fst <+: ps) (hps : ps <+: parcels)
          (hlen : g.visible = 1 + extent ps) :
          Tracks N parcels
            { l with unpacker := l.unpacker.see (.index (g.visible % N)), coming := coming }
            { g with seen := ps } :=
        { h with
          newWriteIdx := congrArg (· % N) hlen
          marked_seen := hmarked
          seen := hps
          seen_le := hlen.ge
          follows := hlen ▸ hrest }
      rcases List.prefix_or_prefix_of_prefix h.seen hseen with hmore | hless
      · exact ⟨_, hsee (h.marked_seen.trans hmore) hseen hn⟩
      · have hle' := extent_le_of_prefix hless
        exact ⟨_, hsee h.marked_seen h.seen (by omega)⟩

/-! ### The second stage -/

/-- The area still shows the data of a message that waits. -/
theorem shows_data (h : Tracks N parcels l g) (hsound : ∀ p ∈ parcels, p.Sound)
    (ho : o ∈ g.waiting) :
    ∃ data, Shows l.unpacker.area o.1 data ∧ data.length = (infoAt N o).words ∧
      (data.flatMap bytesOf).take o.2.message.payload.length = o.2.message.payload := by
  have hmem : o ∈ places 1 g.marked := h.items ▸ List.mem_append_right _ ho
  obtain ⟨before, after, hmarked, hplace⟩ := places_split hmem
  have hsplit : g.marked.map Prod.fst = before.map Prod.fst ++ o.2 :: after.map Prod.fst := by
    rw [hmarked, List.map_append, List.map_cons]
  obtain ⟨rest, hrest⟩ := h.marked_seen
  obtain ⟨later, hlater⟩ := h.seen
  have hps : parcels = before.map Prod.fst ++ o.2 :: (after.map Prod.fst ++ rest ++ later) := by
    rw [← hlater, ← hrest, hsplit]
    simp
  obtain ⟨head, data, hencodes⟩ := hsound o.2 (hps ▸ by simp)
  refine ⟨data, ?_, hencodes.length, hencodes.bytes⟩
  -- the stream around the data
  set front := 0 :: (before.map Prod.fst).flatMap Parcel.words ++ [head] with hfront
  have hlen : front.length = o.1 := by
    rw [hplace, hfront, List.cons_append, List.length_cons, List.length_append,
      List.length_singleton, extent]
    omega
  have hstream : stream parcels = front ++ data ++ (htonl (checksum (head :: data)) ::
      (after.map Prod.fst ++ rest ++ later).flatMap Parcel.words) := by
    rw [stream, hps, List.flatMap_append, List.flatMap_cons, hencodes.words, hfront]
    simp
  have hvisible : front.length + data.length ≤ g.visible := by
    have hseen : extent g.seen = extent (before.map Prod.fst) + (o.2.words.length +
        extent (after.map Prod.fst)) + extent rest := by
      rw [← hrest, hsplit, extent_append, extent_append, extent_cons]
    have hwords : o.2.words.length = data.length + 2 := by simp [hencodes.words]
    have hle := h.seen_le
    omega
  obtain ⟨tail, htail⟩ : ∃ tail, (stream parcels).take g.visible = front ++ data ++ tail := by
    rw [hstream, List.take_append]
    exact ⟨_, by rw [List.take_of_length_le (by simpa using hvisible)]⟩
  have hretains := h.retains
  rw [htail] at hretains
  rw [← hlen]
  refine shows_of_retains hretains ?_
  rw [← htail, h.length, hlen]
  have hwindow := h.window_released
  have hreleased := h.before o (List.mem_append_right _ ho)
  have hvis := h.visible_le
  exact (List.length_take_le _ _).trans (by omega)

/-- The first message on the list is unpacked. -/
theorem despatch (h : Tracks N parcels l g) (hN : 0 < N) (hmax : N ≤ 65536)
    (hsound : ∀ p ∈ parcels, p.Sound)
    (hfits : ∀ hi ∈ l.unpacker.work.head?, N < hi.index + hi.words →
      hi.words ≤ l.unpacker.objectBufferSize) :
    ∃ l' g', l.despatch N = .ok l' ∧ Tracks N parcels l' g' ∧
      l'.unpacker.work = l.unpacker.work.tail := by
  cases hwaiting : g.waiting with
  | nil =>
    have hwork : l.unpacker.work = [] := by rw [h.work, hwaiting, List.map_nil]
    refine ⟨l, g, ?_, h, by rw [hwork, List.tail_nil]⟩
    simp only [Link.despatch, Unpacker.despatch, hwork]
    rfl
  | cons o waiting =>
    have hwork : l.unpacker.work = infoAt N o :: waiting.map (infoAt N) := by
      rw [h.work, hwaiting, List.map_cons]
    obtain ⟨data, hshows, hlen, hbytes⟩ := h.shows_data hsound (hwaiting ▸ List.mem_cons_self)
    have hread : l.unpacker.dataWords N (infoAt N o) = .ok data :=
      dataWords_eq h.length hN hmax rfl hlen hshows (hfits _ (by rw [hwork]; rfl))
    have hsize : (infoAt N o).size ≠ 0 := Nat.succ_ne_zero _
    have hget : (infoAt N o).getIndex = o.1 % N :=
      Nat.mod_eq_of_lt ((Nat.mod_lt _ hN).trans_le hmax)
    refine ⟨{ l with unpacker := { l.unpacker with
        work := waiting.map (infoAt N)
        delivered := l.unpacker.delivered ++ [delivery o]
        workDone := l.unpacker.workDone ++ [o.1 % N] } },
      { g with done := g.done ++ [o], waiting := waiting }, ?_, ?_, by rw [hwork, List.tail_cons]⟩
    · simp only [Link.despatch, Unpacker.despatch, hwork, if_neg hsize, hread, hget, bind,
        Except.bind]
      rw [show (infoAt N o).size = o.2.message.payload.length from rfl, hbytes]
      rfl
    · have hsame : g.done ++ [o] ++ waiting = g.done ++ g.waiting := by
        rw [hwaiting, List.append_assoc, List.singleton_append]
      have hdelivered : l.unpacker.delivered ++ [delivery o] =
          (g.reported ++ (g.done ++ [o])).map delivery := by
        simp only [h.delivered, List.map_append, List.append_assoc, List.map_cons, List.map_nil]
      have hworkDone : l.unpacker.workDone ++ [o.1 % N] = (g.done ++ [o]).map fun o => o.1 % N := by
        simp only [h.workDone, List.map_append, List.map_cons, List.map_nil]
      exact { h with
        items := by rw [h.items, hwaiting]; simp
        delivered := hdelivered
        workDone := hworkDone
        work := rfl
        before := hsame ▸ h.before
        turn := hsame ▸ h.turn }

/-! ### The first stage -/

/-- The area shows the messages that are visible and not yet passed. -/
theorem shows_rest (h : Tracks N parcels l g) {rest : List Parcel}
    (hrest : g.seen = g.marked.map Prod.fst ++ rest) :
    Shows l.unpacker.area (1 + g.passed) (rest.flatMap Parcel.words) ∧ extent rest + 1 < N := by
  have hextent : extent g.seen = g.passed + extent rest := by rw [hrest, extent_append]; rfl
  have hwindow := h.window_released
  have hbehind := h.behind
  have hle := h.seen_le
  have hvis := h.visible_le
  refine ⟨?_, by omega⟩
  obtain ⟨later, hlater⟩ := h.seen
  obtain ⟨tail, htail⟩ : ∃ tail, (stream parcels).take g.visible =
      stream (g.marked.map Prod.fst) ++ rest.flatMap Parcel.words ++ tail := by
    rw [← hlater, hrest, stream_append, stream_append, List.take_append]
    have hlen : (stream (g.marked.map Prod.fst) ++ rest.flatMap Parcel.words).length ≤
        g.visible := by
      rw [← stream_append, ← hrest, length_stream]
      exact hle
    exact ⟨_, by rw [List.take_of_length_le hlen]⟩
  have hretains := h.retains
  rw [htail] at hretains
  have hlen : (stream (g.marked.map Prod.fst)).length = 1 + g.passed := length_stream
  rw [← hlen]
  refine shows_of_retains hretains ?_
  rw [← htail, h.length, hlen]
  exact (List.length_take_le _ _).trans (by omega)

end Tracks

/-- Up to where the first stage returns the area, where it finds these messages to unpack: if
nothing was waiting, up to the first of these, or behind all. Otherwise up to the message that
was unpacked last. -/
def Trace.returns (g : Trace) (rest : List Parcel) (items : List (ℕ × Parcel)) : ℕ :=
  if g.waiting = [] then (items.head?.map Prod.fst).getD (g.passed + extent rest)
  else lastPlace (g.reported ++ g.done)

/-- The trace after the first stage. -/
def Trace.distributed (g : Trace) (hasLocalEnd : ℕ → Bool) (rest : List Parcel) : Trace :=
  let items := places (1 + g.passed) (mark hasLocalEnd rest)
  { g with
    marked := g.marked ++ mark hasLocalEnd rest
    reported := g.reported ++ g.done
    done := []
    waiting := g.waiting ++ items
    released := g.returns rest items
    releasing := g.releasing ++ [g.returns rest items] }

namespace Tracks

variable {rest : List Parcel} {hasLocalEnd : ℕ → Bool}

theorem rest_bounds (hsound : ∀ p ∈ rest, p.Sound) :
    ∀ o ∈ places (1 + g.passed) (mark hasLocalEnd rest),
      1 + g.passed < o.1 ∧ o.1 ≤ g.passed + extent rest := by
  intro o ho
  have hmarked : ∀ a ∈ mark hasLocalEnd rest, a.1.Sound := by
    intro a ha
    obtain ⟨p, hp, rfl⟩ := List.mem_map.mp ha
    exact hsound p hp
  have hbounds := places_bounds hmarked o ho
  rw [map_fst_mark] at hbounds
  omega

/-- If the message at the index that was returned last is not waiting, then a later one was
unpacked, if any is waiting. -/
theorem released_le_last (h : Tracks N parcels l g) (hsound : ∀ p ∈ parcels, p.Sound)
    (hturn : ∀ hi ∈ l.unpacker.work, hi.index ≠ l.unpacker.published) (hwaiting : g.waiting ≠ []) :
    g.released ≤ lastPlace (g.reported ++ g.done) := by
  have hsorted := (List.pairwise_append.mp (h.sorted hsound)).1
  have hlast : lastPlace g.reported ≤ lastPlace (g.reported ++ g.done) := by
    rcases eq_or_ne g.reported [] with hnil | hne
    · rw [hnil]
      exact Nat.zero_le _
    · obtain ⟨o, ho, hplace⟩ := lastPlace_mem hne
      exact hplace ▸ le_lastPlace hsorted (List.mem_append_left _ ho)
  rcases h.turn (List.append_ne_nil_of_right_ne_nil _ hwaiting) with hle | hmem
  · exact hle.trans hlast
  · obtain ⟨o, ho, hplace⟩ := List.mem_map.mp hmem
    rcases List.mem_append.mp ho with ho | ho
    · exact hplace ▸ le_lastPlace hsorted (List.mem_append_right _ ho)
    · have hinfo : infoAt N o ∈ l.unpacker.work := h.work ▸ List.mem_map_of_mem ho
      refine absurd ?_ (hturn _ hinfo)
      rw [h.published, ← hplace]
      rfl

theorem returns_bounds (h : Tracks N parcels l g) (hsound : ∀ p ∈ parcels, p.Sound)
    (hrestsound : ∀ p ∈ rest, p.Sound)
    (hturn : ∀ hi ∈ l.unpacker.work, hi.index ≠ l.unpacker.published) :
    let items := places (1 + g.passed) (mark hasLocalEnd rest)
    g.released ≤ g.returns rest items ∧ g.returns rest items ≤ g.passed + extent rest ∧
      (∀ o ∈ g.waiting ++ items, g.returns rest items ≤ o.1) ∧
      (g.waiting ++ items ≠ [] → g.returns rest items ≤ lastPlace (g.reported ++ g.done) ∨
        g.returns rest items ∈ (g.waiting ++ items).map Prod.fst) := by
  intro items
  have hbehind := h.behind
  have hbounds : ∀ o ∈ items, 1 + g.passed < o.1 ∧ o.1 ≤ g.passed + extent rest :=
    rest_bounds hrestsound
  by_cases hwaiting : g.waiting = []
  · rw [Trace.returns, if_pos hwaiting, hwaiting, List.nil_append]
    cases hitems : items with
    | nil =>
      refine ⟨hbehind.trans (Nat.le_add_right _ _), le_rfl, nofun, fun hne => absurd rfl hne⟩
    | cons o more =>
      obtain ⟨hlow, hhigh⟩ := hbounds o (hitems ▸ List.mem_cons_self)
      have hsorted : items.Pairwise fun o o' => o.1 < o'.1 := places_sorted fun a ha => by
        obtain ⟨p, hp, rfl⟩ := List.mem_map.mp ha
        exact hrestsound p hp
      rw [hitems] at hsorted
      refine ⟨?_, hhigh, ?_, fun _ => .inr ?_⟩
      · change g.released ≤ o.1
        omega
      · exact List.forall_mem_cons.mpr ⟨le_rfl, fun o' ho' =>
          ((List.pairwise_cons.mp hsorted).1 o' ho').le⟩
      · exact List.mem_map_of_mem List.mem_cons_self
  · rw [Trace.returns, if_neg hwaiting]
    refine ⟨h.released_le_last hsound hturn hwaiting, ?_, ?_, fun _ => .inl le_rfl⟩
    · rcases eq_or_ne (g.reported ++ g.done) [] with hnil | hne
      · rw [hnil]
        exact Nat.zero_le _
      · obtain ⟨o, ho, hplace⟩ := lastPlace_mem hne
        have hle := (h.places_le hsound o (h.items ▸ List.mem_append_left _ ho)).2
        omega
    · intro o ho
      rcases eq_or_ne (g.reported ++ g.done) [] with hnil | hne
      · rw [hnil]
        exact Nat.zero_le _
      · obtain ⟨o', ho', hplace⟩ := lastPlace_mem hne
        rw [hplace]
        rcases List.mem_append.mp ho with ho | ho
        · exact ((List.pairwise_append.mp (h.sorted hsound)).2.2 o' ho' o ho).le
        · have hlt := (h.places_le hsound o' (h.items ▸ List.mem_append_left _ ho')).2
          have hlow := (hbounds o ho).1
          omega

/-- The index that the first stage publishes. -/
theorem returns_index (h : Tracks N parcels l g) (hsound : ∀ p ∈ parcels, p.Sound)
    (hturn : ∀ hi ∈ l.unpacker.work, hi.index ≠ l.unpacker.published)
    (items : List (ℕ × Parcel)) :
    (if lastPlace (g.reported ++ g.done) % N = l.unpacker.stage2Commanded then
      (items.head?.map fun o => o.1 % N).getD ((g.passed + extent rest) % N)
      else lastPlace (g.reported ++ g.done) % N) = g.returns rest items % N := by
  rw [h.stage2Commanded, h.items]
  by_cases hwaiting : g.waiting = []
  · rw [hwaiting, List.append_nil, if_pos rfl, Trace.returns, if_pos hwaiting]
    cases items <;> rfl
  · -- what was commanded last is still waiting, and stands apart
    obtain ⟨o, ho, hplace⟩ := lastPlace_mem hwaiting
    have hlt : lastPlace (g.reported ++ g.done) < o.1 := by
      rcases eq_or_ne (g.reported ++ g.done) [] with hnil | hne
      · have hpos := (h.places_le hsound o (h.items ▸ List.mem_append_right _ ho)).1
        rw [hnil, lastPlace_nil]
        omega
      · obtain ⟨o', ho', hplace'⟩ := lastPlace_mem hne
        exact hplace' ▸ (List.pairwise_append.mp (h.sorted hsound)).2.2 o' ho' o ho
    have hwithin : o.1 < lastPlace (g.reported ++ g.done) + N := by
      have hhigh := (h.places_le hsound o (h.items ▸ List.mem_append_right _ ho)).2
      have hreleased := h.released_le_last hsound hturn hwaiting
      have hwindow := h.window_released
      have hpassed := h.passed_le
      omega
    rw [lastPlace_append_of_ne hwaiting, hplace, if_neg (mod_ne hlt hwithin), Trace.returns,
      if_neg hwaiting]

/-- The first stage, if the message at the index that it returned last is not waiting. -/
theorem distribute (h : Tracks N parcels l g) (hN : 0 < N) (hmax : N ≤ 65536)
    (hsound : ∀ p ∈ parcels, p.Sound) (hrest : g.marked.map Prod.fst ++ rest = g.seen)
    (hturn : ∀ hi ∈ l.unpacker.work, hi.index ≠ l.unpacker.published) :
    ∃ l', l.distribute N hasLocalEnd = .ok l' ∧
      Tracks N parcels l' (g.distributed hasLocalEnd rest) := by
  have hrestsound : ∀ p ∈ rest, p.Sound := fun p hp =>
    hsound p (h.seen.subset (hrest ▸ List.mem_append_right _ hp))
  obtain ⟨hshows, hroom⟩ := h.shows_rest hrest.symm
  have hfuel : rest.length < N := by
    have hthree := length_le_extent hrestsound
    omega
  have hextent : extent g.seen = g.passed + extent rest := by rw [← hrest, extent_append]; rfl
  set items := places (1 + g.passed) (mark hasLocalEnd rest) with hitems
  obtain ⟨hreleased, hbehind, hbefore, hnext⟩ :=
    @returns_bounds _ _ _ _ rest hasLocalEnd h hsound hrestsound hturn
  rw [← hitems] at hreleased hbehind hbefore hnext
  have hplaces : places 1 (g.marked ++ mark hasLocalEnd rest) = places 1 g.marked ++ items :=
    places_append 1 _ _
  -- the scan
  have hstage1 : l.unpacker.stage1 = (1 + g.passed - 1) % N := by
    rw [h.stage1, Nat.add_sub_cancel_left]
  have hwrite : l.unpacker.newWriteIdx = (1 + g.passed + extent rest) % N := by
    rw [h.newWriteIdx, hextent, ← Nat.add_assoc]
  have hscan := fun s => @scan_eq _ rest N (1 + g.passed) hasLocalEnd N s h.length hN hmax
    (by omega) hrestsound hshows hroom hfuel
  rw [← hwrite, ← hstage1] at hscan
  -- what was unpacked is known now
  have hdone : l.unpacker.workDone.getLast?.getD l.unpacker.stage2Done =
      lastPlace (g.reported ++ g.done) % N := by
    rw [h.workDone]
    refine getLast_index _ (fun hnil => ?_) fun hne => ?_
    · rw [hnil, List.append_nil, h.stage2Done]
    · rw [lastPlace_append_of_ne hne]
  have hpassed : (g.distributed hasLocalEnd rest).passed = g.passed + extent rest := by
    simp only [Trace.passed, Trace.distributed, List.map_append, map_fst_mark, extent_append]
  have hstage : (if mark hasLocalEnd rest = [] then l.unpacker.stage1
      else (1 + g.passed + extent ((mark hasLocalEnd rest).map Prod.fst) - 1) % N) =
      (g.passed + extent rest) % N := by
    rw [map_fst_mark, Nat.add_assoc, Nat.add_sub_cancel_left]
    split
    · rename_i hnil
      rw [List.map_eq_nil_iff.mp hnil, extent_nil, h.stage1, Nat.add_zero]
    · rfl
  have hcommanded : ((items.getLast?.map fun o => o.1 % N).getD l.unpacker.stage2Commanded) =
      lastPlace (places 1 g.marked ++ items) % N := by
    rw [h.stage2Commanded]
    rcases List.eq_nil_or_concat items with hnil | ⟨init, o, hconcat⟩
    · rw [hnil, List.append_nil]
      rfl
    · rw [hconcat, List.concat_eq_append, ← List.append_assoc, lastPlace_concat]
      simp
  have hnone (first : Option ℕ) : (none <|> first) = first := by cases first <;> rfl
  have hpublished := @returns_index _ _ _ _ rest h hsound hturn items
  refine ⟨{ l with
      unpacker := { l.unpacker with
        workDone := []
        stage1 := (g.passed + extent rest) % N
        stage2Done := lastPlace (g.reported ++ g.done) % N
        stage2Commanded := lastPlace (places 1 g.marked ++ items) % N
        work := l.unpacker.work ++ items.map (infoAt N)
        asked := l.unpacker.asked ++
          (mark hasLocalEnd rest).map fun a => (a.1.message.channel, a.2)
        published := g.returns rest items % N }
      releasing := l.releasing ++ [g.returns rest items % N] }, ?_, ?_⟩
  · simp only [Link.distribute, Unpacker.distribute, hscan, bind, Except.bind, Scan.after, hstage,
      ← hitems, hcommanded, hdone, hnone, hpublished]
    rfl
  · exact { h with
      items := by
        simp only [Trace.distributed, hplaces, h.items, ← hitems, List.append_assoc,
          List.nil_append]
      asked := by rw [h.asked]; exact List.map_append.symm
      delivered := by simpa only [Trace.distributed, List.append_nil] using h.delivered
      workDone := rfl
      work := by rw [h.work]; exact List.map_append.symm
      stage1 := hpassed ▸ rfl
      stage2Done := rfl
      stage2Commanded := hplaces ▸ rfl
      published := rfl
      behind := hpassed ▸ hbehind
      before := hbefore
      turn := hnext
      releasing := by simp only [Trace.distributed, h.releasing, List.map_append, List.map_cons,
        List.map_nil, hitems]
      returned := by
        change ((g.cb :: g.releasing) ++ [g.returns rest items]).Pairwise (· ≤ ·)
        refine List.pairwise_append.mpr ⟨h.returned, List.pairwise_singleton _ _, ?_⟩
        intro a ha b hb
        rw [List.mem_singleton.mp hb]
        exact (h.returned_le a ha).trans hreleased
      returned_le := by
        change ∀ a ∈ (g.cb :: g.releasing) ++ [g.returns rest items], a ≤ g.returns rest items
        intro a ha
        rcases List.mem_append.mp ha with ha | ha
        · exact (h.returned_le a ha).trans hreleased
        · exact (List.mem_singleton.mp ha).le
      marked_seen := by
        have hmap : (g.marked ++ mark hasLocalEnd rest).map Prod.fst = g.seen := by
          rw [List.map_append, map_fst_mark, hrest]
        exact hmap ▸ List.prefix_rfl }

end Tracks

end Dueca.Reflect
