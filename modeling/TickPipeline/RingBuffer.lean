-- The ring buffer of `ingest/ring_buffer.py`, and its laws: behind the modular
-- arithmetic stands a plain drop-oldest queue, and a drain never reads an
-- empty slot.
import TickPipeline.Lib.Runs
import TickPipeline.Lib.Circular
import TickPipeline.Lib.DropOldest

namespace tick_pipeline.ring_buffer

open runs drop_oldest

variable {α : Type}

/-! ## The code -/

structure RingBuffer (α : Type) where
  capacity : Nat
  slots : List (Option α)
  /-- The next index to write. -/
  head : Nat
  /-- The number of unconsumed items. -/
  size : Nat
  dropped : Nat
  pushed_total : Nat

/-- `RingBuffer(capacity)`. The code raises on a capacity of 0. -/
def RingBuffer.new (α : Type) (capacity : Nat) : RingBuffer α :=
  { capacity
    slots := List.replicate capacity none
    head := 0
    size := 0
    dropped := 0
    pushed_total := 0 }

def RingBuffer.depth (b : RingBuffer α) : Nat := b.size

/-- False when the buffer was full and the oldest item went. -/
def RingBuffer.push_nowait (b : RingBuffer α) (item : α) : Bool × RingBuffer α :=
  let overwritten := decide (b.size = b.capacity)
  (!overwritten,
    { b with
      dropped := if overwritten then b.dropped + 1 else b.dropped
      size := if overwritten then b.size else b.size + 1
      slots := b.slots.set b.head (some item)
      head := (b.head + 1) % b.capacity
      pushed_total := b.pushed_total + 1 })

/-- The loop of `drain_nowait`, from turn `i` on: it reads a slot and empties it. -/
def drain_loop (capacity tail : Nat) :
    Nat → Nat → List (Option α) → List (Option α) × List (Option α)
  | _, 0, slots => ([], slots)
  | i, n + 1, slots =>
    let idx := (tail + i) % capacity
    let item := slots[idx]?.join
    let (out, slots) := drain_loop capacity tail (i + 1) n (slots.set idx none)
    (item :: out, slots)

/-- How many items a drain takes. The code neither refuses nor clamps a negative
`max_items`. -/
def RingBuffer.drain_count (b : RingBuffer α) (max_items : Option Int) : Int :=
  match max_items with
  | none => b.size
  | some m => min m b.size

/-- A drain hands out what the slots hold, and an empty slot holds `None`. With a negative
count the loop takes no turn, and the size still changes by the count. -/
def RingBuffer.drain_nowait (b : RingBuffer α) (max_items : Option Int) :
    List (Option α) × RingBuffer α :=
  let n := b.drain_count max_items
  if n = 0 then ([], b)
  else
    let tail := (((b.head : Int) - b.size) % b.capacity).toNat
    let (out, slots) := drain_loop b.capacity tail 0 n.toNat b.slots
    (out, { b with slots, size := (b.size - n).toNat })

/-! ## The queue behind the slots -/

/-- The buffer holds the items of the queue: seen from its tail, the array is the items in
order and then empty slots. -/
structure Holds (b : RingBuffer α) (q : Fifo α) : Prop where
  capacity_pos : 0 < b.capacity
  slots_len : b.slots.length = b.capacity
  head_lt : b.head < b.capacity
  size_eq : b.size = q.items.length
  fits : q.items.length ≤ b.capacity
  layout : b.slots.rotate (b.head + b.capacity - b.size) =
    q.items.map some ++ List.replicate (b.capacity - q.items.length) none
  dropped_eq : b.dropped = q.dropped

theorem holds_new (capacity : Nat) (h : 0 < capacity) :
    Holds (RingBuffer.new α capacity) empty := by
  refine ⟨h, ?_, h, rfl, Nat.zero_le _, ?_, rfl⟩
  · simp [RingBuffer.new]
  · simp [RingBuffer.new, empty]

theorem push_nowait_full (b : RingBuffer α) (q : Fifo α) (x : α) (h : Holds b q)
    (hfull : b.size = b.capacity) :
    Holds (b.push_nowait x).2 ⟨q.items.drop 1 ++ [x], q.dropped + 1⟩ := by
  obtain ⟨hpos, hlen, hhead, hsize, hfits, hlay, hdrop⟩ := h
  have hq : q.items.length = b.capacity := by omega
  refine ⟨hpos, by simpa [RingBuffer.push_nowait] using hlen, Nat.mod_lt _ hpos, ?_, ?_, ?_, ?_⟩
  · simp [RingBuffer.push_nowait, hfull]; omega
  · simp [RingBuffer.push_nowait]; omega
  · -- The oldest item stands under the head: the write lands on cell 0 of the view.
    have hrot : (b.slots.set b.head (some x)).rotate b.head = (b.slots.rotate b.head).set 0 (some x) := by
      have := circular.rotate_set b.slots b.head 0 (some x) (by omega)
      rwa [Nat.add_zero, hlen, Nat.mod_eq_of_lt hhead] at this
    have hview : b.slots.rotate b.head = q.items.map some := by
      rw [show b.head + b.capacity - b.size = b.head by omega, hq, Nat.sub_self] at hlay
      simpa using hlay
    simp only [RingBuffer.push_nowait, hfull, decide_true, if_true]
    rw [show (b.head + 1) % b.capacity + b.capacity - b.capacity = (b.head + 1) % b.capacity by omega]
    rw [show b.capacity = (b.slots.set b.head (some x)).length by simp [hlen], List.rotate_mod,
      ← List.rotate_rotate, hrot, hview]
    rcases hitems : q.items with _ | ⟨y, ys⟩
    · simp [hitems] at hq; omega
    · have hys : ys.length + 1 = b.capacity := by simpa [hitems] using hq
      simp [hys, hlen]
  · simp [RingBuffer.push_nowait, hfull, hdrop]

theorem push_nowait_room (b : RingBuffer α) (q : Fifo α) (x : α) (h : Holds b q)
    (hroom : b.size ≠ b.capacity) :
    Holds (b.push_nowait x).2 ⟨q.items ++ [x], q.dropped⟩ := by
  obtain ⟨hpos, hlen, hhead, hsize, hfits, hlay, hdrop⟩ := h
  have hlt : b.size < b.capacity := by omega
  refine ⟨hpos, by simpa [RingBuffer.push_nowait] using hlen, Nat.mod_lt _ hpos, ?_, ?_, ?_, ?_⟩
  · simp [RingBuffer.push_nowait, hroom]; omega
  · simp [RingBuffer.push_nowait]; omega
  · -- The head is the first free cell of the view: the write lands right after the items.
    have hrot : (b.slots.set b.head (some x)).rotate (b.head + b.capacity - b.size) =
        (b.slots.rotate (b.head + b.capacity - b.size)).set b.size (some x) := by
      have := circular.rotate_set b.slots (b.head + b.capacity - b.size) b.size (some x) (by omega)
      rwa [show b.head + b.capacity - b.size + b.size = b.head + b.capacity by omega, hlen,
        Nat.add_mod_right, Nat.mod_eq_of_lt hhead] at this
    simp only [RingBuffer.push_nowait, hroom, decide_false, Bool.false_eq_true, if_false]
    rw [circular.rotate_congr (k := b.head + b.capacity - b.size), hrot, hlay, hsize]
    · rw [show q.items.length = (q.items.map some).length by simp, List.set_append_right _ _ (by simp)]
      rw [show b.capacity - (q.items.map some).length =
        (b.capacity - (q.items ++ [x]).length) + 1 by simp; omega]
      simp [List.replicate_succ]
    · simp only [List.length_set, hlen]
      rw [show (b.head + 1) % b.capacity + b.capacity - (b.size + 1) =
        (b.head + 1) % b.capacity + (b.capacity - (b.size + 1)) by omega, Nat.mod_add_mod]
      congr 1
      omega
  · simp [RingBuffer.push_nowait, hroom, hdrop]

/-- A push is the push of the queue: same answer, and the items stay in step. -/
theorem push_nowait.spec (b : RingBuffer α) (q : Fifo α) (x : α) (h : Holds b q) :
    (b.push_nowait x).1 = (push b.capacity q x).1 ∧
      Holds (b.push_nowait x).2 (push b.capacity q x).2 := by
  by_cases hfull : b.size = b.capacity
  · have hq : q.items.length = b.capacity := by rw [← h.size_eq, hfull]
    rw [push_full _ _ _ hq]
    exact ⟨by simp [RingBuffer.push_nowait, hfull], push_nowait_full b q x h hfull⟩
  · have hq : q.items.length < b.capacity := by
      have := h.fits; have := h.size_eq; omega
    rw [push_room _ _ _ hq]
    exact ⟨by simp [RingBuffer.push_nowait, hfull], push_nowait_room b q x h hfull⟩

/-- The drain loop reads the cells of its turns and leaves them empty. -/
theorem drain_loop.spec (capacity tail i n : Nat) (slots pre post : List (Option α)) (mid : List α)
    (hlen : slots.length = capacity) (hi : pre.length = i) (hn : mid.length = n)
    (hview : slots.rotate tail = pre ++ (mid.map some ++ post)) :
    (drain_loop capacity tail i n slots).1 = mid.map some ∧
      (drain_loop capacity tail i n slots).2.length = capacity ∧
      (drain_loop capacity tail i n slots).2.rotate tail =
        pre ++ (List.replicate n none ++ post) := by
  induction n generalizing i slots pre mid with
  | zero =>
    have hmid : mid = [] := List.eq_nil_of_length_eq_zero hn
    subst hmid
    exact ⟨rfl, hlen, by simpa [drain_loop] using hview⟩
  | succ n ih =>
    rcases mid with _ | ⟨x, rest⟩
    · simp at hn
    have hilt : i < slots.length := by
      have := congrArg List.length hview
      simp at this
      omega
    have hcell : slots[(tail + i) % capacity]? = some (some x) := by
      have := List.getElem?_rotate (n := tail) hilt
      rw [hview, hlen, Nat.add_comm i tail] at this
      rw [← this, List.getElem?_append_right (by omega), hi, Nat.sub_self]
      simp
    have hset : (slots.set ((tail + i) % capacity) none).rotate tail =
        (pre ++ [none]) ++ (rest.map some ++ post) := by
      have := circular.rotate_set slots tail i none hilt
      rw [hlen] at this
      rw [this, hview, List.set_append_right _ _ (by omega), hi, Nat.sub_self]
      simp
    obtain ⟨h1, h2, h3⟩ := ih (i + 1) (slots.set ((tail + i) % capacity) none) (pre ++ [none]) rest
      (by simpa using hlen) (by simp [hi]) (by simpa using hn) hset
    refine ⟨?_, h2, ?_⟩
    · simp [drain_loop, hcell, h1]
    · simp only [drain_loop, h3]
      simp [List.replicate_succ]

/-- A drain that is not negative takes from the front of the queue. -/
theorem take_drain_count (b : RingBuffer α) (q : Fifo α) (m : Option Int) (h : Holds b q)
    (hm : ∀ k, m = some k → 0 ≤ k) :
    0 ≤ b.drain_count m ∧ (b.drain_count m).toNat ≤ b.size ∧
      take q (m.map Int.toNat) =
        (q.items.take (b.drain_count m).toNat, ⟨q.items.drop (b.drain_count m).toNat, q.dropped⟩) := by
  have hsize := h.size_eq
  rcases m with _ | k
  · simp [RingBuffer.drain_count, take, hsize]
  · have hk := hm k rfl
    refine ⟨by simp [RingBuffer.drain_count]; omega, by simp [RingBuffer.drain_count], ?_⟩
    have hcount : (b.drain_count (some k)).toNat = min k.toNat q.items.length := by
      simp only [RingBuffer.drain_count]; omega
    simp only [Option.map_some, take, hcount]
    rcases Nat.le_total k.toNat q.items.length with hle | hle
    · rw [Nat.min_eq_left hle]
    · rw [Nat.min_eq_right hle, List.take_of_length_le hle, List.drop_of_length_le hle]
      simp

/-- A drain that is not negative is the take of the queue: it hands out items, never an
empty slot. -/
theorem drain_nowait.spec (b : RingBuffer α) (q : Fifo α) (m : Option Int) (h : Holds b q)
    (hm : ∀ k, m = some k → 0 ≤ k) :
    (b.drain_nowait m).1 = (take q (m.map Int.toNat)).1.map some ∧
      Holds (b.drain_nowait m).2 (take q (m.map Int.toNat)).2 := by
  obtain ⟨hn0, hnle, htake⟩ := take_drain_count b q m h hm
  rw [htake]
  unfold RingBuffer.drain_nowait
  generalize b.drain_count m = n at *
  by_cases hn : n = 0
  · subst hn
    simpa using h
  obtain ⟨hpos, hlen, hhead, hsize, hfits, hlay, hdrop⟩ := h
  simp only [hn, if_false]
  have htail : (((b.head : Int) - b.size) % b.capacity).toNat % b.capacity =
      (b.head + b.capacity - b.size) % b.capacity := by
    have hcast : ((b.head : Int) - b.size) % b.capacity =
        ((b.head + b.capacity - b.size) % b.capacity : Nat) := by
      have : (b.head : Int) - b.size = ((b.head + b.capacity - b.size : Nat) : Int) - b.capacity := by
        omega
      rw [this, Int.sub_emod_right]
      simp
    rw [hcast, Int.toNat_natCast, Nat.mod_mod]
  generalize (((b.head : Int) - b.size) % b.capacity).toNat = tail at *
  have hview : b.slots.rotate tail = [] ++ ((q.items.take n.toNat).map some ++
      ((q.items.drop n.toNat).map some ++
        List.replicate (b.capacity - q.items.length) none)) := by
    rw [circular.rotate_congr (k := b.head + b.capacity - b.size) (by rw [hlen, htail]), hlay,
      List.nil_append, ← List.append_assoc, ← List.map_append, List.take_append_drop]
  have htaken : (q.items.take n.toNat).length = n.toNat := by simp; omega
  obtain ⟨h1, h2, h3⟩ := drain_loop.spec b.capacity tail 0 n.toNat b.slots [] _ _ hlen rfl htaken
    hview
  refine ⟨h1, hpos, h2, hhead, ?_, ?_, ?_, hdrop⟩
  · simp; omega
  · simp; omega
  · -- The head stays, and the tail moves on by the items taken.
    have hmove : b.head + b.capacity - (b.size - n).toNat = b.head + b.capacity - b.size + n.toNat := by
      omega
    simp only
    have hsame := circular.rotate_congr (l := (drain_loop b.capacity tail 0 n.toNat b.slots).2)
      (j := b.head + b.capacity - b.size) (k := tail) (by rw [h2, htail])
    rw [hmove, ← List.rotate_rotate, hsame, h3, List.nil_append]
    have hrot := List.rotate_append_length_eq (List.replicate n.toNat (none : Option α))
      ((q.items.drop n.toNat).map some ++ List.replicate (b.capacity - q.items.length) none)
    rw [List.length_replicate] at hrot
    rw [hrot, List.append_assoc, List.replicate_append_replicate, List.length_drop]
    congr 2
    omega

/-- With a number of items, the drain splits the queue there. -/
theorem drain_some.spec {b : RingBuffer α} {q : Fifo α} {m : Int} (hm : 0 ≤ m) (h : Holds b q) :
    (b.drain_nowait (some m)).1 = (q.items.take m.toNat).map some ∧
      Holds (b.drain_nowait (some m)).2 ⟨q.items.drop m.toNat, q.dropped⟩ := by
  refine drain_nowait.spec b q (some m) h ?_
  rintro k ⟨⟩
  exact hm

/-- Slot `i` holds an item exactly when it stands in the window of `depth` slots that ends
just before the head. -/
theorem occupied_iff_in_window (b : RingBuffer α) (q : Fifo α) (h : Holds b q) (i : Nat)
    (hi : i < b.capacity) :
    (b.slots[i]?.join).isSome ↔ ∃ k < b.size, i = (b.head + b.capacity - 1 - k) % b.capacity := by
  obtain ⟨hpos, hlen, hhead, hsize, hfits, hlay, _⟩ := h
  -- The cell of the view that slot `i` is.
  obtain ⟨j, hj, hji⟩ : ∃ j < b.capacity, (j + (b.head + b.capacity - b.size)) % b.capacity = i := by
    refine ⟨(i + (2 * b.capacity - (b.head + b.capacity - b.size))) % b.capacity, Nat.mod_lt _ hpos, ?_⟩
    rw [Nat.mod_add_mod, show i + (2 * b.capacity - (b.head + b.capacity - b.size)) +
      (b.head + b.capacity - b.size) = i + b.capacity + b.capacity by omega, Nat.add_mod_right,
      Nat.add_mod_right, Nat.mod_eq_of_lt hi]
  have hcell : b.slots[i]? = (b.slots.rotate (b.head + b.capacity - b.size))[j]? := by
    rw [List.getElem?_rotate (by omega), hlen, hji]
  have hocc : (b.slots[i]?.join).isSome ↔ j < b.size := by
    rw [hcell, hlay, hsize]
    rcases Nat.lt_or_ge j q.items.length with hjq | hjq
    · rw [List.getElem?_append_left (by simpa using hjq)]
      simp [hjq]
    · rw [List.getElem?_append_right (by simpa using hjq), List.getElem?_replicate]
      simp only [List.length_map]
      split <;> simp <;> omega
  rw [hocc]
  constructor
  · intro hjs
    exact ⟨b.size - 1 - j, by omega, by rw [← hji]; congr 1; omega⟩
  · rintro ⟨k, hk, hik⟩
    -- Both are the cell of slot `i`, and a slot is one cell only.
    have hmod : (j + (b.head + b.capacity - b.size)) % b.capacity =
        (b.size - 1 - k + (b.head + b.capacity - b.size)) % b.capacity := by
      rw [hji, hik]; congr 1; omega
    have hm : j ≡ b.size - 1 - k [MOD b.capacity] := Nat.ModEq.add_right_cancel' _ hmod
    rw [Nat.ModEq, Nat.mod_eq_of_lt hj, Nat.mod_eq_of_lt (by omega)] at hm
    omega

/-- A drain of a negative count hands out nothing, and adds to the size. -/
theorem drain_nowait_negative (b : RingBuffer α) {m : Int} (hm : m < 0) :
    b.drain_nowait (some m) = ([], { b with size := (b.size - m).toNat }) := by
  have hcount : b.drain_count (some m) = m := by
    simp only [RingBuffer.drain_count]
    omega
  unfold RingBuffer.drain_nowait
  dsimp only
  rw [hcount, if_neg hm.ne, Int.toNat_of_nonpos hm.le]
  rfl

/-! ## What comes out went in

This holds of the slots alone, whatever counts the drains asked for. -/

theorem push_nowait_mem {b : RingBuffer α} {x y : α} (h : some y ∈ (b.push_nowait x).2.slots) :
    some y ∈ b.slots ∨ y = x := by
  rcases List.mem_or_eq_of_mem_set h with h | h
  · exact Or.inl h
  · exact Or.inr (Option.some.inj h)

theorem drain_loop_mem (capacity tail n : Nat) (y : α) : ∀ (i : Nat) (slots : List (Option α)),
    (some y ∈ (drain_loop capacity tail i n slots).1 → some y ∈ slots) ∧
      (some y ∈ (drain_loop capacity tail i n slots).2 → some y ∈ slots) := by
  induction n with
  | zero =>
    intro i slots
    exact ⟨fun h => by simp [drain_loop] at h, fun h => h⟩
  | succ n ih =>
    intro i slots
    obtain ⟨h1, h2⟩ := ih (i + 1) (slots.set ((tail + i) % capacity) none)
    have hset : some y ∈ slots.set ((tail + i) % capacity) none → some y ∈ slots := by
      intro h
      rcases List.mem_or_eq_of_mem_set h with h | h
      · exact h
      · cases h
    unfold drain_loop
    dsimp only
    refine ⟨fun h => ?_, fun h => hset (h2 h)⟩
    rcases List.mem_cons.mp h with h | h
    · exact List.mem_of_getElem? (Option.join_eq_some_iff.mp h.symm)
    · exact hset (h1 h)

theorem drain_nowait_mem {b : RingBuffer α} {m : Option Int} {y : α} :
    (some y ∈ (b.drain_nowait m).1 → some y ∈ b.slots) ∧
      (some y ∈ (b.drain_nowait m).2.slots → some y ∈ b.slots) := by
  unfold RingBuffer.drain_nowait
  dsimp only
  split
  · exact ⟨fun h => by simp at h, fun h => h⟩
  · exact drain_loop_mem _ _ _ y _ _

/-! ## The laws -/

/-- A synchronous call on a buffer. -/
inductive BufferCall (α : Type)
  | push_nowait (item : α)
  | drain_nowait (max_items : Option Int)

inductive Answer (α : Type)
  | pushed (ok : Bool)
  | drained (items : List (Option α))

def RingBuffer.call (b : RingBuffer α) : BufferCall α → Answer α × RingBuffer α
  | .push_nowait item => let (ok, b) := b.push_nowait item; (.pushed ok, b)
  | .drain_nowait m => let (items, b) := b.drain_nowait m; (.drained items, b)

/-- What a call means on the plain queue. -/
def fifoCall (capacity : Nat) (q : Fifo α) : BufferCall α → Answer α × Fifo α
  | .push_nowait item => let (ok, q) := push capacity q item; (.pushed ok, q)
  | .drain_nowait m => let (items, q) := take q (m.map Int.toNat); (.drained (items.map some), q)

/-- A drain asks for everything, or for a number of items that is not negative. -/
def Counted : BufferCall α → Prop
  | .push_nowait _ => True
  | .drain_nowait m => ∀ k, m = some k → 0 ≤ k

/-- How many items the drains of a run handed out. -/
def drainedTotal (answers : List (Answer α)) : Nat :=
  (answers.map fun | .pushed _ => 0 | .drained items => items.length).sum

@[simp] theorem push_nowait_capacity (b : RingBuffer α) (x : α) :
    (b.push_nowait x).2.capacity = b.capacity := rfl

@[simp] theorem push_nowait_pushed_total (b : RingBuffer α) (x : α) :
    (b.push_nowait x).2.pushed_total = b.pushed_total + 1 := rfl

@[simp] theorem drain_nowait_capacity (b : RingBuffer α) (m : Option Int) :
    (b.drain_nowait m).2.capacity = b.capacity := by
  unfold RingBuffer.drain_nowait
  dsimp only
  split <;> rfl

@[simp] theorem drain_nowait_pushed_total (b : RingBuffer α) (m : Option Int) :
    (b.drain_nowait m).2.pushed_total = b.pushed_total := by
  unfold RingBuffer.drain_nowait
  dsimp only
  split <;> rfl

@[simp] theorem drain_nowait_dropped (b : RingBuffer α) (m : Option Int) :
    (b.drain_nowait m).2.dropped = b.dropped := by
  unfold RingBuffer.drain_nowait
  dsimp only
  split <;> rfl

/-- One call, on the buffer and on the queue. -/
theorem call.spec (b : RingBuffer α) (q : Fifo α) (c : BufferCall α) (h : Holds b q)
    (hc : Counted c) :
    (b.call c).1 = (fifoCall b.capacity q c).1 ∧ Holds (b.call c).2 (fifoCall b.capacity q c).2 := by
  cases c with
  | push_nowait x =>
    obtain ⟨h1, h2⟩ := push_nowait.spec b q x h
    exact ⟨congrArg Answer.pushed h1, h2⟩
  | drain_nowait m =>
    obtain ⟨h1, h2⟩ := drain_nowait.spec b q m h hc
    exact ⟨congrArg Answer.drained h1, h2⟩

theorem call_capacity (b : RingBuffer α) (c : BufferCall α) : (b.call c).2.capacity = b.capacity := by
  cases c with
  | push_nowait x => rfl
  | drain_nowait m => exact drain_nowait_capacity b m

/-- The number of pushes among the calls. -/
def pushes (calls : List (BufferCall α)) : Nat :=
  (calls.map fun | .push_nowait _ => 1 | .drain_nowait _ => 0).sum

theorem drainedTotal_snoc (answers : List (Answer α)) (a : Answer α) :
    drainedTotal (answers ++ [a]) = drainedTotal answers + drainedTotal [a] := by
  simp [drainedTotal]

theorem pushes_snoc (calls : List (BufferCall α)) (c : BufferCall α) :
    pushes (calls ++ [c]) = pushes calls + pushes [c] := by
  simp [pushes]

/-- One call keeps the queue in its bound, and keeps the count: what was pushed is dropped,
drained or held. -/
theorem fifoCall_total (capacity : Nat) (q : Fifo α) (c : BufferCall α) (hpos : 0 < capacity)
    (hfits : q.items.length ≤ capacity) :
    (fifoCall capacity q c).2.items.length ≤ capacity ∧
      (fifoCall capacity q c).2.dropped + drainedTotal [(fifoCall capacity q c).1] +
        (fifoCall capacity q c).2.items.length = q.dropped + q.items.length + pushes [c] := by
  cases c with
  | push_nowait x =>
    have := push_length capacity q x hpos hfits
    simp only [fifoCall, drainedTotal, pushes, List.map_cons, List.map_nil, List.sum_cons,
      List.sum_nil]
    omega
  | drain_nowait m =>
    have := take_length q (m.map Int.toNat)
    simp only [fifoCall, drainedTotal, pushes, List.map_cons, List.map_nil, List.sum_cons,
      List.sum_nil, List.length_map, take_dropped]
    omega

theorem queue_total (capacity : Nat) (hpos : 0 < capacity) (calls : List (BufferCall α)) :
    let queue := run (fifoCall capacity) empty calls
    queue.2.items.length ≤ capacity ∧
      queue.2.dropped + drainedTotal queue.1 + queue.2.items.length = pushes calls := by
  apply run_history (fifoCall capacity)
    (P := fun calls answers q => q.items.length ≤ capacity ∧
      q.dropped + drainedTotal answers + q.items.length = pushes calls)
  · exact ⟨Nat.zero_le _, rfl⟩
  · intro calls answers q c ⟨hfits, htotal⟩
    obtain ⟨h1, h2⟩ := fifoCall_total capacity q c hpos hfits
    rw [drainedTotal_snoc, pushes_snoc]
    exact ⟨h1, by omega⟩

theorem pushed_total_eq (b : RingBuffer α) (calls : List (BufferCall α)) :
    (run RingBuffer.call b calls).2.pushed_total = b.pushed_total + pushes calls := by
  apply run_history RingBuffer.call
    (P := fun calls _ b' => b'.pushed_total = b.pushed_total + pushes calls)
  · rfl
  · intro calls _ b' c h
    rw [pushes_snoc]
    cases c with
    | push_nowait x => simp only [RingBuffer.call, push_nowait_pushed_total, h, pushes]; simp; omega
    | drain_nowait m => simp only [RingBuffer.call, drain_nowait_pushed_total, h, pushes]; simp

/-- The buffer and the queue stay in step through any run of counted calls. -/
theorem run_holds (capacity : Nat) (hpos : 0 < capacity) (calls : List (BufferCall α))
    (hcalls : ∀ c ∈ calls, Counted c) :
    let ring := run RingBuffer.call (RingBuffer.new α capacity) calls
    let queue := run (fifoCall capacity) empty calls
    ring.1 = queue.1 ∧ ring.2.capacity = capacity ∧ Holds ring.2 queue.2 := by
  have hstep : ∀ (b : RingBuffer α) (q : Fifo α) (c : BufferCall α), Counted c →
      (b.capacity = capacity ∧ Holds b q) →
      (b.call c).1 = (fifoCall capacity q c).1 ∧
        ((b.call c).2.capacity = capacity ∧ Holds (b.call c).2 (fifoCall capacity q c).2) := by
    rintro b q c hc ⟨rfl, h⟩
    obtain ⟨h1, h2⟩ := call.spec b q c h hc
    exact ⟨h1, call_capacity b c, h2⟩
  exact run_refines RingBuffer.call (fifoCall capacity) hstep ⟨rfl, holds_new capacity hpos⟩ calls hcalls

/-- For every capacity and every run of pushes and drains, the ring buffer answers as a
plain queue that drops its oldest item, its counters add up, and the occupied slots are the
window of `depth` slots before the head. -/
theorem the_ring_buffer_is_a_drop_oldest_queue (capacity : Nat) (hpos : 1 ≤ capacity)
    (calls : List (BufferCall α)) (hcalls : ∀ c ∈ calls, Counted c) :
    let ring := run RingBuffer.call (RingBuffer.new α capacity) calls
    let queue := run (fifoCall capacity) empty calls
    ring.1 = queue.1 ∧
      ring.2.depth = queue.2.items.length ∧ ring.2.depth ≤ capacity ∧
      ring.2.dropped = queue.2.dropped ∧
      ring.2.pushed_total = ring.2.dropped + drainedTotal ring.1 + ring.2.depth ∧
      ∀ i < capacity, (ring.2.slots[i]?.join).isSome ↔
        ∃ k < ring.2.depth, i = (ring.2.head + capacity - 1 - k) % capacity := by
  intro ring queue
  obtain ⟨hanswers, hcap, h⟩ := run_holds capacity hpos calls hcalls
  obtain ⟨hfits, htotal⟩ := queue_total capacity hpos calls
  have hpushed : ring.2.pushed_total = pushes calls := by
    rw [pushed_total_eq, show (RingBuffer.new α capacity).pushed_total = 0 from rfl, Nat.zero_add]
  have hdepth : ring.2.depth = queue.2.items.length := h.size_eq
  refine ⟨hanswers, hdepth, by rw [hdepth]; exact hfits, h.dropped_eq, ?_, ?_⟩
  · rw [hpushed, hdepth, h.dropped_eq, hanswers, htotal]
  · intro i hi
    have := occupied_iff_in_window ring.2 queue.2 h i (by rw [hcap]; exact hi)
    rwa [hcap] at this

theorem the_ring_buffer_is_a_drop_oldest_queue_of_two :
    let calls : List (BufferCall Nat) :=
      [.push_nowait 1, .push_nowait 2, .push_nowait 3, .drain_nowait (some 1), .drain_nowait none]
    (run RingBuffer.call (RingBuffer.new Nat 2) calls).1 = (run (fifoCall 2) empty calls).1 :=
  (the_ring_buffer_is_a_drop_oldest_queue 2 (by decide) _ (by simp [Counted])).1

end tick_pipeline.ring_buffer
