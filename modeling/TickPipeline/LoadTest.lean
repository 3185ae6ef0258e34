-- The batched run of `benchmark/load_test.py`: a producer that puts its ticks into a
-- ring buffer at its own pace, and a consumer that drains them in batches and counts
-- what it has processed, until it has counted them all. A tick that the buffer drops
-- is never counted, and then the consumer goes round for ever.
import TickPipeline.RingBuffer

namespace tick_pipeline.load_test

open runs ring_buffer drop_oldest

variable {α : Type}

/-! ## The code -/

/-- `run_batched` between two awaits. An item is a tick with the time it was put in at. -/
structure Batched (α : Type) where
  /-- What `_pace_producer` has not put in yet. -/
  ticks : List α
  buf : RingBuffer α
  /-- What the consumer has drained, and not counted yet. -/
  batch : List (Option α)
  processed : Nat

def Batched.new (ticks : List α) (ring_capacity : Nat) : Batched α :=
  { ticks
    buf := RingBuffer.new α ring_capacity
    batch := []
    processed := 0 }

/-- The producer puts in its next tick; or the consumer, at the head of its loop, drains a batch,
perhaps an empty one; or its `commit` returns and it counts the batch. -/
inductive Turn
  | put
  | drain
  | commit

/-- One turn. It gives the rows of a batch that was committed. -/
def Batched.step (n : Nat) (batch_max_size : Int) (s : Batched α) :
    Turn → List (Option α) × Batched α
  | .put =>
    match s.ticks with
    | [] => ([], s)
    | tick :: ticks => ([], { s with ticks, buf := (s.buf.push_nowait tick).2 })
  | .drain =>
    if s.batch.isEmpty ∧ s.processed < n then
      let (batch, buf) := s.buf.drain_nowait (some batch_max_size)
      ([], { s with batch, buf })
    else ([], s)
  | .commit => (s.batch, { s with batch := [], processed := s.processed + s.batch.length })

/-- The producer is done, the buffer is empty, and the consumer is at the head of its loop with ticks
still to count. -/
structure Stuck (n : Nat) (s : Batched α) : Prop where
  finished : s.ticks = []
  empty : s.buf.depth = 0
  idle : s.batch = []
  short : s.processed < n

/-! ## The run on a plain queue -/

structure Plain (α : Type) where
  ticks : List α
  queue : Fifo α
  batch : List α
  processed : Nat

def Plain.new (ticks : List α) : Plain α := { ticks, queue := empty, batch := [], processed := 0 }

def Plain.step (capacity n m : Nat) (s : Plain α) : Turn → List (Option α) × Plain α
  | .put =>
    match s.ticks with
    | [] => ([], s)
    | tick :: ticks => ([], { s with ticks, queue := (push capacity s.queue tick).2 })
  | .drain =>
    if s.batch.isEmpty ∧ s.processed < n then
      let (batch, queue) := take s.queue (some m)
      ([], { s with batch, queue })
    else ([], s)
  | .commit => (s.batch.map some, { s with batch := [], processed := s.processed + s.batch.length })

/-- The benchmark holds what its plain run holds. -/
structure Refines (capacity : Nat) (s : Batched α) (p : Plain α) : Prop where
  ticks_eq : s.ticks = p.ticks
  capacity_eq : s.buf.capacity = capacity
  holds : Holds s.buf p.queue
  batch_eq : s.batch = p.batch.map some
  processed_eq : s.processed = p.processed

theorem step_refines {capacity n : Nat} {batch_max_size : Int} (hb : 0 ≤ batch_max_size)
    {s : Batched α} {p : Plain α} (turn : Turn) (h : Refines capacity s p) :
    (s.step n batch_max_size turn).1 = (p.step capacity n batch_max_size.toNat turn).1 ∧
      Refines capacity (s.step n batch_max_size turn).2
        (p.step capacity n batch_max_size.toNat turn).2 := by
  obtain ⟨hticks, hcap, hholds, hbatch, hprocessed⟩ := h
  cases turn with
  | put =>
    unfold Batched.step Plain.step
    rw [hticks]
    cases hp : p.ticks with
    | nil => exact ⟨rfl, by rw [hticks, hp], hcap, hholds, hbatch, hprocessed⟩
    | cons tick rest =>
      obtain ⟨-, hpush⟩ := push_nowait.spec s.buf p.queue tick hholds
      rw [hcap] at hpush
      exact ⟨rfl, rfl, hcap, hpush, hbatch, hprocessed⟩
  | drain =>
    obtain ⟨hout, htake⟩ := drain_some.spec hb hholds
    have hempty : s.batch.isEmpty = p.batch.isEmpty := by rw [hbatch, List.isEmpty_map]
    unfold Batched.step Plain.step
    dsimp only
    rw [hempty, hprocessed]
    split
    · exact ⟨rfl, hticks, (drain_nowait_capacity s.buf _).trans hcap, htake, hout, rfl⟩
    · exact ⟨rfl, hticks, hcap, hholds, hbatch, hprocessed⟩
  | commit =>
    refine ⟨hbatch, hticks, hcap, hholds, rfl, ?_⟩
    simp [Batched.step, Plain.step, hbatch, hprocessed]

theorem run_refined {capacity : Nat} (hpos : 0 < capacity) (n : Nat) {batch_max_size : Int}
    (hb : 0 ≤ batch_max_size) (ticks : List α) (turns : List Turn) :
    Refines capacity (run (Batched.step n batch_max_size) (Batched.new ticks capacity) turns).2
      (run (Plain.step capacity n batch_max_size.toNat) (Plain.new ticks) turns).2 := by
  have h := run_refines (Batched.step n batch_max_size) (Plain.step capacity n batch_max_size.toNat)
    (R := Refines capacity) (fun s p turn (_ : True) h => step_refines hb turn h)
    (s := Batched.new ticks capacity) (t := Plain.new ticks)
    ⟨rfl, rfl, holds_new capacity hpos, rfl, rfl⟩ turns (fun _ _ => trivial)
  exact h.2

/-! ## The books of the plain run -/

/-- A tick is still to come, queued, drained, counted or lost. -/
structure Books (capacity n : Nat) (s : Plain α) : Prop where
  fits : s.queue.items.length ≤ capacity
  total : s.ticks.length + s.queue.items.length + s.queue.dropped + s.batch.length + s.processed = n

theorem books_new (capacity : Nat) (ticks : List α) :
    Books capacity ticks.length (Plain.new ticks) := ⟨Nat.zero_le _, rfl⟩

/-- What a put changes: the tick goes into the queue, and what the queue lost is lost for good. -/
theorem put_books {capacity n : Nat} (hpos : 0 < capacity) {s : Plain α} {tick : α} {rest : List α}
    (hticks : s.ticks = tick :: rest) (h : Books capacity n s) :
    let s' : Plain α := { s with ticks := rest, queue := (push capacity s.queue tick).2 }
    Books capacity n s' ∧ s.queue.dropped ≤ s'.queue.dropped := by
  obtain ⟨hfits, hkept⟩ := push_length capacity s.queue tick hpos h.fits
  have htotal := h.total
  rw [hticks, List.length_cons] at htotal
  refine ⟨⟨hfits, ?_⟩, ?_⟩
  · dsimp only
    omega
  · dsimp only [push]
    split
    · exact Nat.le_succ _
    · exact Nat.le_refl _

theorem step_books {capacity n m : Nat} (hpos : 0 < capacity) {s : Plain α} (turn : Turn)
    (h : Books capacity n s) :
    Books capacity n (s.step capacity n m turn).2 ∧
      s.queue.dropped ≤ (s.step capacity n m turn).2.queue.dropped := by
  cases turn with
  | put =>
    unfold Plain.step
    cases hticks : s.ticks with
    | nil => exact ⟨h, Nat.le_refl _⟩
    | cons tick rest => exact put_books hpos hticks h
  | drain =>
    unfold Plain.step
    dsimp only
    split
    · rename_i hidle
      have htaken := take_length s.queue (some m)
      have htotal := h.total
      have hfits := h.fits
      have hbatch : s.batch = [] := List.isEmpty_iff.mp hidle.1
      rw [hbatch, List.length_nil] at htotal
      refine ⟨⟨?_, ?_⟩, (take_dropped _ _).ge⟩
      · dsimp only
        omega
      · dsimp only
        rw [take_dropped]
        omega
    · exact ⟨h, Nat.le_refl _⟩
  | commit =>
    have htotal := h.total
    refine ⟨⟨h.fits, ?_⟩, Nat.le_refl _⟩
    simp only [Plain.step, List.length_nil]
    omega

theorem run_books {capacity n m : Nat} (hpos : 0 < capacity) {s : Plain α} (h : Books capacity n s)
    (turns : List Turn) :
    Books capacity n (run (Plain.step capacity n m) s turns).2 ∧
      s.queue.dropped ≤ (run (Plain.step capacity n m) s turns).2.queue.dropped := by
  refine run_invariant (Plain.step capacity n m)
    (P := fun t => Books capacity n t ∧ s.queue.dropped ≤ t.queue.dropped) ?_ ⟨h, Nat.le_refl _⟩ turns
  rintro t turn ⟨hbooks, hle⟩
  obtain ⟨hbooks', hle'⟩ := step_books (m := m) hpos turn hbooks
  exact ⟨hbooks', hle.trans hle'⟩

/-! ## A buffer with room for all -/

/-- No tick was lost, and there is room for every tick to come. -/
def Roomy (capacity : Nat) (s : Plain α) : Prop :=
  s.queue.dropped = 0 ∧ s.ticks.length + s.queue.items.length ≤ capacity

theorem step_roomy {capacity n m : Nat} {s : Plain α} (turn : Turn) (h : Roomy capacity s) :
    Roomy capacity (s.step capacity n m turn).2 := by
  obtain ⟨hdropped, hroom⟩ := h
  cases turn with
  | put =>
    unfold Plain.step
    cases hticks : s.ticks with
    | nil => exact ⟨hdropped, hroom⟩
    | cons tick rest =>
      rw [hticks, List.length_cons] at hroom
      have hpush := push_room capacity s.queue tick (by omega)
      dsimp only
      rw [hpush]
      refine ⟨hdropped, ?_⟩
      simp only [List.length_append, List.length_singleton]
      omega
  | drain =>
    unfold Plain.step
    dsimp only
    split
    · have htaken := take_length s.queue (some m)
      refine ⟨(take_dropped _ _).trans hdropped, ?_⟩
      dsimp only
      omega
    · exact ⟨hdropped, hroom⟩
  | commit => exact ⟨hdropped, hroom⟩

theorem run_roomy {capacity : Nat} (n m : Nat) {s : Plain α} (h : Roomy capacity s)
    (turns : List Turn) : Roomy capacity (run (Plain.step capacity n m) s turns).2 :=
  run_invariant (Plain.step capacity n m) (fun _ turn ht => step_roomy turn ht) h turns

/-! ## A buffer that loses a tick -/

/-- A plain run that is stuck: nothing is left anywhere, and the count is short. -/
structure Stranded (n : Nat) (s : Plain α) : Prop where
  finished : s.ticks = []
  empty : s.queue.items = []
  idle : s.batch = []
  short : s.processed < n

theorem Refines.stuck_iff {capacity n : Nat} {s : Batched α} {p : Plain α}
    (h : Refines capacity s p) : Stuck n s ↔ Stranded n p := by
  have hdepth : s.buf.depth = 0 ↔ p.queue.items = [] := by
    rw [RingBuffer.depth, h.holds.size_eq, List.length_eq_zero_iff]
  have hbatch : s.batch = [] ↔ p.batch = [] := by rw [h.batch_eq, List.map_eq_nil_iff]
  constructor
  · intro hs
    exact ⟨h.ticks_eq ▸ hs.finished, hdepth.mp hs.empty, hbatch.mp hs.idle, h.processed_eq ▸ hs.short⟩
  · intro hp
    exact ⟨h.ticks_eq ▸ hp.finished, hdepth.mpr hp.empty, hbatch.mpr hp.idle, h.processed_eq ▸ hp.short⟩

/-- The producer can come to its end while the consumer does nothing. -/
theorem puts_finish (capacity n m : Nat) (s : Plain α) :
    let s' := (run (Plain.step capacity n m) s (List.replicate s.ticks.length .put)).2
    s'.ticks = [] ∧ s'.batch = s.batch ∧ s'.processed = s.processed := by
  generalize hk : s.ticks.length = k
  induction k generalizing s with
  | zero => exact ⟨List.eq_nil_of_length_eq_zero hk, rfl, rfl⟩
  | succ k ih =>
    obtain ⟨tick, rest, hticks⟩ := List.exists_cons_of_length_eq_add_one hk
    have hput : (s.step capacity n m .put).2 =
        { s with ticks := rest, queue := (push capacity s.queue tick).2 } := by
      simp only [Plain.step, hticks]
    rw [hticks, List.length_cons] at hk
    rw [List.replicate_succ, run_cons, hput]
    exact ih { s with ticks := rest, queue := (push capacity s.queue tick).2 } (by simpa using hk)

/-- With the producer done and a tick lost, the consumer drains what there is and stays short. -/
theorem drains_strand {capacity n m : Nat} (hpos : 0 < capacity) (hm : 0 < m) {s : Plain α}
    (hbooks : Books capacity n s) (hticks : s.ticks = []) (hbatch : s.batch = [])
    (hlost : 0 < s.queue.dropped) :
    ∃ turns, Stranded n (run (Plain.step capacity n m) s turns).2 := by
  generalize hk : s.queue.items.length = k
  induction k using Nat.strong_induction_on generalizing s with
  | _ k ih =>
    have htotal := hbooks.total
    rw [hticks, hbatch, List.length_nil] at htotal
    have hshort : s.processed < n := by omega
    rcases Nat.eq_zero_or_pos k with rfl | hkpos
    · exact ⟨[], hticks, List.eq_nil_of_length_eq_zero hk, hbatch, hshort⟩
    · -- One round takes at least one tick out of the queue.
      have hround : run (Plain.step capacity n m) s [.drain, .commit] =
          ([[], ((take s.queue (some m)).1.map some)],
            { s with
              queue := (take s.queue (some m)).2
              batch := []
              processed := s.processed + (take s.queue (some m)).1.length }) := by
        simp [Plain.step, hbatch, hshort]
      have hbooks' := run_books (m := m) hpos hbooks [.drain, .commit]
      rw [hround] at hbooks'
      have hfewer : (take s.queue (some m)).2.items.length < k := by
        simp only [take, List.length_drop]
        omega
      obtain ⟨turns, hstranded⟩ := ih _ hfewer hbooks'.1 hticks rfl (hlost.trans_le hbooks'.2) rfl
      refine ⟨[.drain, .commit] ++ turns, ?_⟩
      rw [run_append, hround]
      exact hstranded

/-- Where a tick is lost or is bound to be, there is a way on into a stuck state: all the puts
first, then the rest of the draining. -/
theorem lost_strands {capacity n m : Nat} (hpos : 0 < capacity) (hm : 0 < m) {s : Plain α}
    (hbooks : Books capacity n s)
    (hlost : 0 < s.queue.dropped ∨ capacity < s.ticks.length + s.queue.items.length) :
    ∃ turns, Stranded n (run (Plain.step capacity n m) s turns).2 := by
  obtain ⟨hticks, hbatch, hprocessed⟩ := puts_finish capacity n m s
  obtain ⟨hput, hkept⟩ := run_books (m := m) hpos hbooks (List.replicate s.ticks.length .put)
  generalize ht : (run (Plain.step capacity n m) s (List.replicate s.ticks.length .put)).2 = t at *
  have hdropped : 0 < t.queue.dropped := by
    have hbefore := hbooks.total
    have hafter := hput.total
    have hfits := hput.fits
    rw [hticks, hbatch, hprocessed, List.length_nil] at hafter
    omega
  have hcommit := (step_books (m := m) hpos .commit hput).1
  obtain ⟨turns, hstranded⟩ := drains_strand hpos hm hcommit hticks rfl hdropped
  refine ⟨List.replicate s.ticks.length .put ++ (.commit :: turns), ?_⟩
  rw [run_append, ht]
  exact hstranded

/-- A run can get stuck from here on just when it has lost a tick or still can. -/
theorem strands_iff {capacity n m : Nat} (hpos : 0 < capacity) (hm : 0 < m) {s : Plain α}
    (hbooks : Books capacity n s) :
    (∃ turns, Stranded n (run (Plain.step capacity n m) s turns).2) ↔
      0 < s.queue.dropped ∨ capacity < s.ticks.length + s.queue.items.length := by
  constructor
  · rintro ⟨turns, hstranded⟩
    by_contra hsafe
    obtain ⟨hkept, hroom⟩ : Roomy capacity s := by
      simp only [not_or, not_lt] at hsafe
      exact ⟨Nat.le_zero.mp hsafe.1, hsafe.2⟩
    have hend := run_roomy n m ⟨hkept, hroom⟩ turns
    have htotal := (run_books (m := m) hpos hbooks turns).1.total
    rw [hstranded.finished, hstranded.empty, hstranded.idle, hend.1] at htotal
    simp only [List.length_nil, Nat.zero_add] at htotal
    exact absurd htotal hstranded.short.ne
  · exact lost_strands hpos hm hbooks

/-! ## The benchmark -/

/-- A stuck benchmark goes round for ever. -/
theorem Stuck.step {n : Nat} {batch_max_size : Int} (hb : 0 ≤ batch_max_size) {s : Batched α}
    (h : Stuck n s) (turn : Turn) : (s.step n batch_max_size turn).2 = s := by
  obtain ⟨hfinished, hempty, hidle, hshort⟩ := h
  obtain ⟨ticks, buf, batch, processed⟩ := s
  obtain rfl : ticks = [] := hfinished
  obtain rfl : batch = [] := hidle
  cases turn with
  | put => rfl
  | drain =>
    have hnone : buf.drain_nowait (some batch_max_size) = ([], buf) := by
      have hcount : buf.drain_count (some batch_max_size) = 0 := by
        have hsize : buf.size = 0 := hempty
        simp only [RingBuffer.drain_count, hsize]
        omega
      simp only [RingBuffer.drain_nowait, hcount, if_true]
    simp only [Batched.step, hnone]
    split <;> rfl
  | commit => rfl

theorem Stuck.run {n : Nat} {batch_max_size : Int} (hb : 0 ≤ batch_max_size) {s : Batched α}
    (h : Stuck n s) (turns : List Turn) : (run (Batched.step n batch_max_size) s turns).2 = s :=
  run_invariant (Batched.step n batch_max_size) (P := fun t => t = s)
    (fun t turn ht => by rw [ht]; exact h.step hb turn) rfl turns

/-- The batched benchmark can finish for sure just when the ring buffer holds every tick. For every
list of ticks and every capacity and batch size from 1 on: no interleaving of the puts, the drains
and the commits reaches a state with the producer done, the buffer empty and fewer ticks counted than
there are, if and only if there are no more ticks than the buffer holds; and a state of that kind
is never left. -/
theorem the_batched_benchmark_can_finish_iff_the_buffer_holds_every_tick (ticks : List α)
    (ring_capacity : Nat) (hcap : 1 ≤ ring_capacity) (batch_max_size : Int)
    (hb : 1 ≤ batch_max_size) :
    let reached (turns : List Turn) :=
      (run (Batched.step ticks.length batch_max_size) (Batched.new ticks ring_capacity) turns).2
    ((∀ turns, ¬ Stuck ticks.length (reached turns)) ↔ ticks.length ≤ ring_capacity) ∧
      ∀ turns, Stuck ticks.length (reached turns) →
        ∀ more, reached (turns ++ more) = reached turns := by
  have hb0 : 0 ≤ batch_max_size := by omega
  intro reached
  have hrefined := run_refined hcap ticks.length hb0 ticks
  have hstrands := strands_iff (m := batch_max_size.toNat) hcap (by omega)
    (books_new ring_capacity ticks)
  refine ⟨?_, fun turns hstuck more => ?_⟩
  · calc (∀ turns, ¬ Stuck ticks.length (reached turns))
        ↔ ¬ ∃ turns, Stuck ticks.length (reached turns) := not_exists.symm
      _ ↔ ¬ ∃ turns, Stranded ticks.length
            (run (Plain.step ring_capacity ticks.length batch_max_size.toNat) (Plain.new ticks) turns).2 :=
          not_congr (exists_congr fun turns => (hrefined turns).stuck_iff)
      _ ↔ ¬ (0 < 0 ∨ ring_capacity < ticks.length + 0) := not_congr hstrands
      _ ↔ ticks.length ≤ ring_capacity := by omega
  · have hmore := run_append (Batched.step ticks.length batch_max_size)
      (Batched.new ticks ring_capacity) turns more
    exact (congrArg Prod.snd hmore).trans (hstuck.run hb0 more)

/-- Two ticks and a buffer of two, with the second put while the first tick is committed. -/
theorem the_batched_benchmark_can_finish_iff_the_buffer_holds_every_tick_of_two :
    ¬ Stuck 2 (run (Batched.step 2 256) (Batched.new [10, 20] 2)
      [.put, .drain, .put, .commit, .drain]).2 :=
  (the_batched_benchmark_can_finish_iff_the_buffer_holds_every_tick [10, 20] 2 (by decide) 256
    (by decide)).1.mpr (by decide) _

/-- A buffer of one: two puts before the first drain, and the second tick is the only one counted. -/
theorem a_batched_benchmark_that_cannot_finish :
    ¬ ∀ (ticks : List Nat) (ring_capacity : Nat) (batch_max_size : Int), 1 ≤ ring_capacity →
      1 ≤ batch_max_size → ∀ turns, ¬ Stuck ticks.length
        (run (Batched.step ticks.length batch_max_size) (Batched.new ticks ring_capacity) turns).2 := by
  intro h
  refine h [10, 20] 1 256 (by decide) (by decide) [.put, .put, .drain, .commit] ?_
  exact ⟨rfl, rfl, rfl, by decide⟩

end tick_pipeline.load_test
