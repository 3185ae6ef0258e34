-- The two runs that `benchmark/load_test.py` compares: one tick and one commit at a time,
-- and a ring buffer with batches. Where both come to their end they have computed the same.
import TickPipeline.LoadTest
import TickPipeline.Candles
import TickPipeline.Vwap
import TickPipeline.MovingAverage
import TickPipeline.Lib.Progress

namespace tick_pipeline.load_test

open runs models ring_buffer candles vwap moving_average drop_oldest

/-! ## The code -/

structure Aggregators where
  candle_aggs : List CandleAggregator
  vwap : RollingVWAP
  ma : MovingAverageTracker

/-- The default `history_len` of `CandleAggregator`. -/
def HISTORY_LEN : Nat := 500

def new_aggregators : Aggregators :=
  { candle_aggs := [1, 5, 60].map (fun tf => CandleAggregator.new tf HISTORY_LEN)
    vwap := RollingVWAP.new 60
    ma := MovingAverageTracker.new [20, 50] }

def apply_tick (aggs : Aggregators) (tick : Tick) : Aggregators :=
  { candle_aggs := aggs.candle_aggs.map (fun agg => (agg.apply tick).2)
    vwap := (aggs.vwap.update tick).2
    ma := (aggs.ma.update tick.symbol tick.price).2 }

/-- A row of the table of the benchmark. -/
structure Row where
  symbol : Symbol
  price : ℚ
  qty : ℚ
  trade_id : Int
  event_time_ms : Int
deriving DecidableEq

def row (tick : Tick) : Row :=
  { symbol := tick.symbol
    price := tick.price
    qty := tick.quantity
    trade_id := tick.trade_id
    event_time_ms := tick.event_time_ms }

/-- Where the consumer of `run_naive` awaits. -/
inductive Await
  | get
  | execute (row : Row)
  | commit

/-- `run_naive` between two awaits. -/
structure Naive where
  /-- What `_pace_producer` has not put in yet. -/
  ticks : List Tick
  queue : List Tick
  aggs : Aggregators
  await : Await
  /-- What was inserted, and not committed yet. -/
  inserted : List Row
  committed : List Row
  processed : Nat

def Naive.new (ticks : List Tick) : Naive :=
  { ticks
    queue := []
    aggs := new_aggregators
    await := .get
    inserted := []
    committed := []
    processed := 0 }

/-- The producer puts in its next tick, or the consumer goes on from an await. -/
inductive NaiveTurn
  | put
  | get
  | execute
  | commit

def Naive.step (n : Nat) (s : Naive) : NaiveTurn → Unit × Naive
  | .put =>
    match s.ticks with
    | [] => ((), s)
    | tick :: ticks => ((), { s with ticks, queue := s.queue ++ [tick] })
  | .get =>
    match s.await, s.queue with
    | .get, tick :: queue =>
      if s.processed < n then
        ((), { s with queue, aggs := apply_tick s.aggs tick, await := .execute (row tick) })
      else ((), s)
    | _, _ => ((), s)
  | .execute =>
    match s.await with
    | .execute row => ((), { s with await := .commit, inserted := s.inserted ++ [row] })
    | _ => ((), s)
  | .commit =>
    match s.await with
    | .commit =>
      ((), { s with
        await := .get
        inserted := []
        committed := s.committed ++ s.inserted
        processed := s.processed + 1 })
    | _ => ((), s)

/-- `run_batched` with its aggregators and its table. -/
structure BatchedRun where
  run : Batched Tick
  aggs : Aggregators
  committed : List Row

def BatchedRun.new (ticks : List Tick) (ring_capacity : Nat) : BatchedRun :=
  { run := Batched.new ticks ring_capacity
    aggs := new_aggregators
    committed := [] }

/-- The ticks of a drained batch are applied at once, and their rows are there with the commit. An
empty slot would raise; the drains of a size from 1 on give none. -/
def BatchedRun.step (n : Nat) (batch_max_size : Int) (s : BatchedRun) (turn : Turn) :
    Unit × BatchedRun :=
  let (rows, run) := s.run.step n batch_max_size turn
  let aggs := match turn with
    | .drain =>
      if s.run.batch.isEmpty ∧ s.run.processed < n then run.batch.reduceOption.foldl apply_tick s.aggs
      else s.aggs
    | .put => s.aggs
    | .commit => s.aggs
  ((), { run, aggs, committed := s.committed ++ rows.reduceOption.map row })

/-! ## The naive run -/

/-- The row that is on its way to the table. -/
def Await.row : Await → List Row
  | .execute row => [row]
  | _ => []

/-- The ticks went through the queue in their order, and the rows follow them. -/
structure NaiveBooks (all taken : List Tick) (s : Naive) : Prop where
  all_eq : all = taken ++ s.queue ++ s.ticks
  aggs_eq : s.aggs = taken.foldl apply_tick new_aggregators
  rows_eq : s.committed ++ s.inserted ++ s.await.row = taken.map row
  inserted_length : s.inserted.length = if s.await matches .commit then 1 else 0
  processed_eq : s.processed = s.committed.length

theorem step_naive {n : Nat} {all taken : List Tick} {s : Naive} (turn : NaiveTurn)
    (h : NaiveBooks all taken s) : ∃ taken', NaiveBooks all taken' (s.step n turn).2 := by
  obtain ⟨hall, haggs, hrows, hinserted, hprocessed⟩ := h
  cases turn with
  | put =>
    unfold Naive.step
    cases hticks : s.ticks with
    | nil => exact ⟨taken, hall, haggs, hrows, hinserted, hprocessed⟩
    | cons tick rest =>
      refine ⟨taken, ?_, haggs, hrows, hinserted, hprocessed⟩
      rw [hall, hticks]
      simp
  | get =>
    unfold Naive.step
    dsimp only
    split
    · rename_i tick rest hawait hqueue
      split
      · rw [hawait] at hrows hinserted
        refine ⟨taken ++ [tick], ?_, ?_, ?_, ?_, hprocessed⟩
        · rw [hall, hqueue]
          simp
        · rw [List.foldl_append, haggs]
          rfl
        · rw [List.map_append, ← hrows]
          simp [Await.row]
        · exact hinserted
      · exact ⟨taken, hall, haggs, hrows, hinserted, hprocessed⟩
    · exact ⟨taken, hall, haggs, hrows, hinserted, hprocessed⟩
  | execute =>
    unfold Naive.step
    dsimp only
    split
    · rename_i r hawait
      rw [hawait] at hrows hinserted
      have hnone : s.inserted = [] := List.length_eq_zero_iff.mp hinserted
      refine ⟨taken, hall, haggs, ?_, ?_, hprocessed⟩
      · rw [← hrows]
        simp [Await.row]
      · simp [hnone]
    · exact ⟨taken, hall, haggs, hrows, hinserted, hprocessed⟩
  | commit =>
    unfold Naive.step
    dsimp only
    split
    · rename_i hawait
      rw [hawait] at hrows hinserted
      have hone : s.inserted.length = 1 := hinserted
      refine ⟨taken, hall, haggs, ?_, rfl, ?_⟩
      · rw [← hrows]
        simp [Await.row]
      · simp [hprocessed, hone]
    · exact ⟨taken, hall, haggs, hrows, hinserted, hprocessed⟩

theorem run_naive (ticks : List Tick) (turns : List NaiveTurn) :
    ∃ taken, NaiveBooks ticks taken (run (Naive.step ticks.length) (Naive.new ticks) turns).2 := by
  refine run_invariant (Naive.step ticks.length) (P := fun s => ∃ taken, NaiveBooks ticks taken s) ?_
    ⟨[], rfl, rfl, rfl, rfl, rfl⟩ turns
  rintro s turn ⟨taken, h⟩
  exact step_naive turn h

section naive

variable {all taken : List Tick} {s : Naive}

/-- Each tick is somewhere. -/
theorem NaiveBooks.total (h : NaiveBooks all taken s) :
    s.processed + s.inserted.length + s.await.row.length + s.queue.length + s.ticks.length =
      all.length := by
  have hrows := congrArg List.length h.rows_eq
  have hall := congrArg List.length h.all_eq
  have hprocessed := h.processed_eq
  simp only [List.length_append, List.length_map] at hrows hall
  omega

/-- What is committed is a first part of the rows. -/
theorem NaiveBooks.first (h : NaiveBooks all taken s) : s.committed <+: all.map row := by
  have htaken : s.committed <+: taken.map row := by
    rw [← h.rows_eq, List.append_assoc]
    exact List.prefix_append _ _
  have hall : taken.map row <+: all.map row := by
    rw [h.all_eq, List.append_assoc, List.map_append]
    exact List.prefix_append _ _
  exact htaken.trans hall

/-- Once all ticks are counted, all of them were taken. -/
theorem NaiveBooks.finished (h : NaiveBooks all taken s) (hdone : s.processed = all.length) :
    s.committed = all.map row ∧ s.aggs = all.foldl apply_tick new_aggregators := by
  have htotal := h.total
  have hlength := h.processed_eq
  have hqueue : s.queue = [] := List.length_eq_zero_iff.mp (by omega)
  have hticks : s.ticks = [] := List.length_eq_zero_iff.mp (by omega)
  have hall := h.all_eq
  rw [hqueue, hticks, List.append_nil, List.append_nil] at hall
  refine ⟨h.first.eq_of_length ?_, hall ▸ h.aggs_eq⟩
  rw [List.length_map]
  omega

/-- The turns that are left for the row on its way. -/
def Await.left : Await → Nat
  | .get => 0
  | .execute _ => 2
  | .commit => 1

/-- The turns that are left. -/
def Naive.left (s : Naive) : Nat := 4 * s.ticks.length + 3 * s.queue.length + s.await.left

/-- A turn that does something leaves fewer. -/
theorem step_left (n : Nat) (s : Naive) (turn : NaiveTurn) :
    (s.step n turn).2 = s ∨ (s.step n turn).2.left < s.left := by
  cases turn with
  | put =>
    unfold Naive.step
    cases hticks : s.ticks with
    | nil => exact .inl rfl
    | cons tick rest =>
      right
      simp only [Naive.left, hticks, List.length_append, List.length_cons, List.length_nil]
      omega
  | get =>
    unfold Naive.step
    dsimp only
    split
    · rename_i tick rest hawait hqueue
      split
      · right
        simp only [Naive.left, hawait, hqueue, List.length_cons, Await.left]
        omega
      · exact .inl rfl
    · exact .inl rfl
  | execute =>
    unfold Naive.step
    dsimp only
    split
    · rename_i r hawait
      right
      simp only [Naive.left, hawait, Await.left]
      omega
    · exact .inl rfl
  | commit =>
    unfold Naive.step
    dsimp only
    split
    · rename_i hawait
      right
      simp only [Naive.left, hawait, Await.left]
      omega
    · exact .inl rfl

theorem NaiveBooks.left_le (h : NaiveBooks all taken s) : s.left ≤ 4 * all.length := by
  have htotal := h.total
  have hinserted := h.inserted_length
  have hawait : s.await.left ≤ 2 * s.await.row.length + s.inserted.length := by
    cases hawait : s.await with
    | get => exact Nat.zero_le _
    | execute r => exact Nat.le_add_right 2 _
    | commit =>
      rw [hawait] at hinserted
      rw [show s.inserted.length = 1 from hinserted]
      exact Nat.le_refl 1
  unfold Naive.left
  omega

/-- Where no turn does anything, the producer is done. -/
theorem resting_ticks {n : Nat} (hrest : Resting (Naive.step n) (fun _ => true) s) : s.ticks = [] := by
  have hput := hrest .put rfl
  unfold Naive.step at hput
  cases hticks : s.ticks with
  | nil => rfl
  | cons tick rest =>
    rw [hticks] at hput
    have hshort := congrArg (fun s : Naive => s.ticks.length) hput
    simp [hticks] at hshort

/-- And the consumer waits for a tick. -/
theorem resting_await {n : Nat} (hrest : Resting (Naive.step n) (fun _ => true) s) : s.await = .get := by
  have hexecute := hrest .execute rfl
  have hcommit := hrest .commit rfl
  unfold Naive.step at hexecute hcommit
  cases hawait : s.await with
  | get => rfl
  | execute r =>
    rw [hawait] at hexecute
    have hmoved := congrArg Naive.await hexecute
    rw [hawait] at hmoved
    cases hmoved
  | commit =>
    rw [hawait] at hcommit
    have hmoved := congrArg Naive.await hcommit
    rw [hawait] at hmoved
    cases hmoved

/-- So all ticks are counted. -/
theorem NaiveBooks.resting (h : NaiveBooks all taken s)
    (hrest : Resting (Naive.step all.length) (fun _ => true) s) : s.processed = all.length := by
  have hawait := resting_await hrest
  have htotal := h.total
  have hinserted := h.inserted_length
  rw [hawait] at htotal hinserted
  rw [resting_ticks hrest, show s.inserted.length = 0 from hinserted] at htotal
  simp only [Await.row, List.length_nil] at htotal
  cases hqueue : s.queue with
  | nil =>
    rw [hqueue, List.length_nil] at htotal
    omega
  | cons tick rest =>
    have hget := hrest .get rfl
    unfold Naive.step at hget
    rw [hawait, hqueue] at hget
    dsimp only at hget
    split at hget
    · have hmoved := congrArg Naive.await hget
      rw [hawait] at hmoved
      cases hmoved
    · omega

end naive

/-- No schedule strands the naive run. Whatever turns were made, `4 * n` at most did something; some
more, no more than that, lead to where all ticks are counted; and where nothing can be done any more,
all are, with their rows committed and the aggregators of the plain loop. -/
theorem no_schedule_strands_the_naive_run (ticks : List Tick) (turns : List NaiveTurn) :
    let step := Naive.step ticks.length
    let s := (run step (Naive.new ticks) turns).2
    (Busy step (fun _ => true) (Naive.new ticks) turns → turns.length ≤ 4 * ticks.length) ∧
      (∃ more, more.length ≤ 4 * ticks.length ∧ (run step s more).2.processed = ticks.length) ∧
      (Resting step (fun _ => true) s → s.processed = ticks.length ∧
        s.committed = ticks.map row ∧ s.aggs = ticks.foldl apply_tick new_aggregators) := by
  intro step s
  have hnew : (Naive.new ticks).left = 4 * ticks.length := rfl
  have hlower (s : Naive) (turn : NaiveTurn) (_ : True) (_ : true = true) :
      (step s turn).2 = s ∨ (step s turn).2.left < s.left := step_left ticks.length s turn
  have hothers (s : Naive) (turn : NaiveTurn) (_ : True)
      (hfalse : (fun _ : NaiveTurn => true) turn = false) : (step s turn).2.left ≤ s.left := by
    cases hfalse
  obtain ⟨taken, hbooks⟩ := run_naive ticks turns
  refine ⟨fun hbusy => ?_, ?_, fun hrest => ?_⟩
  · have hrank := run_rank step (I := fun _ => True) (fun _ _ _ => trivial) hothers hlower trivial hbusy
    rw [List.countP_true, hnew] at hrank
    omega
  · obtain ⟨more, -, hlen, hrest⟩ := exists_run_resting step (I := fun _ => True)
      (fun _ _ _ => trivial) hlower (s := s) trivial
    obtain ⟨taken', hbooks'⟩ := run_naive ticks (turns ++ more)
    rw [run_append] at hbooks'
    exact ⟨more, hlen.trans hbooks.left_le, hbooks'.resting hrest⟩
  · have hdone := hbooks.resting hrest
    exact ⟨hdone, hbooks.finished hdone⟩

/-! ## The batched run -/

/-- The ticks that were drained are applied, and the rows of those that were counted are there. -/
structure BatchedBooks (capacity : Nat) (all taken : List Tick) (s : BatchedRun) (p : Plain Tick) :
    Prop where
  refines : Refines capacity s.run p
  books : Books capacity all.length p
  fed : ∃ pushed, all = pushed ++ p.ticks ∧ Fed pushed taken p.queue
  aggs_eq : s.aggs = taken.foldl apply_tick new_aggregators
  rows : ∃ counted, taken = counted ++ p.batch ∧ s.committed = counted.map row ∧
    counted.length = p.processed

theorem some_reduceOption {α : Type} (xs : List α) : (xs.map some).reduceOption = xs := by
  unfold List.reduceOption
  rw [List.filterMap_map]
  exact List.filterMap_some

theorem BatchedRun.step_committed (n : Nat) (batch_max_size : Int) (s : BatchedRun) (turn : Turn) :
    (s.step n batch_max_size turn).2.committed =
      s.committed ++ (s.run.step n batch_max_size turn).1.reduceOption.map row := rfl

section turns

variable {capacity : Nat} {batch_max_size : Int} {all taken : List Tick} {s : BatchedRun}
variable {p : Plain Tick}

/-- What a turn keeps, whatever it does. -/
theorem BatchedBooks.turn (hpos : 0 < capacity) (hb : 0 ≤ batch_max_size) (turn : Turn)
    (h : BatchedBooks capacity all taken s p) {rows : List (Option Tick)}
    {p' : Plain Tick}
    (hstep : p.step capacity all.length batch_max_size.toNat turn = (rows, p')) :
    Refines capacity (s.run.step all.length batch_max_size turn).2 p' ∧ Books capacity all.length p' ∧
      (s.step all.length batch_max_size turn).2.committed =
        s.committed ++ rows.reduceOption.map row := by
  obtain ⟨hrows, hrefines⟩ := step_refines (n := all.length) hb turn h.refines
  have hbooks := (step_books (m := batch_max_size.toNat) hpos turn h.books).1
  rw [hstep] at hrows hrefines hbooks
  refine ⟨hrefines, hbooks, ?_⟩
  rw [BatchedRun.step_committed, hrows]

/-- Only a commit gives rows. -/
theorem BatchedBooks.silent (hpos : 0 < capacity) (hb : 0 ≤ batch_max_size) (turn : Turn)
    (h : BatchedBooks capacity all taken s p) {p' : Plain Tick}
    (hstep : p.step capacity all.length batch_max_size.toNat turn = ([], p')) :
    Refines capacity (s.run.step all.length batch_max_size turn).2 p' ∧ Books capacity all.length p' ∧
      (s.step all.length batch_max_size turn).2.committed = s.committed := by
  obtain ⟨hrefines, hbooks, hcommitted⟩ := h.turn hpos hb turn hstep
  exact ⟨hrefines, hbooks, hcommitted.trans (List.append_nil _)⟩

/-- A turn at which nothing can be done. -/
theorem BatchedBooks.still (hpos : 0 < capacity) (hb : 0 ≤ batch_max_size) {turn : Turn}
    (h : BatchedBooks capacity all taken s p)
    (hstep : p.step capacity all.length batch_max_size.toNat turn = ([], p))
    (haggs : (s.step all.length batch_max_size turn).2.aggs = s.aggs) :
    BatchedBooks capacity all taken (s.step all.length batch_max_size turn).2 p := by
  obtain ⟨hrefines, hbooks, hcommitted⟩ := h.silent hpos hb turn hstep
  exact ⟨hrefines, hbooks, h.fed, haggs.trans h.aggs_eq, hcommitted ▸ h.rows⟩

theorem BatchedBooks.put (hpos : 0 < capacity) (hb : 0 ≤ batch_max_size)
    (h : BatchedBooks capacity all taken s p) :
    BatchedBooks capacity all taken (s.step all.length batch_max_size .put).2
      (p.step capacity all.length batch_max_size.toNat .put).2 := by
  cases hticks : p.ticks with
  | nil =>
    have hstep : p.step capacity all.length batch_max_size.toNat .put = ([], p) := by
      simp only [Plain.step, hticks]
    rw [hstep]
    exact h.still hpos hb hstep rfl
  | cons tick rest =>
    have hstep : p.step capacity all.length batch_max_size.toNat .put =
        ([], { p with ticks := rest, queue := (push capacity p.queue tick).2 }) := by
      simp only [Plain.step, hticks]
    obtain ⟨hrefines, hbooks, hcommitted⟩ := h.silent hpos hb .put hstep
    obtain ⟨pushed, hall, hfed⟩ := h.fed
    rw [hstep]
    refine ⟨hrefines, hbooks, ⟨pushed ++ [tick], ?_, hfed.push hpos h.books.fits tick⟩, h.aggs_eq,
      hcommitted ▸ h.rows⟩
    rw [hall, hticks]
    simp

/-- A drain applies its batch. -/
theorem BatchedBooks.drain (hpos : 0 < capacity) (hb : 0 ≤ batch_max_size)
    (h : BatchedBooks capacity all taken s p) :
    ∃ taken', BatchedBooks capacity all taken' (s.step all.length batch_max_size .drain).2
      (p.step capacity all.length batch_max_size.toNat .drain).2 := by
  have hguard : (s.run.batch.isEmpty ∧ s.run.processed < all.length) ↔
      (p.batch.isEmpty ∧ p.processed < all.length) := by
    rw [h.refines.batch_eq, h.refines.processed_eq, List.isEmpty_map]
  by_cases hidle : p.batch.isEmpty ∧ p.processed < all.length
  · have hstep : p.step capacity all.length batch_max_size.toNat .drain =
        ([], { p with
          batch := (take p.queue (some batch_max_size.toNat)).1
          queue := (take p.queue (some batch_max_size.toNat)).2 }) := by
      simp only [Plain.step, if_pos hidle]
    obtain ⟨hrefines, hbooks, hcommitted⟩ := h.silent hpos hb .drain hstep
    obtain ⟨pushed, hall, hfed⟩ := h.fed
    obtain ⟨counted, htaken, hrows, hcounted⟩ := h.rows
    rw [List.isEmpty_iff.mp hidle.1, List.append_nil] at htaken
    rw [hstep]
    refine ⟨taken ++ (take p.queue (some batch_max_size.toNat)).1, hrefines, hbooks,
      ⟨pushed, hall, hfed.take _⟩, ?_, ⟨counted, by rw [htaken], hcommitted ▸ hrows, hcounted⟩⟩
    simp only [BatchedRun.step, if_pos (hguard.mpr hidle), hrefines.batch_eq, some_reduceOption,
      List.foldl_append, h.aggs_eq]
  · have hstep : p.step capacity all.length batch_max_size.toNat .drain = ([], p) := by
      simp only [Plain.step, if_neg hidle]
    rw [hstep]
    refine ⟨taken, h.still hpos hb hstep ?_⟩
    simp only [BatchedRun.step, if_neg (fun hg => hidle (hguard.mp hg))]

/-- A commit counts the batch, and its rows are there. -/
theorem BatchedBooks.commit (hpos : 0 < capacity) (hb : 0 ≤ batch_max_size)
    (h : BatchedBooks capacity all taken s p) :
    BatchedBooks capacity all taken (s.step all.length batch_max_size .commit).2
      (p.step capacity all.length batch_max_size.toNat .commit).2 := by
  obtain ⟨hrefines, hbooks, hcommitted⟩ := h.turn hpos hb .commit rfl
  obtain ⟨counted, htaken, hrows, hcounted⟩ := h.rows
  refine ⟨hrefines, hbooks, h.fed, h.aggs_eq, ⟨taken, ?_, ?_, ?_⟩⟩
  · simp [Plain.step]
  · rw [hcommitted, hrows, htaken, some_reduceOption, List.map_append]
  · rw [htaken, List.length_append, hcounted]
    rfl

theorem step_batched (hpos : 0 < capacity) (hb : 0 ≤ batch_max_size) (turn : Turn)
    (h : BatchedBooks capacity all taken s p) :
    ∃ taken', BatchedBooks capacity all taken' (s.step all.length batch_max_size turn).2
      (p.step capacity all.length batch_max_size.toNat turn).2 := by
  cases turn with
  | put => exact ⟨taken, h.put hpos hb⟩
  | drain => exact h.drain hpos hb
  | commit => exact ⟨taken, h.commit hpos hb⟩

end turns

theorem run_batched {capacity : Nat} (hpos : 0 < capacity) {batch_max_size : Int}
    (hb : 0 ≤ batch_max_size) (ticks : List Tick) (turns : List Turn) :
    ∃ p taken, BatchedBooks capacity ticks taken
      (run (BatchedRun.step ticks.length batch_max_size) (BatchedRun.new ticks capacity) turns).2 p := by
  refine run_invariant (BatchedRun.step ticks.length batch_max_size)
    (P := fun s => ∃ p taken, BatchedBooks capacity ticks taken s p) ?_ ?_ turns
  · rintro s turn ⟨p, taken, h⟩
    exact ⟨_, step_batched hpos hb turn h⟩
  · exact ⟨Plain.new ticks, [], ⟨⟨rfl, rfl, holds_new capacity hpos, rfl, rfl⟩,
      books_new capacity ticks, ⟨[], rfl, fed_empty⟩, rfl, ⟨[], rfl, rfl, rfl⟩⟩⟩

section batched

variable {capacity : Nat} {all taken : List Tick} {s : BatchedRun} {p : Plain Tick}

/-- The drained ticks are some of all, in their order. -/
theorem BatchedBooks.taken_sublist (h : BatchedBooks capacity all taken s p) : taken.Sublist all := by
  obtain ⟨pushed, hall, hfed⟩ := h.fed
  rw [hall]
  exact ((List.sublist_append_left _ _).trans hfed.in_order).trans (List.sublist_append_left _ _)

theorem BatchedBooks.in_order (h : BatchedBooks capacity all taken s p) :
    s.committed.Sublist (all.map row) := by
  obtain ⟨counted, htaken, hcommitted, -⟩ := h.rows
  rw [hcommitted]
  refine (List.Sublist.trans ?_ h.taken_sublist).map row
  rw [htaken]
  exact List.sublist_append_left _ _

/-- Once all ticks are counted, all of them were drained, and no batch is left. -/
theorem BatchedBooks.finished (h : BatchedBooks capacity all taken s p)
    (hdone : s.run.processed = all.length) :
    s.committed = all.map row ∧ s.aggs = all.foldl apply_tick new_aggregators := by
  obtain ⟨counted, htaken, hcommitted, hcounted⟩ := h.rows
  have hcount : counted.length = all.length :=
    hcounted.trans (h.refines.processed_eq.symm.trans hdone)
  have hsub : counted.Sublist taken := htaken ▸ List.sublist_append_left _ _
  have hall : counted = all := (hsub.trans h.taken_sublist).eq_of_length hcount
  have htaken_all : taken = all :=
    h.taken_sublist.eq_of_length (Nat.le_antisymm h.taken_sublist.length_le (hcount ▸ hsub.length_le))
  exact ⟨hall ▸ hcommitted, htaken_all ▸ h.aggs_eq⟩

end batched

/-! ## The two runs -/

/-- Whatever the pace of the producers, with a capacity and a batch size of 1 or more: the table of the
naive run is always a first part of the rows of the ticks, and that of the batched run is some of them
in their order. A run whose consumer has come to its end has them all, and its aggregators are those of the
plain loop over the ticks, so the two runs have then computed the same. -/
theorem the_two_runs_of_the_benchmark_compute_the_same (ticks : List Tick) (ring_capacity : Nat)
    (hcap : 1 ≤ ring_capacity) (batch_max_size : Int) (hb : 1 ≤ batch_max_size)
    (naiveTurns : List NaiveTurn) (turns : List Turn) :
    let n := ticks.length
    let naive := (run (Naive.step n) (Naive.new ticks) naiveTurns).2
    let batched := (run (BatchedRun.step n batch_max_size) (BatchedRun.new ticks ring_capacity) turns).2
    naive.committed <+: ticks.map row ∧ batched.committed.Sublist (ticks.map row) ∧
      (naive.processed = n → naive.committed = ticks.map row ∧
        naive.aggs = ticks.foldl apply_tick new_aggregators) ∧
      (batched.run.processed = n → batched.committed = ticks.map row ∧
        batched.aggs = ticks.foldl apply_tick new_aggregators) := by
  intro n naive batched
  obtain ⟨taken, hnaive⟩ := run_naive ticks naiveTurns
  obtain ⟨p, taken', hbatched⟩ := run_batched hcap (show 0 ≤ batch_max_size by omega) ticks turns
  exact ⟨hnaive.first, hbatched.in_order, hnaive.finished, hbatched.finished⟩

/-- Two ticks, with a batch for each. -/
theorem the_two_runs_of_the_benchmark_compute_the_same_of_two :
    let tick (id time : Int) : Tick := ⟨"BTCUSDT", 100, 1, id, time, false, 0⟩
    let ticks := [tick 1 1000, tick 2 2000]
    (run (BatchedRun.step 2 256) (BatchedRun.new ticks 4)
      [.put, .drain, .put, .commit, .drain, .commit]).2.committed = ticks.map row := by
  intro tick ticks
  have h := the_two_runs_of_the_benchmark_compute_the_same ticks 4 (by decide) 256 (by decide) []
    [.put, .drain, .put, .commit, .drain, .commit]
  exact (h.2.2.2 (by decide)).1

end tick_pipeline.load_test
