-- The buffered writer of `storage/sqlite_store.py`: rows gather in two buffers, and a
-- flush swaps the buffers out and writes them in one transaction. The steps are what
-- the code does between two awaits, and any await on the database may raise.
import TickPipeline.Models
import TickPipeline.Lib.Runs
import TickPipeline.Lib.KeyedTable

namespace tick_pipeline.sqlite_store

open runs models keyed_table

/-! ## The tables -/

/-- A row of the ticks table. -/
structure TickRow where
  symbol : Symbol
  price : ℚ
  quantity : ℚ
  trade_id : Int
  event_time_ms : Int
  recv_time_ms : Int
deriving DecidableEq

/-- A row of the candles table. -/
structure CandleRow where
  symbol : Symbol
  timeframe_sec : Int
  bucket_start_ms : Int
  open_ : ℚ
  high : ℚ
  low : ℚ
  close : ℚ
  volume : ℚ
  trade_count : Nat
deriving DecidableEq

def tickRow (tick : Tick) : TickRow :=
  { symbol := tick.symbol
    price := tick.price
    quantity := tick.quantity
    trade_id := tick.trade_id
    event_time_ms := tick.event_time_ms
    recv_time_ms := tick.recv_time_ms }

def candleRow (candle_dict : CandleDict) : CandleRow :=
  { symbol := candle_dict.symbol
    timeframe_sec := candle_dict.timeframe_sec
    bucket_start_ms := candle_dict.bucket_start_ms
    open_ := candle_dict.open_
    high := candle_dict.high
    low := candle_dict.low
    close := candle_dict.close
    volume := candle_dict.volume
    trade_count := candle_dict.trade_count }

/-- The primary key of the candles table. The ticks table has none. -/
def CandleRow.key (row : CandleRow) : Symbol × Int × Int :=
  (row.symbol, row.timeframe_sec, row.bucket_start_ms)

structure Database where
  ticks : List TickRow
  candles : List CandleRow

/-- `INSERT INTO ticks`, with `executemany`. -/
def Database.insert_ticks (db : Database) (rows : List TickRow) : Database :=
  { db with ticks := db.ticks ++ rows }

/-- `INSERT OR REPLACE INTO candles`, with `executemany`. -/
def Database.insert_candles (db : Database) (rows : List CandleRow) : Database :=
  { db with candles := replaceAll CandleRow.key db.candles rows }

/-! ## The writer -/

/-- The awaits of `_flush`. The last one is that of the `async with`, which closes the
connection. -/
inductive Await
  | connect
  | insert_ticks
  | insert_candles
  | commit
  | close
deriving DecidableEq

/-- A flush on its way: the rows it swapped out, the await it stands at, and what its
transaction would leave behind. -/
structure Flush where
  ticks : List TickRow
  candles : List CandleRow
  at_ : Await
  tx : Database

/-- The writer, with the database it writes to. -/
structure SQLiteWriter where
  tick_buffer : List TickRow
  candle_buffer : List CandleRow
  rows_written : Nat
  flush_count : Nat
  flush : Option Flush
  db : Database

/-- The writer as `start` leaves it: the schema is there, and the tables are empty. -/
def SQLiteWriter.new : SQLiteWriter :=
  { tick_buffer := []
    candle_buffer := []
    rows_written := 0
    flush_count := 0
    flush := none
    db := ⟨[], []⟩ }

def SQLiteWriter.record_tick (w : SQLiteWriter) (tick : Tick) : SQLiteWriter :=
  { w with tick_buffer := w.tick_buffer ++ [tickRow tick] }

def SQLiteWriter.record_candle (w : SQLiteWriter) (candle_dict : CandleDict) : SQLiteWriter :=
  { w with candle_buffer := w.candle_buffer ++ [candleRow candle_dict] }

/-- `_flush` up to its first await. With both buffers empty it returns at once. -/
def SQLiteWriter.begin_flush (w : SQLiteWriter) : SQLiteWriter :=
  if w.tick_buffer = [] ∧ w.candle_buffer = [] then w
  else
    { w with
      tick_buffer := []
      candle_buffer := []
      flush := some
        { ticks := w.tick_buffer
          candles := w.candle_buffer
          at_ := .connect
          tx := w.db } }

/-- The next await, where the code has `if candles`. -/
def Flush.after_ticks (f : Flush) : Await := if f.candles = [] then .commit else .insert_candles

/-- The next await, where the code has `if ticks`. -/
def Flush.after_connect (f : Flush) : Await := if f.ticks = [] then f.after_ticks else .insert_ticks

/-- `_flush` from the await it stands at to the next one, when the await returns. -/
def SQLiteWriter.advance (w : SQLiteWriter) (f : Flush) : SQLiteWriter :=
  match f.at_ with
  | .connect => { w with flush := some { f with at_ := f.after_connect, tx := w.db } }
  | .insert_ticks =>
    { w with flush := some { f with at_ := f.after_ticks, tx := f.tx.insert_ticks f.ticks } }
  | .insert_candles =>
    { w with flush := some { f with at_ := .commit, tx := f.tx.insert_candles f.candles } }
  | .commit => { w with flush := some { f with at_ := .close }, db := f.tx }
  | .close =>
    { w with
      flush := none
      rows_written := w.rows_written + (f.ticks.length + f.candles.length)
      flush_count := w.flush_count + 1 }

/-- One await of the flush on its way, which returns or raises. Nothing catches the exception:
it ends the flush, and the connection closes on an open transaction. -/
def SQLiteWriter.await (w : SQLiteWriter) (ok : Bool) : SQLiteWriter :=
  match w.flush with
  | none => w
  | some f => if ok then w.advance f else { w with flush := none }

/-! ## Calls and flushes in any order -/

/-- A call on the writer, or an await that ends. -/
inductive WriterOp
  | record_tick (tick : Tick)
  | record_candle (candle_dict : CandleDict)
  | flush
  | await (ok : Bool)

/-- One flush runs at a time: the loop and `stop` each await theirs, and `stop` awaits the loop. -/
def SQLiteWriter.step (w : SQLiteWriter) : WriterOp → Unit × SQLiteWriter
  | .record_tick tick => ((), w.record_tick tick)
  | .record_candle candle_dict => ((), w.record_candle candle_dict)
  | .flush => ((), if w.flush.isSome then w else w.begin_flush)
  | .await ok => ((), w.await ok)

/-- The writer after a run. -/
def SQLiteWriter.after (ops : List WriterOp) : SQLiteWriter :=
  (run SQLiteWriter.step SQLiteWriter.new ops).2

theorem SQLiteWriter.after_append (before ops : List WriterOp) :
    SQLiteWriter.after (before ++ ops) = (run SQLiteWriter.step (SQLiteWriter.after before) ops).2 := by
  unfold SQLiteWriter.after
  rw [run_append]

/-- The tick row that an op records. -/
def WriterOp.ticks : WriterOp → List TickRow
  | .record_tick tick => [tickRow tick]
  | .record_candle _ => []
  | .flush => []
  | .await _ => []

/-- The candle row that an op records. -/
def WriterOp.candles : WriterOp → List CandleRow
  | .record_tick _ => []
  | .record_candle candle_dict => [candleRow candle_dict]
  | .flush => []
  | .await _ => []

/-! ## The loop, and `stop` -/

/-- Where the task of `_flush_loop` stands. -/
inductive LoopTask
  | created
  | sleeping
  | flushing
  | finished
  | failed
deriving DecidableEq

/-- Where the call of `stop` stands. -/
inductive StopCall
  | not_called
  | waiting
  | flushing
  | returned
  | raised
deriving DecidableEq

/-- The writer with its task. -/
structure WriterTask where
  writer : SQLiteWriter
  stop : Bool
  task : LoopTask
  stop_call : StopCall

/-- After `start`. -/
def WriterTask.new : WriterTask :=
  { writer := SQLiteWriter.new
    stop := false
    task := .created
    stop_call := .not_called }

/-- `while not self._stop.is_set()`. -/
def WriterTask.loop_head (s : WriterTask) : WriterTask :=
  { s with task := if s.stop then .finished else .sleeping }

inductive TaskOp
  | record_tick (tick : Tick)
  | record_candle (candle_dict : CandleDict)
  /-- The loop runs on: for the first time, or out of its sleep. -/
  | wake
  | await (ok : Bool)
  /-- `stop` is called. -/
  | stop
  /-- `stop` runs on, once the task has ended. -/
  | resume_stop

/-- The loop out of its sleep. -/
def WriterTask.wake (s : WriterTask) : WriterTask :=
  match s.task with
  | .created => s.loop_head
  | .sleeping =>
    let s := { s with writer := s.writer.begin_flush }
    if s.writer.flush.isSome then { s with task := .flushing } else s.loop_head
  | .flushing => s
  | .finished => s
  | .failed => s

/-- One await of a flush, which the loop or `stop` runs. An exception ends its caller too. -/
def WriterTask.await (s : WriterTask) (ok : Bool) : WriterTask :=
  let running := s.writer.flush.isSome
  let s := { s with writer := s.writer.await ok }
  if running && s.writer.flush.isNone then
    if s.task = .flushing then
      if ok then s.loop_head else { s with task := .failed }
    else { s with stop_call := if ok then .returned else .raised }
  else s

/-- `stop`, up to its first await. It is called once. -/
def WriterTask.call_stop (s : WriterTask) : WriterTask :=
  match s.stop_call with
  | .not_called => { s with stop := true, stop_call := .waiting }
  | .waiting => s
  | .flushing => s
  | .returned => s
  | .raised => s

/-- `stop` after `await self._task`, which raises what ended the task. -/
def WriterTask.resume_stop (s : WriterTask) : WriterTask :=
  match s.stop_call, s.task with
  | .waiting, .finished =>
    let s := { s with writer := s.writer.begin_flush }
    { s with stop_call := if s.writer.flush.isSome then .flushing else .returned }
  | .waiting, .failed => { s with stop_call := .raised }
  | _, _ => s

def WriterTask.step (s : WriterTask) : TaskOp → Unit × WriterTask
  | .record_tick tick => ((), { s with writer := s.writer.record_tick tick })
  | .record_candle candle_dict => ((), { s with writer := s.writer.record_candle candle_dict })
  | .wake => ((), s.wake)
  | .await ok => ((), s.await ok)
  | .stop => ((), s.call_stop)
  | .resume_stop => ((), s.resume_stop)

/-- The writer and its task after a run. -/
def WriterTask.after (ops : List TaskOp) : WriterTask := (run WriterTask.step WriterTask.new ops).2

theorem WriterTask.after_append (before ops : List TaskOp) :
    WriterTask.after (before ++ ops) = (run WriterTask.step (WriterTask.after before) ops).2 := by
  unfold WriterTask.after
  rw [run_append]

/-- The tick row that an op records. -/
def TaskOp.ticks : TaskOp → List TickRow
  | .record_tick tick => [tickRow tick]
  | .record_candle _ => []
  | .wake => []
  | .await _ => []
  | .stop => []
  | .resume_stop => []

/-- The candle row that an op records. -/
def TaskOp.candles : TaskOp → List CandleRow
  | .record_tick _ => []
  | .record_candle candle_dict => [candleRow candle_dict]
  | .wake => []
  | .await _ => []
  | .stop => []
  | .resume_stop => []

end tick_pipeline.sqlite_store
