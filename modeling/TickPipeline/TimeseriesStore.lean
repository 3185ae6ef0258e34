-- The read side of `storage/timeseries_store.py`: candles come from the memory of the
-- pipeline, or from the table that the writer has filled.
import TickPipeline.Application

namespace tick_pipeline.timeseries_store

open runs models pipeline candles sqlite_store main

/-! ## The code -/

/-- The pipeline, and what a connection to the database reads. -/
structure TimeSeriesStore where
  pipeline : Pipeline
  db : Database

/-- The slice `xs[i:]`. A negative index counts from the end, and stops at the start. -/
def slice_from {α : Type} (i : Int) (xs : List α) : List α :=
  xs.drop (if i < 0 then (xs.length + i).toNat else i.toNat)

/-- The candles in memory, the open one last. -/
def TimeSeriesStore.get_candles (upper : Symbol → Symbol) (store : TimeSeriesStore)
    (symbol : Symbol) (timeframe_sec limit : Int) : List CandleDict :=
  let symbol := upper symbol
  match store.pipeline.candle_aggs.find? (fun agg => agg.timeframe_sec = timeframe_sec) with
  | none => []
  | some agg =>
    let candles := agg.history symbol ++ (agg.current symbol).toList
    (slice_from (-limit) candles).map Candle.to_dict

/-- `ORDER BY bucket_start_ms DESC`. -/
def order_by_desc (rows : List CandleRow) : List CandleRow :=
  rows.insertionSort (fun a b => b.bucket_start_ms ≤ a.bucket_start_ms)

/-- `LIMIT ?`. A negative limit is none. -/
def limit_to (limit : Int) (rows : List CandleRow) : List CandleRow :=
  if limit < 0 then rows else rows.take limit.toNat

/-- The candles in the table, the newest last. -/
def TimeSeriesStore.get_candles_from_db (upper : Symbol → Symbol) (store : TimeSeriesStore)
    (symbol : Symbol) (timeframe_sec limit : Int) : List CandleRow :=
  let rows := limit_to limit (order_by_desc (store.db.candles.filter
    (fun row => row.symbol = upper symbol ∧ row.timeframe_sec = timeframe_sec)))
  rows.reverse

/-- What the memory tier gives for a configured timeframe. -/
theorem get_candles_memory (upper : Symbol → Symbol) {cfg : Settings} {p : Pipeline}
    {symbol : Symbol} {tf : Int} {ticks : List Tick} (hcfg : Configured cfg p)
    (htf : tf ∈ cfg.candle_timeframes_sec) (h : Remembers p (upper symbol) ticks) (db : Database)
    (limit : Int) :
    TimeSeriesStore.get_candles upper ⟨p, db⟩ symbol tf limit =
      (slice_from (-limit) (memory tf cfg.candle_history_len ticks)).map Candle.to_dict := by
  unfold TimeSeriesStore.get_candles
  dsimp only
  rw [← hcfg.timeframes] at htf
  obtain ⟨agg, hagg, rfl⟩ := List.mem_map.mp htf
  cases hfind : p.candle_aggs.find? (fun a => a.timeframe_sec = agg.timeframe_sec) with
  | none => exact absurd (List.find?_eq_none.mp hfind agg hagg) (by simp)
  | some found =>
    have hsame : found.timeframe_sec = agg.timeframe_sec := by
      simpa using List.find?_some hfind
    have hfound := List.mem_of_find?_eq_some hfind
    obtain ⟨hopen, hhistory⟩ := h.stores found hfound
    rw [hsame] at hopen hhistory
    rw [(hcfg.aggregator hfound).2] at hhistory
    dsimp only
    rw [hopen, hhistory]
    rfl

/-! ## The pipeline with the writer as its sink -/

structure Backend where
  pipeline : Pipeline
  sqlite_writer : WriterTask

def Backend.new (upper : Symbol → Symbol) (cfg : Settings) (symbols : List Symbol) : Backend :=
  { pipeline := Pipeline.new upper cfg symbols true
    sqlite_writer := WriterTask.new }

/-- A call of `_process_batch`, or a step of the writer's task or of its `stop`. -/
inductive BackendOp
  | process_batch (symbol : Symbol) (ticks : List Tick)
  | wake
  | await (ok : Bool)
  | stop
  | resume_stop

def Backend.write (b : Backend) (op : TaskOp) : List Obs × Backend :=
  ([], { b with sqlite_writer := (b.sqlite_writer.step op).2 })

def Backend.step (b : Backend) : BackendOp → List Obs × Backend
  | .process_batch symbol ticks =>
    let (obs, pipeline) := b.pipeline.process_batch symbol ticks
    (obs, { pipeline, sqlite_writer := recordAll b.sqlite_writer obs })
  | .wake => b.write .wake
  | .await ok => b.write (.await ok)
  | .stop => b.write .stop
  | .resume_stop => b.write .resume_stop

/-- The pipeline and the writer after a run. -/
def Backend.after (upper : Symbol → Symbol) (cfg : Settings) (symbols : List Symbol)
    (ops : List BackendOp) : Backend :=
  (run Backend.step (Backend.new upper cfg symbols) ops).2

/-- What the read side finds. -/
def Backend.store (b : Backend) : TimeSeriesStore := ⟨b.pipeline, b.sqlite_writer.writer.db⟩

/-! ## Runs -/

/-- The ops of the writer's task that leave these records behind. -/
def Mirrors (records : List Record) (s : WriterTask) : Prop :=
  ∃ ops, s = WriterTask.after ops ∧
    ops.flatMap TaskOp.candles = (records.filterMap Record.candles).map candleRow

theorem Mirrors.write {records : List Record} {s : WriterTask} (h : Mirrors records s) {op : TaskOp}
    (hop : op.candles = []) : Mirrors records (s.step op).2 := by
  obtain ⟨ops, rfl, hc⟩ := h
  refine ⟨ops ++ [op], (WriterTask.after_append ops [op]).symm, ?_⟩
  rw [List.flatMap_append, List.flatMap_singleton, hop, List.append_nil, hc]

theorem Mirrors.recordAll {records : List Record} {s : WriterTask} (h : Mirrors records s)
    (obs : List Obs) : Mirrors (records ++ obs.flatMap Obs.records) (recordAll s obs) := by
  obtain ⟨ops, rfl, hc⟩ := h
  refine ⟨ops ++ (obs.flatMap Obs.records).map Record.call,
    (WriterTask.after_append ops _).symm, ?_⟩
  rw [List.flatMap_append, hc, record_candles, List.filterMap_append, List.map_append]

end tick_pipeline.timeseries_store
