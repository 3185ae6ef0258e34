-- The application of `main.py`: the exchange client feeds the pipeline, the pipeline
-- feeds the writer, and the end of `lifespan` stops the three in this order.
import TickPipeline.Held
import TickPipeline.SqliteStore

namespace tick_pipeline.main

open runs models pipeline sqlite_store

/-- How far the end of `lifespan` has come. -/
inductive Phase
  | running
  /-- The client and the heartbeat have ended. -/
  | client_stopped
  /-- The tasks of the pipeline have ended. -/
  | pipeline_stopped
deriving DecidableEq

structure App where
  pipeline : Pipeline
  sqlite_writer : WriterTask
  phase : Phase

/-- `lifespan` up to its `yield`. -/
def App.new (upper : Symbol → Symbol) (cfg : Settings) (symbols : List Symbol) : App :=
  { pipeline := Pipeline.new upper cfg symbols true
    sqlite_writer := WriterTask.new
    phase := .running }

/-- The call on the writer that a record is. -/
def Record.call : Record → TaskOp
  | .tick tick => .record_tick tick
  | .candle candle_dict => .record_candle candle_dict

/-- The writer, after what a step of the pipeline records. -/
def recordAll (s : WriterTask) (obs : List Obs) : WriterTask :=
  (run WriterTask.step s ((obs.flatMap Obs.records).map Record.call)).2

/-- The tick rows that records make. -/
theorem record_ticks (records : List Record) :
    (records.map Record.call).flatMap TaskOp.ticks = (records.filterMap Record.ticks).map tickRow := by
  induction records with
  | nil => rfl
  | cons r records ih =>
    cases r with
    | tick t => simp [ih, Record.call, TaskOp.ticks, Record.ticks]
    | candle d =>
      rw [List.filterMap_cons_none rfl, ← ih]
      rfl

/-- The candle rows that records make. -/
theorem record_candles (records : List Record) :
    (records.map Record.call).flatMap TaskOp.candles =
      (records.filterMap Record.candles).map candleRow := by
  induction records with
  | nil => rfl
  | cons r records ih =>
    cases r with
    | tick t =>
      rw [List.filterMap_cons_none rfl, ← ih]
      rfl
    | candle d => simp [ih, Record.call, TaskOp.candles, Record.candles]

/-- What can happen between two awaits. -/
inductive AppOp
  /-- The client receives a tick. -/
  | ingest (tick : Tick)
  | consume_symbol (symbol : Symbol)
  | rate_round (elapsed : ℚ)
  /-- The flush loop runs on. -/
  | wake
  /-- An await of a flush ends. -/
  | await (ok : Bool)
  /-- `exchange_client.stop()`, and the background tasks are cancelled and awaited. -/
  | stop_client
  /-- `pipeline.stop()`: its tasks are cancelled and awaited. -/
  | stop_pipeline
  /-- `sqlite_writer.stop()` is called. -/
  | stop_writer
  /-- `sqlite_writer.stop()` runs on. -/
  | resume_stop

/-- What a step puts in the ring buffers, and what it writes over there. -/
structure Intake where
  accepted : List Tick
  overwritten : List Tick

def Intake.none : Intake := ⟨[], []⟩

/-- A turn that a task of the pipeline takes, with what it records. -/
def App.turn (a : App) (r : List Obs × Pipeline) : Intake × App :=
  if a.phase = .pipeline_stopped then (.none, a)
  else (.none, { a with pipeline := r.2, sqlite_writer := recordAll a.sqlite_writer r.1 })

/-- A step of the writer's task, or of its `stop`. -/
def App.write (a : App) (op : TaskOp) : Intake × App :=
  (.none, { a with sqlite_writer := (a.sqlite_writer.step op).2 })

/-- A cancelled task takes no further turn: what a consumer has drained it has processed, or its
sequencer holds it. -/
def App.step (cfg : Settings) (a : App) : AppOp → Intake × App
  | .ingest tick =>
    if a.phase = .running then
      (⟨a.pipeline.accepts tick, a.pipeline.overwrites tick⟩,
        { a with pipeline := a.pipeline.ingest tick })
    else (.none, a)
  | .consume_symbol symbol => a.turn (a.pipeline.consume_symbol cfg symbol)
  | .rate_round elapsed => a.turn (a.pipeline.rate_round elapsed)
  | .wake => a.write .wake
  | .await ok => a.write (.await ok)
  | .stop_client => (.none, if a.phase = .running then { a with phase := .client_stopped } else a)
  | .stop_pipeline =>
    (.none, if a.phase = .client_stopped then { a with phase := .pipeline_stopped } else a)
  | .stop_writer => if a.phase = .pipeline_stopped then a.write .stop else (.none, a)
  | .resume_stop => a.write .resume_stop

/-- The application after a run. -/
def App.after (upper : Symbol → Symbol) (cfg : Settings) (symbols : List Symbol)
    (ops : List AppOp) : App :=
  (run (App.step cfg) (App.new upper cfg symbols) ops).2

/-- The ticks that a run put in the ring buffers. -/
def accepted (upper : Symbol → Symbol) (cfg : Settings) (symbols : List Symbol)
    (ops : List AppOp) : List Tick :=
  (run (App.step cfg) (App.new upper cfg symbols) ops).1.flatMap Intake.accepted

/-- The ticks that a run wrote over there. -/
def overwritten (upper : Symbol → Symbol) (cfg : Settings) (symbols : List Symbol)
    (ops : List AppOp) : List Tick :=
  (run (App.step cfg) (App.new upper cfg symbols) ops).1.flatMap Intake.overwritten

end tick_pipeline.main
