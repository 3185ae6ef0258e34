-- The REST routes of `api/routes.py`, and what they tell: after any run of the server, each
-- answer is a function of the ticks that were processed of its symbol.
import TickPipeline.Server
import TickPipeline.LaneRuns
import TickPipeline.TimeseriesStore
import TickPipeline.ConnectionLoop

namespace tick_pipeline.routes

open runs models candles pipeline sqlite_store timeseries_store main coinbase_client ws_broadcast

/-! ## The code -/

structure HTTPException where
  status_code : Nat
  detail : String
deriving DecidableEq

inductive Source
  | memory
  | db
deriving DecidableEq

/-- The query of `get_candles`. What is out of these bounds does not come to the route. -/
structure CandlesQuery where
  timeframe : Int := 60
  limit : Int := 200
  source : Source := .memory
  limit_ge : 1 ≤ limit := by decide
  limit_le : limit ≤ 2000 := by decide

/-- The candles of an answer, or the rows of one from the table. -/
inductive Candles
  | memory (candles : List CandleDict)
  | db (rows : List CandleRow)

structure CandlesAnswer where
  symbol : Symbol
  timeframe_sec : Int
  candles : Candles

structure VwapAnswer where
  symbol : Symbol
  vwap : ℚ
  window_sec : Int
deriving DecidableEq

structure MovingAverageAnswer where
  symbol : Symbol
  moving_averages : MovingAverages
deriving DecidableEq

/-- The answer of `get_stats`, less the uptime. -/
structure StatsAnswer where
  symbols : List SymbolStats
  connected_clients : Nat
  exchange_connected : Bool
  exchange_reconnects : Nat

section routes

variable {Ws : Type} [DecidableEq Ws] (upper : Symbol → Symbol)

def Pipeline.timeframes (p : Pipeline) : List Int := p.candle_aggs.map (·.timeframe_sec)

/-- The first check of a route about a symbol. -/
def known_symbol (p : Pipeline) (symbol : Symbol) : Except HTTPException Symbol :=
  let symbol := upper symbol
  if symbol ∈ p.symbols then .ok symbol
  else .error { status_code := 404, detail := s!"unknown symbol {symbol}" }

def get_symbols (p : Pipeline) : List Symbol × List Int := (p.symbols, Pipeline.timeframes p)

def get_candles (p : Pipeline) (db : Database) (symbol : Symbol) (q : CandlesQuery) :
    Except HTTPException CandlesAnswer := do
  let symbol ← known_symbol upper p symbol
  if q.timeframe ∉ Pipeline.timeframes p then
    throw
      { status_code := 400
        detail := s!"unsupported timeframe {q.timeframe}, choose from {Pipeline.timeframes p}" }
  let store : TimeSeriesStore := ⟨p, db⟩
  let candles := match q.source with
    | .db => Candles.db (store.get_candles_from_db upper symbol q.timeframe q.limit)
    | .memory => Candles.memory (store.get_candles upper symbol q.timeframe q.limit)
  return { symbol, timeframe_sec := q.timeframe, candles }

/-- `TimeSeriesStore.get_vwap`. -/
def store_vwap (p : Pipeline) (symbol : Symbol) : ℚ :=
  if upper symbol ∈ p.symbols then (p.stats (upper symbol)).vwap else 0

/-- `TimeSeriesStore.get_moving_averages`. -/
def store_moving_averages (p : Pipeline) (symbol : Symbol) : MovingAverages :=
  if upper symbol ∈ p.symbols then (p.stats (upper symbol)).moving_averages else []

def get_vwap (cfg : Settings) (p : Pipeline) (symbol : Symbol) : Except HTTPException VwapAnswer := do
  let symbol ← known_symbol upper p symbol
  return { symbol, vwap := store_vwap upper p symbol, window_sec := cfg.vwap_window_sec }

def get_moving_average (p : Pipeline) (symbol : Symbol) :
    Except HTTPException MovingAverageAnswer := do
  let symbol ← known_symbol upper p symbol
  return { symbol, moving_averages := store_moving_averages upper p symbol }

def get_stats (srv : Server Ws) (exchange_client : Loop) : StatsAnswer :=
  { symbols := Pipeline.snapshot_stats srv.pipeline
    connected_clients := srv.broadcast._clients.keys.length
    exchange_connected := exchange_client.connected
    exchange_reconnects := exchange_client.reconnect_count }

end routes

/-! ## The stats of a symbol, as a function of its ticks -/

/-- The averages after the last tick. -/
def averagesShown (cfg : Settings) (ticks : List Tick) : MovingAverages :=
  match ticks.getLast? with
  | none => []
  | some t => averagesAfter cfg ticks.dropLast t

/-- The stats tell of these ticks of the symbol. -/
structure Tells (cfg : Settings) (symbol : Symbol) (ticks : List Tick) (stat : SymbolStats) : Prop where
  symbol_eq : stat.symbol = symbol
  msgs_total : stat.msgs_total = ticks.length
  last_price : stat.last_price = (ticks.getLast?.map (·.price)).getD 0
  vwap : stat.vwap = vwapAfter cfg ticks
  moving_averages : stat.moving_averages = averagesShown cfg ticks

section stats

variable {cfg : Settings} {symbol : Symbol} {ticks : List Tick} {stat : SymbolStats}

theorem tells_new (cfg : Settings) (symbol : Symbol) : Tells cfg symbol [] { symbol } :=
  ⟨rfl, rfl, rfl, rfl, rfl⟩

theorem Tells.tick (h : Tells cfg symbol ticks stat) (t : Tick) :
    Tells cfg symbol (ticks ++ [t]) (tickStat cfg ticks t stat) := by
  refine ⟨h.symbol_eq, ?_, ?_, rfl, ?_⟩
  · simp [tickStat, h.msgs_total]
  · simp [tickStat]
  · simp [tickStat, averagesShown]

theorem Tells.batch (h : Tells cfg symbol ticks stat) (now : List Tick) :
    Tells cfg symbol (ticks ++ now) (ticksStat cfg ticks now stat) := by
  induction now generalizing ticks stat with
  | nil => rwa [List.append_nil]
  | cons t now ih =>
    rw [List.append_cons]
    exact ih (h.tick t)

/-- What a lane keeps as its stats. -/
theorem run_tells (cfg : Settings) (persistence : Bool) (symbol : Symbol) (lops : List LaneOp) :
    let lane := (run (Lane.step cfg persistence symbol) (Lane.new cfg symbol) lops).2
    Tells cfg symbol lane.processed lane.stat := by
  refine run_invariant (Lane.step cfg persistence symbol)
    (P := fun lane => Tells cfg symbol lane.processed lane.stat) ?_ (tells_new cfg symbol) lops
  intro lane op h
  cases op with
  | push t => exact h
  | turn =>
    unfold Lane.step Lane.turn
    dsimp only
    rcases gather cfg lane.ring_buffer lane.sequencer with ⟨_ | _ | ⟨t, rest⟩, buf, seq⟩
    · exact h
    · exact h
    · obtain ⟨h1, h2, h3, h4, h5⟩ := h.batch (t :: rest)
      exact ⟨h1, h2, h3, h4, h5⟩

end stats

/-! ## The answers after a run -/

section answers

variable {Ws : Type} [DecidableEq Ws] (upper : Symbol → Symbol) (cfg : Settings)
variable (symbols : List Symbol) (persistence : Bool)

/-- What the pipeline of the server holds of a symbol. -/
theorem run_server_symbol (ops : List (ServerOp Ws)) {s : Symbol} (hs : s ∈ symbols.map upper) :
    let r := run (Server.step cfg) (Server.new Ws upper cfg symbols persistence) ops
    Sound cfg (symbols.map upper) persistence r.2.pipeline ∧
      Remembers r.2.pipeline s (processedOf s (r.1.flatMap Given.obs)) ∧
      Tells cfg s (processedOf s (r.1.flatMap Given.obs)) (withoutRate (r.2.pipeline.stats s)) := by
  intro r
  obtain ⟨hobs, hstate⟩ := run_server_pipeline cfg (Server.new Ws upper cfg symbols persistence) ops
  obtain ⟨hfilter, hsound, hlane⟩ :=
    run_lane upper cfg symbols persistence hs (ops.filterMap ServerOp.ofPipeline)
  have hrun := run_laneRun cfg persistence s _ (own_ops s (ops.filterMap ServerOp.ofPipeline))
  have htells := run_tells cfg persistence s
    ((ops.filterMap ServerOp.ofPipeline).flatMap (Op.own s))
  dsimp only at hrun htells
  rw [← hlane.stat_eq] at htells
  have hprocessed := (congrArg (List.flatMap Obs.processed) hfilter).trans hrun.processed_eq
  change processedOf s _ = _ at hprocessed
  rw [show r.2.pipeline = _ from hstate, show r.1.flatMap Given.obs = _ from hobs]
  rw [← hprocessed] at htells
  have hheld := hlane.remembers
  rw [← hprocessed] at hheld
  exact ⟨hsound, hheld, htells⟩

theorem mem_timeframes {p : Pipeline} (hcfg : Configured cfg p) (tf : Int) :
    tf ∈ Pipeline.timeframes p ↔ tf ∈ cfg.candle_timeframes_sec := by
  unfold Pipeline.timeframes
  rw [hcfg.timeframes]

section candles

variable {upper cfg} {p : Pipeline} {db : Database} {symbol s : Symbol} {q : CandlesQuery}

theorem get_candles_unsupported (hcfg : Configured cfg p)
    (hknown : known_symbol upper p symbol = .ok s) (htf : q.timeframe ∉ cfg.candle_timeframes_sec) :
    get_candles upper p db symbol q = .error
      ⟨400, s!"unsupported timeframe {q.timeframe}, choose from {cfg.candle_timeframes_sec}"⟩ := by
  unfold get_candles
  rw [hknown]
  simp only [bind, Except.bind]
  rw [if_pos (fun h => htf ((mem_timeframes cfg hcfg _).mp h)), ← hcfg.timeframes]
  rfl

theorem get_candles_from_memory (hcfg : Configured cfg p)
    (hknown : known_symbol upper p symbol = .ok s) (htf : q.timeframe ∈ cfg.candle_timeframes_sec)
    (hsource : q.source = .memory) {ticks : List Tick} (hheld : Remembers p (upper s) ticks) :
    get_candles upper p db symbol q = .ok ⟨s, q.timeframe, .memory
      ((slice_from (-q.limit) (memory q.timeframe cfg.candle_history_len ticks)).map
        Candle.to_dict)⟩ := by
  unfold get_candles
  rw [hknown]
  simp only [bind, Except.bind, pure, Except.pure]
  rw [if_neg (not_not.mpr ((mem_timeframes cfg hcfg _).mpr htf)), hsource]
  dsimp only
  rw [get_candles_memory upper hcfg htf hheld]

end candles

/-- In every run, the routes know the configured symbols, in any case, and no others. For these they
answer from the processed ticks of the symbol alone: of the candles that the ticks make, memory keeps
the newest in the history and the open one, and the answer is the last `limit` of these; the VWAP is
that of the window after the last tick, and so are the averages. The stats tell of the same ticks, once
for each symbol. -/
theorem the_routes_answer_from_the_processed_ticks (hupper : ∀ s, upper (upper s) = upper s)
    (ops : List (ServerOp Ws)) (db : Database) (exchange_client : Loop) (symbol : Symbol)
    (q : CandlesQuery) :
    let r := run (Server.step cfg) (Server.new Ws upper cfg symbols persistence) ops
    let p := r.2.pipeline
    let s := upper symbol
    let processed (s : Symbol) := processedOf s (r.1.flatMap Given.obs)
    get_symbols p = (symbols.map upper, cfg.candle_timeframes_sec) ∧
    (s ∉ symbols.map upper →
      let unknown : HTTPException := ⟨404, s!"unknown symbol {s}"⟩
      get_candles upper p db symbol q = .error unknown ∧ get_vwap upper cfg p symbol = .error unknown ∧
        get_moving_average upper p symbol = .error unknown) ∧
    (s ∈ symbols.map upper →
      get_vwap upper cfg p symbol = .ok ⟨s, vwapAfter cfg (processed s), cfg.vwap_window_sec⟩ ∧
      get_moving_average upper p symbol = .ok ⟨s, averagesShown cfg (processed s)⟩ ∧
      (q.timeframe ∉ cfg.candle_timeframes_sec → get_candles upper p db symbol q = .error
        ⟨400, s!"unsupported timeframe {q.timeframe}, choose from {cfg.candle_timeframes_sec}"⟩) ∧
      (q.timeframe ∈ cfg.candle_timeframes_sec → q.source = .memory →
        get_candles upper p db symbol q = .ok ⟨s, q.timeframe, .memory
          ((slice_from (-q.limit) (memory q.timeframe cfg.candle_history_len (processed s))).map
            Candle.to_dict)⟩)) ∧
    (get_stats r.2 exchange_client).symbols.map (·.symbol) = (symbols.map upper).eraseDups ∧
    ∀ stat ∈ (get_stats r.2 exchange_client).symbols,
      Tells cfg stat.symbol (processed stat.symbol) (withoutRate stat) := by
  intro r p s processed
  have hsound : Sound cfg (symbols.map upper) persistence p := by
    have hstate := (run_server_pipeline cfg (Server.new Ws upper cfg symbols persistence) ops).2
    rw [show p = _ from hstate]
    exact run_sound upper cfg symbols persistence _
  have hstats : ∀ s' ∈ symbols.map upper, Tells cfg s' (processed s') (withoutRate (p.stats s').to_dict) := by
    intro s' hs'
    obtain ⟨h1, h2, h3, h4, h5⟩ := (run_server_symbol upper cfg symbols persistence ops hs').2.2
    exact ⟨h1, h2, h3, h4, h5⟩
  have hshown : (get_stats r.2 exchange_client).symbols =
      (symbols.map upper).eraseDups.map (fun s' => (p.stats s').to_dict) := by
    rw [← hsound.symbols_eq]
    rfl
  have hname : ∀ s' ∈ (symbols.map upper).eraseDups, (p.stats s').to_dict.symbol = s' :=
    fun s' hs' => (hstats s' (List.mem_eraseDups.mp hs')).symbol_eq
  refine ⟨Prod.ext hsound.symbols_eq hsound.configured.timeframes, fun hs => ?_, fun hs => ?_, ?_, ?_⟩
  · have hnone : known_symbol upper p symbol = .error ⟨404, s!"unknown symbol {s}"⟩ :=
      if_neg (by rw [hsound.symbols_eq]; exact hs)
    unfold get_candles get_vwap get_moving_average
    rw [hnone]
    exact ⟨rfl, rfl, rfl⟩
  · obtain ⟨-, hremembers, htells⟩ := run_server_symbol upper cfg symbols persistence ops hs
    have hknown : known_symbol upper p symbol = .ok s := if_pos (by rw [hsound.symbols_eq]; exact hs)
    have hmem : upper s ∈ p.symbols := by
      rw [hsound.symbols_eq, hupper]
      exact hs
    have hvwap : (p.stats s).vwap = _ := htells.vwap
    have haverages : (p.stats s).moving_averages = _ := htells.moving_averages
    have hheld : Remembers p (upper s) (processed s) := by
      rw [show upper s = s from hupper symbol]
      exact hremembers
    refine ⟨?_, ?_, get_candles_unsupported hsound.configured hknown, fun htf hsource =>
      get_candles_from_memory hsound.configured hknown htf hsource hheld⟩
    · unfold get_vwap store_vwap
      rw [hknown]
      simp only [bind, Except.bind, pure, Except.pure, if_pos hmem]
      rw [show upper s = s from hupper symbol, hvwap]
    · unfold get_moving_average store_moving_averages
      rw [hknown]
      simp only [bind, Except.bind, pure, Except.pure, if_pos hmem]
      rw [show upper s = s from hupper symbol, haverages]
  · rw [hshown, List.map_map]
    exact (List.map_congr_left hname).trans (List.map_id' _)
  · intro stat hstat
    rw [hshown] at hstat
    obtain ⟨s', hs', rfl⟩ := List.mem_map.mp hstat
    rw [hname s' hs']
    exact hstats s' (List.mem_eraseDups.mp hs')

/-- One tick of two is let out, and the VWAP is that of it alone. -/
theorem the_routes_answer_from_the_processed_ticks_of_one :
    let tick (id time : Int) : Tick := ⟨"BTC-USD", 100, 1, id, time, false, 0⟩
    let ops : List (ServerOp String) := [.pipeline (.ingest (tick 1 1000)),
      .pipeline (.ingest (tick 2 2000)), .pipeline (.consume_symbol "BTC-USD")]
    let r := run (Server.step settings) (Server.new String id settings ["BTC-USD"] true) ops
    get_vwap id settings r.2.pipeline "BTC-USD" =
      .ok ⟨"BTC-USD", vwapAfter settings (processedOf "BTC-USD" (r.1.flatMap Given.obs)), 60⟩ := by
  intro tick ops r
  have h := the_routes_answer_from_the_processed_ticks id settings ["BTC-USD"] true (fun _ => rfl) ops
    ⟨[], []⟩ Loop.new "BTC-USD" {}
  exact (h.2.2.1 (by decide)).1

end answers

end tick_pipeline.routes
