-- The dashboard of `frontend/static/js/app.js`: what its state and its chart become as
-- responses and messages come in. The chart library stands here as a parameter, with what
-- it documents of `setData` and `update`.
import TickPipeline.CandleStream
import TickPipeline.Lib.LiveSeries

namespace tick_pipeline.dashboard

open runs models pipeline live_series

/-! ## What the script calls -/

/-- A series of the chart library, with objects of type `σ` that hold items of type `ι`. -/
structure Series (σ ι : Type) where
  setData : σ → List ι → σ
  /-- Nothing when it throws. -/
  update : σ → ι → Option σ
  data : σ → List ι

/-- Items in the order of their times replace the data. An update appends an item, or replaces the
last one if the times are equal, and throws on an older time. -/
structure Series.Documented {σ ι : Type} (lib : Series σ ι) (time : ι → Int) : Prop where
  setData : ∀ s items, Ascending time items → lib.data (lib.setData s items) = items
  update : ∀ s x, Ascending time (lib.data s) →
    (lib.update s x).map lib.data = live_series.update time (lib.data s) x

/-- A series that keeps its items in a list, as documented. -/
def listSeries {ι : Type} (time : ι → Int) : Series (List ι) ι where
  setData _ items := items
  update items x := live_series.update time items x
  data items := items

theorem listSeries_documented {ι : Type} (time : ι → Int) : (listSeries time).Documented time :=
  ⟨fun _ _ _ => rfl, fun _ _ _ => Option.map_id'⟩

/-! ## The code -/

structure Bar where
  time : Int
  open_ : ℚ
  high : ℚ
  low : ℚ
  close : ℚ

/-- An item of a line. -/
structure Point where
  time : Int
  value : ℚ

/-- A candle as the chart shows it. Its time is in seconds. -/
def bar (c : CandleDict) : Bar :=
  { time := c.bucket_start_ms.fdiv 1000
    open_ := c.open_
    high := c.high
    low := c.low
    close := c.close }

/-- The object `state`, the series of the chart, and what the page shows. -/
structure Dashboard (σ τ : Type) where
  symbols : List Symbol
  timeframes : List Int
  symbol : Option Symbol
  timeframe : Int
  lastPrice : Option ℚ
  wsRetryDelay : Nat
  chartFollowing : Bool
  candleSeries : σ
  vwapSeries : τ
  sma20Series : τ
  sma50Series : τ
  /-- The difference that `price-change` shows. -/
  priceChange : Option ℚ
  /-- Whether `conn-status` is live. -/
  live : Bool
  /-- The tick whose VWAP and averages the metrics show. -/
  metrics : Option TickData
  tape : List TickData
  /-- The stats that the health panel shows. -/
  health : Option SymbolStats

/-- The page before its first load, on the series that the chart gave it. -/
def Dashboard.new {σ τ : Type} (candleSeries : σ) (vwapSeries sma20Series sma50Series : τ) :
    Dashboard σ τ :=
  { symbols := []
    timeframes := []
    symbol := none
    timeframe := 60
    lastPrice := none
    wsRetryDelay := 1000
    chartFollowing := false
    candleSeries
    vwapSeries
    sma20Series
    sma50Series
    priceChange := none
    live := false
    metrics := none
    tape := []
    health := none }

/-- A message of the stream, by its `type`. -/
inductive Message
  | event (event : Event)
  | stats (statsList : List SymbolStats)

/-- What the page waits for: a response, a call of the user, or an event of the websocket. -/
inductive Input
  | symbols (symbols : List Symbol) (timeframes : List Int)
  | candles (candles : List CandleDict)
  | pollHealth (statsList : List SymbolStats)
  | selectSymbol (sym : Symbol)
  | selectTimeframe (tf : Int)
  | onopen
  | onclose
  | onmessage (msg : Message)

/-- What the page asks for. -/
inductive Request
  | candles (symbol : Option Symbol) (timeframe : Int) (limit : Int)
  | connectWs (delay : Nat)

def CANDLE_LIMIT : Int := 300

def TAPE_ROWS : Nat := 120

def MAX_RETRY_DELAY : Nat := 15000

section page

variable {σ τ : Type} (candleLib : Series σ Bar) (lineLib : Series τ Point)

/-- The fetch of `loadCandles`. -/
def Dashboard.fetchCandles (d : Dashboard σ τ) : List Request :=
  [.candles d.symbol d.timeframe CANDLE_LIMIT]

/-- `loadCandles`, once its response is there. -/
def Dashboard.loadCandles (d : Dashboard σ τ) (candles : List CandleDict) : Dashboard σ τ :=
  let bars := candles.map bar
  { d with
    candleSeries := candleLib.setData d.candleSeries bars
    vwapSeries := lineLib.setData d.vwapSeries []
    sma20Series := lineLib.setData d.sma20Series []
    sma50Series := lineLib.setData d.sma50Series []
    lastPrice := match bars.getLast? with
      | some last => some last.close
      | none => d.lastPrice
    chartFollowing := false }

def Dashboard.addTapeRow (d : Dashboard σ τ) (tick : TickData) : Dashboard σ τ :=
  { d with tape := (d.tape ++ [tick]).rtake TAPE_ROWS }

/-- The update of a line, for a value that is there. It gives nothing when the update throws. -/
def updateLine (series : τ) (time : Int) (value : Option ℚ) : Option τ :=
  match value with
  | none => some series
  | some value => lineLib.update series ⟨time, value⟩

/-- `handleTick`. Where an update throws, what comes after it is not done. -/
def Dashboard.handleTick (d : Dashboard σ τ) (tick : TickData) : Dashboard σ τ :=
  let d := { d with
    lastPrice := some tick.price
    priceChange := match d.lastPrice with
      | some prevPrice =>
        if tick.price - prevPrice ≠ 0 then some (tick.price - prevPrice) else d.priceChange
      | none => d.priceChange }
  let t := tick.event_time_ms.fdiv 1000
  match updateLine lineLib d.vwapSeries t (some tick.vwap) with
  | none => d
  | some vwapSeries =>
    let d := { d with vwapSeries }
    match updateLine lineLib d.sma20Series t (tick.moving_averages.lookup (.sma 20)).join with
    | none => d
    | some sma20Series =>
      let d := { d with sma20Series }
      match updateLine lineLib d.sma50Series t (tick.moving_averages.lookup (.sma 50)).join with
      | none => d
      | some sma50Series => { d with sma50Series, metrics := some tick }.addTapeRow tick

/-- The candle events of `handleEvent`. -/
def Dashboard.handleCandle (d : Dashboard σ τ) (data : CandleDict) : Dashboard σ τ :=
  if d.symbol = some data.symbol ∧ data.timeframe_sec = d.timeframe then
    match candleLib.update d.candleSeries (bar data) with
    | none => d
    | some candleSeries => { d with candleSeries, chartFollowing := true }
  else d

def Dashboard.updateHealthFromStats (d : Dashboard σ τ) (statsList : List SymbolStats) :
    Dashboard σ τ :=
  match statsList.find? (fun x => d.symbol = some x.symbol) with
  | none => d
  | some s => { d with health := some s }

/-- `handleEvent`. It has no case for `candle_patched`. -/
def Dashboard.handleEvent (d : Dashboard σ τ) : Message → Dashboard σ τ
  | .event (.tick data) => if d.symbol = some data.symbol then d.handleTick lineLib data else d
  | .event (.candle_update data) => d.handleCandle candleLib data
  | .event (.candle_closed data) => d.handleCandle candleLib data
  | .event (.candle_patched _) => d
  | .stats statsList => d.updateHealthFromStats statsList

def Dashboard.step (d : Dashboard σ τ) : Input → List Request × Dashboard σ τ
  | .symbols symbols timeframes =>
    let d := { d with symbols, timeframes, symbol := symbols.head? }
    (d.fetchCandles, d)
  | .candles candles => ([], d.loadCandles candleLib lineLib candles)
  | .pollHealth statsList => ([], d.updateHealthFromStats statsList)
  | .selectSymbol sym =>
    let d := { d with symbol := some sym, lastPrice := none, tape := [] }
    (d.fetchCandles, d)
  | .selectTimeframe tf =>
    let d := { d with timeframe := tf }
    (d.fetchCandles, d)
  | .onopen =>
    let d := { d with live := true, wsRetryDelay := 1000 }
    (d.fetchCandles, d)
  | .onclose =>
    ([.connectWs d.wsRetryDelay],
      { d with live := false, wsRetryDelay := min (d.wsRetryDelay * 2) MAX_RETRY_DELAY })
  | .onmessage msg => ([], d.handleEvent candleLib lineLib msg)

end page

/-! ## What the chart shows -/

/-- The series hold their items in the order of time. -/
structure Ordered {σ τ : Type} (candleLib : Series σ Bar) (lineLib : Series τ Point)
    (d : Dashboard σ τ) : Prop where
  candles : Ascending Bar.time (candleLib.data d.candleSeries)
  vwap : Ascending Point.time (lineLib.data d.vwapSeries)
  sma20 : Ascending Point.time (lineLib.data d.sma20Series)
  sma50 : Ascending Point.time (lineLib.data d.sma50Series)

/-- The candles of a response are in the order of their bars. -/
def Input.InOrder : Input → Prop
  | .candles cs => Ascending Bar.time (cs.map bar)
  | _ => True

/-- The bar of a message for a chart. -/
def Message.shows (s : Symbol) (tf : Int) : Message → Option Bar
  | .event e =>
    match e.flows with
    | some data => if data.symbol = s ∧ data.timeframe_sec = tf then some (bar data) else none
    | none => none
  | .stats _ => none

section laws

variable {σ τ : Type} {candleLib : Series σ Bar} {lineLib : Series τ Point} {d : Dashboard σ τ}

theorem documented_update {ι : Type} {lib : Series σ ι} {time : ι → Int} (h : lib.Documented time)
    {s s' : σ} {x : ι} (hs : Ascending time (lib.data s)) (hupdate : lib.update s x = some s') :
    live_series.update time (lib.data s) x = some (lib.data s') := by
  rw [← h.update s x hs, hupdate]
  rfl

theorem updateLine_ascending (h : lineLib.Documented Point.time) {s s' : τ} {time : Int}
    {value : Option ℚ} (hs : Ascending Point.time (lineLib.data s))
    (hupdate : updateLine lineLib s time value = some s') : Ascending Point.time (lineLib.data s') := by
  cases value with
  | none =>
    cases hupdate
    exact hs
  | some value => exact hs.update (documented_update h hs hupdate)

theorem Ordered.loadCandles (hcandle : candleLib.Documented Bar.time)
    (hline : lineLib.Documented Point.time) {candles : List CandleDict}
    (hcandles : Ascending Bar.time (candles.map bar)) :
    Ordered candleLib lineLib (d.loadCandles candleLib lineLib candles) := by
  have hempty (s : τ) : Ascending Point.time (lineLib.data (lineLib.setData s [])) := by
    rw [hline.setData s [] ascending_nil]
    exact ascending_nil
  refine ⟨?_, hempty _, hempty _, hempty _⟩
  rw [show (d.loadCandles candleLib lineLib candles).candleSeries =
    candleLib.setData d.candleSeries (candles.map bar) from rfl, hcandle.setData _ _ hcandles]
  exact hcandles

theorem Ordered.handleTick (hline : lineLib.Documented Point.time) (h : Ordered candleLib lineLib d)
    (tick : TickData) : Ordered candleLib lineLib (d.handleTick lineLib tick) := by
  obtain ⟨hcandles, hvwap, hsma20, hsma50⟩ := h
  unfold Dashboard.handleTick
  dsimp only
  split
  · exact ⟨hcandles, hvwap, hsma20, hsma50⟩
  rename_i vwapSeries hupdate
  have hvwap' := updateLine_ascending hline hvwap hupdate
  split
  · exact ⟨hcandles, hvwap', hsma20, hsma50⟩
  rename_i sma20Series hupdate20
  have hsma20' := updateLine_ascending hline hsma20 hupdate20
  split
  · exact ⟨hcandles, hvwap', hsma20', hsma50⟩
  rename_i sma50Series hupdate50
  exact ⟨hcandles, hvwap', hsma20', updateLine_ascending hline hsma50 hupdate50⟩

theorem Ordered.handleCandle (hcandle : candleLib.Documented Bar.time)
    (h : Ordered candleLib lineLib d) (data : CandleDict) :
    Ordered candleLib lineLib (d.handleCandle candleLib data) := by
  unfold Dashboard.handleCandle
  split
  · split
    · exact h
    · rename_i candleSeries hupdate
      exact ⟨h.candles.update (documented_update hcandle h.candles hupdate), h.vwap, h.sma20, h.sma50⟩
  · exact h

theorem Ordered.updateHealth (h : Ordered candleLib lineLib d) (statsList : List SymbolStats) :
    Ordered candleLib lineLib (d.updateHealthFromStats statsList) := by
  unfold Dashboard.updateHealthFromStats
  split
  · exact h
  · exact ⟨h.candles, h.vwap, h.sma20, h.sma50⟩

theorem Ordered.handleEvent (hcandle : candleLib.Documented Bar.time)
    (hline : lineLib.Documented Point.time) (h : Ordered candleLib lineLib d) (msg : Message) :
    Ordered candleLib lineLib (d.handleEvent candleLib lineLib msg) := by
  cases msg with
  | stats statsList => exact h.updateHealth statsList
  | event event =>
    cases event with
    | candle_closed data => exact h.handleCandle hcandle data
    | candle_patched data => exact h
    | candle_update data => exact h.handleCandle hcandle data
    | tick data =>
      unfold Dashboard.handleEvent
      dsimp only
      split
      · exact h.handleTick hline data
      · exact h

theorem Ordered.step (hcandle : candleLib.Documented Bar.time) (hline : lineLib.Documented Point.time)
    (h : Ordered candleLib lineLib d) {input : Input} (hinput : input.InOrder) :
    Ordered candleLib lineLib (d.step candleLib lineLib input).2 := by
  have hsame {d' : Dashboard σ τ} (h1 : d'.candleSeries = d.candleSeries)
      (h2 : d'.vwapSeries = d.vwapSeries) (h3 : d'.sma20Series = d.sma20Series)
      (h4 : d'.sma50Series = d.sma50Series) : Ordered candleLib lineLib d' :=
    ⟨h1 ▸ h.candles, h2 ▸ h.vwap, h3 ▸ h.sma20, h4 ▸ h.sma50⟩
  cases input with
  | candles candles => exact Ordered.loadCandles hcandle hline hinput
  | pollHealth statsList => exact h.updateHealth statsList
  | onmessage msg => exact h.handleEvent hcandle hline msg
  | _ => exact hsame rfl rfl rfl rfl

/-- The selection and the candles stay. -/
theorem handleTick_frame (lineLib : Series τ Point) (d : Dashboard σ τ) (tick : TickData) :
    (d.handleTick lineLib tick).symbol = d.symbol ∧ (d.handleTick lineLib tick).timeframe = d.timeframe ∧
      (d.handleTick lineLib tick).candleSeries = d.candleSeries := by
  unfold Dashboard.handleTick
  dsimp only
  split
  · exact ⟨rfl, rfl, rfl⟩
  split
  · exact ⟨rfl, rfl, rfl⟩
  split <;> exact ⟨rfl, rfl, rfl⟩

theorem updateHealth_frame (statsList : List SymbolStats) :
    (d.updateHealthFromStats statsList).symbol = d.symbol ∧
      (d.updateHealthFromStats statsList).timeframe = d.timeframe ∧
      (d.updateHealthFromStats statsList).candleSeries = d.candleSeries := by
  unfold Dashboard.updateHealthFromStats
  split <;> exact ⟨rfl, rfl, rfl⟩

/-- The chart of a selected symbol and timeframe, with these bars. -/
structure Shows (candleLib : Series σ Bar) (lineLib : Series τ Point) (s : Symbol) (tf : Int)
    (bars : List Bar) (d : Dashboard σ τ) : Prop where
  ordered : Ordered candleLib lineLib d
  symbol : d.symbol = some s
  timeframe : d.timeframe = tf
  bars : candleLib.data d.candleSeries = bars

theorem Shows.handleCandle {s : Symbol} {tf : Int} {bars : List Bar}
    (hcandle : candleLib.Documented Bar.time) (h : Shows candleLib lineLib s tf bars d)
    (data : CandleDict) :
    Shows candleLib lineLib s tf (follow Bar.time bars
        (if data.symbol = s ∧ data.timeframe_sec = tf then some (bar data) else none).toList)
      (d.handleCandle candleLib data) := by
  have hordered := h.ordered.handleCandle hcandle data
  obtain ⟨hstart, hsymbol, htimeframe, rfl⟩ := h
  have hown : (d.symbol = some data.symbol ∧ data.timeframe_sec = d.timeframe) ↔
      data.symbol = s ∧ data.timeframe_sec = tf := by
    rw [hsymbol, htimeframe, Option.some.injEq, eq_comm (a := s)]
  unfold Dashboard.handleCandle at hordered ⊢
  by_cases howns : data.symbol = s ∧ data.timeframe_sec = tf
  · rw [if_pos (hown.mpr howns)] at hordered ⊢
    rw [if_pos howns]
    have hupdate := hcandle.update d.candleSeries (bar data) hstart.candles
    cases hnext : candleLib.update d.candleSeries (bar data) with
    | none =>
      rw [hnext] at hupdate
      exact ⟨hstart, hsymbol, htimeframe, by simp [follow, ← hupdate]⟩
    | some candleSeries =>
      rw [hnext] at hupdate hordered
      exact ⟨hordered, hsymbol, htimeframe, by simp [follow, ← hupdate]⟩
  · rw [if_neg (fun h => howns (hown.mp h))]
    rw [if_neg howns]
    exact ⟨hstart, hsymbol, htimeframe, rfl⟩

/-- A message moves the chart by its bar at most. -/
theorem Shows.handleEvent {s : Symbol} {tf : Int} {bars : List Bar}
    (hcandle : candleLib.Documented Bar.time) (hline : lineLib.Documented Point.time)
    (h : Shows candleLib lineLib s tf bars d) (msg : Message) :
    Shows candleLib lineLib s tf (follow Bar.time bars (msg.shows s tf).toList)
      (d.handleEvent candleLib lineLib msg) := by
  have hordered := h.ordered.handleEvent hcandle hline msg
  cases msg with
  | stats statsList =>
    obtain ⟨h1, h2, h3⟩ := updateHealth_frame (d := d) statsList
    exact ⟨hordered, h1.trans h.symbol, h2.trans h.timeframe, (congrArg _ h3).trans h.bars⟩
  | event event =>
    cases event with
    | candle_closed data => exact h.handleCandle hcandle data
    | candle_patched data => exact h
    | candle_update data => exact h.handleCandle hcandle data
    | tick data =>
      unfold Dashboard.handleEvent at hordered ⊢
      dsimp only at hordered ⊢
      split at hordered
      · rename_i hown
        obtain ⟨h1, h2, h3⟩ := handleTick_frame lineLib d data
        rw [if_pos hown]
        exact ⟨hordered, h1.trans h.symbol, h2.trans h.timeframe, (congrArg _ h3).trans h.bars⟩
      · rename_i hown
        rw [if_neg hown]
        exact h

theorem Shows.loadCandles {s : Symbol} {tf : Int} {candles : List CandleDict}
    (hcandle : candleLib.Documented Bar.time) (hline : lineLib.Documented Point.time)
    (hsymbol : d.symbol = some s) (htimeframe : d.timeframe = tf)
    (hcandles : Ascending Bar.time (candles.map bar)) :
    Shows candleLib lineLib s tf (candles.map bar) (d.loadCandles candleLib lineLib candles) :=
  ⟨Ordered.loadCandles hcandle hline hcandles, hsymbol, htimeframe, hcandle.setData _ _ hcandles⟩

/-- The message of an input. -/
def Input.message : Input → Option Message
  | .onmessage msg => some msg
  | _ => none

/-- The input is no load, no call of the user, and not of a connection that opens or closes. -/
def Input.quiet : Input → Bool
  | .onmessage _ => true
  | .pollHealth _ => true
  | _ => false

theorem messages_of (msgs : List Message) : (msgs.map Input.onmessage).filterMap Input.message = msgs := by
  rw [List.filterMap_map]
  exact List.filterMap_some

theorem quiet_messages (msgs : List Message) : ∀ input ∈ msgs.map Input.onmessage, input.quiet = true := by
  intro input hinput
  obtain ⟨msg, -, rfl⟩ := List.mem_map.mp hinput
  rfl

theorem Shows.step {s : Symbol} {tf : Int} {bars : List Bar} (hcandle : candleLib.Documented Bar.time)
    (hline : lineLib.Documented Point.time) (h : Shows candleLib lineLib s tf bars d) {input : Input}
    (hquiet : input.quiet = true) :
    Shows candleLib lineLib s tf
      (follow Bar.time bars ((input.message.bind (Message.shows s tf)).toList))
      (d.step candleLib lineLib input).2 := by
  cases input with
  | onmessage msg => exact h.handleEvent hcandle hline msg
  | pollHealth statsList => exact h.handleEvent hcandle hline (.stats statsList)
  | _ => cases hquiet

/-- Quiet inputs move the chart by the bars of their messages. -/
theorem Shows.run {s : Symbol} {tf : Int} {bars : List Bar} (hcandle : candleLib.Documented Bar.time)
    (hline : lineLib.Documented Point.time) (h : Shows candleLib lineLib s tf bars d)
    (inputs : List Input) (hquiet : ∀ input ∈ inputs, input.quiet = true) :
    Shows candleLib lineLib s tf
      (follow Bar.time bars ((inputs.filterMap Input.message).filterMap (Message.shows s tf)))
      (runs.run (Dashboard.step candleLib lineLib) d inputs).2 := by
  induction inputs using List.reverseRecOn with
  | nil => exact h
  | append_singleton inputs input ih =>
    have hstep := (ih fun i hi => hquiet i (by simp [hi])).step hcandle hline (hquiet input (by simp))
    have hone : ([input].filterMap Input.message).filterMap (Message.shows s tf) =
        (input.message.bind (Message.shows s tf)).toList := by
      cases hm : input.message with
      | none => simp [hm]
      | some msg => cases hb : msg.shows s tf <;> simp [hm, hb]
    rw [run_snoc, List.filterMap_append, List.filterMap_append, follow_append, hone]
    exact hstep

end laws

end tick_pipeline.dashboard
