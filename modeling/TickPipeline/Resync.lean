-- A page that connects, and then loads its chart: the messages on their way and the answer
-- of the server overlap, and the chart shows what the server holds all the same.
import TickPipeline.LiveChart
import TickPipeline.Server

namespace tick_pipeline.dashboard

open runs models candles pipeline timeseries_store emitted live_series main ws_broadcast

variable {Ws : Type} [DecidableEq Ws]

/-! ## The messages of a run -/

theorem step_shown (cfg : Settings) (srv : Server Ws) (op : ServerOp Ws) (s : Symbol) (tf : Int) :
    (Server.step cfg srv op).1.published.filterMap (Message.shows s tf) =
      eventBars (((Server.step cfg srv op).1.obs.flatMap Obs.events).filter (Event.inChart s tf)) := by
  cases op with
  | pipeline op => exact shown_events s tf _
  | stats_heartbeat | connect ws | disconnect ws | sender_get ws | sender_send ws raised => rfl

/-- What a run publishes shows the candle events of its batches. -/
theorem run_shown (cfg : Settings) (srv : Server Ws) (ops : List (ServerOp Ws)) (s : Symbol) (tf : Int) :
    let r := run (Server.step cfg) srv ops
    (r.1.flatMap Given.published).filterMap (Message.shows s tf) =
      eventBars (((r.1.flatMap Given.obs).flatMap Obs.events).filter (Event.inChart s tf)) := by
  induction ops generalizing srv with
  | nil => rfl
  | cons op ops ih =>
    have hrest := ih (Server.step cfg srv op).2
    dsimp only at hrest ⊢
    rw [run_cons, List.flatMap_cons, List.flatMap_cons, List.filterMap_append, List.flatMap_append,
      List.filter_append, step_shown, hrest]
    simp [eventBars]

/-! ## What the server holds -/

section held

variable (upper : Symbol → Symbol) (cfg : Settings) (symbols : List Symbol) (persistence : Bool)

/-- The chart events of a run, and what the server holds after it. -/
theorem run_server_chart (ops : List (ServerOp Ws)) {s : Symbol} {tf : Int}
    (htf : tf ∈ cfg.candle_timeframes_sec) :
    let r := run (Server.step cfg) (Server.new Ws upper cfg symbols persistence) ops
    let xs := processedOf s (r.1.flatMap Given.obs)
    ((r.1.flatMap Given.obs).flatMap Obs.events).filter (Event.inChart s tf) =
        outputs (candleEvents tf cfg.candle_history_len) [] xs ∧
      Remembers r.2.pipeline s xs ∧ Configured cfg r.2.pipeline := by
  intro r xs
  obtain ⟨hobs, hstate⟩ := run_server_pipeline cfg (Server.new Ws upper cfg symbols persistence) ops
  have hchart := run_chart upper cfg symbols persistence (ops.filterMap ServerOp.ofPipeline) (s := s) htf
  have hsound := run_sound upper cfg symbols persistence (ops.filterMap ServerOp.ofPipeline)
  have hxs : xs = processedOf s (run (Pipeline.step cfg) (Pipeline.new upper cfg symbols persistence)
      (ops.filterMap ServerOp.ofPipeline)).1.flatten := congrArg (processedOf s) hobs
  rw [hxs]
  refine ⟨?_, ?_, ?_⟩
  · rw [show r.1.flatMap Given.obs = _ from hobs]
    exact hchart.1
  · rw [show r.2.pipeline = _ from hstate]
    exact hchart.2
  · rw [show r.2.pipeline = _ from hstate]
    exact hsound.configured

/-- The chart events of what the server does later, and what it holds then. -/
theorem run_server_later (ops later : List (ServerOp Ws)) {s : Symbol} {tf : Int}
    (htf : tf ∈ cfg.candle_timeframes_sec) :
    let r := run (Server.step cfg) (Server.new Ws upper cfg symbols persistence) ops
    let r' := run (Server.step cfg) r.2 later
    let xs := processedOf s (r.1.flatMap Given.obs)
    let zs := processedOf s (r'.1.flatMap Given.obs)
    ((r'.1.flatMap Given.obs).flatMap Obs.events).filter (Event.inChart s tf) =
        outputs (candleEvents tf cfg.candle_history_len) xs zs ∧
      Remembers r'.2.pipeline s (xs ++ zs) ∧ Configured cfg r'.2.pipeline := by
  intro r r' xs zs
  have hlast : run (Server.step cfg) (Server.new Ws upper cfg symbols persistence) (ops ++ later) =
      (r.1 ++ r'.1, r'.2) := run_append _ _ _ _
  obtain ⟨hevents, -, -⟩ := run_server_chart upper cfg symbols persistence ops (s := s) htf
  obtain ⟨hevents', hremembers', hcfg'⟩ :=
    run_server_chart upper cfg symbols persistence (ops ++ later) (s := s) htf
  have hall : processedOf s ((r.1 ++ r'.1).flatMap Given.obs) = xs ++ zs := by
    rw [List.flatMap_append, processedOf_append]
  rw [hlast, hall] at hevents' hremembers'
  rw [hlast] at hcfg'
  refine ⟨?_, hremembers', hcfg'⟩
  rw [outputs_append, List.nil_append, List.flatMap_append, List.flatMap_append, List.filter_append,
    hevents] at hevents'
  exact List.append_cancel_left hevents'

end held

/-- What a load of the page gets from the server. -/
def load (upper : Symbol → Symbol) (db : sqlite_store.Database) (srv : Server Ws) (s : Symbol)
    (tf : Int) : List CandleDict :=
  TimeSeriesStore.get_candles upper ⟨srv.pipeline, db⟩ s tf CANDLE_LIMIT

/-- Whatever symbol and timeframe a load asks for, and whenever it comes, its candles are in order. -/
theorem load_in_order (upper : Symbol → Symbol) (cfg : Settings) (symbols : List Symbol)
    (persistence : Bool) (db : sqlite_store.Database) (ops : List (ServerOp Ws)) (s : Symbol) (tf : Int) :
    let r := run (Server.step cfg) (Server.new Ws upper cfg symbols persistence) ops
    Ascending Bar.time ((load upper db r.2 s tf).map bar) := by
  intro r
  by_cases htf : tf ∈ cfg.candle_timeframes_sec
  · obtain ⟨-, hremembers, hcfg⟩ :=
      run_server_chart upper cfg symbols persistence ops (s := upper s) htf
    unfold load
    rw [load_bars upper cfg hcfg htf hremembers db]
    exact barsFrom_ascending _ _ _
  · have hcfg : Configured cfg r.2.pipeline := by
      rw [(run_server_pipeline cfg (Server.new Ws upper cfg symbols persistence) ops).2]
      exact (run_sound upper cfg symbols persistence _).configured
    have hnone : r.2.pipeline.candle_aggs.find? (fun agg => agg.timeframe_sec = tf) = none := by
      rw [List.find?_eq_none]
      intro agg hagg
      have hmem := (hcfg.aggregator hagg).1
      rw [decide_eq_true_iff]
      rintro rfl
      exact htf hmem
    unfold load TimeSeriesStore.get_candles
    rw [hnone]
    exact ascending_nil

/-! ## The laws -/

section laws

variable {σ τ : Type} {candleLib : Series σ Bar} {lineLib : Series τ Point}

/-- The loads of a page were answered by this server, for whatever symbol and timeframe, and in
whatever order they come back: the candles and the lines of the page are in the order of time,
whatever messages came between. -/
theorem a_page_keeps_its_series_in_order (hcandle : candleLib.Documented Bar.time)
    (hline : lineLib.Documented Point.time) (upper : Symbol → Symbol) (cfg : Settings)
    (symbols : List Symbol) (persistence : Bool) (page : Dashboard σ τ)
    (hpage : Ordered candleLib lineLib page) (inputs : List Input)
    (hanswers : ∀ candles, .candles candles ∈ inputs → ∃ (ops : List (ServerOp Ws)) (db : _) (s : _) (tf : _),
      candles = load upper db
        (run (Server.step cfg) (Server.new Ws upper cfg symbols persistence) ops).2 s tf) :
    Ordered candleLib lineLib (run (Dashboard.step candleLib lineLib) page inputs).2 := by
  induction inputs using List.reverseRecOn with
  | nil => exact hpage
  | append_singleton inputs input ih =>
    have hbefore := ih fun candles hc => hanswers candles (by simp [hc])
    rw [run_snoc]
    refine hbefore.step hcandle hline ?_
    cases input with
    | candles candles =>
      obtain ⟨ops, db, s, tf, rfl⟩ := hanswers candles (by simp)
      exact load_in_order upper cfg symbols persistence db ops s tf
    | _ => trivial

/-- Two loads of a page, of which the second is of another timeframe. -/
theorem a_page_keeps_its_series_in_order_of_two :
    let tick (id time : Int) : Tick := ⟨"BTC-USD", 100, 1, id, time, false, 0⟩
    let ops : List (ServerOp String) := [.pipeline (.ingest (tick 1 1000)), .pipeline (.ingest (tick 2 2000)),
      .pipeline (.consume_symbol "BTC-USD")]
    let srv := run (Server.step settings) (Server.new String id settings ["BTC-USD"] true)
    let first := load id ⟨[], []⟩ (srv ops).2 "BTC-USD" 60
    let second := load id ⟨[], []⟩ (srv (ops ++ ops)).2 "BTC-USD" 1
    let inputs := [.symbols ["BTC-USD"] [1, 5, 60], .candles first, .selectTimeframe 1, .candles second]
    Ordered (listSeries Bar.time) (listSeries Point.time)
      (run (Dashboard.step (listSeries Bar.time) (listSeries Point.time)) (Dashboard.new [] [] [] [])
        inputs).2 := by
  intro tick ops srv first second inputs
  have hanswers : ∀ candles, .candles candles ∈ inputs → ∃ (ops : List (ServerOp String)) (db : _) (s : _)
      (tf : _), candles = load id db (srv ops).2 s tf := by
    intro candles hcandles
    simp only [inputs, List.mem_cons, List.not_mem_nil, or_false, reduceCtorEq, false_or,
      Input.candles.injEq] at hcandles
    rcases hcandles with hfirst | hsecond
    · exact ⟨ops, _, _, _, hfirst⟩
    · exact ⟨ops ++ ops, _, _, _, hsecond⟩
  exact a_page_keeps_its_series_in_order (listSeries_documented Bar.time)
    (listSeries_documented Point.time) id settings ["BTC-USD"] true _
    ⟨ascending_nil, ascending_nil, ascending_nil, ascending_nil⟩ inputs hanswers

/-- A page loads the chart of a symbol and timeframe after it connected. `k` messages have come when
the answer is there, all of them published before the server made it. Once everything published has
come, and if its client dropped nothing of it, the chart has, from the first bar it loaded on, each
bucket with all its ticks but those that were late after the load. The load starts no further back than
its limit of 300 bars and what memory keeps: the history and the open candle. A load at this point could
only bring bars of such late ticks. -/
theorem a_page_that_loads_once_connected_misses_nothing (hcandle : candleLib.Documented Bar.time)
    (hline : lineLib.Documented Point.time) (upper : Symbol → Symbol) (cfg : Settings)
    (symbols : List Symbol) (persistence : Bool) (db : sqlite_store.Database) {s : Symbol} {tf : Int}
    (hupper : upper s = s) (htf : tf ∈ cfg.candle_timeframes_sec) (ws : Ws)
    (before mid after : List (ServerOp Ws)) (hkept : ∀ op ∈ mid ++ after, op.turnover ws = false)
    (page : Dashboard σ τ) (hsymbol : page.symbol = some s) (htimeframe : page.timeframe = tf)
    (k : Nat) (inputs : List Input) (hquiet : ∀ input ∈ inputs, input.quiet = true) :
    let connected := run (Server.step cfg) (Server.new Ws upper cfg symbols persistence)
      (before ++ [.connect ws])
    let answered := run (Server.step cfg) connected.2 mid
    let last := run (Server.step cfg) answered.2 after
    k ≤ (answered.1.flatMap Given.published).length →
    inputs.filterMap Input.message =
      (takenBy ws ((answered.1 ++ last.1).flatMap Given.taken)).drop k →
    (∃ client, last.2.broadcast._clients.lookup ws = some client ∧ client.dropped = 0 ∧
      client.queue.items = []) →
    let loaded := page.loadCandles candleLib lineLib (load upper db answered.2 s tf)
    let shown := candleLib.data (run (Dashboard.step candleLib lineLib) loaded inputs).2.candleSeries
    let fresh := (load upper db last.2 s tf).map bar
    let xs := processedOf s ((connected.1 ++ answered.1).flatMap Given.obs)
    let zs := processedOf s (last.1.flatMap Given.obs)
    shown = barsFrom tf (firstLoaded cfg.candle_history_len (openedBuckets tf xs).length)
        (xs ++ inTime tf xs zs) ∧
      fresh.map Bar.time <:+ shown.map Bar.time ∧
      ∀ x ∈ fresh, x ∈ shown ∨ ∃ u t v, zs = u ++ t :: v ∧ late tf (xs ++ u) t = true ∧
        (bucketOf tf t).fdiv 1000 = x.time := by
  intro connected answered last hk hmessages ⟨client, hclient, hdropped, hempty⟩ loaded shown fresh xs zs
  let start := run (Server.step cfg) (Server.new Ws upper cfg symbols persistence) before
  have hconnected : connected.2 = (Server.step cfg start.2 (.connect ws)).2 := by
    simp only [connected, start, run_snoc]
  have hanswered : run (Server.step cfg) (Server.new Ws upper cfg symbols persistence)
      (before ++ [.connect ws] ++ mid) = (connected.1 ++ answered.1, answered.2) := run_append _ _ _ _
  have hsince : run (Server.step cfg) connected.2 (mid ++ after) = (answered.1 ++ last.1, last.2) :=
    run_append _ _ _ _
  -- What the server published and held.
  obtain ⟨hevents, hremembers, hcfg⟩ := run_server_chart upper cfg symbols persistence
    (before ++ [.connect ws] ++ mid) (s := s) htf
  obtain ⟨hafter, hremembers', hcfg'⟩ := run_server_later upper cfg symbols persistence
    (before ++ [.connect ws] ++ mid) after (s := s) htf
  rw [hanswered] at hevents hremembers hcfg hafter hremembers' hcfg'
  -- What the page was sent is all that was published since it connected.
  have hsent : takenBy ws ((answered.1 ++ last.1).flatMap Given.taken) =
      (answered.1 ++ last.1).flatMap Given.published := by
    rw [hconnected] at hsince
    have hend : (run (Server.step cfg) (Server.step cfg start.2 (.connect ws)).2
        (mid ++ after)).2.broadcast._clients.lookup ws = some client := by
      rw [hsince]
      exact hclient
    have hall := sent_all (mid ++ after) hkept hend hdropped hempty
    rwa [hsince] at hall
  rw [hsent, List.flatMap_append, List.drop_append_of_le_length hk] at hmessages
  have hheld : Remembers answered.2.pipeline (upper s) xs := by rwa [hupper]
  have hheld' : Remembers last.2.pipeline (upper s) (xs ++ zs) := by rwa [hupper]
  have hload := load_bars upper cfg hcfg htf hheld db
  have hfresh := load_bars upper cfg hcfg' htf hheld' db
  have hshows : Shows candleLib lineLib s tf _ loaded :=
    Shows.loadCandles hcandle hline hsymbol htimeframe (by
      unfold load
      rw [hload]
      exact barsFrom_ascending _ _ _)
  have hshown := (hshows.run hcandle hline inputs hquiet).bars
  unfold load at hshown
  rw [hload, hmessages, List.filterMap_append, run_shown, hafter, follow_append] at hshown
  have hstale : ((answered.1.flatMap Given.published).drop k).filterMap (Message.shows s tf) <:+
      eventBars (outputs (candleEvents tf cfg.candle_history_len) [] xs) := by
    have hmid : (answered.1.flatMap Given.published).filterMap (Message.shows s tf) <:+
        eventBars (outputs (candleEvents tf cfg.candle_history_len) [] xs) := by
      rw [run_shown, ← hevents, List.flatMap_append, List.flatMap_append, List.filter_append]
      simp only [eventBars, List.filterMap_append, List.map_append]
      exact List.suffix_append _ _
    exact ((List.drop_suffix k _).filterMap _).trans hmid
  have hanchored := anchored_loaded tf cfg.candle_history_len xs
  rw [follow_old_events hanchored hstale] at hshown
  obtain ⟨hsame, -, hfollow⟩ := follow_ticks (n := cfg.candle_history_len) hanchored zs
  rw [hfollow] at hshown
  refine ⟨hshown, ?_⟩
  rw [show shown = _ from hshown, show fresh = _ from hfresh]
  exact barsFrom_compare (firstLoaded_mono tf cfg.candle_history_len xs zs) hsame.opened

/-- A page that connects between two ticks. Two messages have come when its load is there. -/
theorem a_page_that_loads_once_connected_misses_nothing_of_nine :
    let tick (id time : Int) : Tick := ⟨"BTC-USD", 100, 1, id, time, false, 0⟩
    let turn (t : Tick) : List (ServerOp String) :=
      [.pipeline (.ingest t), .pipeline (.consume_symbol "BTC-USD")]
    let sends : List (ServerOp String) :=
      (List.replicate 9 [.sender_get "tab", .sender_send "tab" false]).flatten
    let page : Dashboard (List Bar) (List Point) :=
      { Dashboard.new [] [] [] [] with symbol := some "BTC-USD", timeframe := 1 }
    let connected := run (Server.step settings) (Server.new String id settings ["BTC-USD"] true)
      (turn (tick 1 1000) ++ [.connect "tab"])
    let answered := run (Server.step settings) connected.2 (turn (tick 2 2000))
    let last := run (Server.step settings) answered.2 (turn (tick 3 3000) ++ sends)
    let inputs := ((takenBy "tab" ((answered.1 ++ last.1).flatMap Given.taken)).drop 2).map
      Input.onmessage
    let loaded := page.loadCandles (listSeries Bar.time) (listSeries Point.time)
      (load id ⟨[], []⟩ answered.2 "BTC-USD" 1)
    ((load id ⟨[], []⟩ last.2 "BTC-USD" 1).map bar).map Bar.time <:+
      ((listSeries Bar.time).data (run (Dashboard.step (listSeries Bar.time) (listSeries Point.time))
        loaded inputs).2.candleSeries).map Bar.time := by
  intro tick turn sends page connected answered last inputs loaded
  have hdrained : (last.2.broadcast._clients.lookup "tab").any
      (fun client => client.dropped = 0 ∧ client.queue.items.length = 0) = true := by decide +kernel
  have hreceived : 2 ≤ (answered.1.flatMap Given.published).length := by decide +kernel
  have hmessages : inputs.filterMap Input.message =
      (takenBy "tab" ((answered.1 ++ last.1).flatMap Given.taken)).drop 2 := messages_of _
  have h := a_page_that_loads_once_connected_misses_nothing (listSeries_documented Bar.time)
    (listSeries_documented Point.time) id settings ["BTC-USD"] true ⟨[], []⟩ rfl (by decide) "tab"
    (turn (tick 1 1000)) (turn (tick 2 2000)) (turn (tick 3 3000) ++ sends) (by decide) page rfl
    (show page.timeframe = 1 from rfl) 2
    inputs (quiet_messages _) hreceived hmessages
  obtain ⟨client, hclient, hboth⟩ := (Option.any_eq_true _ _).mp hdrained
  have hboth : client.dropped = 0 ∧ client.queue.items.length = 0 := by simpa using hboth
  -- The names of the runs stand for what the theorem says of them.
  dsimp only [last, answered, connected, loaded] at hclient ⊢
  exact (h ⟨client, hclient, hboth.1, List.length_eq_zero_iff.mp hboth.2⟩).2.1

end laws

end tick_pipeline.dashboard
