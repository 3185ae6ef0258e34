-- What is persisted agrees with what is in memory, whatever ticks came and in
-- whatever order.
import TickPipeline.BatchRuns

namespace tick_pipeline.pipeline

open runs models candles emitted event_log

/-- The primary key of the candles table. -/
def rowKey (row : CandleDict) : Symbol × Int × Int :=
  (row.symbol, row.timeframe_sec, row.bucket_start_ms)

theorem recordsAfter_ticks (cfg : Settings) (P : List Tick) (t : Tick) :
    (recordsAfter cfg P t).filterMap Record.ticks = [t] := by
  simp [recordsAfter, tickRecords, Record.ticks, List.filterMap_map, Function.comp_def]

theorem recordsAfter_candles (cfg : Settings) (P : List Tick) (t : Tick) :
    (recordsAfter cfg P t).filterMap Record.candles = tickRows cfg (own t.symbol P) t := by
  have hrows : (recordsAfter cfg P t) =
      .tick t :: (tickRows cfg (own t.symbol P) t).map Record.candle := rfl
  have hsome : Record.candles ∘ Record.candle = some := rfl
  rw [hrows, List.filterMap_cons_none rfl, List.filterMap_map, hsome, List.filterMap_some]

/-- The ticks recorded are the ticks processed. -/
theorem recorded_ticks (cfg : Settings) (P : List Tick) :
    (outputs (recordsAfter cfg) [] P).filterMap Record.ticks = P := by
  induction P using List.reverseRecOn with
  | nil => rfl
  | append_singleton P t ih =>
    rw [outputs_snoc, List.filterMap_append, ih, List.nil_append, recordsAfter_ticks]

theorem recorded_rows (cfg : Settings) (P : List Tick) :
    (outputs (recordsAfter cfg) [] P).filterMap Record.candles =
      outputs (fun P t => tickRows cfg (own t.symbol P) t) [] P := by
  rw [filterMap_outputs]
  congr 1
  funext P t
  exact recordsAfter_candles cfg P t

/-- Every row finds, in the ticks recorded before it, that its bucket has closed. -/
theorem rows_are_of_closed_buckets (cfg : Settings) (P : List Tick) :
    Causal (fun before e => ∀ row, e = Record.candle row →
      row.bucket_start_ms ∈
        closedBuckets row.timeframe_sec (own row.symbol (before.filterMap Record.ticks)))
      (outputs (recordsAfter cfg) [] P) := by
  induction P using List.reverseRecOn with
  | nil => exact causal_nil _
  | append_singleton P t ih =>
    rw [outputs_snoc, List.nil_append]
    have hsplit : recordsAfter cfg P t =
        [Record.tick t] ++ (tickRows cfg (own t.symbol P) t).map Record.candle := rfl
    rw [hsplit, ← List.append_assoc]
    apply causal_append
    · apply causal_snoc ih
      intro row hrow
      cases hrow
    · intro pre e post hblock row hrow
      subst hrow
      -- The calls between the tick and its row record candles, so the ticks before the row
      -- are those before the tick, and the tick.
      have hpre : pre.filterMap Record.ticks = [] := by
        rw [List.filterMap_eq_nil_iff]
        intro r hr
        have hr' : r ∈ pre ++ .candle row :: post := List.mem_append_left _ hr
        rw [← hblock] at hr'
        obtain ⟨d, _, rfl⟩ := List.mem_map.mp hr'
        rfl
      have hticks : (outputs (recordsAfter cfg) [] P ++ [Record.tick t] ++ pre).filterMap
          Record.ticks = P ++ [t] := by
        rw [List.filterMap_append, List.filterMap_append, recorded_ticks, hpre, List.append_nil]
        rfl
      rw [hticks]
      have hmem : Record.candle row ∈ pre ++ .candle row :: post := by simp
      rw [← hblock] at hmem
      obtain ⟨d, hd, hdrow⟩ := List.mem_map.mp hmem
      obtain rfl : d = row := by simpa using hdrow
      obtain ⟨tf, _, hd⟩ := List.mem_flatMap.mp hd
      have hsym := (ofChart_iff.mp (candleRows_owner (own_snoc_symbol t P) hd)).1
      obtain ⟨htf, _, hb⟩ := row_closed hd
      rw [htf, hsym, own_snoc, if_pos rfl]
      exact hb

/-- The last row of the key of a retained candle is that candle. -/
theorem last_row_of_key {cfg : Settings} {s : Symbol} {tf b : Int} {P : List Tick}
    (htf : tf ∈ cfg.candle_timeframes_sec)
    (hb : b ∈ retainedBuckets tf cfg.candle_history_len (own s P)) :
    lastOf rowKey (s, tf, b) ((outputs (recordsAfter cfg) [] P).filterMap Record.candles) =
      some (closeCandle (candleOf tf b (own s P))).to_dict := by
  have hkey : ∀ d, rowKey d = (s, tf, b) → ofChart s tf d = true := by
    intro d hd
    simp only [rowKey, Prod.mk.injEq] at hd
    exact ofChart_iff.mpr ⟨hd.1, hd.2.1⟩
  rw [recorded_rows, ← lastOf_filter rowKey _ hkey, rows_of_chart htf, ← last_row tf _ (own s P) hb]
  unfold lastOf
  congr 1
  apply List.filter_congr
  intro d hd
  rw [← rows_of_chart htf] at hd
  obtain ⟨h1, h2⟩ := ofChart_iff.mp (List.mem_filter.mp hd).2
  simp [rowKey, h1, h2]

/-- The ticks in the interval of a candle of the history are those of its bucket. -/
theorem closed_interval {tf : Int} {n : Nat} {ticks : List Tick} {c : Candle} (htf : 1 ≤ tf)
    (hc : c ∈ closedCandles tf n ticks) :
    ticks.filter (fun t => InBucket tf c.bucket_start_ms t) =
      bucketTicks tf c.bucket_start_ms ticks := by
  apply List.filter_congr
  intro t _
  have hin := bucketOf_eq_iff_of_candle htf (List.mem_append_left (openCandle tf ticks).toList hc) t
  exact decide_eq_decide.mpr hin.symm

/-- A row is recorded for closed buckets only, and for every candle in the history the last
row of its key is the candle as it is now, which sums up all the ticks recorded in its
interval. -/
theorem what_is_persisted_is_what_is_in_memory (upper : Symbol → Symbol) (cfg : Settings)
    (symbols : List Symbol) (calls : List (Symbol × List Tick)) :
    let r := run (fun p call => Pipeline.process_batch p call.1 call.2)
      (Pipeline.new upper cfg symbols true) calls
    let records := r.1.flatten.flatMap Obs.records
    let recorded := records.filterMap Record.ticks
    let rows := records.filterMap Record.candles
    (∀ before row after, records = before ++ Record.candle row :: after →
      row.bucket_start_ms ∈
        closedBuckets row.timeframe_sec (own row.symbol (before.filterMap Record.ticks))) ∧
    (r.2.candle_aggs.map (·.timeframe_sec) = cfg.candle_timeframes_sec) ∧
    ∀ agg ∈ r.2.candle_aggs, ∀ s, ∀ c ∈ agg.history s, ∃ row,
      lastOf rowKey (s, agg.timeframe_sec, c.bucket_start_ms) rows = some row ∧
      row = c.to_dict ∧
      SumsUp row.high row.low row.volume row.trade_count
        ((own s recorded).filter (fun t => InBucket agg.timeframe_sec c.bucket_start_ms t)) := by
  intro r records recorded rows
  obtain ⟨hrecords, hcfg, -, hst⟩ := run_calls_records upper cfg symbols calls
  refine ⟨?_, hcfg.timeframes, ?_⟩
  · intro before row after heq
    refine rows_are_of_closed_buckets cfg (r.1.flatten.flatMap Obs.processed) before
      (.candle row) after ?_ row rfl
    rw [← hrecords]
    exact heq
  · intro agg hagg s c hc
    obtain ⟨htf, hn⟩ := hcfg.aggregator hagg
    have hhist := (hst s agg hagg).history_eq
    rw [hn] at hhist
    rw [hhist] at hc
    have hticks : recorded = r.1.flatten.flatMap Obs.processed := by
      have := recorded_ticks cfg (r.1.flatten.flatMap Obs.processed)
      rwa [← hrecords] at this
    obtain ⟨b, hb, rfl⟩ := List.mem_map.mp hc
    refine ⟨_, ?_, rfl, ?_⟩
    · have hlast := last_row_of_key htf hb
      rw [← hrecords] at hlast
      rw [closeCandle_bucket, candleOf_bucket]
      exact hlast
    · rw [hticks, closed_interval (cfg.timeframes_pos _ htf) hc]
      exact candles_sumUp (List.mem_append_left (openCandle agg.timeframe_sec _).toList hc)

end tick_pipeline.pipeline
