-- The two read paths agree: after a flush, the table ends with the closed candles in
-- memory, and the rows before them are older.
import TickPipeline.TimeseriesStore
import TickPipeline.ExactWriter
import TickPipeline.PersistedRows
import TickPipeline.Lib.LatestRows

namespace tick_pipeline.timeseries_store

open runs models pipeline candles sqlite_store main event_log keyed_table last_n latest_rows emitted

/-! ## Runs -/

/-- The pipeline and its writer after a run of calls on the ticks `P`. -/
structure Persisted (cfg : Settings) (records : List Record) (P : List Tick) (b : Backend) : Prop where
  recorded : Recorded cfg records P b.pipeline
  mirrors : Mirrors records b.sqlite_writer

theorem Persisted.step {cfg : Settings} {records : List Record} {P : List Tick} {b : Backend}
    (h : Persisted cfg records P b) (op : BackendOp) :
    Persisted cfg (records ++ (b.step op).1.flatMap Obs.records)
      (P ++ (b.step op).1.flatMap Obs.processed) (b.step op).2 := by
  have hquiet : ∀ op : TaskOp, op.candles = [] →
      Persisted cfg (records ++ []) (P ++ []) (b.write op).2 := by
    intro op hop
    rw [List.append_nil, List.append_nil]
    exact ⟨h.recorded, h.mirrors.write hop⟩
  cases op with
  | process_batch symbol ticks =>
    exact ⟨h.recorded.process_batch symbol ticks, h.mirrors.recordAll _⟩
  | wake => exact hquiet .wake rfl
  | await ok => exact hquiet (.await ok) rfl
  | stop => exact hquiet .stop rfl
  | resume_stop => exact hquiet .resume_stop rfl

theorem run_persisted (upper : Symbol → Symbol) (cfg : Settings) (symbols : List Symbol)
    (ops : List BackendOp) : ∃ records P, Persisted cfg records P (Backend.after upper cfg symbols ops) := by
  have h := run_history Backend.step (s := Backend.new upper cfg symbols)
    (P := fun _ obs b => Persisted cfg (obs.flatten.flatMap Obs.records)
      (obs.flatten.flatMap Obs.processed) b)
    ⟨recorded_new upper cfg symbols, [], rfl, rfl⟩ ?_ ops
  · exact ⟨_, _, h⟩
  · intro _ obs b op ih
    rw [List.flatten_append, List.flatten_singleton, List.flatMap_append, List.flatMap_append]
    exact ih.step op

/-! ## The rows of a chart -/

/-- The row of a closed bucket, as it stands now. -/
def closedRow (tf : Int) (ticks : List Tick) (b : Int) : CandleRow :=
  candleRow (closeCandle (candleOf tf b ticks)).to_dict

/-- Closed buckets stay closed. -/
theorem closedBuckets_append (tf : Int) (xs ys : List Tick) :
    ∀ b ∈ closedBuckets tf xs, b ∈ closedBuckets tf (xs ++ ys) := by
  induction ys using List.reverseRecOn with
  | nil => simp
  | append_singleton ys y ih =>
    intro b hb
    rw [← List.append_assoc, closedBuckets_snoc]
    exact List.mem_append_left _ (ih b hb)

/-- A closed bucket that the history has let go is older than those it holds. -/
theorem evicted_lt_retained {tf b b' : Int} {n : Nat} {ticks : List Tick}
    (hb : b ∈ closedBuckets tf ticks) (hgone : b ∉ retainedBuckets tf n ticks)
    (hb' : b' ∈ retainedBuckets tf n ticks) : b < b' := by
  have hsorted : (closedBuckets tf ticks).Pairwise (· < ·) :=
    (openedBuckets_sorted tf ticks).sublist (closedBuckets_sublist tf ticks)
  have hsplit : (closedBuckets tf ticks).rdrop n ++ retainedBuckets tf n ticks =
      closedBuckets tf ticks := List.take_append_drop _ _
  rw [← hsplit, List.mem_append] at hb
  rw [← hsplit, List.pairwise_append] at hsorted
  exact hsorted.2.2 b (hb.resolve_right hgone) b' hb'

/-- The rows of the buckets that the history holds. -/
def retainedRows (tf : Int) (n : Nat) (ticks : List Tick) : List CandleRow :=
  (retainedBuckets tf n ticks).map (closedRow tf ticks)

theorem retainedRows_eq (tf : Int) (n : Nat) (ticks : List Tick) :
    retainedRows tf n ticks = (closedCandles tf n ticks).map (fun c => candleRow c.to_dict) := by
  rw [closedCandles, List.map_map]
  rfl

theorem closedRow_bucket (tf b : Int) (ticks : List Tick) :
    (closedRow tf ticks b).bucket_start_ms = b := by
  simp [closedRow, candleRow, Candle.to_dict]

theorem retainedRows_sorted (tf : Int) (n : Nat) (ticks : List Tick) :
    (retainedRows tf n ticks).Pairwise (fun r r' => r.bucket_start_ms < r'.bucket_start_ms) := by
  unfold retainedRows
  rw [List.pairwise_map]
  refine (retainedBuckets_sorted tf n ticks).imp (fun hlt => ?_)
  simpa [closedRow_bucket] using hlt

section chart

variable {cfg : Settings} {P : List Tick} {s : Symbol} {tf : Int}

/-- The rows recorded, as the writer puts them in its buffer. -/
def rowLog (cfg : Settings) (P : List Tick) : List CandleRow :=
  ((outputs (recordsAfter cfg) [] P).filterMap Record.candles).map candleRow

theorem lastOf_rowLog (k : Symbol × Int × Int) :
    lastOf CandleRow.key k (rowLog cfg P) =
      (lastOf rowKey k ((outputs (recordsAfter cfg) [] P).filterMap Record.candles)).map candleRow :=
  lastOf_map CandleRow.key candleRow k _

/-- A row is of a bucket that has closed. -/
theorem rowLog_closed {row : CandleRow} (hrow : row ∈ rowLog cfg P) :
    row.bucket_start_ms ∈ closedBuckets row.timeframe_sec (own row.symbol P) := by
  obtain ⟨d, hd, rfl⟩ := List.mem_map.mp hrow
  obtain ⟨r, hr, hrd⟩ := List.mem_filterMap.mp hd
  obtain rfl : r = .candle d := by
    cases r with
    | tick t => cases hrd
    | candle d' => exact congrArg Record.candle (by simpa [Record.candles] using hrd)
  obtain ⟨before, after, heq⟩ := List.append_of_mem hr
  have hclosed := rows_are_of_closed_buckets cfg P before _ after heq d rfl
  have hticks := recorded_ticks cfg P
  rw [heq, List.filterMap_append] at hticks
  rw [← hticks, own_append]
  exact closedBuckets_append _ _ _ _ hclosed

theorem closedRow_key {b : Int} (hb : b ∈ retainedBuckets tf cfg.candle_history_len (own s P)) :
    (closedRow tf (own s P) b).key = (s, tf, b) := by
  have hopened := (closedBuckets_sublist tf (own s P)).subset
    ((retainedBuckets_sublist tf _ (own s P)).subset hb)
  have hne := bucketTicks_ne_nil hopened
  have hsym := candleOf_symbol hne (own_symbol s P)
  simp [closedRow, candleRow, CandleRow.key, Candle.to_dict, closeCandle, hsym]

variable {table : List CandleRow}

/-- The rows of the table for a chart, the table being up to date. -/
def chartRows (s : Symbol) (tf : Int) (table : List CandleRow) : List CandleRow :=
  table.filter (fun row => row.symbol = s ∧ row.timeframe_sec = tf)

theorem mem_chartRows {row : CandleRow} :
    row ∈ chartRows s tf table ↔ row ∈ table ∧ row.key = (s, tf, row.bucket_start_ms) := by
  simp [chartRows, CandleRow.key]

/-- A chart has one row for each bucket. -/
theorem chartRows_nodup (h : LastWins CandleRow.key (rowLog cfg P) table) :
    ((chartRows s tf table).map CandleRow.bucket_start_ms).Nodup := by
  have hkeys : ((chartRows s tf table).map CandleRow.key).Nodup :=
    h.keys_nodup.sublist (List.filter_sublist.map CandleRow.key)
  have heq : (chartRows s tf table).map CandleRow.key =
      ((chartRows s tf table).map CandleRow.bucket_start_ms).map (fun b => (s, tf, b)) := by
    rw [List.map_map]
    exact List.map_congr_left (fun row hrow => (mem_chartRows.mp hrow).2)
  rw [heq] at hkeys
  exact List.Nodup.of_map _ hkeys

/-- The table has the closed candles in memory. -/
theorem closedRow_mem (htf : tf ∈ cfg.candle_timeframes_sec)
    (h : LastWins CandleRow.key (rowLog cfg P) table) {b : Int}
    (hb : b ∈ retainedBuckets tf cfg.candle_history_len (own s P)) :
    closedRow tf (own s P) b ∈ chartRows s tf table := by
  have hkey := closedRow_key hb
  refine mem_chartRows.mpr ⟨?_, ?_⟩
  · rw [h.mem_iff, hkey, lastOf_rowLog, last_row_of_key htf hb]
    rfl
  · rw [hkey, closedRow_bucket]

/-- Its other rows of the chart are of buckets that the history has let go. -/
theorem chartRow_evicted (htf : tf ∈ cfg.candle_timeframes_sec)
    (h : LastWins CandleRow.key (rowLog cfg P) table) {row : CandleRow}
    (hrow : row ∈ chartRows s tf table)
    (hother : row ∉ retainedRows tf cfg.candle_history_len (own s P)) :
    row.bucket_start_ms ∈ closedBuckets tf (own s P) ∧
      row.bucket_start_ms ∉ retainedBuckets tf cfg.candle_history_len (own s P) := by
  obtain ⟨htable, hkey⟩ := mem_chartRows.mp hrow
  have hlast := (h.mem_iff row).mp htable
  refine ⟨?_, ?_⟩
  · have hclosed := rowLog_closed (mem_of_lastOf _ hlast)
    simp only [CandleRow.key, Prod.mk.injEq] at hkey
    rwa [hkey.1, hkey.2.1] at hclosed
  · intro hb
    rw [hkey, lastOf_rowLog, last_row_of_key htf hb] at hlast
    exact hother (List.mem_map.mpr ⟨_, hb, Option.some.inj hlast⟩)

/-- The rows of a chart in order: those that the history has let go, and those it holds. -/
theorem chartRows_split (htf : tf ∈ cfg.candle_timeframes_sec)
    (h : LastWins CandleRow.key (rowLog cfg P) table) :
    upward CandleRow.bucket_start_ms (chartRows s tf table) =
      upward CandleRow.bucket_start_ms ((chartRows s tf table).filter
        (· ∉ retainedRows tf cfg.candle_history_len (own s P))) ++
      retainedRows tf cfg.candle_history_len (own s P) := by
  apply upward_split (chartRows_nodup h) (retainedRows_sorted _ _ _)
  · intro r hr
    obtain ⟨b, hb, rfl⟩ := List.mem_map.mp hr
    exact closedRow_mem htf h hb
  · intro r hr hother r' hr'
    obtain ⟨hclosed, hgone⟩ := chartRow_evicted htf h hr hother
    obtain ⟨b, hb, rfl⟩ := List.mem_map.mp hr'
    rw [closedRow_bucket]
    exact evicted_lt_retained hclosed hgone hb

end chart

/-! ## The reads -/

/-- The read from memory: the end of the history, and the open candle. -/
theorem slice_from_dropLast {α : Type} (history : List α) (current : Option α)
    (hopen : current = none → history = []) (k : Nat) :
    (slice_from (-((k : Int) + 1)) (history ++ current.toList)).dropLast = history.rtake k := by
  unfold slice_from
  rw [if_pos (by omega)]
  cases current with
  | none => simp [hopen rfl]
  | some c =>
    rw [Option.toList_some, List.length_append, List.length_singleton,
      List.drop_append_of_le_length (by omega), List.dropLast_concat, List.rtake]
    congr 1
    omega

/-- The read from the table, for a limit of at least 1. -/
theorem get_candles_from_db_eq (upper : Symbol → Symbol) (store : TimeSeriesStore) (symbol : Symbol)
    (tf : Int) {n : Int} (hn : 1 ≤ n) :
    store.get_candles_from_db upper symbol tf n =
      (upward CandleRow.bucket_start_ms (chartRows (upper symbol) tf store.db.candles)).rtake
        n.toNat := by
  unfold TimeSeriesStore.get_candles_from_db limit_to
  dsimp only
  rw [if_neg (by omega), ← take_reverse]
  rfl

/-- The read from memory, of one more candle than the history shall give. -/
theorem get_candles_eq (upper : Symbol → Symbol) {store : TimeSeriesStore} {agg : CandleAggregator}
    (hnodup : (store.pipeline.candle_aggs.map (·.timeframe_sec)).Nodup)
    (hagg : agg ∈ store.pipeline.candle_aggs) (symbol : Symbol)
    (hopen : agg.current (upper symbol) = none → agg.history (upper symbol) = []) (k : Nat) :
    (store.get_candles upper symbol agg.timeframe_sec (k + 1)).dropLast =
      ((agg.history (upper symbol)).rtake k).map Candle.to_dict := by
  unfold TimeSeriesStore.get_candles
  rw [find_of_nodup hnodup hagg]
  dsimp only
  rw [← List.map_dropLast, slice_from_dropLast _ _ hopen]

theorem openCandle_eq_none {tf : Int} {n : Nat} {ticks : List Tick} (h : openCandle tf ticks = none) :
    closedCandles tf n ticks = [] := by
  have hnil : openedBuckets tf ticks = [] := by
    rw [openCandle, Option.map_eq_none_iff] at h
    exact List.getLast?_eq_none_iff.mp h
  simp [closedCandles, retainedBuckets, closedBuckets, hnil]

/-- All candles in memory are newer than a bucket that the history has let go. -/
theorem evicted_lt_memory {tf b : Int} {n : Nat} {ticks : List Tick}
    (hb : b ∈ closedBuckets tf ticks) (hgone : b ∉ retainedBuckets tf n ticks) :
    ∀ c ∈ closedCandles tf n ticks ++ (openCandle tf ticks).toList, b < c.bucket_start_ms := by
  intro c hc
  rcases List.mem_append.mp hc with hc | hc
  · obtain ⟨b', hb', rfl⟩ := List.mem_map.mp hc
    rw [closeCandle_bucket, candleOf_bucket]
    exact evicted_lt_retained hb hgone hb'
  · rw [Option.mem_toList, openCandle, Option.map_eq_some_iff] at hc
    obtain ⟨m, hm, rfl⟩ := hc
    rw [candleOf_bucket]
    exact lt_of_mem_closedBuckets hm hb

/-- The two read paths agree. After any calls of `_process_batch` and any steps of the writer of
which none has raised, at a point where no flush is on its way and the buffers are empty: for
every symbol, timeframe and limit, the read from the table is in order, it ends with the
candles that the history ends with, which are those that the read from memory gives before the
open one, and its other rows are older than all candles in memory. -/
theorem the_two_read_paths_agree (upper : Symbol → Symbol) (cfg : Settings) (symbols : List Symbol)
    (ops : List BackendOp) :
    let b := Backend.after upper cfg symbols ops
    let w := b.sqlite_writer.writer
    b.sqlite_writer.Healthy → w.flush = none → w.tick_buffer = [] → w.candle_buffer = [] →
    b.pipeline.candle_aggs.map (·.timeframe_sec) = cfg.candle_timeframes_sec ∧
    ∀ agg ∈ b.pipeline.candle_aggs, ∀ (symbol : Symbol) (n : Int), 1 ≤ n →
      let history := agg.history (upper symbol)
      let rows := b.store.get_candles_from_db upper symbol agg.timeframe_sec n
      let k := min n.toNat history.length
      rows.Pairwise (fun r r' => r.bucket_start_ms < r'.bucket_start_ms) ∧
      rows.rtake k = (history.rtake k).map (fun c => candleRow c.to_dict) ∧
      (b.store.get_candles upper symbol agg.timeframe_sec (k + 1)).dropLast =
        (history.rtake k).map Candle.to_dict ∧
      ∀ row ∈ rows.rdrop k, ∀ c ∈ history ++ (agg.current (upper symbol)).toList,
        row.bucket_start_ms < c.bucket_start_ms := by
  intro b w hhealthy hidle htb hcb
  obtain ⟨records, P, hrec, tops, htops, hcandles⟩ := run_persisted upper cfg symbols ops
  have hcfg := hrec.configured
  have htable : LastWins CandleRow.key (rowLog cfg P) w.db.candles := by
    have hcut := run_cut tops (htops ▸ hhealthy)
    rw [← htops] at hcut
    have hwins := (hcut.written hidle htb hcb).2.1
    rwa [hcandles, hrec.records_eq] at hwins
  refine ⟨hcfg.timeframes, ?_⟩
  intro agg hagg symbol n hn history rows k
  obtain ⟨htf, hlen⟩ := hcfg.aggregator hagg
  have hstores := hrec.stores (upper symbol) agg hagg
  have hhistory : history = closedCandles agg.timeframe_sec cfg.candle_history_len
      (own (upper symbol) P) := hlen ▸ hstores.history_eq
  have hcurrent : agg.current (upper symbol) = openCandle agg.timeframe_sec (own (upper symbol) P) :=
    hstores.open_eq
  have htop := retainedRows_eq agg.timeframe_sec cfg.candle_history_len (own (upper symbol) P)
  rw [← hhistory] at htop
  have hk : k = min n.toNat (retainedRows agg.timeframe_sec cfg.candle_history_len
      (own (upper symbol) P)).length := by rw [htop, List.length_map]
  have hread : rows = (upward CandleRow.bucket_start_ms
      (chartRows (upper symbol) agg.timeframe_sec w.db.candles)).rtake n.toNat :=
    get_candles_from_db_eq upper b.store symbol agg.timeframe_sec hn
  have hsplit := hread
  rw [chartRows_split htf htable] at hsplit
  obtain ⟨hend, hrest⟩ := rtake_append_end (upward CandleRow.bucket_start_ms
    ((chartRows (upper symbol) agg.timeframe_sec w.db.candles).filter (· ∉ retainedRows
      agg.timeframe_sec cfg.candle_history_len (own (upper symbol) P))))
    (retainedRows agg.timeframe_sec cfg.candle_history_len (own (upper symbol) P)) n.toNat
  rw [← hsplit, ← hk] at hend hrest
  refine ⟨?_, ?_, ?_, ?_⟩
  · exact hread ▸ (upward_sorted (chartRows_nodup htable)).sublist (rtake_sublist _ _)
  · rw [hend, htop, rtake_map]
  · apply get_candles_eq upper (hcfg.timeframes ▸ cfg.timeframes_nodup) hagg
    intro hnone
    exact hhistory.trans (openCandle_eq_none (hcurrent.symm.trans hnone))
  · intro row hrow
    obtain ⟨h1, h2⟩ := List.mem_filter.mp ((upward_perm _).mem_iff.mp (hrest row hrow))
    obtain ⟨hclosed, hgone⟩ := chartRow_evicted htf htable h1 (by simpa using h2)
    rw [hhistory, hcurrent]
    exact evicted_lt_memory hclosed hgone

/-- With room for one closed candle in memory: a late tick revises it while a flush of its first
version is on its way, and both reads give the revised candle, the table one older besides. -/
theorem the_two_read_paths_agree_of_four :
    let cfg : Settings :=
      { settings with
        candle_timeframes_sec := [1]
        candle_history_len := 1
        timeframes_pos := by decide
        timeframes_nodup := by decide }
    let tick := fun price time : Int => (⟨"BTC-USD", price, 1, 1, time, false, 0⟩ : Tick)
    let ops : List BackendOp :=
      [.wake, .process_batch "BTC-USD" [tick 10 500, tick 20 1500, tick 30 2500], .wake, .await true,
        .process_batch "BTC-USD" [tick 25 1700], .await true, .await true, .await true, .await true,
        .wake, .await true, .await true, .await true, .await true, .await true]
    let b := Backend.after id cfg ["BTC-USD"] ops
    (b.store.get_candles_from_db id "BTC-USD" 1 5).map (fun r => (r.bucket_start_ms, r.high)) =
        [(0, 10), (1000, 25)] ∧
      ∀ agg ∈ b.pipeline.candle_aggs,
        (b.store.get_candles_from_db id "BTC-USD" agg.timeframe_sec 5).rtake
            (min (5 : Int).toNat (agg.history "BTC-USD").length) =
          ((agg.history "BTC-USD").rtake (min (5 : Int).toNat (agg.history "BTC-USD").length)).map
            (fun c => candleRow c.to_dict) := by
  intro cfg tick ops b
  have hb : Backend.after id cfg ["BTC-USD"] ops = b := rfl
  have hrows : (b.store.get_candles_from_db id "BTC-USD" 1 5).map
      (fun r => (r.bucket_start_ms, r.high)) = [(0, 10), (1000, 25)] := by decide +kernel
  have hhealthy : b.sqlite_writer.Healthy := ⟨by decide +kernel, by decide +kernel⟩
  have hidle : b.sqlite_writer.writer.flush = none :=
    Option.isNone_iff_eq_none.mp (by decide +kernel)
  have htb : b.sqlite_writer.writer.tick_buffer = [] := by decide +kernel
  have hcb : b.sqlite_writer.writer.candle_buffer = [] := by decide +kernel
  have h := the_two_read_paths_agree id cfg ["BTC-USD"] ops
  rw [hb] at h
  clear_value b
  refine ⟨hrows, fun agg hagg => ?_⟩
  exact ((h hhealthy hidle htb hcb).2 agg hagg "BTC-USD" 5 (by decide)).2.1

end tick_pipeline.timeseries_store
