-- Batching and reordering are invisible end to end: when ticks are on time and the
-- buffer has room, the pipeline does for a symbol what one batch of its ticks, in
-- event-time order, would have done.
import TickPipeline.Conservation
import TickPipeline.SequencerLaws

namespace tick_pipeline.pipeline

open runs models ring_buffer sequencer candles emitted drop_oldest

/-! ## The order of a lane -/

/-- The ticks pushed to a lane stand, in their order, before the sequencer or in the queue. -/
structure Ordered (watermark_ms : Int) (pushed : List Tick) (lane : Lane) (q : Fifo Tick)
    (offered : List Tick) (out : List HeapEntry) : Prop where
  holds : Holds lane.ring_buffer q
  pushed_eq : pushed = offered ++ q.items
  history : History watermark_ms offered lane.processed out lane.sequencer

theorem history_offers {W : Int} {offered returned : List Tick} {out : List HeapEntry}
    {seq : Sequencer} (hW : 0 ≤ W) (batch : List Tick)
    (h0 : ∀ t ∈ offered ++ batch, 0 ≤ t.event_time_ms) (h : History W offered returned out seq) :
    History W (offered ++ batch) returned out (offers batch seq) := by
  induction batch generalizing offered seq with
  | nil => simpa [offers] using h
  | cons t batch ih =>
    rw [List.append_cons] at h0 ⊢
    exact ih h0 (h.offer t hW (fun u hu => h0 u (List.mem_append_left _ hu)))

/-- What was let out so far starts the stable sort of all that was pushed. -/
theorem Ordered.sorted {W : Int} {pushed offered : List Tick} {lane : Lane} {q : Fifo Tick}
    {out : List HeapEntry} (h : Ordered W pushed lane q offered out) (hW : 0 ≤ W)
    (h0 : ∀ t ∈ pushed, 0 ≤ t.event_time_ms)
    (hon : ∀ i < pushed.length, onTime W pushed i = true) :
    lane.processed <+: pushed.mergeSort (fun a b => decide (a.event_time_ms ≤ b.event_time_ms)) := by
  obtain ⟨_, rfl, hhist⟩ := h
  -- Offer what the queue still holds, and flush: the whole run is then sorted.
  have hall := history_offers hW q.items h0 hhist
  rw [← hall.stable_sort hon]
  exact List.prefix_append _ _

theorem push_nowait_dropped {buf : RingBuffer Tick} {t : Tick}
    (h : (buf.push_nowait t).2.dropped = 0) : buf.dropped = 0 ∧ buf.size ≠ buf.capacity := by
  unfold RingBuffer.push_nowait at h
  by_cases hfull : buf.size = buf.capacity
  · simp [hfull] at h
  · exact ⟨by simpa [hfull] using h, hfull⟩

section lane

variable {cfg : Settings} {persistence : Bool} {symbol : Symbol}

theorem Ordered.push {pushed offered : List Tick} {lane : Lane} {q : Fifo Tick}
    {out : List HeapEntry} (h : Ordered cfg.reorder_watermark_ms pushed lane q offered out) (t : Tick)
    (hroom : lane.ring_buffer.size ≠ lane.ring_buffer.capacity) :
    ∃ q', Ordered cfg.reorder_watermark_ms (pushed ++ [t])
      { lane with ring_buffer := (lane.ring_buffer.push_nowait t).2 } q' offered out := by
  have hpush := (push_nowait.spec lane.ring_buffer q t h.holds).2
  have hlt : q.items.length < lane.ring_buffer.capacity := by
    have := h.holds.size_eq
    have := h.holds.fits
    omega
  rw [push_room _ q t hlt] at hpush
  refine ⟨_, hpush, ?_, h.history⟩
  rw [h.pushed_eq, List.append_assoc]

theorem Ordered.turn {pushed offered : List Tick} {lane : Lane} {q : Fifo Tick}
    {out : List HeapEntry} (h : Ordered cfg.reorder_watermark_ms pushed lane q offered out)
    (hW : 0 ≤ cfg.reorder_watermark_ms) (hb : 0 ≤ cfg.batch_max_size)
    (h0 : ∀ t ∈ pushed, 0 ≤ t.event_time_ms) :
    ∃ q' offered' out', Ordered cfg.reorder_watermark_ms pushed
      (lane.step cfg persistence symbol .turn).2 q' offered' out' := by
  obtain ⟨hholds, hpushed, hhist⟩ := h
  obtain ⟨buf, hbuf, _, _, hcase⟩ := gather.spec lane.sequencer hb hholds
  have hpushed' : pushed = offered ++ batchOf cfg q ++ (restOf cfg q).items := by
    rw [List.append_assoc, batchOf_append_restOf]
    exact hpushed
  have hoffered : ∀ t ∈ offered ++ batchOf cfg q, 0 ≤ t.event_time_ms := by
    intro t ht
    apply h0
    rw [hpushed']
    exact List.mem_append_left _ ht
  unfold Lane.step Lane.turn
  dsimp only
  rcases hcase with ⟨hnil, heq⟩ | ⟨_, heq⟩
  · rw [heq]
    refine ⟨restOf cfg q, offered, out, hbuf, ?_, hhist⟩
    rw [hpushed', hnil, List.append_nil]
  · rw [heq]
    have hpoll := (history_offers hW (batchOf cfg q) hoffered hhist).poll
    rcases hready : (offers (batchOf cfg q) lane.sequencer).poll_ready.1 with _ | ⟨t, rest⟩
    · rw [hready, List.append_nil] at hpoll
      exact ⟨restOf cfg q, _, _, hbuf, hpushed', hpoll⟩
    · rw [hready] at hpoll
      exact ⟨restOf cfg q, _, _, hbuf, hpushed', hpoll⟩

/-- A lane that dropped nothing keeps its ticks in order. -/
theorem run_ordered (hW : 0 ≤ cfg.reorder_watermark_ms) (hb : 0 ≤ cfg.batch_max_size)
    (ops : List LaneOp) (h0 : ∀ t ∈ ops.flatMap LaneOp.pushed, 0 ≤ t.event_time_ms)
    (hroom : (run (Lane.step cfg persistence symbol) (Lane.new cfg symbol) ops).2.ring_buffer.dropped
      = 0) :
    ∃ q offered out, Ordered cfg.reorder_watermark_ms (ops.flatMap LaneOp.pushed)
      (run (Lane.step cfg persistence symbol) (Lane.new cfg symbol) ops).2 q offered out := by
  induction ops using List.reverseRecOn with
  | nil =>
    exact ⟨empty, [], [], holds_new _ cfg.capacity_pos, rfl, history_new _⟩
  | append_singleton ops op ih =>
    rw [run_snoc] at hroom ⊢
    rw [List.flatMap_append, List.flatMap_singleton] at h0 ⊢
    have h0' : ∀ t ∈ ops.flatMap LaneOp.pushed, 0 ≤ t.event_time_ms :=
      fun t ht => h0 t (List.mem_append_left _ ht)
    cases op with
    | push t =>
      obtain ⟨hdropped, hfull⟩ := push_nowait_dropped hroom
      obtain ⟨q, offered, out, hord⟩ := ih h0' hdropped
      obtain ⟨q', hpush⟩ := hord.push t hfull
      exact ⟨q', offered, out, hpush⟩
    | turn =>
      have hdropped : (run (Lane.step cfg persistence symbol) (Lane.new cfg symbol)
          ops).2.ring_buffer.dropped = 0 := by
        unfold Lane.step at hroom
        dsimp only at hroom
        rwa [turn_buffer, drain_nowait_dropped] at hroom
      obtain ⟨q, offered, out, hord⟩ := ih h0' hdropped
      rw [LaneOp.pushed, List.append_nil]
      exact hord.turn hW hb h0'

/-- Pushes that fit drop nothing. -/
theorem run_pushes_fit (ticks : List Tick) (lane : Lane)
    (h : lane.ring_buffer.size + ticks.length ≤ lane.ring_buffer.capacity) :
    (run (Lane.step cfg persistence symbol) lane (ticks.map .push)).2.ring_buffer.dropped =
      lane.ring_buffer.dropped := by
  induction ticks generalizing lane with
  | nil => rfl
  | cons t ticks ih =>
    rw [List.length_cons] at h
    have hroom : lane.ring_buffer.size ≠ lane.ring_buffer.capacity := by omega
    rw [List.map_cons, run_cons]
    dsimp only
    rw [ih]
    · simp [Lane.step, RingBuffer.push_nowait, hroom]
    · simp only [Lane.step, RingBuffer.push_nowait, hroom, decide_false, Bool.false_eq_true, if_false]
      omega

end lane

/-! ## Room -/

/-- Every tick that the op ingests for the symbol finds room in the buffer. -/
def Op.Fits (symbol : Symbol) (p : Pipeline) (op : Op) : Prop :=
  (p.ring_buffers symbol).depth + (candles.own symbol op.ingested).length ≤
    (p.ring_buffers symbol).capacity

theorem own_op_fits {cfg : Settings} {persistence : Bool} {symbol : Symbol} (lane : Lane) (op : Op)
    (h : lane.ring_buffer.size + (own symbol op.ingested).length ≤ lane.ring_buffer.capacity) :
    (run (Lane.step cfg persistence symbol) lane (op.own symbol)).2.ring_buffer.dropped =
      lane.ring_buffer.dropped := by
  cases op with
  | ingest t =>
    have hown : Op.own symbol (.ingest t) = (own symbol [t]).map .push := by
      unfold Op.own own
      by_cases hs : t.symbol = symbol <;> simp [hs]
    rw [hown]
    exact run_pushes_fit _ lane h
  | ingest_many ticks => exact run_pushes_fit _ lane h
  | consume_symbol s =>
    unfold Op.own
    dsimp only
    split
    · simp only [run_cons, run_nil, Lane.step]
      rw [turn_buffer, drain_nowait_dropped]
    · rfl
  | rate_round elapsed => rfl

/-- A buffer that was never full when a tick came has dropped nothing. -/
theorem run_fits {upper : Symbol → Symbol} {cfg : Settings} {symbols : List Symbol}
    {persistence : Bool} {symbol : Symbol} (hk : symbol ∈ symbols.map upper) (ops : List Op)
    (hroom : ∀ pre op post, ops = pre ++ op :: post →
      op.Fits symbol (run (Pipeline.step cfg) (Pipeline.new upper cfg symbols persistence) pre).2) :
    (run (Lane.step cfg persistence symbol) (Lane.new cfg symbol)
      (ops.flatMap (Op.own symbol))).2.ring_buffer.dropped = 0 := by
  induction ops using List.reverseRecOn with
  | nil => rfl
  | append_singleton ops op ih =>
    have hprev := ih (fun pre op' post heq => hroom pre op' (post ++ [op]) (by simp [heq]))
    have hlane := (run_lane upper cfg symbols persistence hk ops).2.2
    have hfits := hroom ops op [] rfl
    unfold Op.Fits RingBuffer.depth at hfits
    rw [hlane.ring_eq] at hfits
    rw [List.flatMap_append, List.flatMap_singleton, run_append]
    dsimp only
    rw [own_op_fits _ op hfits]
    exact hprev

theorem run_lane_capacity (cfg : Settings) (persistence : Bool) (symbol : Symbol) (ops : List LaneOp) :
    (run (Lane.step cfg persistence symbol) (Lane.new cfg symbol) ops).2.ring_buffer.capacity =
      cfg.ring_buffer_capacity := by
  apply run_invariant (Lane.step cfg persistence symbol)
    (P := fun lane => lane.ring_buffer.capacity = cfg.ring_buffer_capacity)
  · intro lane op h
    cases op with
    | push t => exact h
    | turn =>
      unfold Lane.step
      dsimp only
      rw [turn_buffer, drain_nowait_capacity]
      exact h
  · rfl

/-- A run that ingests no more ticks than the buffer holds always finds room. -/
theorem fits_of_few {upper : Symbol → Symbol} {cfg : Settings} {symbols : List Symbol}
    {persistence : Bool} {symbol : Symbol} (hk : symbol ∈ symbols.map upper)
    (hb : 0 ≤ cfg.batch_max_size) (ops : List Op)
    (hfew : (own symbol (ops.flatMap Op.ingested)).length ≤ cfg.ring_buffer_capacity) :
    ∀ pre op post, ops = pre ++ op :: post →
      op.Fits symbol (run (Pipeline.step cfg) (Pipeline.new upper cfg symbols persistence) pre).2 := by
  rintro pre op post rfl
  have hlane := (run_lane upper cfg symbols persistence hk pre).2.2
  obtain ⟨q, hholds, _, htotal⟩ := run_laneTotal persistence symbol hb (pre.flatMap (Op.own symbol))
  have hcap := run_lane_capacity cfg persistence symbol (pre.flatMap (Op.own symbol))
  have hsize := hholds.size_eq
  rw [pushed_own] at htotal
  rw [List.flatMap_append, List.flatMap_cons, own_append, own_append, List.length_append,
    List.length_append] at hfew
  unfold Op.Fits RingBuffer.depth
  rw [hlane.ring_eq, hcap]
  omega

/-! ## No late patch -/

/-- A tick at or after every tick before it does not take the late branch. -/
theorem apply_on_time {agg : CandleAggregator} {before : List Tick} {t : Tick}
    (htf : 1 ≤ agg.timeframe_sec) (h : Stores agg t.symbol before)
    (hle : ∀ u ∈ before, u.event_time_ms ≤ t.event_time_ms) :
    (agg.apply t).2.late_patches = agg.late_patches := by
  have hlate : late agg.timeframe_sec before t = false := by
    by_contra hne
    obtain ⟨u, hu, hlt⟩ := older_of_late htf (Bool.eq_true_of_not_eq_false hne)
    exact absurd (hle u hu) (not_le.mpr hlt)
  rw [apply_late_patches h, hlate]
  rfl

theorem feed_on_time {agg : CandleAggregator} {before : List Tick} {t : Tick} (symbol : Symbol)
    (htf : 1 ≤ agg.timeframe_sec) (h : Stores agg t.symbol before)
    (hle : ∀ u ∈ before, u.event_time_ms ≤ t.event_time_ms) :
    (feed symbol t agg).2.late_patches = agg.late_patches := apply_on_time htf h hle

/-- Ticks in event-time order patch nothing. -/
theorem process_ticks_on_time {cfg : Settings} {p : Pipeline} {s : Symbol} {before : List Tick}
    (ticks : List Tick) (hcfg : Configured cfg p) (h : Remembers p s before)
    (hs : ∀ t ∈ ticks, t.symbol = s)
    (hsorted : (before ++ ticks).Pairwise (fun a b => a.event_time_ms ≤ b.event_time_ms)) :
    (run (Pipeline.process_tick s) p ticks).2.candle_aggs.map (·.late_patches) =
      p.candle_aggs.map (·.late_patches) := by
  induction ticks generalizing p before with
  | nil => rfl
  | cons t ticks ih =>
    obtain rfl : t.symbol = s := hs t (by simp)
    rw [List.append_cons] at hsorted
    rw [run_cons]
    dsimp only
    rw [ih (process_tick_configured t.symbol t hcfg) (process_tick_own t h)
      (fun u hu => hs u (by simp [hu])) hsorted]
    have hle : ∀ u ∈ before, u.event_time_ms ≤ t.event_time_ms := by
      intro u hu
      exact (List.pairwise_append.mp (List.pairwise_append.mp hsorted).1).2.2 u hu t (by simp)
    unfold Pipeline.process_tick
    dsimp only
    rw [List.map_map, List.map_map]
    apply List.map_congr_left
    intro agg hagg
    exact feed_on_time t.symbol (cfg.timeframes_pos _ (hcfg.aggregator hagg).1)
      (h.stores agg hagg) hle

theorem consume_on_time {cfg : Settings} {symbols : List Symbol} {persistence : Bool}
    {p : Pipeline} {s : Symbol} {lane : Lane} (hsound : Sound cfg symbols persistence p)
    (h : HasLane cfg s p lane)
    (hsorted : (lane.turn cfg persistence s).2.processed.Pairwise
      (fun a b => a.event_time_ms ≤ b.event_time_ms)) :
    (p.consume_symbol cfg s).2.candle_aggs.map (·.late_patches) =
      p.candle_aggs.map (·.late_patches) := by
  obtain ⟨_, heq⟩ | ⟨hk, ready, buf, seq, hg, hcase⟩ := consume_symbol_cases cfg p s
  · rw [heq]
  · rcases hcase with ⟨_, heq⟩ | ⟨_, heq⟩ | ⟨t, rest, rfl, heq⟩
    · rw [heq]
      rfl
    · rw [heq]
      rfl
    · obtain ⟨hready, hown⟩ := gather_own cfg (hsound.own s)
      rw [hg] at hready hown
      have hfront := withFront_sound hown hsound
      have hlane : HasLane cfg s (p.withFront s buf seq)
          { lane with ring_buffer := buf, sequencer := seq } := withFront_lane h
      unfold Lane.turn at hsorted
      rw [← h.ring_eq, ← h.seq_eq, hg] at hsorted
      have hk' : s ∈ (p.withFront s buf seq).symbols := hk
      rw [heq]
      unfold Pipeline.process_batch
      rw [if_pos hk']
      exact process_ticks_on_time (t :: rest) hfront.configured hlane.remembers (hready _ rfl) hsorted

/-! ## The law -/

theorem stable_sort_sorted (ticks : List Tick) :
    (ticks.mergeSort (fun a b => decide (a.event_time_ms ≤ b.event_time_ms))).Pairwise
      (fun a b => a.event_time_ms ≤ b.event_time_ms) := by
  have htrans : ∀ a b c : Tick, decide (a.event_time_ms ≤ b.event_time_ms) = true →
      decide (b.event_time_ms ≤ c.event_time_ms) = true →
      decide (a.event_time_ms ≤ c.event_time_ms) = true := by
    intro a b c hab hbc
    simp only [decide_eq_true_eq] at *
    omega
  have htotal : ∀ a b : Tick, (decide (a.event_time_ms ≤ b.event_time_ms) ||
      decide (b.event_time_ms ≤ a.event_time_ms)) = true := by
    intro a b
    simp only [Bool.or_eq_true, decide_eq_true_eq]
    omega
  exact (List.pairwise_mergeSort htrans htotal ticks).imp (fun {a b} hab => by simpa using hab)

section law

variable (upper : Symbol → Symbol) (cfg : Settings) (symbols : List Symbol) (persistence : Bool)

/-- The ticks processed so far start the stable sort of all the ticks of the symbol. -/
theorem processed_prefix {symbol : Symbol} (hk : symbol ∈ symbols.map upper)
    (hW : 0 ≤ cfg.reorder_watermark_ms) (hb : 0 ≤ cfg.batch_max_size) (ops later : List Op)
    (h0 : ∀ t ∈ own symbol ((ops ++ later).flatMap Op.ingested), 0 ≤ t.event_time_ms)
    (hon : ∀ i < (own symbol ((ops ++ later).flatMap Op.ingested)).length,
      onTime cfg.reorder_watermark_ms (own symbol ((ops ++ later).flatMap Op.ingested)) i = true)
    (hroom : ∀ pre op post, ops ++ later = pre ++ op :: post →
      op.Fits symbol (run (Pipeline.step cfg) (Pipeline.new upper cfg symbols persistence) pre).2) :
    (run (Lane.step cfg persistence symbol) (Lane.new cfg symbol)
        (ops.flatMap (Op.own symbol))).2.processed <+:
      (own symbol ((ops ++ later).flatMap Op.ingested)).mergeSort
        (fun a b => decide (a.event_time_ms ≤ b.event_time_ms)) := by
  rw [← pushed_own] at h0 hon ⊢
  obtain ⟨q, offered, out, hord⟩ := run_ordered hW hb _ h0 (run_fits hk (ops ++ later) hroom)
  refine List.IsPrefix.trans ?_ (hord.sorted hW h0 hon)
  have hall := run_laneRun cfg persistence symbol _ (own_ops symbol (ops ++ later))
  have hsome := run_laneRun cfg persistence symbol _ (own_ops symbol ops)
  dsimp only at hall hsome
  rw [← hsome.processed_eq, ← hall.processed_eq, List.flatMap_append, run_append,
    List.flatten_append, List.flatMap_append]
  exact List.prefix_append _ _

/-- For a symbol whose ticks are on time and find room: in every run the ticks processed so far
start the stable sort of its ticks by event time, and its batches emitted what one batch of
these ticks emits on a fresh pipeline. No turn of its consumer patches a candle, and each of
its candles opens and closes at the first and the last processed tick of its bucket. -/
theorem batching_and_reordering_are_invisible {symbol : Symbol} (hk : symbol ∈ symbols.map upper)
    (hW : 0 ≤ cfg.reorder_watermark_ms) (hb : 1 ≤ cfg.batch_max_size) (ops later : List Op)
    (h0 : ∀ t ∈ own symbol ((ops ++ later).flatMap Op.ingested), 0 ≤ t.event_time_ms)
    (hon : ∀ i < (own symbol ((ops ++ later).flatMap Op.ingested)).length,
      onTime cfg.reorder_watermark_ms (own symbol ((ops ++ later).flatMap Op.ingested)) i = true)
    (hroom : ∀ pre op post, ops ++ later = pre ++ op :: post →
      op.Fits symbol (run (Pipeline.step cfg) (Pipeline.new upper cfg symbols persistence) pre).2) :
    let fresh := Pipeline.new upper cfg symbols persistence
    let r := run (Pipeline.step cfg) fresh ops
    let batches := r.1.flatten.filter (Obs.batchOf symbol)
    let processed := batches.flatMap Obs.processed
    (processed <+: (own symbol ((ops ++ later).flatMap Op.ingested)).mergeSort
      (fun a b => decide (a.event_time_ms ≤ b.event_time_ms))) ∧
    batches.flatMap Obs.events = (fresh.process_batch symbol processed).1.flatMap Obs.events ∧
    (∀ pre post, ops = pre ++ .consume_symbol symbol :: post →
      let p := (run (Pipeline.step cfg) fresh pre).2
      (p.step cfg (.consume_symbol symbol)).2.candle_aggs.map (·.late_patches) =
        p.candle_aggs.map (·.late_patches)) ∧
    ∀ agg ∈ r.2.candle_aggs, ∀ c ∈ agg.history symbol ++ (agg.current symbol).toList,
      let ticks := bucketTicks agg.timeframe_sec c.bucket_start_ms processed
      ticks.head?.map (·.price) = some c.open_ ∧ ticks.getLast?.map (·.price) = some c.close := by
  intro fresh r batches processed
  have hb0 : 0 ≤ cfg.batch_max_size := by omega
  obtain ⟨hobs, hsound, hlane⟩ := run_lane upper cfg symbols persistence hk ops
  have hrun := run_laneRun cfg persistence symbol _ (own_ops symbol ops)
  dsimp only at hrun
  rw [← hobs] at hrun
  have hprocessed : processed = _ := hrun.processed_eq
  refine ⟨?_, ?_, ?_, ?_⟩
  · rw [hprocessed]
    exact processed_prefix upper cfg symbols persistence hk hW hb0 ops later h0 hon hroom
  · have hfresh := process_ticks.spec processed (configured_new upper cfg symbols persistence)
      (remembers_new upper cfg symbols persistence symbol) (by rw [hprocessed]; exact hrun.processed_own)
    have hk' : symbol ∈ fresh.symbols := hk
    unfold Pipeline.process_batch
    rw [if_pos hk']
    dsimp only
    rw [List.flatMap_singleton, Obs.events, hfresh.1, hprocessed]
    exact hrun.events_eq
  · intro pre post heq p
    have hsplit : ops ++ later = (pre ++ [Op.consume_symbol symbol]) ++ (post ++ later) := by
      simp [heq]
    obtain ⟨_, hsound', hlane'⟩ := run_lane upper cfg symbols persistence hk pre
    apply consume_on_time hsound' hlane'
    have hpre := processed_prefix upper cfg symbols persistence hk hW hb0
      (pre ++ [Op.consume_symbol symbol]) (post ++ later) (hsplit ▸ h0) (hsplit ▸ hon) (hsplit ▸ hroom)
    have hsorted := stable_sort_sorted
      (own symbol (((pre ++ [Op.consume_symbol symbol]) ++ (post ++ later)).flatMap Op.ingested))
    have hturn : Op.own symbol (.consume_symbol symbol) = [.turn] := if_pos rfl
    rw [List.flatMap_append, List.flatMap_singleton, hturn, run_snoc] at hpre
    exact hsorted.sublist hpre.sublist
  · intro agg hagg c hc ticks
    obtain ⟨hopen, hhist⟩ := hlane.remembers.stores agg hagg
    rw [hopen, hhist] at hc
    have := candles_open_close hc
    rw [← hprocessed] at this
    exact this

end law

/-- Two ticks out of order in one batch, and one more in the next. -/
theorem batching_and_reordering_are_invisible_of_three :
    let tick (id time : Int) : Tick := ⟨"BTC-USD", 100, 1, id, time, false, 0⟩
    let ops := [.ingest (tick 1 1000), .ingest (tick 2 900), .consume_symbol "BTC-USD",
      .ingest (tick 3 1300), .consume_symbol "BTC-USD"]
    let r := run (Pipeline.step settings) (Pipeline.new id settings ["BTC-USD"] true) ops
    (r.1.flatten.filter (Obs.batchOf "BTC-USD")).flatMap Obs.processed <+:
      (own "BTC-USD" ((ops ++ []).flatMap Op.ingested)).mergeSort
        (fun a b => decide (a.event_time_ms ≤ b.event_time_ms)) := by
  intro tick ops r
  exact (batching_and_reordering_are_invisible id settings ["BTC-USD"] true (by decide) (by decide)
    (by decide) ops [] (by decide) (by decide) (fits_of_few (by decide) (by decide) _ (by decide))).1

end tick_pipeline.pipeline
