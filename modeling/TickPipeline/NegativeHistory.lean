-- A history length of any sign. `CANDLE_HISTORY_LEN` is read unchecked, and the `deque` of
-- a history raises on a negative `maxlen` when the first candle closes: that ends the batch
-- in its middle, and the consumer with it. From 0 on nothing raises, and the pipeline is the
-- one of the other modules.
import TickPipeline.Conservation

namespace tick_pipeline.candles

open models

/-- Whether `apply` raises: it closes a candle whose symbol has no history yet, and
`deque(maxlen=...)` refuses its argument. -/
def CandleAggregator.raises (maxlen : Int) (agg : CandleAggregator) (tick : Tick) : Bool :=
  decide (maxlen < 0) && (agg.history_ tick.symbol).isNone &&
    (agg.open_ tick.symbol).any
      (fun c => decide (bucket_start agg.timeframe_sec tick.event_time_ms > c.bucket_start_ms))

/-- What `apply` leaves behind when it raises: the open candle is marked already. -/
def CandleAggregator.raised (agg : CandleAggregator) (tick : Tick) : CandleAggregator :=
  { agg with
    last_patch := none
    open_ := Function.update agg.open_ tick.symbol ((agg.open_ tick.symbol).map closeCandle) }

end tick_pipeline.candles

namespace tick_pipeline.pipeline

open runs models ring_buffer sequencer candles drop_oldest

/-! ## The code, where `apply` may raise -/

section quiet

variable {maxlen : Int} {symbol : Symbol} {t : Tick} {p : Pipeline}

/-- No tick raises: a `deque` takes the length, or there is no aggregator. -/
def Quiet (maxlen : Int) (p : Pipeline) : Prop := 0 ≤ maxlen ∨ p.candle_aggs = []

theorem Quiet.raises (h : Quiet maxlen p) (t : Tick) :
    ∀ agg ∈ p.candle_aggs, agg.raises maxlen t = false := by
  intro agg hagg
  rcases h with hlen | hnone
  · have hnot : ¬ maxlen < 0 := by omega
    simp [CandleAggregator.raises, hnot]
  · rw [hnone] at hagg
    cases hagg

theorem Quiet.process_tick (h : Quiet maxlen p) (symbol : Symbol) (t : Tick) :
    Quiet maxlen (p.process_tick symbol t).2 := by
  refine h.imp_right (fun hnone => ?_)
  unfold Pipeline.process_tick
  simp [hnone]

end quiet

/-- No turn raises in `apply`: there is no symbol, or it takes nothing, or no tick raises. -/
def Calm (maxlen : Int) (cfg : Settings) (p : Pipeline) : Prop :=
  p.symbols = [] ∨ cfg.batch_max_size ≤ 0 ∨ Quiet maxlen p

section calm

variable {maxlen : Int} {cfg : Settings} {p : Pipeline}

theorem Calm.congr {p' : Pipeline} (h : Calm maxlen cfg p)
    (heq : p'.symbols = p.symbols ∧ p'.candle_aggs = p.candle_aggs) : Calm maxlen cfg p' := by
  unfold Calm Quiet at h ⊢
  rwa [heq.1, heq.2]

theorem Calm.ingest (h : Calm maxlen cfg p) (t : Tick) : Calm maxlen cfg (p.ingest t) :=
  h.congr ⟨ingest_symbols t, ingest_candle_aggs t⟩

end calm

/-! ## Where something raises -/

section raises

variable {maxlen : Int} {cfg : Settings} {p : Pipeline} {symbol : Symbol}

/-- Nothing is in the buffer or in the heap of a symbol, and no tick had an event time above 0. -/
structure Rests (cfg : Settings) (buf : RingBuffer Tick) (seq : Sequencer) : Prop where
  buffer : Holds buf empty
  heap : seq.heap = []
  max_seen : seq.max_event_time_seen = 0
  watermark : seq.watermark_ms = cfg.reorder_watermark_ms

/-- A tick that is old enough goes through at once. -/
theorem Rests.gather {buf : RingBuffer Tick} {seq : Sequencer} (h : Rests cfg buf seq)
    (hb : 1 ≤ cfg.batch_max_size) {t : Tick} (hpast : t.event_time_ms ≤ 0)
    (hold : t.event_time_ms ≤ -cfg.reorder_watermark_ms) :
    ∃ buf' seq', pipeline.gather cfg (buf.push_nowait t).2 seq = (some [t], buf', seq') ∧
      Rests cfg buf' seq' := by
  have hpush : Holds (buf.push_nowait t).2 ⟨[t], 0⟩ := by
    have hspec := (push_nowait.spec buf empty t h.buffer).2
    rwa [push_room _ _ _ h.buffer.capacity_pos] at hspec
  have hbatch : batchOf cfg ⟨[t], 0⟩ = [t] := List.take_of_length_le (by simp; omega)
  have hrest : restOf cfg ⟨[t], 0⟩ = empty := by
    have hdrop : [t].drop cfg.batch_max_size.toNat = [] := List.drop_of_length_le (by simp; omega)
    simp [restOf, empty, hdrop]
  have hpoll : (offers [t] seq).poll_ready.1 = [t] ∧ Rests cfg buf (offers [t] seq).poll_ready.2 := by
    have hmax : (seq.offer t).max_event_time_seen = 0 := by
      simp only [Sequencer.offer, h.max_seen]
      split
      · rfl
      · simp_all; omega
    have hheap : (seq.offer t).heap = [⟨t.event_time_ms, seq.seq_counter + 1, t⟩] := by
      simp [Sequencer.offer, h.heap, reorder.heappush]
    have hready : t.event_time_ms ≤ (seq.offer t).max_event_time_seen - (seq.offer t).watermark_ms := by
      rw [hmax, show (seq.offer t).watermark_ms = _ from h.watermark]
      omega
    unfold offers Sequencer.poll_ready
    simp only [List.foldl_cons, List.foldl_nil, hheap, reorder.popUpTo, if_pos hready]
    exact ⟨rfl, h.buffer, rfl, hmax, h.watermark⟩
  obtain ⟨buf', hbuf, -, -, hcase⟩ := gather.spec seq (show 0 ≤ cfg.batch_max_size by omega) hpush
  rw [hbatch, hrest] at *
  rcases hcase with ⟨hnil, -⟩ | ⟨-, heq⟩
  · cases hnil
  · rw [hpoll.1] at heq
    exact ⟨_, _, heq, hbuf, hpoll.2.heap, hpoll.2.max_seen, hpoll.2.watermark⟩

end raises

section law

variable (upper : Symbol → Symbol) (cfg : Settings) (maxlen : Int) (symbols : List Symbol)
variable (persistence : Bool)

end law

end tick_pipeline.pipeline
