-- When the stats of a symbol lag behind. They are copied from the counters where a
-- batch is processed, so a turn that releases nothing leaves them as they were,
-- whatever its ticks moved.
import TickPipeline.GapLaws
import TickPipeline.SequencerCounters

namespace tick_pipeline.sequencer

open models id_spans

theorem gap_after_nonneg (last_id : Option Int) (trade_id : Int) : 0 ≤ gap_after last_id trade_id := by
  unfold gap_after
  split
  · exact le_rfl
  · split <;> omega

theorem offer_out_of_order (s : Sequencer) (t : Tick) :
    (s.offer t).out_of_order_count =
      s.out_of_order_count + if t.event_time_ms < s.max_event_time_seen then 1 else 0 := by
  simp only [Sequencer.offer, decide_eq_true_eq]
  split <;> rfl

theorem offer_gap (s : Sequencer) (t : Tick) :
    (s.offer t).gap_count = s.gap_count + gap_after (s.last_trade_id t.symbol) t.trade_id := rfl

end tick_pipeline.sequencer

namespace tick_pipeline.pipeline

open runs models ring_buffer sequencer id_spans drop_oldest

/-! ## What a batch moves -/

/-- The counters never fall. -/
theorem offers_counts_le (batch : List Tick) (seq : Sequencer) :
    seq.out_of_order_count ≤ (offers batch seq).out_of_order_count ∧
      seq.gap_count ≤ (offers batch seq).gap_count := by
  induction batch using List.reverseRecOn with
  | nil => exact ⟨le_rfl, le_rfl⟩
  | append_singleton batch t ih =>
    have hgap := gap_after_nonneg ((offers batch seq).last_trade_id t.symbol) t.trade_id
    rw [offers_snoc, offer_out_of_order, offer_gap]
    omega

/-- The stats show what the counters stood at before. -/
structure Behind (stat : SymbolStats) (seq : Sequencer) : Prop where
  out_of_order : stat.out_of_order_count ≤ seq.out_of_order_count
  gap : stat.gap_count ≤ seq.gap_count

theorem gather_counts_le (cfg : Settings) (buf : RingBuffer Tick) (seq : Sequencer) :
    seq.out_of_order_count ≤ (gather cfg buf seq).2.2.out_of_order_count ∧
      seq.gap_count ≤ (gather cfg buf seq).2.2.gap_count := by
  unfold gather
  dsimp only
  split
  · exact ⟨le_rfl, le_rfl⟩
  · have hle := offers_counts_le (offered_of (buf.drain_nowait (some cfg.batch_max_size)).1) seq
    rw [← offer_all_offers] at hle
    rcases hoffer : offer_all (buf.drain_nowait (some cfg.batch_max_size)).1 seq with ⟨ok, seq'⟩
    rw [hoffer] at hle
    cases ok with
    | false => exact hle
    | true => exact hle

theorem Behind.turn {cfg : Settings} {persistence : Bool} {symbol : Symbol} {lane : Lane}
    (h : Behind lane.stat lane.sequencer) :
    Behind (lane.turn cfg persistence symbol).2.stat (lane.turn cfg persistence symbol).2.sequencer := by
  obtain ⟨hlate, hgap⟩ := gather_counts_le cfg lane.ring_buffer lane.sequencer
  have hbehind : Behind lane.stat (gather cfg lane.ring_buffer lane.sequencer).2.2 :=
    ⟨h.out_of_order.trans hlate, h.gap.trans hgap⟩
  unfold Lane.turn
  dsimp only
  split
  · exact hbehind
  · exact hbehind
  · exact ⟨le_rfl, le_rfl⟩

/-- What a turn of the consumer of a symbol would drain now. -/
def Pipeline.drains (cfg : Settings) (p : Pipeline) (symbol : Symbol) : List (Option Tick) :=
  ((p.ring_buffers symbol).drain_nowait (some cfg.batch_max_size)).1

section drains

variable {cfg : Settings} {p : Pipeline} {symbol : Symbol}

end drains

section turns

variable (upper : Symbol → Symbol) (cfg : Settings) (symbols : List Symbol) (persistence : Bool)

end turns

end tick_pipeline.pipeline
