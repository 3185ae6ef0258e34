-- The pipeline conserves ticks: each tick ingested is dropped, buffered, pending or
-- processed, and the counters say so. A negative batch size breaks the count.
import TickPipeline.Front
import TickPipeline.LaneRuns

namespace tick_pipeline.pipeline

open runs models ring_buffer sequencer candles emitted event_log drop_oldest

/-! ## One lane -/

/-- The tick that an op pushes. -/
def LaneOp.pushed : LaneOp → List Tick
  | .push t => [t]
  | .turn => []

/-- The lane of a symbol is pushed the ticks ingested with that symbol. -/
theorem pushed_own (symbol : Symbol) (ops : List Op) :
    (ops.flatMap (Op.own symbol)).flatMap LaneOp.pushed = own symbol (ops.flatMap Op.ingested) := by
  induction ops with
  | nil => rfl
  | cons op ops ih =>
    rw [List.flatMap_cons, List.flatMap_append, ih, List.flatMap_cons, own_append]
    congr 1
    cases op with
    | ingest t =>
      unfold Op.own own
      by_cases hs : t.symbol = symbol <;> simp [hs, LaneOp.pushed, Op.ingested]
    | ingest_many ticks =>
      unfold Op.own own Op.ingested
      dsimp only
      induction ticks.filter (fun t => decide (t.symbol = symbol)) with
      | nil => rfl
      | cons t ticks ih => simpa [LaneOp.pushed] using ih
    | consume_symbol s =>
      unfold Op.own
      by_cases hs : s = symbol <;> simp [hs, LaneOp.pushed, Op.ingested, own]
    | rate_round elapsed => rfl

/-- Every tick pushed is dropped, buffered, pending or processed. -/
structure LaneTotal (pushed : List Tick) (lane : Lane) (q : Fifo Tick) : Prop where
  holds : Holds lane.ring_buffer q
  pushed_total : lane.ring_buffer.pushed_total = pushed.length
  total : pushed.length =
    q.dropped + q.items.length + lane.sequencer.pending + lane.processed.length

section lane

variable {cfg : Settings} {persistence : Bool} {symbol : Symbol}

theorem LaneTotal.step {pushed : List Tick} {lane : Lane} {q : Fifo Tick}
    (hb : 0 ≤ cfg.batch_max_size) (h : LaneTotal pushed lane q) (op : LaneOp) :
    ∃ q', LaneTotal (pushed ++ op.pushed) (lane.step cfg persistence symbol op).2 q' := by
  obtain ⟨hholds, hpushed, htotal⟩ := h
  cases op with
  | push t =>
    have hlen := push_length lane.ring_buffer.capacity q t hholds.capacity_pos hholds.fits
    refine ⟨_, (push_nowait.spec lane.ring_buffer q t hholds).2, ?_, ?_⟩
    · simp [Lane.step, LaneOp.pushed, hpushed]
    · simp only [LaneOp.pushed, List.length_append, List.length_singleton, Lane.step]
      omega
  | turn =>
    obtain ⟨ready, buf, seq, hg, h1, _, h3, h4⟩ := gather_total lane.sequencer hb hholds
    refine ⟨restOf cfg q, ?_⟩
    have hdropped : (restOf cfg q).dropped = q.dropped := rfl
    unfold Lane.step Lane.turn
    dsimp only
    rw [hg, LaneOp.pushed, List.append_nil]
    cases ready with
    | nil =>
      refine ⟨h1, h3.trans hpushed, ?_⟩
      simp only [List.length_nil] at h4 ⊢
      omega
    | cons t rest =>
      refine ⟨h1, h3.trans hpushed, ?_⟩
      simp only [Lane.process, List.length_append]
      omega

theorem run_laneTotal (persistence : Bool) (symbol : Symbol) (hb : 0 ≤ cfg.batch_max_size) (ops : List LaneOp) :
    ∃ q, LaneTotal (ops.flatMap LaneOp.pushed)
      (run (Lane.step cfg persistence symbol) (Lane.new cfg symbol) ops).2 q := by
  apply run_history (Lane.step cfg persistence symbol)
    (P := fun ops _ lane => ∃ q, LaneTotal (ops.flatMap LaneOp.pushed) lane q)
  · exact ⟨empty, holds_new _ cfg.capacity_pos, rfl, rfl⟩
  · intro ops _ lane op ⟨q, h⟩
    rw [List.flatMap_append, List.flatMap_singleton]
    exact h.step hb op

end lane

/-! ## The counts of the outputs -/

section rated

variable {cfg : Settings} {p : Pipeline} {obs : List Obs}

end rated

section law

variable (upper : Symbol → Symbol) (cfg : Settings) (symbols : List Symbol) (persistence : Bool)

end law

end tick_pipeline.pipeline
