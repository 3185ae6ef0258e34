-- The front end of a lane: what a turn takes from the ring buffer and lets out of
-- the sequencer. A batch size from 0 on takes from the front of the queue; a
-- negative one takes nothing, and leaves a buffer that counts items it has not.
import TickPipeline.Lane

namespace tick_pipeline.pipeline

open models ring_buffer sequencer drop_oldest

/-- A batch of ticks offered, one after the other. -/
def offers (batch : List Tick) (seq : Sequencer) : Sequencer := batch.foldl Sequencer.offer seq

theorem offers_snoc (batch : List Tick) (t : Tick) (seq : Sequencer) :
    offers (batch ++ [t]) seq = (offers batch seq).offer t := by
  simp [offers]

theorem offers_watermark (batch : List Tick) (seq : Sequencer) :
    (offers batch seq).watermark_ms = seq.watermark_ms := by
  induction batch generalizing seq with
  | nil => rfl
  | cons t batch ih => exact ih (seq.offer t)

theorem offer_all_some (batch : List Tick) (seq : Sequencer) :
    offer_all (batch.map some) seq = (true, offers batch seq) := by
  induction batch generalizing seq with
  | nil => rfl
  | cons t batch ih => exact ih (seq.offer t)

/-- The batch that a turn drains from a queue. -/
def batchOf (cfg : Settings) (q : Fifo Tick) : List Tick := q.items.take cfg.batch_max_size.toNat

/-- The queue after it. -/
def restOf (cfg : Settings) (q : Fifo Tick) : Fifo Tick :=
  ⟨q.items.drop cfg.batch_max_size.toNat, q.dropped⟩

theorem batchOf_append_restOf (cfg : Settings) (q : Fifo Tick) :
    batchOf cfg q ++ (restOf cfg q).items = q.items := List.take_append_drop ..

theorem drain_batch {cfg : Settings} {buf : RingBuffer Tick} {q : Fifo Tick}
    (hb : 0 ≤ cfg.batch_max_size) (h : Holds buf q) :
    (buf.drain_nowait (some cfg.batch_max_size)).1 = (batchOf cfg q).map some ∧
      Holds (buf.drain_nowait (some cfg.batch_max_size)).2 (restOf cfg q) :=
  drain_some.spec hb h

/-- What a turn takes and lets out, when the batch size is not negative: no offer raises. -/
theorem gather.spec {cfg : Settings} {buf : RingBuffer Tick} {q : Fifo Tick} (seq : Sequencer)
    (hb : 0 ≤ cfg.batch_max_size) (h : Holds buf q) :
    ∃ buf', Holds buf' (restOf cfg q) ∧ buf'.capacity = buf.capacity ∧
      buf'.pushed_total = buf.pushed_total ∧
      ((batchOf cfg q = [] ∧ gather cfg buf seq = (some [], buf', seq)) ∨
        (batchOf cfg q ≠ [] ∧ gather cfg buf seq =
          (some (offers (batchOf cfg q) seq).poll_ready.1, buf',
            (offers (batchOf cfg q) seq).poll_ready.2))) := by
  obtain ⟨h1, h2⟩ := drain_batch hb h
  refine ⟨(buf.drain_nowait (some cfg.batch_max_size)).2, h2, drain_nowait_capacity buf _,
    drain_nowait_pushed_total buf _, ?_⟩
  unfold gather
  dsimp only
  by_cases hnil : batchOf cfg q = []
  · left
    refine ⟨hnil, ?_⟩
    rw [h1, hnil, List.map_nil, if_pos rfl]
  · right
    refine ⟨hnil, ?_⟩
    rw [h1, if_neg (by simpa using hnil), offer_all_some]

theorem gather_buffer (cfg : Settings) (buf : RingBuffer Tick) (seq : Sequencer) :
    (gather cfg buf seq).2.1 = (buf.drain_nowait (some cfg.batch_max_size)).2 := by
  unfold gather
  dsimp only
  split
  · rfl
  · split <;> rfl

theorem turn_buffer (cfg : Settings) (persistence : Bool) (symbol : Symbol) (lane : Lane) :
    (lane.turn cfg persistence symbol).2.ring_buffer =
      (lane.ring_buffer.drain_nowait (some cfg.batch_max_size)).2 := by
  rw [← gather_buffer cfg lane.ring_buffer lane.sequencer]
  unfold Lane.turn
  dsimp only
  split <;> rfl

theorem gather_negative {cfg : Settings} (buf : RingBuffer Tick) (seq : Sequencer)
    (hb : cfg.batch_max_size < 0) :
    gather cfg buf seq =
      (some [], { buf with size := (buf.size - cfg.batch_max_size).toNat }, seq) := by
  unfold gather
  rw [drain_nowait_negative buf hb]
  rfl

/-! ## Counts -/

theorem offer_pending (t : Tick) (seq : Sequencer) : (seq.offer t).pending = seq.pending + 1 := by
  unfold Sequencer.pending Sequencer.offer
  exact (reorder.heappush_perm _ _ _ _).length_eq

theorem offers_pending (batch : List Tick) (seq : Sequencer) :
    (offers batch seq).pending = seq.pending + batch.length := by
  induction batch generalizing seq with
  | nil => rfl
  | cons t batch ih =>
    have := ih (seq.offer t)
    rw [offer_pending] at this
    rw [List.length_cons]
    unfold offers at this ⊢
    rw [List.foldl_cons]
    omega

theorem poll_ready_pending (seq : Sequencer) :
    seq.poll_ready.1.length + seq.poll_ready.2.pending = seq.pending := by
  have := congrArg List.length (poll_ready_append seq)
  simpa [Sequencer.pending] using this

/-- A turn moves ticks on, and loses none: what the queue and the heap held is held still, or
let out. -/
theorem gather_total {cfg : Settings} {buf : RingBuffer Tick} {q : Fifo Tick} (seq : Sequencer)
    (hb : 0 ≤ cfg.batch_max_size) (h : Holds buf q) :
    ∃ ready buf' seq', gather cfg buf seq = (some ready, buf', seq') ∧ Holds buf' (restOf cfg q) ∧
      buf'.capacity = buf.capacity ∧ buf'.pushed_total = buf.pushed_total ∧
      q.items.length + seq.pending = (restOf cfg q).items.length + seq'.pending + ready.length := by
  obtain ⟨buf', h1, h2, h3, hcase⟩ := gather.spec seq hb h
  have hsplit : (batchOf cfg q).length + (restOf cfg q).items.length = q.items.length := by
    rw [← List.length_append, batchOf_append_restOf]
  rcases hcase with ⟨hnil, heq⟩ | ⟨_, heq⟩
  · refine ⟨_, _, _, heq, h1, h2, h3, ?_⟩
    rw [hnil] at hsplit
    simp only [List.length_nil] at hsplit ⊢
    omega
  · refine ⟨_, _, _, heq, h1, h2, h3, ?_⟩
    have hpoll := poll_ready_pending (offers (batchOf cfg q) seq)
    rw [offers_pending] at hpoll
    omega

end tick_pipeline.pipeline
