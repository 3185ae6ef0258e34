-- What the ring buffer overwrites shows up as a gap of the sequencer: the two count
-- apart from each other, and what joins them is that the buffer holds the newest
-- ticks, in order.
import TickPipeline.Moves
import TickPipeline.Conservation

namespace tick_pipeline.sequencer

open models

/-- With ids that grow, the gap count is what the span of the ids leaves out. -/
theorem offers_gap {symbol : Symbol} (watermark_ms : Int) (f : Tick) (rest : List Tick)
    (hs : ∀ t ∈ f :: rest, t.symbol = symbol)
    (hids : (f :: rest).Pairwise (fun t u => t.trade_id < u.trade_id)) :
    ∃ l, (f :: rest).getLast? = some l ∧
      (pipeline.offers (f :: rest) (Sequencer.new watermark_ms)).last_trade_id symbol =
        some l.trade_id ∧
      (pipeline.offers (f :: rest) (Sequencer.new watermark_ms)).gap_count =
        l.trade_id - f.trade_id + 1 - (f :: rest).length := by
  induction rest using List.reverseRecOn with
  | nil =>
    obtain rfl := hs f (by simp)
    refine ⟨f, rfl, ?_, ?_⟩
    · simp [pipeline.offers, Sequencer.offer, Sequencer.new, last_id_after]
    · simp [pipeline.offers, Sequencer.offer, Sequencer.new, gap_after]
  | append_singleton rest t ih =>
    rw [← List.cons_append] at hs hids ⊢
    obtain ⟨hinc, -, hlast⟩ := List.pairwise_append.mp hids
    obtain ⟨l, hl, hid, hgap⟩ := ih (fun u hu => hs u (List.mem_append_left _ hu)) hinc
    have hlt : l.trade_id < t.trade_id := hlast l (List.mem_of_getLast? hl) t (by simp)
    obtain rfl := hs t (by simp)
    rw [pipeline.offers_snoc]
    unfold Sequencer.offer
    dsimp only
    rw [hid, hgap, Function.update_self, List.length_append, List.length_singleton]
    refine ⟨t, List.getLast?_concat, ?_, ?_⟩
    · simp [last_id_after, hlt]
    · simp only [gap_after]
      split
      · push_cast
        omega
      · push_cast
        omega

end tick_pipeline.sequencer

namespace tick_pipeline.pipeline

open runs models ring_buffer sequencer candles drop_oldest

/-! ## The ticks of a lane, in order -/

/-- What was offered and what the queue holds is what was pushed, less what was dropped, and the
newest tick is there. -/
structure Newest (pushed offered : List Tick) (buf : RingBuffer Tick) (q : Fifo Tick) : Prop where
  holds : Holds buf q
  sublist : (offered ++ q.items).Sublist pushed
  last_eq : (offered ++ q.items).getLast? = pushed.getLast?
  total : offered.length + q.items.length + q.dropped = pushed.length

section lane

variable {pushed offered : List Tick} {buf : RingBuffer Tick} {q : Fifo Tick}

theorem Newest.push (h : Newest pushed offered buf q) (t : Tick) :
    ∃ q', Newest (pushed ++ [t]) offered (buf.push_nowait t).2 q' := by
  have hholds := (push_nowait.spec buf q t h.holds).2
  refine ⟨_, hholds, push_in_order h.sublist t, ?_, ?_⟩
  · unfold drop_oldest.push
    split <;> rw [← List.append_assoc, List.getLast?_concat, List.getLast?_concat]
  · have hlen := (push_length buf.capacity q t h.holds.capacity_pos h.holds.fits).2
    have htotal := h.total
    rw [List.length_append, List.length_singleton]
    omega

theorem offered_of_some (batch : List Tick) : offered_of (batch.map some) = batch := by
  induction batch with
  | nil => rfl
  | cons t batch ih => exact congrArg (t :: ·) ih

theorem offeredIn_turnMoves (cfg : Settings) (buf : RingBuffer Tick) (seq : Sequencer) :
    offeredIn (turnMoves cfg buf seq) =
      offered_of (buf.drain_nowait (some cfg.batch_max_size)).1 := by
  unfold turnMoves
  dsimp only
  rw [offeredIn_append, offeredIn_offered]
  split
  · rw [offeredIn_popped, List.append_nil]
  · exact List.append_nil _

theorem Newest.drain {cfg : Settings} (hb : 0 ≤ cfg.batch_max_size)
    (h : Newest pushed offered buf q) (seq : Sequencer) :
    Newest pushed (offered ++ offeredIn (turnMoves cfg buf seq))
      (buf.drain_nowait (some cfg.batch_max_size)).2 (restOf cfg q) := by
  obtain ⟨h1, h2⟩ := drain_batch hb h.holds
  have hbatch : offeredIn (turnMoves cfg buf seq) = batchOf cfg q := by
    rw [offeredIn_turnMoves, h1, offered_of_some]
  have hsame : offered ++ batchOf cfg q ++ (restOf cfg q).items = offered ++ q.items := by
    rw [List.append_assoc, batchOf_append_restOf]
  rw [hbatch]
  refine ⟨h2, hsame ▸ h.sublist, hsame ▸ h.last_eq, ?_⟩
  have hlen := congrArg List.length hsame
  have htotal := h.total
  have hdropped : (restOf cfg q).dropped = q.dropped := rfl
  simp only [List.length_append] at hlen ⊢
  omega

end lane

theorem run_lane_newest {cfg : Settings} (persistence : Bool) (symbol : Symbol)
    (hb : 0 ≤ cfg.batch_max_size) (ops : List LaneOp) :
    ∃ q, Newest (ops.flatMap LaneOp.pushed)
      (offeredIn (run (Lane.move cfg persistence symbol) (Lane.new cfg symbol) ops).1.flatten)
      (run (Lane.move cfg persistence symbol) (Lane.new cfg symbol) ops).2.ring_buffer q := by
  apply run_history (Lane.move cfg persistence symbol) (P := fun ops moves lane =>
    ∃ q, Newest (ops.flatMap LaneOp.pushed) (offeredIn moves.flatten) lane.ring_buffer q)
  · exact ⟨empty, holds_new _ cfg.capacity_pos, List.Sublist.refl _, rfl, rfl⟩
  · intro ops moves lane op ⟨q, h⟩
    rw [List.flatMap_append, List.flatMap_singleton, List.flatten_append, List.flatten_singleton,
      offeredIn_append]
    cases op with
    | push t =>
      have hnone : offeredIn (Lane.move cfg persistence symbol lane (.push t)).1 = [] := rfl
      rw [hnone, List.append_nil]
      exact h.push t
    | turn =>
      have hbuf : (Lane.move cfg persistence symbol lane .turn).2.ring_buffer =
          (lane.ring_buffer.drain_nowait (some cfg.batch_max_size)).2 :=
        turn_buffer cfg persistence symbol lane
      rw [hbuf, LaneOp.pushed, List.append_nil]
      exact ⟨_, h.drain hb lane.sequencer⟩

/-! ## The law -/

/-- Ids that follow each other. -/
def Consecutive (k : Int) (ids : List Int) : Prop :=
  ids = (List.range ids.length).map (fun i : Nat => k + (i : Int))

theorem consecutive_sorted {k : Int} {ids : List Int} (h : Consecutive k ids) :
    ids.Pairwise (· < ·) := by
  rw [h, List.pairwise_map]
  exact List.pairwise_lt_range.imp (fun hij => by omega)

theorem consecutive_last {k l : Int} {ids : List Int} (h : Consecutive k ids)
    (hl : ids.getLast? = some l) : l = k + ids.length - 1 := by
  unfold Consecutive at h
  rw [h, List.getLast?_map, List.getLast?_range] at hl
  split at hl
  · simp at hl
  · have : k + ((ids.length - 1 : Nat) : Int) = l := by simpa using hl
    omega

/-- What a ring buffer loses shows up as a gap, exactly. The ticks of a symbol come with ids `k`,
`k + 1` and so on, between any turns and any ticks of other symbols. Whenever its buffer is empty,
and the tick `f` was the first to be offered, the gap count is the number of ticks overwritten
less those before `f`. -/
theorem ring_buffer_losses_show_up_as_gaps (upper : Symbol → Symbol) (cfg : Settings)
    (symbols : List Symbol) (persistence : Bool) (hb : 1 ≤ cfg.batch_max_size) (symbol : Symbol)
    (hk : symbol ∈ symbols.map upper) (ops : List Op) (k : Int)
    (hids : Consecutive k ((own symbol (ops.flatMap Op.ingested)).map (·.trade_id))) :
    let p := (run (Pipeline.step cfg) (Pipeline.new upper cfg symbols persistence) ops).2
    ∀ f, (p.ring_buffers symbol).depth = 0 →
      (offeredTo upper cfg symbols persistence symbol ops).head? = some f →
      (p.sequencers symbol).gap_count = (p.ring_buffers symbol).dropped - (f.trade_id - k) := by
  intro p f hempty hf
  obtain ⟨-, -, hlane⟩ := run_lane upper cfg symbols persistence hk ops
  have hmoved := run_moved upper cfg symbols persistence hk ops
  obtain ⟨q, hnewest⟩ := run_lane_newest persistence symbol (show 0 ≤ cfg.batch_max_size by omega)
    (ops.flatMap (Op.own symbol))
  rw [← run_moves upper cfg symbols persistence hk, run_move_state, ← hlane.ring_eq, pushed_own]
    at hnewest
  change Newest (own symbol (ops.flatMap Op.ingested))
    (offeredTo upper cfg symbols persistence symbol ops) (p.ring_buffers symbol) q at hnewest
  have hitems : q.items = [] := by
    have hsize := hnewest.holds.size_eq
    have hdepth : (p.ring_buffers symbol).size = 0 := hempty
    exact List.eq_nil_of_length_eq_zero (by omega)
  obtain ⟨hholds, hsub, hlast, htotal⟩ := hnewest
  rw [hitems, List.append_nil] at hsub hlast
  rw [hitems, List.length_nil] at htotal
  have hapart := congrArg Sequencer.gap_count hmoved.apart_eq
  have hgap : (p.sequencers symbol).gap_count =
      (offers (offeredTo upper cfg symbols persistence symbol ops)
        (Sequencer.new cfg.reorder_watermark_ms)).gap_count := hapart
  generalize offeredTo upper cfg symbols persistence symbol ops = offered at *
  cases offered with
  | nil => cases hf
  | cons g rest =>
    obtain rfl : g = f := by simpa using hf
    have hinc : (g :: rest).Pairwise (fun t u => t.trade_id < u.trade_id) :=
      (List.pairwise_map.mp (consecutive_sorted hids)).sublist hsub
    obtain ⟨l, hl, -, hcount⟩ := offers_gap cfg.reorder_watermark_ms g rest
      (fun t ht => own_symbol symbol _ t (hsub.subset ht)) hinc
    have hlid : l.trade_id = k + (own symbol (ops.flatMap Op.ingested)).length - 1 := by
      have hlpushed := hlast.symm.trans hl
      have := consecutive_last hids (l := l.trade_id) (by rw [List.getLast?_map, hlpushed]; rfl)
      simpa using this
    have hdropped := hholds.dropped_eq
    rw [hgap, hcount, hlid, hdropped]
    omega

/-- A buffer of two, and bursts of three: the first burst loses its tick before any was offered,
the second loses one that the sequencer then misses. -/
theorem ring_buffer_losses_show_up_as_gaps_of_six :
    let cfg : Settings :=
      { settings with ring_buffer_capacity := 2, capacity_pos := by decide, batch_max_size := 2 }
    let tick := fun id : Int => (⟨"BTC-USD", 100, 1, id, 1000, false, 0⟩ : Tick)
    let ops : List Op :=
      [.ingest_many [tick 9, tick 10, tick 11], .consume_symbol "BTC-USD",
        .ingest_many [tick 12, tick 13, tick 14], .consume_symbol "BTC-USD"]
    let p := (run (Pipeline.step cfg) (Pipeline.new id cfg ["BTC-USD"] false) ops).2
    (p.ring_buffers "BTC-USD").dropped = 2 ∧ (p.sequencers "BTC-USD").gap_count = 1 := by
  intro cfg tick ops p
  have hp : (run (Pipeline.step cfg) (Pipeline.new id cfg ["BTC-USD"] false) ops).2 = p := rfl
  have hdropped : (p.ring_buffers "BTC-USD").dropped = 2 := by decide +kernel
  have hempty : (p.ring_buffers "BTC-USD").depth = 0 := by decide +kernel
  have hfirst : (offeredTo id cfg ["BTC-USD"] false "BTC-USD" ops).head? = some (tick 10) := by
    decide +kernel
  have hgap := ring_buffer_losses_show_up_as_gaps id cfg ["BTC-USD"] false (by decide) "BTC-USD"
    (by simp) ops 9 rfl
  rw [hp] at hgap
  clear_value p
  have hcount := hgap (tick 10) hempty hfirst
  rw [hdropped] at hcount
  exact ⟨hdropped, hcount⟩

end tick_pipeline.pipeline
