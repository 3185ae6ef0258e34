-- The consumers catch up: what a turn takes from a buffer it lets out at once, but for what the
-- watermark holds back. Once the turns have emptied a buffer, what was processed is the same
-- whatever the schedule was.
import TickPipeline.GapLaws
import TickPipeline.Lib.Bags

namespace tick_pipeline.sequencer

open models reorder bags

/-- No entry of the heap is old enough for a poll. -/
def Sequencer.Waits (s : Sequencer) : Prop :=
  ∀ e ∈ s.heap, s.max_event_time_seen - s.watermark_ms < e.event_time_ms

/-- The ticks that are a watermark older than the newest of them, or more. -/
def oldEnough (watermark_ms : Int) (ticks : List Tick) : List Tick :=
  ticks.filter (fun t => t.event_time_ms ≤ maxTime ticks - watermark_ms)

/-- The ticks that are not. -/
def heldBack (watermark_ms : Int) (ticks : List Tick) : List Tick :=
  ticks.filter (fun t => !decide (t.event_time_ms ≤ maxTime ticks - watermark_ms))

theorem maxTime_perm {xs ys : List Tick} (h : xs.Perm ys) : maxTime xs = maxTime ys := by
  unfold maxTime
  have : RightCommutative (fun (m : Int) (t : Tick) => max m t.event_time_ms) :=
    ⟨fun m t u => by omega⟩
  exact h.foldl_eq 0

theorem oldEnough_perm (watermark_ms : Int) {xs ys : List Tick} (h : xs.Perm ys) :
    (oldEnough watermark_ms xs).Perm (oldEnough watermark_ms ys) := by
  unfold oldEnough
  rw [maxTime_perm h]
  exact h.filter _

theorem heldBack_perm (watermark_ms : Int) {xs ys : List Tick} (h : xs.Perm ys) :
    (heldBack watermark_ms xs).Perm (heldBack watermark_ms ys) := by
  unfold heldBack
  rw [maxTime_perm h]
  exact h.filter _

section trace

variable {watermark_ms : Int} {offered : List Tick} {out : List HeapEntry} {s : Sequencer}

/-- After a poll the heap waits. -/
theorem Trace.poll_waits (h : Trace watermark_ms offered out s) : s.poll_ready.2.Waits :=
  popUpTo_rest HeapEntry.event_time_ms HeapEntry.seq _ s.heap h.in_order.heap_sorted

/-- A heap that waits is what the watermark holds back, and all else is out. -/
theorem Trace.split (h : Trace watermark_ms offered out s) (hwaits : s.Waits) :
    (out.map (·.tick)).Perm (oldEnough watermark_ms offered) ∧
      (s.heap.map (·.tick)).Perm (heldBack watermark_ms offered) := by
  have hall := h.entries.map (·.tick)
  rw [List.map_append, entriesOf_map_tick] at hall
  have htime : ∀ e ∈ out ++ s.heap, e.event_time_ms = e.tick.event_time_ms :=
    fun e he => (entry_position h.entries he).2.2.2
  refine perm_filter_of_split hall ?_ ?_
  · intro t ht
    obtain ⟨e, he, rfl⟩ := List.mem_map.mp ht
    rw [← htime e (List.mem_append_left _ he)]
    exact decide_eq_true (h.out_le e he)
  · intro t ht
    obtain ⟨e, he, rfl⟩ := List.mem_map.mp ht
    have hlt := hwaits e he
    rw [h.max_seen, h.watermark] at hlt
    rw [← htime e (List.mem_append_right _ he)]
    exact decide_eq_false (not_le.mpr hlt)

end trace

end tick_pipeline.sequencer

namespace tick_pipeline.pipeline

open runs models ring_buffer sequencer candles drop_oldest

/-! ## The turns of a lane -/

section lane

variable {cfg : Settings} (persistence : Bool) (symbol : Symbol)

theorem gather_waits {moves : List Move} {seq : Sequencer} {returned : List Tick}
    {buf : RingBuffer Tick} {q : Fifo Tick} (hb : 0 ≤ cfg.batch_max_size)
    (hmoved : Moved cfg.reorder_watermark_ms moves seq returned) (hholds : Holds buf q)
    (hwaits : seq.Waits) : (gather cfg buf seq).2.2.Waits := by
  obtain ⟨buf', -, -, -, hcase⟩ := gather.spec seq hb hholds
  rcases hcase with ⟨-, heq⟩ | ⟨-, heq⟩
  · rw [heq]
    exact hwaits
  · rw [heq]
    exact (hmoved.offers (batchOf cfg q)).trace.poll_waits

/-- Between two turns, the heap of a lane waits. -/
theorem run_lane_waits (hb : 0 ≤ cfg.batch_max_size) (ops : List LaneOp) :
    (run (Lane.move cfg persistence symbol) (Lane.new cfg symbol) ops).2.sequencer.Waits := by
  induction ops using List.reverseRecOn with
  | nil =>
    intro e he
    cases he
  | append_singleton ops op ih =>
    rw [run_snoc]
    cases op with
    | push t => exact ih
    | turn =>
      obtain ⟨q, hnewest⟩ := run_lane_newest persistence symbol hb ops
      have hmoved := run_lane_moved cfg persistence symbol ops
      have hseq := (turn_front cfg persistence symbol
        (run (Lane.move cfg persistence symbol) (Lane.new cfg symbol) ops).2).1
      have hwaits := gather_waits hb hmoved hnewest.holds ih
      rw [← hseq] at hwaits
      exact hwaits

/-- Turns take their batches off the front of the queue. -/
theorem run_turns_queue (hb : 0 ≤ cfg.batch_max_size) (n : Nat) {lane : Lane} {q : Fifo Tick}
    (h : Holds lane.ring_buffer q) :
    Holds (run (Lane.step cfg persistence symbol) lane (List.replicate n .turn)).2.ring_buffer
      ⟨q.items.drop (n * cfg.batch_max_size.toNat), q.dropped⟩ := by
  induction n generalizing lane q with
  | zero => simpa using h
  | succ n ih =>
    have hturn : Holds (lane.turn cfg persistence symbol).2.ring_buffer (restOf cfg q) := by
      rw [turn_buffer]
      exact (drain_batch hb h).2
    have hrest := ih hturn
    unfold restOf at hrest
    rw [List.drop_drop, Nat.add_comm, ← Nat.succ_mul] at hrest
    exact hrest

end lane

/-! ## The turns of a symbol -/

def Op.isTurn (symbol : Symbol) : Op → Bool
  | .ingest _ => false
  | .ingest_many _ => false
  | .consume_symbol s => s = symbol
  | .rate_round _ => false

/-- While no tick of a symbol comes in, its lane only makes turns. -/
theorem own_turns {symbol : Symbol} {later : List Op}
    (hquiet : own symbol (later.flatMap Op.ingested) = []) :
    later.flatMap (Op.own symbol) = List.replicate (later.countP (Op.isTurn symbol)) .turn := by
  induction later with
  | nil => rfl
  | cons op later ih =>
    rw [List.flatMap_cons, own_append, List.append_eq_nil_iff] at hquiet
    rw [List.flatMap_cons, ih hquiet.2, List.countP_cons]
    have hop := hquiet.1
    cases op with
    | ingest t =>
      have hne : t.symbol ≠ symbol := by simpa [own, Op.ingested] using hop
      simp [Op.own, Op.isTurn, hne]
    | ingest_many ticks =>
      have hnone : ticks.filter (fun t => t.symbol = symbol) = [] := hop
      simp [Op.own, Op.isTurn, hnone]
    | consume_symbol s =>
      by_cases hs : s = symbol
      · simp [Op.own, Op.isTurn, hs, List.replicate_succ]
      · simp [Op.own, Op.isTurn, hs]
    | rate_round elapsed => rfl

section runs

variable (upper : Symbol → Symbol) (cfg : Settings) (symbols : List Symbol) (persistence : Bool)

/-- Where the ticks of a symbol are, when `taken` were offered to its sequencer. -/
structure Settled (symbol : Symbol) (ingested taken processed : List Tick) (p : Pipeline) : Prop where
  in_order : taken.Sublist (own symbol ingested)
  total : taken.length + (p.ring_buffers symbol).depth + (p.ring_buffers symbol).dropped =
    (own symbol ingested).length
  processed : processed.Perm (oldEnough cfg.reorder_watermark_ms taken)
  heap : ((p.sequencers symbol).heap.map (·.tick)).Perm (heldBack cfg.reorder_watermark_ms taken)

variable {cfg} in
/-- An empty buffer that has overwritten nothing. -/
theorem Settled.at_rest {symbol : Symbol} {ingested taken processed : List Tick} {p : Pipeline}
    (h : Settled cfg symbol ingested taken processed p)
    (hrest : (p.ring_buffers symbol).depth = 0 ∧ (p.ring_buffers symbol).dropped = 0) :
    processed.Perm (oldEnough cfg.reorder_watermark_ms (own symbol ingested)) ∧
      ((p.sequencers symbol).heap.map (·.tick)).Perm
        (heldBack cfg.reorder_watermark_ms (own symbol ingested)) := by
  have htotal := h.total
  rw [hrest.1, hrest.2] at htotal
  have hall : taken = own symbol ingested := h.in_order.eq_of_length htotal
  exact ⟨hall ▸ h.processed, hall ▸ h.heap⟩

theorem run_settled (hb : 0 ≤ cfg.batch_max_size) {symbol : Symbol} (hk : symbol ∈ symbols.map upper)
    (ops : List Op) :
    let r := run (Pipeline.step cfg) (Pipeline.new upper cfg symbols persistence) ops
    Settled cfg symbol (ops.flatMap Op.ingested)
      (offeredTo upper cfg symbols persistence symbol ops) (processedOf symbol r.1.flatten) r.2 := by
  intro r
  obtain ⟨-, -, hlane⟩ := run_lane upper cfg symbols persistence hk ops
  have hmoved := run_moved upper cfg symbols persistence hk ops
  dsimp only at hmoved
  rw [run_processed_of] at hmoved
  obtain ⟨q, hnewest⟩ := run_lane_newest persistence symbol hb (ops.flatMap (Op.own symbol))
  have hwaits := run_lane_waits persistence symbol hb (ops.flatMap (Op.own symbol))
  rw [run_move_state, ← hlane.seq_eq] at hwaits
  rw [← run_moves upper cfg symbols persistence hk, run_move_state, ← hlane.ring_eq, pushed_own]
    at hnewest
  obtain ⟨hprocessed, hheap⟩ := hmoved.trace.split hwaits
  rw [← hmoved.returned_eq] at hprocessed
  refine ⟨?_, ?_, hprocessed, hheap⟩
  · exact (List.sublist_append_left _ _).trans hnewest.sublist
  · rw [← hnewest.total, hnewest.holds.dropped_eq, RingBuffer.depth, hnewest.holds.size_eq]
    rfl

/-- The stats of a symbol count its processed ticks. -/
theorem run_msgs_total {symbol : Symbol} (hk : symbol ∈ symbols.map upper) (ops : List Op) :
    let r := run (Pipeline.step cfg) (Pipeline.new upper cfg symbols persistence) ops
    (r.2.stats symbol).msgs_total = (processedOf symbol r.1.flatten).length := by
  intro r
  obtain ⟨lane, hlane, hrun⟩ := run_laneRun_of_pipeline upper cfg symbols persistence hk ops
  have hmsgs : (r.2.stats symbol).msgs_total = lane.stat.msgs_total := by
    rw [← hlane.stat_eq]
    rfl
  rw [hmsgs, hrun.msgs_total_eq, ← hrun.processed_eq]
  rfl

/-- Once no more ticks of a symbol come in, as many turns of it as its buffer holds batches empty the
buffer, whatever else goes on. Each of its ticks that was not overwritten has then been processed,
or is less than the watermark older than the newest of them and waits in the heap. -/
theorem the_consumer_of_a_symbol_catches_up (hb : 1 ≤ cfg.batch_max_size) (symbol : Symbol)
    (hk : symbol ∈ symbols.map upper) (ops later : List Op)
    (hquiet : own symbol (later.flatMap Op.ingested) = [])
    (hturns : ((run (Pipeline.step cfg) (Pipeline.new upper cfg symbols persistence) ops).2.ring_buffers
      symbol).depth ≤ later.countP (Op.isTurn symbol) * cfg.batch_max_size) :
    let r := run (Pipeline.step cfg) (Pipeline.new upper cfg symbols persistence) (ops ++ later)
    let ingested := own symbol (ops.flatMap Op.ingested)
    let taken := offeredTo upper cfg symbols persistence symbol (ops ++ later)
    (r.2.ring_buffers symbol).depth = 0 ∧ taken.Sublist ingested ∧
      taken.length + (r.2.ring_buffers symbol).dropped = ingested.length ∧
      (processedOf symbol r.1.flatten).Perm (oldEnough cfg.reorder_watermark_ms taken) ∧
      ((r.2.sequencers symbol).heap.map (·.tick)).Perm (heldBack cfg.reorder_watermark_ms taken) := by
  intro r ingested taken
  have hb0 : 0 ≤ cfg.batch_max_size := by omega
  have hingested : own symbol ((ops ++ later).flatMap Op.ingested) = ingested := by
    rw [List.flatMap_append, own_append, hquiet, List.append_nil]
  obtain ⟨hin, htotal, hprocessed, hheap⟩ :=
    run_settled upper cfg symbols persistence hb0 hk (ops ++ later)
  rw [hingested] at hin htotal
  have hdepth : (r.2.ring_buffers symbol).depth = 0 := by
    obtain ⟨-, -, hbefore⟩ := run_lane upper cfg symbols persistence hk ops
    obtain ⟨-, -, hafter⟩ := run_lane upper cfg symbols persistence hk (ops ++ later)
    obtain ⟨q, hnewest⟩ := run_lane_newest persistence symbol hb0 (ops.flatMap (Op.own symbol))
    rw [run_move_state] at hnewest
    have hqueue := run_turns_queue persistence symbol hb0 (later.countP (Op.isTurn symbol))
      hnewest.holds
    rw [hbefore.ring_eq, RingBuffer.depth, hnewest.holds.size_eq] at hturns
    rw [RingBuffer.depth, hafter.ring_eq, List.flatMap_append, own_turns hquiet, run_append,
      hqueue.size_eq, List.length_drop]
    apply Nat.sub_eq_zero_of_le
    rw [← Int.ofNat_le]
    push_cast
    rwa [Int.toNat_of_nonneg hb0]
  refine ⟨hdepth, hin, ?_, hprocessed, hheap⟩
  rw [hdepth, Nat.add_zero] at htotal
  exact htotal

/-- Three ticks with batches of two: the second turn empties the buffer. -/
theorem the_consumer_of_a_symbol_catches_up_of_three :
    let cfg : Settings := { settings with batch_max_size := 2 }
    let tick (id time : Int) : Tick := ⟨"BTC-USD", 100, 1, id, time, false, 0⟩
    let ops : List Op := [.ingest_many [tick 1 1000, tick 3 3000, tick 2 2000]]
    let later : List Op := [.consume_symbol "BTC-USD", .rate_round 1, .consume_symbol "BTC-USD"]
    let r := run (Pipeline.step cfg) (Pipeline.new id cfg ["BTC-USD"] true) (ops ++ later)
    (r.2.ring_buffers "BTC-USD").depth = 0 := by
  intro cfg tick ops later r
  have hquiet : own "BTC-USD" (later.flatMap Op.ingested) = [] := by decide +kernel
  have hturns : ((run (Pipeline.step cfg) (Pipeline.new id cfg ["BTC-USD"] true) ops).2.ring_buffers
      "BTC-USD").depth ≤ later.countP (Op.isTurn "BTC-USD") * cfg.batch_max_size := by
    decide +kernel
  have h := the_consumer_of_a_symbol_catches_up id cfg ["BTC-USD"] true
    (show 1 ≤ cfg.batch_max_size by decide) "BTC-USD" (by simp) ops later hquiet hturns
  dsimp only [r, ops, later, tick, cfg] at h ⊢
  exact h.1

end runs

/-! ## Two schedules -/

/-- Whatever the order in which the ticks of a symbol come in, the turns between them, the ticks of
other symbols and the sizes of buffers and of batches, from 0 on: when both buffers are empty and have overwritten
nothing, both pipelines have processed the same ticks, those that are a watermark older than the
newest or more, and both hold back the same. -/
theorem the_schedule_does_not_change_what_is_processed (upper upper' : Symbol → Symbol)
    (cfg cfg' : Settings) (symbols symbols' : List Symbol) (persistence persistence' : Bool)
    (hwatermark : cfg'.reorder_watermark_ms = cfg.reorder_watermark_ms)
    (hb : 0 ≤ cfg.batch_max_size) (hb' : 0 ≤ cfg'.batch_max_size) (symbol : Symbol)
    (hk : symbol ∈ symbols.map upper) (hk' : symbol ∈ symbols'.map upper') (ops ops' : List Op)
    (hsame : (own symbol (ops'.flatMap Op.ingested)).Perm (own symbol (ops.flatMap Op.ingested))) :
    let r := run (Pipeline.step cfg) (Pipeline.new upper cfg symbols persistence) ops
    let r' := run (Pipeline.step cfg') (Pipeline.new upper' cfg' symbols' persistence') ops'
    let ingested := own symbol (ops.flatMap Op.ingested)
    (r.2.ring_buffers symbol).depth = 0 ∧ (r.2.ring_buffers symbol).dropped = 0 →
    (r'.2.ring_buffers symbol).depth = 0 ∧ (r'.2.ring_buffers symbol).dropped = 0 →
      (processedOf symbol r.1.flatten).Perm (oldEnough cfg.reorder_watermark_ms ingested) ∧
      (processedOf symbol r'.1.flatten).Perm (processedOf symbol r.1.flatten) ∧
      ((r'.2.sequencers symbol).heap.map (·.tick)).Perm ((r.2.sequencers symbol).heap.map (·.tick)) ∧
      (r'.2.stats symbol).msgs_total = (r.2.stats symbol).msgs_total := by
  intro r r' ingested hrest hrest'
  obtain ⟨hprocessed, hheap⟩ := (run_settled upper cfg symbols persistence hb hk ops).at_rest hrest
  obtain ⟨hprocessed', hheap'⟩ :=
    (run_settled upper' cfg' symbols' persistence' hb' hk' ops').at_rest hrest'
  rw [hwatermark] at hprocessed' hheap'
  have hboth : (processedOf symbol r'.1.flatten).Perm (processedOf symbol r.1.flatten) :=
    (hprocessed'.trans (oldEnough_perm _ hsame)).trans hprocessed.symm
  refine ⟨hprocessed, hboth, (hheap'.trans (heldBack_perm _ hsame)).trans hheap.symm, ?_⟩
  calc (r'.2.stats symbol).msgs_total = (processedOf symbol r'.1.flatten).length :=
        run_msgs_total upper' cfg' symbols' persistence' hk' ops'
    _ = (processedOf symbol r.1.flatten).length := hboth.length_eq
    _ = (r.2.stats symbol).msgs_total := (run_msgs_total upper cfg symbols persistence hk ops).symm

/-- Three ticks in one batch, and in three of one with another order. -/
theorem the_schedule_does_not_change_what_is_processed_of_three :
    let cfg : Settings := { settings with batch_max_size := 1 }
    let tick (id time : Int) : Tick := ⟨"BTC-USD", 100, 1, id, time, false, 0⟩
    let ops : List Op := [.ingest_many [tick 1 1000, tick 3 3000, tick 2 2000], .consume_symbol "BTC-USD"]
    let ops' : List Op := [.ingest (tick 3 3000), .consume_symbol "BTC-USD", .ingest (tick 2 2000),
      .ingest (tick 1 1000), .consume_symbol "BTC-USD", .consume_symbol "BTC-USD"]
    let r := run (Pipeline.step settings) (Pipeline.new id settings ["BTC-USD"] true) ops
    let r' := run (Pipeline.step cfg) (Pipeline.new id cfg ["BTC-USD"] true) ops'
    (processedOf "BTC-USD" r'.1.flatten).Perm (processedOf "BTC-USD" r.1.flatten) := by
  intro cfg tick ops ops' r r'
  have hrest : (r.2.ring_buffers "BTC-USD").depth = 0 ∧ (r.2.ring_buffers "BTC-USD").dropped = 0 := by
    decide +kernel
  have hrest' : (r'.2.ring_buffers "BTC-USD").depth = 0 ∧
      (r'.2.ring_buffers "BTC-USD").dropped = 0 := by
    decide +kernel
  have hsame : (own "BTC-USD" (ops'.flatMap Op.ingested)).Perm
      (own "BTC-USD" (ops.flatMap Op.ingested)) := by
    decide +kernel
  have h := the_schedule_does_not_change_what_is_processed id id settings cfg ["BTC-USD"] ["BTC-USD"]
    true true rfl (show 0 ≤ settings.batch_max_size by decide) (show 0 ≤ cfg.batch_max_size by decide)
    "BTC-USD" (by simp) (by simp) ops ops' hsame
  dsimp only [r, r', ops, ops', tick, cfg] at h hrest hrest' ⊢
  exact (h hrest hrest').2.1

end tick_pipeline.pipeline
