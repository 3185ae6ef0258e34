-- Who may revise a closed candle: a tick that takes the late branch was behind the
-- watermark when it was offered. The sequencer counted each of these, so the patches
-- of a timeframe never outnumber what the sequencers counted out of order.
import TickPipeline.Moves
import TickPipeline.Held
import Mathlib.Algebra.Order.BigOperators.Group.List
import Mathlib.Algebra.Order.Group.Nat

namespace tick_pipeline.sequencer

open models

/-- The sequencer counts the entries that were below the largest event time so far. -/
theorem offers_out_of_order (watermark_ms : Int) (offered : List Tick) :
    (pipeline.offers offered (Sequencer.new watermark_ms)).max_event_time_seen = maxTime offered ∧
      (pipeline.offers offered (Sequencer.new watermark_ms)).out_of_order_count =
        (entriesOf offered).countP
          (fun e => e.event_time_ms < maxTime (offered.take (e.seq - 1))) := by
  induction offered using List.reverseRecOn with
  | nil => exact ⟨rfl, rfl⟩
  | append_singleton offered t ih =>
    obtain ⟨hmax, hcount⟩ := ih
    -- The older entries look at the offers before their own.
    have hsame : (entriesOf offered).countP
          (fun e => e.event_time_ms < maxTime ((offered ++ [t]).take (e.seq - 1))) =
        (entriesOf offered).countP
          (fun e => e.event_time_ms < maxTime (offered.take (e.seq - 1))) := by
      apply List.countP_congr
      intro e he
      have := entry_position (List.Perm.refl (entriesOf offered)) he
      rw [List.take_append_of_le_length (by omega)]
    rw [pipeline.offers_snoc]
    refine ⟨by rw [offer_max_seen, hmax, maxTime_snoc], ?_⟩
    rw [entriesOf_snoc, List.countP_append, hsame, ← hcount, List.countP_singleton]
    simp only [Sequencer.offer, hmax, Nat.add_sub_cancel, List.take_left']
    split <;> rfl

end tick_pipeline.sequencer

namespace tick_pipeline.candles

open models emitted

/-- The late ticks, among the ticks of one symbol. -/
def lateOf (tf : Int) (ticks : List Tick) : List Tick :=
  outputs (fun before t => if late tf before t then [t] else []) [] ticks

/-- The late ticks, among the ticks of all symbols. -/
def lateTicks (tf : Int) (ticks : List Tick) : List Tick :=
  outputs (fun before t => if late tf (own t.symbol before) t then [t] else []) [] ticks

theorem lateOf_snoc (tf : Int) (ticks : List Tick) (t : Tick) :
    lateOf tf (ticks ++ [t]) = lateOf tf ticks ++ (if late tf ticks t then [t] else []) := by
  simp [lateOf, outputs_snoc]

theorem lateTicks_snoc (tf : Int) (ticks : List Tick) (t : Tick) :
    lateTicks tf (ticks ++ [t]) =
      lateTicks tf ticks ++ (if late tf (own t.symbol ticks) t then [t] else []) := by
  simp [lateTicks, outputs_snoc]

/-- Each symbol has its own late ticks. -/
theorem own_lateTicks (tf : Int) (symbol : Symbol) (ticks : List Tick) :
    own symbol (lateTicks tf ticks) = lateOf tf (own symbol ticks) := by
  have hfilter : own symbol (lateTicks tf ticks) =
      (lateTicks tf ticks).filter (fun t => t.symbol = symbol) := rfl
  rw [hfilter, lateTicks, filter_outputs]
  refine outputs_filter _ _ (fun t : Tick => decide (t.symbol = symbol)) [] ticks ?_ ?_
  · intro before t ht
    obtain rfl : t.symbol = symbol := by simpa using ht
    change _ = if late tf (own t.symbol before) t then [t] else []
    split <;> simp
  · intro before t ht
    split
    · simpa using ht
    · rfl

theorem mem_lateTicks {tf : Int} {ticks : List Tick} {t : Tick} (h : t ∈ lateTicks tf ticks) :
    t ∈ ticks := by
  obtain ⟨xs, u, ys, rfl, hu⟩ := mem_outputs h
  split at hu
  · obtain rfl := List.mem_singleton.mp hu
    simp
  · cases hu

end tick_pipeline.candles

namespace tick_pipeline.pipeline

open runs models ring_buffer sequencer candles bags reorder

/-! ## The late ticks of a lane -/

/-- Entries that came out in the order of a heap: a tick that is late after those before it was
behind the watermark. -/
theorem behind_of_late {tf W : Int} (htf : 1 ≤ tf) {offered : List Tick} {xs : List HeapEntry}
    {e : HeapEntry}
    (hsorted : (xs ++ [e]).Pairwise (fun a b => AboveWatermark W offered b →
      Before HeapEntry.event_time_ms HeapEntry.seq a b))
    (htimes : ∀ a ∈ xs ++ [e], a.event_time_ms = a.tick.event_time_ms)
    (h : late tf (xs.map (·.tick)) e.tick = true) : ¬ AboveWatermark W offered e := by
  intro habove
  obtain ⟨u, hu, hlt⟩ := older_of_late htf h
  obtain ⟨a, ha, rfl⟩ := List.mem_map.mp hu
  have hle := ((List.pairwise_append.mp hsorted).2.2 a ha e (by simp) habove).key_le
  rw [htimes a (by simp [ha]), htimes e (by simp)] at hle
  omega

/-- So the late ticks are among those that came in behind the watermark. -/
theorem lateOf_length_le {tf W : Int} (htf : 1 ≤ tf) {offered : List Tick} {out : List HeapEntry}
    (hsorted : out.Pairwise (fun a b => AboveWatermark W offered b →
      Before HeapEntry.event_time_ms HeapEntry.seq a b))
    (htimes : ∀ a ∈ out, a.event_time_ms = a.tick.event_time_ms) :
    (lateOf tf (out.map (·.tick))).length ≤
      out.countP (fun e => e.event_time_ms < maxTime (offered.take (e.seq - 1)) - W) := by
  induction out using List.reverseRecOn with
  | nil => exact le_rfl
  | append_singleton out e ih =>
    have hprev := ih (List.pairwise_append.mp hsorted).1 (fun a ha => htimes a (by simp [ha]))
    rw [List.map_append, List.map_singleton, lateOf_snoc, List.length_append, List.countP_append,
      List.countP_singleton]
    by_cases hlate : late tf (out.map (·.tick)) e.tick = true
    · have hbehind := behind_of_late htf hsorted htimes hlate
      unfold AboveWatermark at hbehind
      rw [if_pos hlate, if_pos (decide_eq_true (not_le.mp hbehind)), List.length_singleton]
      omega
    · rw [if_neg hlate, List.length_nil]
      omega

/-- A tick that a sequencer let out, and that is late after those before it. -/
theorem Moved.late_behind {tf W : Int} (htf : 1 ≤ tf) {moves : List Move} {seq : Sequencer}
    {returned : List Tick} (h : Moved W moves seq returned) {xs ys : List HeapEntry} {e : HeapEntry}
    (hsplit : poppedIn moves = xs ++ e :: ys) (hlate : late tf (xs.map (·.tick)) e.tick = true) :
    (offeredIn moves)[e.seq - 1]? = some e.tick ∧
      e.tick.event_time_ms < maxTime ((offeredIn moves).take (e.seq - 1)) - W := by
  have hpositions : ∀ a ∈ poppedIn moves, _ := fun a ha =>
    entry_position h.trace.entries (List.mem_append_left seq.heap ha)
  have hsorted := h.trace.in_order.out_sorted
  rw [hsplit, List.append_cons] at hsorted hpositions
  obtain ⟨-, -, htick, htime⟩ := hpositions e (by simp)
  have hbehind := behind_of_late htf (List.pairwise_append.mp hsorted).1
    (fun a ha => (hpositions a (List.mem_append_left _ ha)).2.2.2) hlate
  rw [AboveWatermark, htime] at hbehind
  exact ⟨htick, not_le.mp hbehind⟩

/-- What a sequencer let out has no more late ticks than the sequencer counted. -/
theorem Moved.late_le {tf W : Int} (htf : 1 ≤ tf) (hW : 0 ≤ W) {moves : List Move} {seq : Sequencer}
    {returned : List Tick} (h : Moved W moves seq returned) :
    (lateOf tf returned).length ≤ seq.out_of_order_count := by
  have htimes : ∀ e ∈ poppedIn moves, e.event_time_ms = e.tick.event_time_ms := fun e he =>
    (entry_position h.trace.entries (List.mem_append_left _ he)).2.2.2
  have hapart := congrArg Sequencer.out_of_order_count h.apart_eq
  have hcount : seq.out_of_order_count =
      (pipeline.offers (offeredIn moves) (Sequencer.new W)).out_of_order_count := hapart
  rw [h.returned_eq, hcount, (offers_out_of_order W _).2]
  calc (lateOf tf ((poppedIn moves).map (·.tick))).length
      ≤ (poppedIn moves).countP
          (fun e => e.event_time_ms < maxTime ((offeredIn moves).take (e.seq - 1)) - W) :=
        lateOf_length_le htf h.trace.in_order.out_sorted htimes
    _ ≤ (poppedIn moves).countP
          (fun e => e.event_time_ms < maxTime ((offeredIn moves).take (e.seq - 1))) := by
        apply List.countP_mono_left
        intro e _ he
        simp only [decide_eq_true_eq] at he ⊢
        omega
    _ ≤ (poppedIn moves ++ seq.heap).countP
          (fun e => e.event_time_ms < maxTime ((offeredIn moves).take (e.seq - 1))) :=
        (List.sublist_append_left _ _).countP_le
    _ = (entriesOf (offeredIn moves)).countP _ := h.trace.entries.countP_eq _

/-! ## The patches of a pipeline -/

/-- Each timeframe has patched once for each late tick among the ticks processed. -/
structure Counted (P : List Tick) (p : Pipeline) : Prop where
  stores : ∀ s, AllStore p s (own s P)
  late_patches : ∀ agg ∈ p.candle_aggs, agg.late_patches = (lateTicks agg.timeframe_sec P).length

theorem counted_new (upper : Symbol → Symbol) (cfg : Settings) (symbols : List Symbol)
    (persistence : Bool) : Counted [] (Pipeline.new upper cfg symbols persistence) := by
  refine ⟨fun s => (remembers_new upper cfg symbols persistence s).stores, ?_⟩
  intro agg hagg
  obtain ⟨tf, _, rfl⟩ := List.mem_map.mp hagg
  rfl

section counted

variable {P : List Tick} {p q : Pipeline}

theorem Counted.congr (h : Counted P p) (heq : q.candle_aggs = p.candle_aggs) : Counted P q := by
  refine ⟨?_, ?_⟩
  · intro s agg hagg
    exact h.stores s agg (heq ▸ hagg)
  · intro agg hagg
    exact h.late_patches agg (heq ▸ hagg)

theorem Counted.process_tick (h : Counted P p) (symbol : Symbol) (t : Tick) :
    Counted (P ++ [t]) (p.process_tick symbol t).2 := by
  refine ⟨process_tick_stores symbol t h.stores, ?_⟩
  intro agg hagg
  simp only [Pipeline.process_tick, List.map_map, List.mem_map] at hagg
  obtain ⟨agg, hagg, rfl⟩ := hagg
  have hpatches : (feed symbol t agg).2.late_patches =
      agg.late_patches + (late agg.timeframe_sec (own t.symbol P) t).toNat :=
    apply_late_patches (h.stores t.symbol agg hagg)
  have htf := (feed_settings symbol t agg).1
  simp only [Function.comp_apply]
  rw [hpatches, htf, h.late_patches agg hagg, lateTicks_snoc, List.length_append]
  split
  · rename_i hlate
    simp [hlate]
  · rename_i hlate
    simp [hlate]

theorem Counted.process_ticks (h : Counted P p) (symbol : Symbol) (ticks : List Tick) :
    Counted (P ++ ticks) (run (Pipeline.process_tick symbol) p ticks).2 := by
  induction ticks generalizing p P with
  | nil => simpa using h
  | cons t ticks ih =>
    rw [List.append_cons]
    exact ih (h.process_tick symbol t)

theorem Counted.process_batch (h : Counted P p) (symbol : Symbol) (ticks : List Tick) :
    Counted (P ++ (p.process_batch symbol ticks).1.flatMap Obs.processed)
      (p.process_batch symbol ticks).2 := by
  unfold Pipeline.process_batch
  split
  · have hticks := (h.process_ticks symbol ticks).congr
      (q := (run (Pipeline.process_tick symbol) p ticks).2.refresh_stats symbol) rfl
    simpa [Obs.processed] using hticks
  · simpa [Obs.processed] using h

theorem ingest_many_candle_aggs (ticks : List Tick) :
    (p.ingest_many ticks).candle_aggs = p.candle_aggs := by
  induction ticks generalizing p with
  | nil => rfl
  | cons t ticks ih => exact ih.trans (ingest_candle_aggs t)

theorem rate_round_processed (elapsed : ℚ) :
    (p.rate_round elapsed).1.flatMap Obs.processed = [] := by
  unfold Pipeline.rate_round
  apply run_history (Pipeline.rate_symbol elapsed) (P := fun _ obs _ => obs.flatMap Obs.processed = [])
  · rfl
  · intro _ obs _ s h
    rw [List.flatMap_append, h]
    rfl

theorem Counted.step (h : Counted P p) (cfg : Settings) (op : Op) :
    Counted (P ++ (p.step cfg op).1.flatMap Obs.processed) (p.step cfg op).2 := by
  cases op with
  | ingest t => simpa [Pipeline.step] using h.congr (ingest_candle_aggs t)
  | ingest_many ticks => simpa [Pipeline.step] using h.congr (ingest_many_candle_aggs ticks)
  | consume_symbol s =>
    unfold Pipeline.step
    dsimp only
    obtain ⟨_, heq⟩ | ⟨_, ready, buf, seq, _, hcase⟩ := consume_symbol_cases cfg p s
    · rw [heq]
      simpa [Obs.processed] using h
    · have hfront : Counted P (p.withFront s buf seq) := h.congr rfl
      rcases hcase with ⟨_, heq⟩ | ⟨_, heq⟩ | ⟨t, rest, _, heq⟩
      · rw [heq]
        simpa [Obs.processed] using hfront
      · rw [heq]
        simpa using hfront
      · rw [heq]
        exact hfront.process_batch s (t :: rest)
  | rate_round elapsed =>
    unfold Pipeline.step
    dsimp only
    rw [rate_round_processed, List.append_nil]
    exact h.congr (rate_round_aside elapsed).2

end counted

section runs

variable (upper : Symbol → Symbol) (cfg : Settings) (symbols : List Symbol) (persistence : Bool)

theorem run_counted (ops : List Op) :
    let r := run (Pipeline.step cfg) (Pipeline.new upper cfg symbols persistence) ops
    Counted (r.1.flatten.flatMap Obs.processed) r.2 := by
  apply run_history (Pipeline.step cfg) (P := fun _ obs p =>
    Counted (obs.flatten.flatMap Obs.processed) p)
  · exact counted_new upper cfg symbols persistence
  · intro _ obs p op h
    rw [List.flatten_append, List.flatten_singleton, List.flatMap_append]
    exact h.step cfg op

/-- The late ticks of all symbols, counted symbol by symbol. -/
theorem run_late_sum (tf : Int) (ops : List Op) :
    let P := (run (Pipeline.step cfg) (Pipeline.new upper cfg symbols persistence)
      ops).1.flatten.flatMap Obs.processed
    (lateTicks tf P).length =
      ((symbols.map upper).dedup.map (fun s => (lateOf tf (own s P)).length)).sum := by
  intro P
  have hknown : ∀ t ∈ lateTicks tf P, t.symbol ∈ (symbols.map upper).dedup := by
    intro t ht
    obtain ⟨o, ho, hto⟩ := List.mem_flatMap.mp (mem_lateTicks ht)
    have hs := run_processed_symbol upper cfg symbols persistence ops o ho t hto
    exact List.mem_dedup.mpr (run_batch_known upper cfg symbols persistence ops ho hs)
  rw [← (flatMap_keys_perm Tick.symbol (List.nodup_dedup _) hknown).length_eq, List.length_flatMap]
  congr 1
  apply List.map_congr_left
  intro s _
  rw [← own_lateTicks]
  rfl

theorem movesOf_snoc (symbol : Symbol) (p : Pipeline) (ops : List Op) (op : Op) :
    movesOf cfg symbol p (ops ++ [op]) =
      movesOf cfg symbol p ops ++ (run (Pipeline.step cfg) p ops).2.moves cfg symbol op := by
  have hstate := run_state_eq (fun p op => (Pipeline.moves cfg symbol p op, (p.step cfg op).2))
    (Pipeline.step cfg) (fun _ _ => rfl) p ops
  unfold movesOf
  rw [run_snoc, List.flatten_append, List.flatten_singleton, hstate]

/-- One more turn of a consumer, with what it lets out. -/
theorem run_turn_moved {symbol : Symbol} (hk : symbol ∈ symbols.map upper) (ops : List Op) :
    let r := run (Pipeline.step cfg) (Pipeline.new upper cfg symbols persistence) ops
    let front := gather cfg (r.2.ring_buffers symbol) (r.2.sequencers symbol)
    Moved cfg.reorder_watermark_ms
      (movesOf cfg symbol (Pipeline.new upper cfg symbols persistence)
        (ops ++ [.consume_symbol symbol]))
      front.2.2 (own symbol (r.1.flatten.flatMap Obs.processed) ++ front.1.getD []) := by
  intro r front
  have hk' : symbol ∈ r.2.symbols :=
    (run_sound upper cfg symbols persistence ops).symbols_eq ▸ hk
  have hmoves : r.2.moves cfg symbol (.consume_symbol symbol) =
      turnMoves cfg (r.2.ring_buffers symbol) (r.2.sequencers symbol) := if_pos ⟨rfl, hk'⟩
  rw [movesOf_snoc, hmoves]
  exact (run_moved upper cfg symbols persistence hk ops).gather cfg (r.2.ring_buffers symbol)

/-- A turn lets out the entries that it pops. -/
theorem run_turn_ready {s : Symbol} (hk : s ∈ symbols.map upper) (ops : List Op) :
    let p := (run (Pipeline.step cfg) (Pipeline.new upper cfg symbols persistence) ops).2
    (gather cfg (p.ring_buffers s) (p.sequencers s)).1.getD [] =
      (poppedIn (p.moves cfg s (.consume_symbol s))).map (·.tick) := by
  intro p
  have hreturned := (run_turn_moved upper cfg symbols persistence hk ops).returned_eq
  rw [movesOf_snoc, poppedIn_append, List.map_append,
    (run_moved upper cfg symbols persistence hk ops).returned_eq] at hreturned
  exact List.append_cancel_left hreturned

/-- A tick that a turn hands to `apply`, and that takes its late branch there. -/
theorem run_patch_behind {s : Symbol} (hk : s ∈ symbols.map upper) (ops : List Op) :
    let p := (run (Pipeline.step cfg) (Pipeline.new upper cfg symbols persistence) ops).2
    let front := gather cfg (p.ring_buffers s) (p.sequencers s)
    let offered := offeredTo upper cfg symbols persistence s (ops ++ [.consume_symbol s])
    ∀ xs e ys, poppedIn (p.moves cfg s (.consume_symbol s)) = xs ++ e :: ys →
      ∀ agg ∈ (run (Pipeline.process_tick s) (p.withFront s front.2.1 front.2.2)
          (xs.map (·.tick))).2.candle_aggs,
        (agg.apply e.tick).2.late_patches ≠ agg.late_patches →
        offered[e.seq - 1]? = some e.tick ∧
          e.tick.event_time_ms < maxTime (offered.take (e.seq - 1)) - cfg.reorder_watermark_ms := by
  intro p front offered xs e ys hsplit agg hagg hne
  have hsound := run_sound upper cfg symbols persistence ops
  have hmoved := run_moved upper cfg symbols persistence hk ops
  have hown : ∀ t ∈ front.1.getD [], t.symbol = s := by
    intro t ht
    rcases hg : front.1 with _ | ready
    · simp [hg] at ht
    · exact (gather_own cfg (hsound.own s)).1 ready hg t (by simpa [hg] using ht)
  rw [run_turn_ready upper cfg symbols persistence hk ops, hsplit, List.map_append,
    List.map_cons] at hown
  -- The ticks that `apply` took before this one are those that came out before it.
  have hfront : Counted _ (p.withFront s front.2.1 front.2.2) :=
    (run_counted upper cfg symbols persistence ops).congr rfl
  have hstores := (hfront.process_ticks s (xs.map (·.tick))).stores s agg hagg
  rw [own_append, hmoved.returned_eq, own_eq_self (fun t ht => hown t (by simp [ht])),
    ← List.map_append] at hstores
  have hlate := late_of_patches_ne (hown _ (by simp)) hstores hne
  have hcfg : Configured cfg (p.withFront s front.2.1 front.2.2) :=
    ⟨hsound.configured.aggs, hsound.configured.window_ms, hsound.configured.periods⟩
  have htf := cfg.timeframes_pos _ ((process_ticks_configured s _ hcfg).aggregator hagg).1
  have hout : poppedIn (movesOf cfg s (Pipeline.new upper cfg symbols persistence)
      (ops ++ [.consume_symbol s])) =
      (poppedIn (movesOf cfg s (Pipeline.new upper cfg symbols persistence) ops) ++ xs) ++ e :: ys := by
    rw [movesOf_snoc, poppedIn_append, List.append_assoc, ← hsplit]
  exact (run_turn_moved upper cfg symbols persistence hk ops).late_behind htf hout hlate

/-! ## The law -/

/-- Whatever came in, in whatever order, and whenever the consumers took their turns: `apply` takes
its late branch only on ticks that were, when they were offered, more than the watermark behind
the largest event time that the sequencer of their symbol had seen. So the late patches of a
timeframe are never more than the ticks that the sequencers counted out of order. -/
theorem only_ticks_behind_the_watermark_patch_a_candle (hW : 0 ≤ cfg.reorder_watermark_ms)
    (ops : List Op) :
    let watermark_ms := cfg.reorder_watermark_ms
    let offered := offeredTo upper cfg symbols persistence
    let p := (run (Pipeline.step cfg) (Pipeline.new upper cfg symbols persistence) ops).2
    (∀ s ∈ symbols.map upper,
      let released := poppedIn (p.moves cfg s (.consume_symbol s))
      let front := gather cfg (p.ring_buffers s) (p.sequencers s)
      front.1.getD [] = released.map (·.tick) ∧
      ∀ xs e ys, released = xs ++ e :: ys →
        ∀ agg ∈ (run (Pipeline.process_tick s) (p.withFront s front.2.1 front.2.2)
            (xs.map (·.tick))).2.candle_aggs,
          (agg.apply e.tick).2.late_patches ≠ agg.late_patches →
          (offered s (ops ++ [.consume_symbol s]))[e.seq - 1]? = some e.tick ∧
            e.tick.event_time_ms <
              (offers ((offered s (ops ++ [.consume_symbol s])).take (e.seq - 1))
                (Sequencer.new watermark_ms)).max_event_time_seen - watermark_ms) ∧
    (∀ s ∈ symbols.map upper, (p.sequencers s).max_event_time_seen =
      (offers (offered s ops) (Sequencer.new watermark_ms)).max_event_time_seen) ∧
    ∀ agg ∈ p.candle_aggs, agg.late_patches ≤
      ((symbols.map upper).dedup.map (fun s => (p.sequencers s).out_of_order_count)).sum := by
  intro watermark_ms offered p
  refine ⟨?_, ?_, ?_⟩
  · intro s hk released front
    refine ⟨run_turn_ready upper cfg symbols persistence hk ops, ?_⟩
    intro xs e ys hsplit agg hagg hne
    rw [(offers_out_of_order _ _).1]
    exact run_patch_behind upper cfg symbols persistence hk ops xs e ys hsplit agg hagg hne
  · intro s hk
    have hapart := congrArg Sequencer.max_event_time_seen
      (run_moved upper cfg symbols persistence hk ops).apart_eq
    exact hapart
  · intro agg hagg
    have hsound := run_sound upper cfg symbols persistence ops
    have htf := cfg.timeframes_pos _ (hsound.configured.aggregator hagg).1
    rw [(run_counted upper cfg symbols persistence ops).late_patches agg hagg, run_late_sum]
    apply List.sum_le_sum
    intro s hs
    exact (run_moved upper cfg symbols persistence (List.mem_dedup.mp hs) ops).late_le htf hW

end runs

/-- A tick that comes after its bucket closed, in two of the three timeframes. -/
theorem only_ticks_behind_the_watermark_patch_a_candle_of_four :
    let cfg : Settings := { settings with ring_buffer_capacity := 4, capacity_pos := by decide }
    let tick := fun id time : Int => (⟨"BTC-USD", 100, 1, id, time, false, 0⟩ : Tick)
    let ops : List Op :=
      [.ingest_many [tick 1 1000, tick 2 9000, tick 3 12000], .consume_symbol "BTC-USD",
        .ingest (tick 4 1500), .consume_symbol "BTC-USD"]
    let p := (run (Pipeline.step cfg) (Pipeline.new id cfg ["BTC-USD"] false) ops).2
    p.candle_aggs.map (·.late_patches) = [1, 1, 0] ∧
      (∀ agg ∈ p.candle_aggs, agg.late_patches ≤ (p.sequencers "BTC-USD").out_of_order_count) := by
  intro cfg tick ops p
  have hp : (run (Pipeline.step cfg) (Pipeline.new id cfg ["BTC-USD"] false) ops).2 = p := rfl
  have hpatches : p.candle_aggs.map (·.late_patches) = [1, 1, 0] := by decide +kernel
  have h := only_ticks_behind_the_watermark_patch_a_candle id cfg ["BTC-USD"] false (by decide) ops
  rw [hp] at h
  clear_value p
  exact ⟨hpatches, h.2.2⟩

end tick_pipeline.pipeline
