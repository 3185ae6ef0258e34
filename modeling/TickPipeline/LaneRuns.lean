-- What a lane has given out after any of its ops, as a function of the ticks that
-- it has processed.
import TickPipeline.Lane
import TickPipeline.BatchRuns

namespace tick_pipeline.pipeline

open runs models ring_buffer sequencer candles emitted event_log

/-- The symbol that a record is about. -/
def Record.symbol : Record → Symbol
  | .tick t => t.symbol
  | .candle row => row.symbol

/-- The ticks of a symbol that were processed. -/
def processedOf (s : Symbol) (obs : List Obs) : List Tick :=
  (obs.filter (Obs.batchOf s)).flatMap Obs.processed

theorem processedOf_append (s : Symbol) (before after : List Obs) :
    processedOf s (before ++ after) = processedOf s before ++ processedOf s after := by
  simp [processedOf]

/-- A lane is only given ticks of its symbol. -/
def LaneOp.Own (symbol : Symbol) : LaneOp → Prop
  | .push t => t.symbol = symbol
  | .turn => True

theorem own_ops (symbol : Symbol) (ops : List Op) :
    ∀ op ∈ ops.flatMap (Op.own symbol), op.Own symbol := by
  intro lop hlop
  obtain ⟨op, _, hmem⟩ := List.mem_flatMap.mp hlop
  cases op with
  | ingest t =>
    unfold Op.own at hmem
    dsimp only at hmem
    split at hmem
    · rename_i hs
      obtain rfl := List.mem_singleton.mp hmem
      exact hs
    · cases hmem
  | ingest_many ticks =>
    obtain ⟨t, ht, rfl⟩ := List.mem_map.mp hmem
    simpa [LaneOp.Own] using (List.mem_filter.mp ht).2
  | consume_symbol s =>
    unfold Op.own at hmem
    dsimp only at hmem
    split at hmem
    · obtain rfl := List.mem_singleton.mp hmem
      trivial
    · cases hmem
  | rate_round elapsed => cases hmem

/-- What a lane holds, and what it has given out. -/
structure LaneRun (cfg : Settings) (persistence : Bool) (symbol : Symbol) (obs : List Obs)
    (lane : Lane) : Prop where
  own : OwnTicks symbol lane.ring_buffer lane.sequencer
  processed_own : ∀ t ∈ lane.processed, t.symbol = symbol
  processed_eq : obs.flatMap Obs.processed = lane.processed
  events_eq : obs.flatMap Obs.events = outputs (tickEvents cfg) [] lane.processed
  records_eq : obs.flatMap Obs.records =
    if persistence then outputs (tickRecords cfg) [] lane.processed else []
  msgs_total_eq : lane.stat.msgs_total = lane.processed.length

theorem ticksStat_msgs_total (cfg : Settings) (before now : List Tick) (stat : SymbolStats) :
    (ticksStat cfg before now stat).msgs_total = stat.msgs_total + now.length := by
  induction now generalizing before stat with
  | nil => rfl
  | cons t now ih =>
    unfold ticksStat
    rw [ih]
    simp only [tickStat, List.length_cons]
    omega

theorem laneRun_new (cfg : Settings) (persistence : Bool) (symbol : Symbol) :
    LaneRun cfg persistence symbol [] (Lane.new cfg symbol) := by
  refine ⟨ownTicks_new cfg symbol, ?_, rfl, rfl, ?_, rfl⟩
  · intro t ht
    cases ht
  · cases persistence <;> rfl

section steps

variable {cfg : Settings} {persistence : Bool} {symbol : Symbol} {obs : List Obs} {lane : Lane}

theorem LaneRun.withFront {buf : RingBuffer Tick} {seq : Sequencer}
    (h : LaneRun cfg persistence symbol obs lane) (hown : OwnTicks symbol buf seq) :
    LaneRun cfg persistence symbol obs { lane with ring_buffer := buf, sequencer := seq } :=
  ⟨hown, h.processed_own, h.processed_eq, h.events_eq, h.records_eq, h.msgs_total_eq⟩

theorem LaneRun.process {ready : List Tick} (h : LaneRun cfg persistence symbol obs lane)
    (hready : ∀ t ∈ ready, t.symbol = symbol) :
    LaneRun cfg persistence symbol (obs ++ (lane.process cfg persistence symbol ready).1)
      (lane.process cfg persistence symbol ready).2 := by
  obtain ⟨h1, h2, h3, h4, h5, h6⟩ := h
  unfold Lane.process
  refine ⟨h1, ?_, ?_, ?_, ?_, ?_⟩
  · intro t ht
    rcases List.mem_append.mp ht with ht | ht
    · exact h2 t ht
    · exact hready t ht
  · simp [h3, Obs.processed]
  · rw [List.flatMap_append, h4, outputs_append, List.nil_append]
    simp [Obs.events]
  · rw [List.flatMap_append, h5, outputs_append, List.nil_append]
    cases persistence <;> simp [Obs.records]
  · simp only [refresh, ticksStat_msgs_total, h6, List.length_append]

theorem LaneRun.step (h : LaneRun cfg persistence symbol obs lane) {op : LaneOp}
    (hop : op.Own symbol) :
    LaneRun cfg persistence symbol (obs ++ (lane.step cfg persistence symbol op).1)
      (lane.step cfg persistence symbol op).2 := by
  cases op with
  | push t =>
    obtain rfl : t.symbol = symbol := hop
    unfold Lane.step
    rw [List.append_nil]
    exact h.withFront h.own.push
  | turn =>
    obtain ⟨hready, hown⟩ := gather_own cfg h.own
    unfold Lane.step Lane.turn
    rcases hg : gather cfg lane.ring_buffer lane.sequencer with ⟨ready, buf, seq⟩
    rw [hg] at hready hown
    have hfront := h.withFront hown
    cases ready with
    | none => simpa using hfront
    | some ready =>
      cases ready with
      | nil => simpa using hfront
      | cons t rest => exact hfront.process (hready _ rfl)

end steps

/-- Every run of a lane on ticks of its symbol. -/
theorem run_laneRun (cfg : Settings) (persistence : Bool) (symbol : Symbol) (ops : List LaneOp)
    (hops : ∀ op ∈ ops, op.Own symbol) :
    let l := run (Lane.step cfg persistence symbol) (Lane.new cfg symbol) ops
    LaneRun cfg persistence symbol l.1.flatten l.2 := by
  have key : (∀ op ∈ ops, op.Own symbol) →
      LaneRun cfg persistence symbol
        (run (Lane.step cfg persistence symbol) (Lane.new cfg symbol) ops).1.flatten
        (run (Lane.step cfg persistence symbol) (Lane.new cfg symbol) ops).2 := by
    apply run_history (Lane.step cfg persistence symbol) (P := fun ops obs lane =>
      (∀ op ∈ ops, op.Own symbol) → LaneRun cfg persistence symbol obs.flatten lane)
    · intro _
      exact laneRun_new cfg persistence symbol
    · intro ops obs lane op ih hops
      rw [List.flatten_append, List.flatten_singleton]
      exact (ih (fun o ho => hops o (by simp [ho]))).step (hops op (by simp))
  exact key hops

/-! ## Whose records these are -/

theorem tickRecords_symbol {cfg : Settings} {symbol : Symbol} {xs : List Tick} {t : Tick}
    (hs : ∀ u ∈ xs ++ [t], u.symbol = symbol) :
    ∀ r ∈ tickRecords cfg xs t, r.symbol = symbol := by
  intro r hr
  unfold tickRecords at hr
  rcases List.mem_cons.mp hr with rfl | hr
  · exact hs t (by simp)
  · obtain ⟨row, hrow, rfl⟩ := List.mem_map.mp hr
    obtain ⟨tf, _, hrow⟩ := List.mem_flatMap.mp hrow
    exact (ofChart_iff.mp (candleRows_owner hs hrow)).1

/-- A lane records only for its symbol. -/
theorem LaneRun.records_symbol {cfg : Settings} {persistence : Bool} {symbol : Symbol}
    {obs : List Obs} {lane : Lane} (h : LaneRun cfg persistence symbol obs lane) :
    ∀ r ∈ obs.flatMap Obs.records, r.symbol = symbol := by
  intro r hr
  rw [h.records_eq] at hr
  split at hr
  · obtain ⟨xs, t, ys, heq, hr⟩ := mem_outputs hr
    apply tickRecords_symbol _ r hr
    intro u hu
    apply h.processed_own
    rw [heq]
    rcases List.mem_append.mp hu with hu | hu
    · simp_all
    · simp_all
  · cases hr

section runs

variable (upper : Symbol → Symbol) (cfg : Settings) (symbols : List Symbol) (persistence : Bool)

/-- In every run, what a symbol's batches gave out and what its lane holds belong together. -/
theorem run_laneRun_of_pipeline {symbol : Symbol} (hk : symbol ∈ symbols.map upper) (ops : List Op) :
    let r := run (Pipeline.step cfg) (Pipeline.new upper cfg symbols persistence) ops
    ∃ lane, HasLane cfg symbol r.2 lane ∧
      LaneRun cfg persistence symbol (r.1.flatten.filter (Obs.batchOf symbol)) lane := by
  intro r
  obtain ⟨hobs, _, hlane⟩ := run_lane upper cfg symbols persistence hk ops
  refine ⟨_, hlane, ?_⟩
  rw [hobs]
  exact run_laneRun cfg persistence symbol _ (own_ops symbol ops)

/-- An unknown symbol has a lane as well, on which nothing happens. -/
theorem run_laneRun_of_any (symbol : Symbol) (ops : List Op) :
    let r := run (Pipeline.step cfg) (Pipeline.new upper cfg symbols persistence) ops
    ∃ lane, HasLane cfg symbol r.2 lane ∧
      LaneRun cfg persistence symbol (r.1.flatten.filter (Obs.batchOf symbol)) lane := by
  intro r
  by_cases hk : symbol ∈ symbols.map upper
  · exact run_laneRun_of_pipeline upper cfg symbols persistence hk ops
  · obtain ⟨hobs, hlane⟩ := run_unknown upper cfg symbols persistence hk ops
    refine ⟨_, hlane, ?_⟩
    rw [hobs]
    exact laneRun_new cfg persistence symbol

/-- A batch is of a known symbol. -/
theorem run_batch_known (ops : List Op) {s : Symbol} {o : Obs}
    (ho : o ∈ (run (Pipeline.step cfg) (Pipeline.new upper cfg symbols persistence) ops).1.flatten)
    (hs : o.batchOf s = true) : s ∈ symbols.map upper := by
  by_contra hk
  have hmem := List.mem_filter.mpr ⟨ho, hs⟩
  rw [(run_unknown upper cfg symbols persistence hk ops).1] at hmem
  cases hmem

/-- A batch is of ticks of its own symbol. -/
theorem run_processed_symbol (ops : List Op) :
    let r := run (Pipeline.step cfg) (Pipeline.new upper cfg symbols persistence) ops
    ∀ o ∈ r.1.flatten, ∀ t ∈ o.processed, o.batchOf t.symbol = true := by
  intro r o ho t ht
  cases o with
  | rate s count => cases ht
  | raised s => cases ht
  | batch s ticks events records =>
    have hs : Obs.batchOf s (.batch s ticks events records) = true := by simp [Obs.batchOf]
    obtain ⟨lane, _, hrun⟩ := run_laneRun_of_any upper cfg symbols persistence s ops
    have hmem : t ∈ lane.processed := by
      rw [← hrun.processed_eq]
      exact List.mem_flatMap.mpr ⟨_, List.mem_filter.mpr ⟨ho, hs⟩, ht⟩
    simp [Obs.batchOf, hrun.processed_own t hmem]

theorem batchOf_eq {o : Obs} {s : Symbol} (h : o.batchOf s = true) (symbol : Symbol) :
    o.batchOf symbol = decide (s = symbol) := by
  cases o with
  | batch s' ticks events records =>
    obtain rfl : s' = s := by simpa [Obs.batchOf] using h
    rfl
  | rate s' count => cases h
  | raised s' => cases h

/-- The ticks processed of a symbol are those of its batches. -/
theorem run_processed_of (symbol : Symbol) (ops : List Op) :
    let r := run (Pipeline.step cfg) (Pipeline.new upper cfg symbols persistence) ops
    candles.own symbol (r.1.flatten.flatMap Obs.processed) =
      (r.1.flatten.filter (Obs.batchOf symbol)).flatMap Obs.processed := by
  intro r
  apply filter_flatMap_parts
  intro o ho t ht
  exact (batchOf_eq (run_processed_symbol upper cfg symbols persistence ops o ho t ht) symbol).symm

/-- A batch records only for its own symbol. -/
theorem run_records_symbol (ops : List Op) :
    let r := run (Pipeline.step cfg) (Pipeline.new upper cfg symbols persistence) ops
    ∀ o ∈ r.1.flatten, ∀ rec ∈ o.records, o.batchOf rec.symbol = true := by
  intro r o ho rec hrec
  cases o with
  | rate s count => cases hrec
  | raised s => cases hrec
  | batch s ticks events records =>
    have hs : Obs.batchOf s (.batch s ticks events records) = true := by simp [Obs.batchOf]
    obtain ⟨lane, _, hrun⟩ := run_laneRun_of_any upper cfg symbols persistence s ops
    have := hrun.records_symbol rec
      (List.mem_flatMap.mpr ⟨_, List.mem_filter.mpr ⟨ho, hs⟩, hrec⟩)
    simp [Obs.batchOf, this]

/-- The records of a symbol are those of its batches. -/
theorem run_records_of (symbol : Symbol) (ops : List Op) :
    let r := run (Pipeline.step cfg) (Pipeline.new upper cfg symbols persistence) ops
    (r.1.flatten.flatMap Obs.records).filter (fun rec => rec.symbol = symbol) =
      (r.1.flatten.filter (Obs.batchOf symbol)).flatMap Obs.records := by
  intro r
  apply filter_flatMap_parts
  intro o ho rec hrec
  exact (batchOf_eq (run_records_symbol upper cfg symbols persistence ops o ho rec hrec) symbol).symm

end runs

end tick_pipeline.pipeline
