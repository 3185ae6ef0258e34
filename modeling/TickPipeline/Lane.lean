-- One symbol on its own: a lane is the ring buffer, the sequencer and the history
-- of one symbol. The pipeline is one lane for each symbol, side by side, whatever
-- the objects that the symbols share.
import TickPipeline.BackEnd

namespace tick_pipeline.pipeline

open runs models ring_buffer sequencer candles emitted

/-! ## The lane -/

structure Lane where
  ring_buffer : RingBuffer Tick
  sequencer : Sequencer
  /-- The ticks that went through the back end, in order. -/
  processed : List Tick
  /-- The stats of the symbol, less the rate. -/
  stat : SymbolStats

def Lane.new (cfg : Settings) (symbol : Symbol) : Lane :=
  { ring_buffer := RingBuffer.new Tick cfg.ring_buffer_capacity
    sequencer := Sequencer.new cfg.reorder_watermark_ms
    processed := []
    stat := { symbol } }

inductive LaneOp
  | push (tick : Tick)
  | turn
deriving DecidableEq

/-- What a batch does to a lane: it gives out what its ticks give out after the ticks before. -/
def Lane.process (cfg : Settings) (persistence : Bool) (symbol : Symbol) (lane : Lane)
    (ready : List Tick) : List Obs × Lane :=
  ([.batch symbol ready (outputs (tickEvents cfg) lane.processed ready)
      (if persistence then outputs (tickRecords cfg) lane.processed ready else [])],
    { lane with
      processed := lane.processed ++ ready
      stat := refresh lane.ring_buffer lane.sequencer (ticksStat cfg lane.processed ready lane.stat) })

/-- One turn of the consumer. -/
def Lane.turn (cfg : Settings) (persistence : Bool) (symbol : Symbol) (lane : Lane) :
    List Obs × Lane :=
  let (ready, ring_buffer, sequencer) := gather cfg lane.ring_buffer lane.sequencer
  let lane := { lane with ring_buffer, sequencer }
  match ready with
  | none => ([], lane)
  | some [] => ([], lane)
  | some ready => lane.process cfg persistence symbol ready

def Lane.step (cfg : Settings) (persistence : Bool) (symbol : Symbol) (lane : Lane) :
    LaneOp → List Obs × Lane
  | .push tick => ([], { lane with ring_buffer := (lane.ring_buffer.push_nowait tick).2 })
  | .turn => lane.turn cfg persistence symbol

/-- What an op is for the lane of a symbol. -/
def Op.own (symbol : Symbol) : Op → List LaneOp
  | .ingest tick => if tick.symbol = symbol then [.push tick] else []
  | .ingest_many ticks => (ticks.filter (fun t => t.symbol = symbol)).map .push
  | .consume_symbol s => if s = symbol then [.turn] else []
  | .rate_round _ => []

/-- The batches of a symbol, among all that can be seen. -/
def Obs.batchOf (symbol : Symbol) : Obs → Bool
  | .batch s _ _ _ => s = symbol
  | .rate _ _ => false
  | .raised _ => false

/-! ## A lane only holds ticks of its symbol -/

structure OwnTicks (symbol : Symbol) (buf : RingBuffer Tick) (seq : Sequencer) : Prop where
  ring : ∀ t, some t ∈ buf.slots → t.symbol = symbol
  heap : ∀ e ∈ seq.heap, e.tick.symbol = symbol

theorem ownTicks_new (cfg : Settings) (symbol : Symbol) :
    OwnTicks symbol (RingBuffer.new Tick cfg.ring_buffer_capacity)
      (Sequencer.new cfg.reorder_watermark_ms) := by
  refine ⟨?_, by simp [Sequencer.new]⟩
  intro t ht
  have := List.eq_of_mem_replicate ht
  cases this

theorem OwnTicks.push {buf : RingBuffer Tick} {seq : Sequencer} {t : Tick}
    (h : OwnTicks t.symbol buf seq) : OwnTicks t.symbol (buf.push_nowait t).2 seq := by
  refine ⟨?_, h.heap⟩
  intro u hu
  rcases push_nowait_mem hu with hu | rfl
  · exact h.ring u hu
  · rfl

theorem offer_all_own {symbol : Symbol} (batch : List (Option Tick)) (seq : Sequencer)
    (hbatch : ∀ t, some t ∈ batch → t.symbol = symbol) (h : ∀ e ∈ seq.heap, e.tick.symbol = symbol) :
    ∀ e ∈ (offer_all batch seq).2.heap, e.tick.symbol = symbol := by
  induction batch generalizing seq with
  | nil => exact h
  | cons item rest ih =>
    cases item with
    | none => exact h
    | some t =>
      unfold offer_all
      apply ih
      · intro u hu
        exact hbatch u (by simp [hu])
      · intro e he
        rcases offer_mem he with he | he
        · exact h e he
        · exact he ▸ hbatch t (by simp)

theorem poll_ready_own {symbol : Symbol} {seq : Sequencer}
    (h : ∀ e ∈ seq.heap, e.tick.symbol = symbol) :
    (∀ t ∈ seq.poll_ready.1, t.symbol = symbol) ∧
      ∀ e ∈ seq.poll_ready.2.heap, e.tick.symbol = symbol := by
  have hall : ∀ t ∈ seq.poll_ready.1 ++ seq.poll_ready.2.heap.map (·.tick), t.symbol = symbol := by
    rw [poll_ready_append]
    intro t ht
    obtain ⟨e, he, rfl⟩ := List.mem_map.mp ht
    exact h e he
  refine ⟨fun t ht => hall t (by simp [ht]), fun e he => hall e.tick ?_⟩
  exact List.mem_append_right _ (List.mem_map_of_mem he)

theorem gather_own {symbol : Symbol} {buf : RingBuffer Tick} {seq : Sequencer} (cfg : Settings)
    (h : OwnTicks symbol buf seq) :
    (∀ ready, (gather cfg buf seq).1 = some ready → ∀ t ∈ ready, t.symbol = symbol) ∧
      OwnTicks symbol (gather cfg buf seq).2.1 (gather cfg buf seq).2.2 := by
  have hring : ∀ t, some t ∈ (buf.drain_nowait (some cfg.batch_max_size)).2.slots →
      t.symbol = symbol := fun t ht => h.ring t (drain_nowait_mem.2 ht)
  have hoffer := offer_all_own (buf.drain_nowait (some cfg.batch_max_size)).1 seq
    (fun t ht => h.ring t (drain_nowait_mem.1 ht)) h.heap
  unfold gather
  dsimp only
  split
  · refine ⟨?_, hring, h.heap⟩
    rintro ready heq
    cases heq
    simp
  · rcases heq : offer_all (buf.drain_nowait (some cfg.batch_max_size)).1 seq with ⟨ok, seq'⟩
    rw [heq] at hoffer
    cases ok with
    | false => exact ⟨by simp, hring, hoffer⟩
    | true =>
      obtain ⟨h1, h2⟩ := poll_ready_own hoffer
      refine ⟨?_, hring, h2⟩
      intro ready hready
      simp only [Option.some.injEq] at hready
      exact hready ▸ h1

/-! ## The pipeline is made of lanes -/

/-- The stats less the field that the rate loop writes. -/
def withoutRate (stat : SymbolStats) : SymbolStats := { stat with msgs_per_sec := 0 }

/-- The lane is what the pipeline holds for the symbol. -/
structure HasLane (cfg : Settings) (symbol : Symbol) (p : Pipeline) (lane : Lane) : Prop where
  ring_eq : p.ring_buffers symbol = lane.ring_buffer
  seq_eq : p.sequencers symbol = lane.sequencer
  remembers : Remembers p symbol lane.processed
  stat_eq : withoutRate (p.stats symbol) = lane.stat

/-- What holds of the pipeline as a whole. -/
structure Sound (cfg : Settings) (symbols : List Symbol) (persistence : Bool) (p : Pipeline) : Prop where
  symbols_eq : p.symbols = symbols
  persistence_eq : p.persistence = persistence
  configured : Configured cfg p
  own : ∀ s, OwnTicks s (p.ring_buffers s) (p.sequencers s)

theorem sound_new (upper : Symbol → Symbol) (cfg : Settings) (symbols : List Symbol)
    (persistence : Bool) :
    Sound cfg (symbols.map upper) persistence (Pipeline.new upper cfg symbols persistence) :=
  ⟨rfl, rfl, configured_new upper cfg symbols persistence, fun s => ownTicks_new cfg s⟩

theorem hasLane_new (upper : Symbol → Symbol) (cfg : Settings) (symbols : List Symbol)
    (persistence : Bool) (s : Symbol) :
    HasLane cfg s (Pipeline.new upper cfg symbols persistence) (Lane.new cfg s) :=
  ⟨rfl, rfl, remembers_new upper cfg symbols persistence s, rfl⟩

section steps

variable {cfg : Settings} {symbols : List Symbol} {persistence : Bool} {p : Pipeline}
variable {symbol : Symbol} {lane : Lane}

theorem ticksStat_withoutRate (before now : List Tick) (stat : SymbolStats) :
    withoutRate (ticksStat cfg before now stat) = ticksStat cfg before now (withoutRate stat) := by
  induction now generalizing before stat with
  | nil => rfl
  | cons t now ih => exact ih (before ++ [t]) (tickStat cfg before t stat)

/-! ### Ingest -/

theorem ingest_sound (t : Tick) (h : Sound cfg symbols persistence p) :
    Sound cfg symbols persistence (p.ingest t) := by
  unfold Pipeline.ingest
  split
  · refine ⟨h.symbols_eq, h.persistence_eq, ⟨h.configured.aggs, h.configured.window_ms,
      h.configured.periods⟩, ?_⟩
    intro s
    by_cases hs : s = t.symbol
    · subst hs
      have := (h.own t.symbol).push
      simpa using this
    · simpa [hs] using h.own s
  · exact h

theorem ingest_lane (t : Tick) (hk : symbol ∈ p.symbols) (h : HasLane cfg symbol p lane) :
    HasLane cfg symbol (p.ingest t)
      (run (Lane.step cfg persistence symbol) lane (Op.own symbol (.ingest t))).2 := by
  obtain ⟨h1, h2, ⟨h3, h4, h5⟩, h6⟩ := h
  unfold Op.own Pipeline.ingest
  dsimp only
  by_cases hs : t.symbol = symbol
  · subst hs
    rw [if_pos hk, if_pos rfl]
    exact ⟨by simp [Lane.step, h1], h2, ⟨h3, h4, h5⟩, h6⟩
  · rw [if_neg hs]
    split
    · exact ⟨by simpa [Ne.symm hs] using h1, h2, ⟨h3, h4, h5⟩, h6⟩
    · exact ⟨h1, h2, ⟨h3, h4, h5⟩, h6⟩

/-- A pipeline without the symbol ignores its ticks. -/
theorem ingest_unknown (t : Tick) (hk : symbol ∉ p.symbols) (h : HasLane cfg symbol p lane) :
    HasLane cfg symbol (p.ingest t) lane := by
  obtain ⟨h1, h2, ⟨h3, h4, h5⟩, h6⟩ := h
  unfold Pipeline.ingest
  split
  · rename_i hmem
    have hs : symbol ≠ t.symbol := fun he => hk (he ▸ hmem)
    exact ⟨by simpa [hs] using h1, h2, ⟨h3, h4, h5⟩, h6⟩
  · exact ⟨h1, h2, ⟨h3, h4, h5⟩, h6⟩

@[simp] theorem ingest_symbols (t : Tick) : (p.ingest t).symbols = p.symbols := by
  unfold Pipeline.ingest
  split <;> rfl

theorem ingest_candle_aggs (t : Tick) : (p.ingest t).candle_aggs = p.candle_aggs := by
  unfold Pipeline.ingest
  split <;> rfl

theorem ingest_many_cons (t : Tick) (ticks : List Tick) :
    p.ingest_many (t :: ticks) = (p.ingest t).ingest_many ticks := rfl

theorem ingest_many_sound (ticks : List Tick) (h : Sound cfg symbols persistence p) :
    Sound cfg symbols persistence (p.ingest_many ticks) := by
  induction ticks generalizing p with
  | nil => exact h
  | cons t ticks ih => exact ih (ingest_sound t h)

theorem own_ingest_many_cons (t : Tick) (ticks : List Tick) :
    Op.own symbol (.ingest_many (t :: ticks)) =
      Op.own symbol (.ingest t) ++ Op.own symbol (.ingest_many ticks) := by
  unfold Op.own
  by_cases hs : t.symbol = symbol <;> simp [hs]

theorem ingest_many_lane (ticks : List Tick) (hk : symbol ∈ p.symbols)
    (h : HasLane cfg symbol p lane) :
    HasLane cfg symbol (p.ingest_many ticks)
      (run (Lane.step cfg persistence symbol) lane (Op.own symbol (.ingest_many ticks))).2 := by
  induction ticks generalizing p lane with
  | nil => exact h
  | cons t ticks ih =>
    rw [ingest_many_cons, own_ingest_many_cons, run_append]
    exact ih (by simpa using hk) (ingest_lane t hk h)

theorem ingest_many_unknown (ticks : List Tick) (hk : symbol ∉ p.symbols)
    (h : HasLane cfg symbol p lane) : HasLane cfg symbol (p.ingest_many ticks) lane := by
  induction ticks generalizing p with
  | nil => exact h
  | cons t ticks ih => exact ih (by simpa using hk) (ingest_unknown t hk h)

/-- Pushes give nothing out. -/
theorem run_pushes (ticks : List Tick) :
    (run (Lane.step cfg persistence symbol) lane (ticks.map .push)).1.flatten = [] := by
  induction ticks generalizing lane with
  | nil => rfl
  | cons t ticks ih => exact ih

/-! ### Batches -/

theorem process_batch_sound {s : Symbol} {ready : List Tick}
    (h : Sound cfg symbols persistence p) :
    Sound cfg symbols persistence (p.process_batch s ready).2 := by
  unfold Pipeline.process_batch
  split
  · obtain ⟨h1, h2, h3, h4⟩ := process_ticks_frame (p := p) s ready
    have hcfg := process_ticks_configured s ready h.configured
    refine ⟨h1.trans h.symbols_eq, h2.trans h.persistence_eq,
      ⟨hcfg.aggs, hcfg.window_ms, hcfg.periods⟩, ?_⟩
    intro s'
    have := h.own s'
    rw [← h3, ← h4] at this
    exact this
  · exact h

theorem process_batch_lane {ready : List Tick} (hk : symbol ∈ p.symbols)
    (hown : ∀ t ∈ ready, t.symbol = symbol) (hsound : Sound cfg symbols persistence p)
    (h : HasLane cfg symbol p lane) :
    (p.process_batch symbol ready).1 = (lane.process cfg persistence symbol ready).1 ∧
      HasLane cfg symbol (p.process_batch symbol ready).2
        (lane.process cfg persistence symbol ready).2 := by
  obtain ⟨h1, h2, h3, h4⟩ := h
  obtain ⟨hev, hrec, _, hrem, hstat⟩ := process_ticks.spec ready hsound.configured h3 hown
  obtain ⟨_, _, hring, hseq⟩ := process_ticks_frame (p := p) symbol ready
  unfold Pipeline.process_batch Lane.process
  rw [if_pos hk]
  dsimp only
  refine ⟨?_, ?_, ?_, ⟨hrem.stores, hrem.window, hrem.averages⟩, ?_⟩
  · rw [hev, hrec, hsound.persistence_eq]
  · exact (congrFun hring symbol).trans h1
  · exact (congrFun hseq symbol).trans h2
  · unfold Pipeline.refresh_stats
    dsimp only
    rw [Function.update_self, hring, hseq, h1, h2, hstat, ← h4, ← ticksStat_withoutRate]
    rfl

theorem process_batch_other {s : Symbol} {ready : List Tick} (hne : symbol ≠ s)
    (hown : ∀ t ∈ ready, t.symbol = s) (h : HasLane cfg symbol p lane) :
    (p.process_batch s ready).1.filter (Obs.batchOf symbol) = [] ∧
      HasLane cfg symbol (p.process_batch s ready).2 lane := by
  unfold Pipeline.process_batch
  split
  · obtain ⟨h1, h2, h3, h4⟩ := h
    obtain ⟨hrem, hstat, _⟩ := process_ticks_other ready hne hown h3
    obtain ⟨_, _, hring, hseq⟩ := process_ticks_frame (p := p) s ready
    refine ⟨by simp [Obs.batchOf, Ne.symm hne], (congrFun hring symbol).trans h1,
      (congrFun hseq symbol).trans h2, ⟨hrem.stores, hrem.window, hrem.averages⟩, ?_⟩
    unfold Pipeline.refresh_stats
    dsimp only
    rw [Function.update_of_ne hne, hstat, h4]
  · exact ⟨rfl, h⟩

/-! ### Turns -/

/-- The pipeline with the buffer and the sequencer of one symbol replaced. -/
def Pipeline.withFront (p : Pipeline) (s : Symbol) (buf : RingBuffer Tick) (seq : Sequencer) :
    Pipeline :=
  { p with
    ring_buffers := Function.update p.ring_buffers s buf
    sequencers := Function.update p.sequencers s seq }

theorem withFront_sound {s : Symbol} {buf : RingBuffer Tick} {seq : Sequencer}
    (hown : OwnTicks s buf seq) (h : Sound cfg symbols persistence p) :
    Sound cfg symbols persistence (p.withFront s buf seq) := by
  refine ⟨h.symbols_eq, h.persistence_eq, ⟨h.configured.aggs, h.configured.window_ms,
    h.configured.periods⟩, ?_⟩
  intro s'
  unfold Pipeline.withFront
  by_cases hs : s' = s
  · subst hs
    simpa using hown
  · simpa [hs] using h.own s'

theorem withFront_lane {buf : RingBuffer Tick} {seq : Sequencer} (h : HasLane cfg symbol p lane) :
    HasLane cfg symbol (p.withFront symbol buf seq)
      { lane with ring_buffer := buf, sequencer := seq } := by
  obtain ⟨_, _, ⟨h3, h4, h5⟩, h6⟩ := h
  exact ⟨by simp [Pipeline.withFront], by simp [Pipeline.withFront], ⟨h3, h4, h5⟩, h6⟩

theorem withFront_other {s : Symbol} {buf : RingBuffer Tick} {seq : Sequencer} (hne : symbol ≠ s)
    (h : HasLane cfg symbol p lane) : HasLane cfg symbol (p.withFront s buf seq) lane := by
  obtain ⟨h1, h2, ⟨h3, h4, h5⟩, h6⟩ := h
  exact ⟨by simpa [Pipeline.withFront, hne] using h1, by simpa [Pipeline.withFront, hne] using h2,
    ⟨h3, h4, h5⟩, h6⟩

/-- What a turn can do. -/
theorem consume_symbol_cases (cfg : Settings) (p : Pipeline) (s : Symbol) :
    (s ∉ p.symbols ∧ p.consume_symbol cfg s = ([.raised s], p)) ∨
    (s ∈ p.symbols ∧ ∃ ready buf seq,
      gather cfg (p.ring_buffers s) (p.sequencers s) = (ready, buf, seq) ∧
      ((ready = none ∧ p.consume_symbol cfg s = ([.raised s], p.withFront s buf seq)) ∨
        (ready = some [] ∧ p.consume_symbol cfg s = ([], p.withFront s buf seq)) ∨
        ∃ t rest, ready = some (t :: rest) ∧
          p.consume_symbol cfg s = (p.withFront s buf seq).process_batch s (t :: rest))) := by
  unfold Pipeline.consume_symbol
  by_cases hk : s ∈ p.symbols
  · refine Or.inr ⟨hk, ?_⟩
    rcases hg : gather cfg (p.ring_buffers s) (p.sequencers s) with ⟨ready, buf, seq⟩
    refine ⟨ready, buf, seq, rfl, ?_⟩
    rw [if_pos hk]
    cases ready with
    | none => exact Or.inl ⟨rfl, rfl⟩
    | some ready =>
      cases ready with
      | nil => exact Or.inr (Or.inl ⟨rfl, rfl⟩)
      | cons t rest => exact Or.inr (Or.inr ⟨t, rest, rfl, rfl⟩)
  · exact Or.inl ⟨hk, by rw [if_neg hk]⟩

theorem consume_sound (s : Symbol) (h : Sound cfg symbols persistence p) :
    Sound cfg symbols persistence (p.consume_symbol cfg s).2 := by
  obtain ⟨_, heq⟩ | ⟨_, ready, buf, seq, hg, hcase⟩ := consume_symbol_cases cfg p s
  · rw [heq]
    exact h
  · obtain ⟨hready, hown⟩ := gather_own cfg (h.own s)
    rw [hg] at hready hown
    have hfront := withFront_sound hown h
    rcases hcase with ⟨_, heq⟩ | ⟨_, heq⟩ | ⟨t, rest, rfl, heq⟩
    · rw [heq]
      exact hfront
    · rw [heq]
      exact hfront
    · rw [heq]
      exact process_batch_sound hfront

theorem consume_lane (hk : symbol ∈ p.symbols) (hsound : Sound cfg symbols persistence p)
    (h : HasLane cfg symbol p lane) :
    (p.consume_symbol cfg symbol).1.filter (Obs.batchOf symbol) =
        (lane.turn cfg persistence symbol).1 ∧
      HasLane cfg symbol (p.consume_symbol cfg symbol).2 (lane.turn cfg persistence symbol).2 := by
  obtain ⟨hno, _⟩ | ⟨_, ready, buf, seq, hg, hcase⟩ := consume_symbol_cases cfg p symbol
  · exact absurd hk hno
  · obtain ⟨hready, hown⟩ := gather_own cfg (hsound.own symbol)
    rw [hg] at hready hown
    have hfront := withFront_sound hown hsound
    have hlane : HasLane cfg symbol (p.withFront symbol buf seq)
        { lane with ring_buffer := buf, sequencer := seq } := withFront_lane h
    unfold Lane.turn
    rw [← h.ring_eq, ← h.seq_eq, hg]
    rcases hcase with ⟨rfl, heq⟩ | ⟨rfl, heq⟩ | ⟨t, rest, rfl, heq⟩
    · rw [heq]
      exact ⟨rfl, hlane⟩
    · rw [heq]
      exact ⟨rfl, hlane⟩
    · rw [heq]
      have hk' : symbol ∈ (p.withFront symbol buf seq).symbols := hk
      obtain ⟨h1, h2⟩ := process_batch_lane hk' (hready _ rfl) hfront hlane
      refine ⟨?_, h2⟩
      rw [h1]
      simp [Lane.process, Obs.batchOf]

theorem consume_other {s : Symbol} (hne : symbol ≠ s) (hsound : Sound cfg symbols persistence p)
    (h : HasLane cfg symbol p lane) :
    (p.consume_symbol cfg s).1.filter (Obs.batchOf symbol) = [] ∧
      HasLane cfg symbol (p.consume_symbol cfg s).2 lane := by
  obtain ⟨_, heq⟩ | ⟨_, ready, buf, seq, hg, hcase⟩ := consume_symbol_cases cfg p s
  · rw [heq]
    exact ⟨rfl, h⟩
  · obtain ⟨hready, _⟩ := gather_own cfg (hsound.own s)
    rw [hg] at hready
    have hlane : HasLane cfg symbol (p.withFront s buf seq) lane := withFront_other hne h
    rcases hcase with ⟨_, heq⟩ | ⟨_, heq⟩ | ⟨t, rest, rfl, heq⟩
    · rw [heq]
      exact ⟨rfl, hlane⟩
    · rw [heq]
      exact ⟨rfl, hlane⟩
    · rw [heq]
      exact process_batch_other hne (hready _ rfl) hlane

/-! ### Rate rounds -/

theorem rate_round_aside (elapsed : ℚ) : (p.rate_round elapsed).2.symbols = p.symbols ∧
    (p.rate_round elapsed).2.candle_aggs = p.candle_aggs := by
  unfold Pipeline.rate_round
  apply run_invariant (Pipeline.rate_symbol elapsed)
    (P := fun q => q.symbols = p.symbols ∧ q.candle_aggs = p.candle_aggs)
  · intro q s hq
    exact hq
  · exact ⟨rfl, rfl⟩

theorem rate_round_sound (elapsed : ℚ) (h : Sound cfg symbols persistence p) :
    Sound cfg symbols persistence (p.rate_round elapsed).2 := by
  unfold Pipeline.rate_round
  apply run_invariant (Pipeline.rate_symbol elapsed) (P := Sound cfg symbols persistence)
  · intro q s hq
    exact ⟨hq.symbols_eq, hq.persistence_eq, ⟨hq.configured.aggs, hq.configured.window_ms,
      hq.configured.periods⟩, hq.own⟩
  · exact h

theorem rate_symbol_lane (elapsed : ℚ) (s : Symbol) (h : HasLane cfg symbol p lane) :
    HasLane cfg symbol (p.rate_symbol elapsed s).2 lane := by
  obtain ⟨h1, h2, ⟨h3, h4, h5⟩, h6⟩ := h
  refine ⟨h1, h2, ⟨h3, h4, h5⟩, ?_⟩
  unfold Pipeline.rate_symbol
  dsimp only
  by_cases hs : symbol = s
  · subst hs
    rw [Function.update_self]
    exact h6
  · rw [Function.update_of_ne hs]
    exact h6

theorem rate_round_lane (elapsed : ℚ) (h : HasLane cfg symbol p lane) :
    (p.rate_round elapsed).1.filter (Obs.batchOf symbol) = [] ∧
      HasLane cfg symbol (p.rate_round elapsed).2 lane := by
  unfold Pipeline.rate_round
  have := run_history (Pipeline.rate_symbol elapsed) (P := fun _ obs q =>
    obs.filter (Obs.batchOf symbol) = [] ∧ HasLane cfg symbol q lane) ⟨rfl, h⟩ ?_ p.symbols
  · exact this
  · intro _ obs q s ⟨hobs, hq⟩
    refine ⟨?_, rate_symbol_lane elapsed s hq⟩
    rw [List.filter_append, hobs]
    rfl

/-! ### One step -/

theorem step_sound (op : Op) (h : Sound cfg symbols persistence p) :
    Sound cfg symbols persistence (p.step cfg op).2 := by
  cases op with
  | ingest t => exact ingest_sound t h
  | ingest_many ticks => exact ingest_many_sound ticks h
  | consume_symbol s => exact consume_sound s h
  | rate_round elapsed => exact rate_round_sound elapsed h

/-- Each step of the pipeline is, for the lane of a symbol, the lane's own ops. -/
theorem step_lane (op : Op) (hk : symbol ∈ symbols) (hsound : Sound cfg symbols persistence p)
    (h : HasLane cfg symbol p lane) :
    let r := run (Lane.step cfg persistence symbol) lane (op.own symbol)
    (p.step cfg op).1.filter (Obs.batchOf symbol) = r.1.flatten ∧
      HasLane cfg symbol (p.step cfg op).2 r.2 := by
  have hk : symbol ∈ p.symbols := hsound.symbols_eq ▸ hk
  cases op with
  | ingest t =>
    refine ⟨?_, ingest_lane t hk h⟩
    unfold Op.own
    dsimp only
    split <;> rfl
  | ingest_many ticks => exact ⟨(run_pushes _).symm, ingest_many_lane ticks hk h⟩
  | consume_symbol s =>
    unfold Op.own
    dsimp only
    by_cases hs : s = symbol
    · subst hs
      rw [if_pos rfl]
      obtain ⟨h1, h2⟩ := consume_lane hk hsound h
      exact ⟨by simpa [Pipeline.step, Lane.step] using h1, h2⟩
    · rw [if_neg hs]
      exact consume_other (Ne.symm hs) hsound h
  | rate_round elapsed => exact rate_round_lane elapsed h

/-- No step touches the lane of a symbol that the pipeline does not have. -/
theorem step_unknown (op : Op) (hk : symbol ∉ symbols) (hsound : Sound cfg symbols persistence p)
    (h : HasLane cfg symbol p lane) :
    (p.step cfg op).1.filter (Obs.batchOf symbol) = [] ∧ HasLane cfg symbol (p.step cfg op).2 lane := by
  have hk : symbol ∉ p.symbols := hsound.symbols_eq ▸ hk
  cases op with
  | ingest t => exact ⟨rfl, ingest_unknown t hk h⟩
  | ingest_many ticks => exact ⟨rfl, ingest_many_unknown ticks hk h⟩
  | consume_symbol s =>
    by_cases hs : s = symbol
    · subst hs
      obtain ⟨_, heq⟩ | ⟨hmem, _⟩ := consume_symbol_cases cfg p s
      · unfold Pipeline.step
        dsimp only
        rw [heq]
        exact ⟨rfl, h⟩
      · exact absurd hmem hk
    · exact consume_other (Ne.symm hs) hsound h
  | rate_round elapsed => exact rate_round_lane elapsed h

end steps

/-! ## Runs -/

section runs

variable (upper : Symbol → Symbol) (cfg : Settings) (symbols : List Symbol) (persistence : Bool)

/-- In every run the batches of a symbol, and all that the pipeline holds for it, are those of
its lane running its own ops alone. -/
theorem run_lane {symbol : Symbol} (hk : symbol ∈ symbols.map upper) (ops : List Op) :
    let r := run (Pipeline.step cfg) (Pipeline.new upper cfg symbols persistence) ops
    let l := run (Lane.step cfg persistence symbol) (Lane.new cfg symbol) (ops.flatMap (Op.own symbol))
    r.1.flatten.filter (Obs.batchOf symbol) = l.1.flatten ∧
      Sound cfg (symbols.map upper) persistence r.2 ∧ HasLane cfg symbol r.2 l.2 := by
  apply run_projects (Pipeline.step cfg) (Lane.step cfg persistence symbol) (Op.own symbol)
    (Obs.batchOf symbol)
    (R := fun p lane => Sound cfg (symbols.map upper) persistence p ∧ HasLane cfg symbol p lane)
  · intro p lane op ⟨hsound, hlane⟩
    obtain ⟨h1, h2⟩ := step_lane op hk hsound hlane
    exact ⟨h1, step_sound op hsound, h2⟩
  · exact ⟨sound_new upper cfg symbols persistence, hasLane_new upper cfg symbols persistence symbol⟩

theorem run_sound (ops : List Op) :
    Sound cfg (symbols.map upper) persistence
      (run (Pipeline.step cfg) (Pipeline.new upper cfg symbols persistence) ops).2 := by
  apply run_invariant (Pipeline.step cfg) (P := Sound cfg (symbols.map upper) persistence)
  · intro p op h
    exact step_sound op h
  · exact sound_new upper cfg symbols persistence

/-- A symbol that the pipeline does not have keeps an empty lane. -/
theorem run_unknown {symbol : Symbol} (hk : symbol ∉ symbols.map upper) (ops : List Op) :
    let r := run (Pipeline.step cfg) (Pipeline.new upper cfg symbols persistence) ops
    r.1.flatten.filter (Obs.batchOf symbol) = [] ∧ HasLane cfg symbol r.2 (Lane.new cfg symbol) := by
  have h := run_history (Pipeline.step cfg) (s := Pipeline.new upper cfg symbols persistence)
    (P := fun _ obs p => obs.flatten.filter (Obs.batchOf symbol) = [] ∧
      Sound cfg (symbols.map upper) persistence p ∧ HasLane cfg symbol p (Lane.new cfg symbol))
    ⟨rfl, sound_new upper cfg symbols persistence,
      hasLane_new upper cfg symbols persistence symbol⟩ ?_ ops
  · exact ⟨h.1, h.2.2⟩
  · intro _ obs p op ⟨hobs, hsound, hlane⟩
    obtain ⟨h1, h2⟩ := step_unknown op hk hsound hlane
    refine ⟨?_, step_sound op hsound, h2⟩
    rw [List.flatten_append, List.filter_append, hobs]
    simpa using h1

end runs

end tick_pipeline.pipeline
