-- Runs of `_process_batch` on a fresh pipeline: what they record and what they
-- emit is, for each symbol and timeframe, the stream of the symbol's own ticks.
import TickPipeline.CandleStream

namespace tick_pipeline.pipeline

open runs models candles emitted event_log

/-! ## Whose candles these are -/

/-- The dict is of the symbol and timeframe. -/
def ofChart (s : Symbol) (tf : Int) (d : CandleDict) : Bool :=
  decide (d.symbol = s ∧ d.timeframe_sec = tf)

/-- The event is a candle event of the symbol and timeframe. -/
def Event.inChart (s : Symbol) (tf : Int) (e : Event) : Bool := e.data.any (ofChart s tf)

section owner

variable {tf : Int} {n : Nat} {s : Symbol} {xs : List Tick} {t : Tick} {c : Candle}

theorem candleOf_owner {b : Int} (hne : bucketTicks tf b xs ≠ []) (hs : ∀ u ∈ xs, u.symbol = s) :
    ofChart s tf (candleOf tf b xs).to_dict = true := by
  simp [ofChart, Candle.to_dict, candleOf_symbol hne hs]

theorem closedBy_owner (hs : ∀ u ∈ xs, u.symbol = s) (hc : closedBy tf xs t = some c) :
    ofChart s tf c.to_dict = true := by
  cases tick_cases tf 0 xs t with
  | first _ hclosed => simp [hclosed] at hc
  | newer m hm _ hclosed =>
    obtain rfl : closeCandle (candleOf tf m xs) = c := by simpa [hclosed] using hc
    exact candleOf_owner (bucketTicks_ne_nil (List.mem_of_getLast? hm)) hs
  | kept _ _ _ _ hclosed => simp [hclosed] at hc
  | patched _ _ _ _ hclosed => simp [hclosed] at hc

theorem patchedBy_owner (hs : ∀ u ∈ xs ++ [t], u.symbol = s) (hc : patchedBy tf n xs t = some c) :
    ofChart s tf c.to_dict = true := by
  cases tick_cases tf n xs t with
  | first _ _ hpatched => simp [hpatched] at hc
  | newer _ _ _ _ hpatched => simp [hpatched] at hc
  | kept _ _ _ _ _ hpatched => simp [hpatched] at hc
  | patched _ _ _ _ _ hpatched =>
    obtain rfl : closeCandle (candleOf tf (bucketOf tf t) (xs ++ [t])) = c := by
      simpa [hpatched] using hc
    apply candleOf_owner _ hs
    rw [bucketTicks_snoc, if_pos rfl]
    simp

theorem openCandle_owner (hs : ∀ u ∈ xs, u.symbol = s) (hc : openCandle tf xs = some c) :
    ofChart s tf c.to_dict = true := by
  rw [openCandle, Option.map_eq_some_iff] at hc
  obtain ⟨b, hb, rfl⟩ := hc
  exact candleOf_owner (bucketTicks_ne_nil (List.mem_of_getLast? hb)) hs

theorem candleRows_owner {d : CandleDict} (hs : ∀ u ∈ xs ++ [t], u.symbol = s)
    (hd : d ∈ candleRows tf n xs t) : ofChart s tf d = true := by
  have hxs : ∀ u ∈ xs, u.symbol = s := fun u hu => hs u (by simp [hu])
  unfold candleRows at hd
  simp only [List.mem_append, List.mem_map, Option.mem_toList] at hd
  rcases hd with ⟨c, hc, rfl⟩ | ⟨c, hc, rfl⟩
  · exact closedBy_owner hxs hc
  · exact patchedBy_owner hs hc

theorem candleEvents_owner {e : Event} (hs : ∀ u ∈ xs ++ [t], u.symbol = s)
    (he : e ∈ candleEvents tf n xs t) : ∃ d, e.data = some d ∧ ofChart s tf d = true := by
  have hxs : ∀ u ∈ xs, u.symbol = s := fun u hu => hs u (by simp [hu])
  unfold candleEvents at he
  simp only [List.mem_append, List.mem_map, Option.mem_toList] at he
  rcases he with (⟨d, ⟨c, hc, rfl⟩, rfl⟩ | ⟨d, ⟨c, hc, rfl⟩, rfl⟩) | ⟨d, ⟨c, hc, rfl⟩, rfl⟩
  · exact ⟨_, rfl, closedBy_owner hxs hc⟩
  · exact ⟨_, rfl, patchedBy_owner hs hc⟩
  · exact ⟨_, rfl, openCandle_owner hs hc⟩

end owner

theorem ofChart_iff {s : Symbol} {tf : Int} {d : CandleDict} :
    ofChart s tf d = true ↔ d.symbol = s ∧ d.timeframe_sec = tf := by
  simp [ofChart]

/-! ## One tick, seen from one chart -/

section chart_of_tick

variable {cfg : Settings} {s : Symbol} {tf : Int} {xs : List Tick} {t : Tick}

/-- The rows that a tick records. -/
def tickRows (cfg : Settings) (before : List Tick) (t : Tick) : List CandleDict :=
  cfg.candle_timeframes_sec.flatMap (fun tf => candleRows tf cfg.candle_history_len before t)

theorem tickRows_own (htf : tf ∈ cfg.candle_timeframes_sec) (hs : ∀ u ∈ xs ++ [t], u.symbol = s) :
    (tickRows cfg xs t).filter (ofChart s tf) = candleRows tf cfg.candle_history_len xs t := by
  apply filter_flatMap_key cfg.timeframes_nodup _ _ htf
  · intro d hd
    exact candleRows_owner hs hd
  · intro tf' _ hne d hd
    have := (ofChart_iff.mp (candleRows_owner hs hd)).2
    simp [ofChart, this, hne]

theorem tickRows_other {s' : Symbol} (hs : ∀ u ∈ xs ++ [t], u.symbol = s') (hne : s' ≠ s) :
    (tickRows cfg xs t).filter (ofChart s tf) = [] := by
  rw [List.filter_eq_nil_iff]
  intro d hd
  obtain ⟨tf', _, hd⟩ := List.mem_flatMap.mp hd
  have := (ofChart_iff.mp (candleRows_owner hs hd)).1
  simp [ofChart, this, hne]

theorem tickEvents_own (htf : tf ∈ cfg.candle_timeframes_sec) (hs : ∀ u ∈ xs ++ [t], u.symbol = s) :
    (tickEvents cfg xs t).filter (Event.inChart s tf) =
      candleEvents tf cfg.candle_history_len xs t := by
  unfold tickEvents
  rw [List.filter_append]
  have htick : [Event.tick (tickData cfg xs t)].filter (Event.inChart s tf) = [] := rfl
  rw [htick, List.append_nil]
  apply filter_flatMap_key cfg.timeframes_nodup _ _ htf
  · intro e he
    obtain ⟨d, hd, hown⟩ := candleEvents_owner hs he
    simp [Event.inChart, hd, hown]
  · intro tf' _ hne e he
    obtain ⟨d, hd, hown⟩ := candleEvents_owner hs he
    have := (ofChart_iff.mp hown).2
    simp [Event.inChart, hd, ofChart, this, hne]

theorem tickEvents_other {s' : Symbol} (hs : ∀ u ∈ xs ++ [t], u.symbol = s') (hne : s' ≠ s) :
    (tickEvents cfg xs t).filter (Event.inChart s tf) = [] := by
  rw [List.filter_eq_nil_iff]
  intro e he
  unfold tickEvents at he
  rw [List.mem_append, List.mem_flatMap, List.mem_singleton] at he
  rcases he with ⟨tf', _, he⟩ | rfl
  · obtain ⟨d, hd, hown⟩ := candleEvents_owner hs he
    have := (ofChart_iff.mp hown).1
    simp [Event.inChart, hd, ofChart, this, hne]
  · simp [Event.inChart, Event.data]

theorem own_snoc_symbol (t : Tick) (P : List Tick) :
    ∀ u ∈ own t.symbol P ++ [t], u.symbol = t.symbol := by
  intro u hu
  rcases List.mem_append.mp hu with hu | hu
  · exact own_symbol t.symbol P u hu
  · rw [List.mem_singleton.mp hu]

/-- The rows of a chart come from the ticks of its symbol. -/
theorem rows_of_chart (htf : tf ∈ cfg.candle_timeframes_sec) (P : List Tick) :
    (outputs (fun P t => tickRows cfg (own t.symbol P) t) [] P).filter (ofChart s tf) =
      outputs (candleRows tf cfg.candle_history_len) [] (own s P) := by
  rw [filter_outputs]
  refine outputs_filter _ _ (fun t : Tick => decide (t.symbol = s)) [] P ?_ ?_
  · intro xs t ht
    obtain rfl : t.symbol = s := by simpa using ht
    exact tickRows_own htf (own_snoc_symbol t xs)
  · intro xs t ht
    exact tickRows_other (own_snoc_symbol t xs) (by simpa using ht)

/-- The events of a chart come from the ticks of its symbol. -/
theorem events_of_chart (htf : tf ∈ cfg.candle_timeframes_sec) (P : List Tick) :
    (outputs (fun P t => tickEvents cfg (own t.symbol P) t) [] P).filter (Event.inChart s tf) =
      outputs (candleEvents tf cfg.candle_history_len) [] (own s P) := by
  rw [filter_outputs]
  refine outputs_filter _ _ (fun t : Tick => decide (t.symbol = s)) [] P ?_ ?_
  · intro xs t ht
    obtain rfl : t.symbol = s := by simpa using ht
    exact tickEvents_own htf (own_snoc_symbol t xs)
  · intro xs t ht
    exact tickEvents_other (own_snoc_symbol t xs) (by simpa using ht)

end chart_of_tick

/-! ## Runs -/

/-- What a tick records after the ticks `P` of all symbols. -/
def recordsAfter (cfg : Settings) (P : List Tick) (t : Tick) : List Record :=
  tickRecords cfg (own t.symbol P) t

/-- What a tick emits after the ticks `P` of all symbols. -/
def eventsAfter (cfg : Settings) (P : List Tick) (t : Tick) : List Event :=
  tickEvents cfg (own t.symbol P) t

section runs

variable {cfg : Settings} {p : Pipeline} {P : List Tick}

theorem process_ticks_records (symbol : Symbol) (ticks : List Tick) (hcfg : Configured cfg p)
    (hsink : p.persistence = true) (h : ∀ s, AllStore p s (own s P)) :
    let r := run (Pipeline.process_tick symbol) p ticks
    r.1.flatMap (·.2) = outputs (recordsAfter cfg) P ticks ∧ Configured cfg r.2 ∧
      ∀ s, AllStore r.2 s (own s (P ++ ticks)) := by
  induction ticks generalizing p P with
  | nil => exact ⟨rfl, hcfg, by simpa using h⟩
  | cons t ticks ih =>
    obtain ⟨h1, h2, h3⟩ := ih (process_tick_configured symbol t hcfg) hsink
      (process_tick_stores symbol t h)
    refine ⟨?_, h2, ?_⟩
    · have hrecords := process_tick_records symbol t hcfg (h t.symbol)
      rw [if_pos hsink] at hrecords
      simp only [run_cons, List.flatMap_cons, outputs_cons]
      rw [h1, hrecords, recordsAfter]
    · rw [List.append_assoc] at h3
      exact h3

/-- A tick of its own symbol's batch keeps all that is remembered, of every symbol. -/
theorem process_tick_remembers (t : Tick) (h : ∀ s, Remembers p s (own s P)) (s : Symbol) :
    Remembers (p.process_tick t.symbol t).2 s (own s (P ++ [t])) := by
  rw [own_snoc]
  by_cases hs : t.symbol = s
  · subst hs
    rw [if_pos rfl]
    exact process_tick_own t (h t.symbol)
  · rw [if_neg hs, List.append_nil]
    exact process_tick_other t (Ne.symm hs) (h s)

theorem process_ticks_events {symbol : Symbol} (ticks : List Tick) (hcfg : Configured cfg p)
    (hown : ∀ t ∈ ticks, t.symbol = symbol) (h : ∀ s, Remembers p s (own s P)) :
    let r := run (Pipeline.process_tick symbol) p ticks
    r.1.flatMap (·.1) = outputs (eventsAfter cfg) P ticks ∧ Configured cfg r.2 ∧
      ∀ s, Remembers r.2 s (own s (P ++ ticks)) := by
  induction ticks generalizing p P with
  | nil => exact ⟨rfl, hcfg, by simpa using h⟩
  | cons t ticks ih =>
    obtain rfl : t.symbol = symbol := hown t (by simp)
    obtain ⟨h1, h2, h3⟩ := ih (process_tick_configured t.symbol t hcfg)
      (fun u hu => hown u (by simp [hu])) (process_tick_remembers t h)
    refine ⟨?_, h2, ?_⟩
    · simp only [run_cons, List.flatMap_cons, outputs_cons]
      rw [h1, process_tick_events t hcfg (h t.symbol), eventsAfter]
    · rw [List.append_assoc] at h3
      exact h3

end runs

theorem refresh_configured {cfg : Settings} {p : Pipeline} (symbol : Symbol) (h : Configured cfg p) :
    Configured cfg (p.refresh_stats symbol) := ⟨h.aggs, h.window_ms, h.periods⟩

theorem refresh_remembers {p : Pipeline} {s : Symbol} {ticks : List Tick} (symbol : Symbol)
    (h : Remembers p s ticks) : Remembers (p.refresh_stats symbol) s ticks :=
  ⟨h.stores, h.window, h.averages⟩

/-- What a pipeline with a sink has recorded, and what it stores, are functions of the ticks
processed. -/
structure Recorded (cfg : Settings) (records : List Record) (P : List Tick) (p : Pipeline) : Prop where
  records_eq : records = outputs (recordsAfter cfg) [] P
  configured : Configured cfg p
  sink : p.persistence = true
  stores : ∀ s, AllStore p s (own s P)

theorem recorded_new (upper : Symbol → Symbol) (cfg : Settings) (symbols : List Symbol) :
    Recorded cfg [] [] (Pipeline.new upper cfg symbols true) :=
  ⟨rfl, configured_new upper cfg symbols true, rfl,
    fun s => (remembers_new upper cfg symbols true s).stores⟩

theorem Recorded.process_batch {cfg : Settings} {records : List Record} {P : List Tick}
    {p : Pipeline} (h : Recorded cfg records P p) (symbol : Symbol) (ticks : List Tick) :
    Recorded cfg (records ++ (p.process_batch symbol ticks).1.flatMap Obs.records)
      (P ++ (p.process_batch symbol ticks).1.flatMap Obs.processed)
      (p.process_batch symbol ticks).2 := by
  obtain ⟨hrec, hcfg, hsink, hst⟩ := h
  unfold Pipeline.process_batch
  by_cases hk : symbol ∈ p.symbols
  · obtain ⟨h1, h2, h3⟩ := process_ticks_records symbol ticks hcfg hsink hst
    rw [if_pos hk]
    refine ⟨?_, refresh_configured symbol h2, ?_, ?_⟩
    · simp only [List.flatMap_singleton]
      rw [hrec, outputs_append, List.nil_append]
      congr 1
    · exact (process_ticks_frame symbol ticks).2.1.trans hsink
    · intro s
      have := h3 s
      simpa [Obs.processed, AllStore, Pipeline.refresh_stats] using this
  · rw [if_neg hk]
    refine ⟨?_, hcfg, hsink, ?_⟩
    · simpa [Obs.records, Obs.processed] using hrec
    · simpa [Obs.processed] using hst

/-- Any calls of `_process_batch`, with a sink: the records are a function of the ticks
processed, and so are the candles. -/
theorem run_calls_records (upper : Symbol → Symbol) (cfg : Settings) (symbols : List Symbol)
    (calls : List (Symbol × List Tick)) :
    let r := run (fun p call => Pipeline.process_batch p call.1 call.2)
      (Pipeline.new upper cfg symbols true) calls
    Recorded cfg (r.1.flatten.flatMap Obs.records) (r.1.flatten.flatMap Obs.processed) r.2 := by
  apply run_history (fun p (call : Symbol × List Tick) => Pipeline.process_batch p call.1 call.2)
    (P := fun _ obs p => Recorded cfg (obs.flatten.flatMap Obs.records)
      (obs.flatten.flatMap Obs.processed) p)
  · exact recorded_new upper cfg symbols
  · rintro _ obs p ⟨symbol, ticks⟩ h
    rw [List.flatten_append, List.flatten_singleton, List.flatMap_append, List.flatMap_append]
    exact h.process_batch symbol ticks

/-- Any calls of `_process_batch`, each with ticks of its symbol: the events are a function of
the ticks processed. -/
theorem run_calls_events (upper : Symbol → Symbol) (cfg : Settings) (symbols : List Symbol)
    (persistence : Bool) (calls : List (Symbol × List Tick))
    (hown : ∀ call ∈ calls, ∀ t ∈ call.2, t.symbol = call.1) :
    let r := run (fun p call => Pipeline.process_batch p call.1 call.2)
      (Pipeline.new upper cfg symbols persistence) calls
    let P := r.1.flatten.flatMap Obs.processed
    r.1.flatten.flatMap Obs.events = outputs (eventsAfter cfg) [] P ∧
      Configured cfg r.2 ∧ ∀ s, Remembers r.2 s (own s P) := by
  let step := fun p (call : Symbol × List Tick) => Pipeline.process_batch p call.1 call.2
  have key : (∀ call ∈ calls, ∀ t ∈ call.2, t.symbol = call.1) →
      (run step (Pipeline.new upper cfg symbols persistence) calls).1.flatten.flatMap Obs.events =
        outputs (eventsAfter cfg) [] ((run step (Pipeline.new upper cfg symbols persistence)
          calls).1.flatten.flatMap Obs.processed) ∧
      Configured cfg (run step (Pipeline.new upper cfg symbols persistence) calls).2 ∧
      ∀ s, Remembers (run step (Pipeline.new upper cfg symbols persistence) calls).2 s
        (own s ((run step (Pipeline.new upper cfg symbols persistence)
          calls).1.flatten.flatMap Obs.processed)) := by
    apply run_history step (P := fun calls obs p =>
      (∀ call ∈ calls, ∀ t ∈ call.2, t.symbol = call.1) →
        obs.flatten.flatMap Obs.events =
          outputs (eventsAfter cfg) [] (obs.flatten.flatMap Obs.processed) ∧
        Configured cfg p ∧ ∀ s, Remembers p s (own s (obs.flatten.flatMap Obs.processed)))
    · intro _
      exact ⟨rfl, configured_new upper cfg symbols persistence,
        fun s => remembers_new upper cfg symbols persistence s⟩
    · rintro calls obs p ⟨symbol, ticks⟩ ih hown
      obtain ⟨hev, hcfg, hrem⟩ := ih (fun call hcall => hown call (by simp [hcall]))
      dsimp only [step]
      unfold Pipeline.process_batch
      by_cases hk : symbol ∈ p.symbols
      · obtain ⟨h1, h2, h3⟩ :=
          process_ticks_events ticks hcfg (hown (symbol, ticks) (by simp)) hrem
        rw [if_pos hk]
        refine ⟨?_, refresh_configured symbol h2, ?_⟩
        · simp only [List.flatten_append, List.flatten_singleton, List.flatMap_append,
            List.flatMap_singleton]
          rw [hev, outputs_append, List.nil_append]
          congr 1
        · intro s
          have := refresh_remembers symbol (h3 s)
          simpa [Obs.processed] using this
      · rw [if_neg hk]
        simpa [Obs.events, Obs.processed] using ⟨hev, hcfg, hrem⟩
  exact key hown

end tick_pipeline.pipeline
