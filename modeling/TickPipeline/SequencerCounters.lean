-- What the two counters of the sequencer say, for every order of offers, polls
-- and flushes. Late ticks are counted as they are; gaps are judged from the
-- largest id so far, so an id that comes after a larger one stays counted as
-- missing.
import TickPipeline.SequencerLaws
import TickPipeline.CandleStore
import TickPipeline.Lib.IdSpans
import Mathlib.Algebra.BigOperators.Group.Finset.Piecewise

namespace tick_pipeline.sequencer

open runs models id_spans
open candles (own own_snoc own_eq_self)

/-! ## Runs of all calls -/

inductive SequencerOp
  | offer (tick : Tick)
  | poll_ready
  | flush_all

/-- One call, with the ticks it returns. -/
def Sequencer.apply (s : Sequencer) : SequencerOp → List Tick × Sequencer
  | .offer tick => ([], s.offer tick)
  | .poll_ready => s.poll_ready
  | .flush_all => s.flush_all

/-- The ticks offered by a call. -/
def SequencerOp.offered : SequencerOp → List Tick
  | .offer tick => [tick]
  | .poll_ready => []
  | .flush_all => []

/-- The ticks offered by a list of calls, in order. -/
def ticksOffered (ops : List SequencerOp) : List Tick := ops.flatMap (·.offered)

/-- How many ticks came with an event time below that of a tick before them. -/
def lateOffers (offered : List Tick) : Nat :=
  countByPast (fun past t => past.any (fun u => t.event_time_ms < u.event_time_ms)) offered

/-- The trade ids of a symbol, as they were offered. -/
def idsOf (symbol : Symbol) (offered : List Tick) : List Int :=
  (own symbol offered).map (·.trade_id)

def symbolsOf (offered : List Tick) : Finset Symbol := (offered.map (·.symbol)).toFinset

theorem ticksOffered_snoc (ops : List SequencerOp) (op : SequencerOp) :
    ticksOffered (ops ++ [op]) = ticksOffered ops ++ op.offered := by
  simp [ticksOffered]

theorem idsOf_snoc (symbol : Symbol) (offered : List Tick) (t : Tick) :
    idsOf symbol (offered ++ [t]) =
      idsOf symbol offered ++ if t.symbol = symbol then [t.trade_id] else [] := by
  unfold idsOf
  rw [own_snoc, List.map_append]
  split <;> rfl

/-- With event times from 0 on, the sequencer's maximum tells the late ticks. -/
theorem lt_maxTime_iff {offered : List Tick} {t : Tick}
    (h0 : ∀ u ∈ offered ++ [t], 0 ≤ u.event_time_ms) :
    t.event_time_ms < maxTime offered ↔ ∃ u ∈ offered, t.event_time_ms < u.event_time_ms := by
  constructor
  · intro hlt
    rcases eq_or_ne offered [] with rfl | hne
    · have := h0 t (by simp)
      simp only [maxTime, List.foldl_nil] at hlt
      omega
    · obtain ⟨u, hu, hmax⟩ := maxTime_mem offered hne (fun u hu => h0 u (by simp [hu]))
      exact ⟨u, hu, hmax ▸ hlt⟩
  · rintro ⟨u, hu, hlt⟩
    exact lt_of_lt_of_le hlt (le_maxTime offered u hu)

/-! ## What the fields say -/

/-- The fields that offers fill, as functions of the ticks offered. -/
structure Counts (offered : List Tick) (s : Sequencer) : Prop where
  max_seen : s.max_event_time_seen = maxTime offered
  last_eq : ∀ symbol, s.last_trade_id symbol = (idsOf symbol offered).max?
  late_eq : (∀ t ∈ offered, 0 ≤ t.event_time_ms) → s.out_of_order_count = lateOffers offered
  gap_eq : ∀ symbols : Finset Symbol, (∀ t ∈ offered, t.symbol ∈ symbols) →
    s.gap_count =
      ∑ symbol ∈ symbols, (span (idsOf symbol offered) - records (idsOf symbol offered))

theorem counts_new (watermark_ms : Int) : Counts [] (Sequencer.new watermark_ms) := by
  refine ⟨rfl, fun _ => rfl, fun _ => rfl, fun symbols _ => ?_⟩
  simp [Sequencer.new, idsOf, own, span, records]

theorem last_id_after_max (ids : List Int) (k : Int) :
    last_id_after ids.max? k = (ids ++ [k]).max? := by
  rw [max?_snoc]
  rcases ids.max? with _ | m
  · rfl
  · simp only [last_id_after]
    split
    · rw [max_eq_right (by omega)]
    · rw [max_eq_left (by omega)]

theorem gap_after_max (ids : List Int) (k : Int) :
    span (ids ++ [k]) - records (ids ++ [k]) = span ids - records ids + gap_after ids.max? k :=
  span_sub_records_snoc ids k

theorem Counts.offer {offered : List Tick} {s : Sequencer} (h : Counts offered s) (t : Tick) :
    Counts (offered ++ [t]) (s.offer t) := by
  refine ⟨?_, ?_, ?_, ?_⟩
  · rw [offer_max_seen, h.max_seen, maxTime_snoc]
  · intro symbol
    simp only [Sequencer.offer]
    rw [idsOf_snoc]
    by_cases hs : t.symbol = symbol
    · subst hs
      rw [Function.update_self, h.last_eq, if_pos rfl, last_id_after_max]
    · rw [Function.update_of_ne (Ne.symm hs), h.last_eq, if_neg hs, List.append_nil]
  · intro h0
    have hlate := h.late_eq (fun u hu => h0 u (by simp [hu]))
    have hiff := lt_maxTime_iff h0
    unfold lateOffers at hlate ⊢
    rw [countByPast_snoc, ← hlate]
    simp only [Sequencer.offer, h.max_seen, hiff, decide_eq_true_eq, List.any_eq_true]
    split <;> rfl
  · intro symbols hsymbols
    have hmem : t.symbol ∈ symbols := hsymbols t (by simp)
    have hgap := h.gap_eq symbols (fun u hu => hsymbols u (by simp [hu]))
    -- The other symbols have the ids that they had.
    have hothers : ∑ symbol ∈ symbols.erase t.symbol,
          (span (idsOf symbol (offered ++ [t])) - records (idsOf symbol (offered ++ [t]))) =
        ∑ symbol ∈ symbols.erase t.symbol,
          (span (idsOf symbol offered) - records (idsOf symbol offered)) := by
      apply Finset.sum_congr rfl
      intro symbol hsymbol
      rw [idsOf_snoc, if_neg (Finset.ne_of_mem_erase hsymbol).symm, List.append_nil]
    have hoffer : (s.offer t).gap_count =
        s.gap_count + gap_after (s.last_trade_id t.symbol) t.trade_id := rfl
    rw [hoffer, hgap, h.last_eq, ← Finset.add_sum_erase symbols _ hmem,
      ← Finset.add_sum_erase symbols _ hmem, hothers, idsOf_snoc, if_pos rfl, gap_after_max]
    omega

theorem Counts.apply {offered : List Tick} {s : Sequencer} (h : Counts offered s)
    (op : SequencerOp) : Counts (offered ++ op.offered) (s.apply op).2 := by
  cases op with
  | offer t => exact h.offer t
  | poll_ready =>
    rw [SequencerOp.offered, List.append_nil]
    exact ⟨h.max_seen, h.last_eq, h.late_eq, h.gap_eq⟩
  | flush_all =>
    rw [SequencerOp.offered, List.append_nil]
    exact ⟨h.max_seen, h.last_eq, h.late_eq, h.gap_eq⟩

theorem run_counts (watermark_ms : Int) (ops : List SequencerOp) :
    Counts (ticksOffered ops) (run Sequencer.apply (Sequencer.new watermark_ms) ops).2 := by
  refine run_history Sequencer.apply (P := fun ops _ s => Counts (ticksOffered ops) s)
    (counts_new watermark_ms) ?_ ops
  intro ops _ s op h
  rw [ticksOffered_snoc]
  exact h.apply op

/-- What the counters say, after any offers, polls and flushes of ticks of any symbols. The late
ticks are those with an event time below one offered before. The gaps of a symbol are the span of
its ids, less the offers that set a new largest one. The polls and flushes have no say in either;
and the gaps are the ids that never came, and those in between that a larger one overtook. -/
theorem the_counters_are_functions_of_the_offers (watermark_ms : Int) (ops : List SequencerOp)
    (h0 : ∀ t ∈ ticksOffered ops, 0 ≤ t.event_time_ms) :
    let s := (run Sequencer.apply (Sequencer.new watermark_ms) ops).2
    let offered := ticksOffered ops
    s.out_of_order_count = lateOffers offered ∧
      s.gap_count =
        ∑ symbol ∈ symbolsOf offered,
          (span (idsOf symbol offered) - records (idsOf symbol offered)) ∧
      (∀ watermark_ms' ops', ticksOffered ops' = offered →
        let s' := (run Sequencer.apply (Sequencer.new watermark_ms') ops').2
        s'.out_of_order_count = s.out_of_order_count ∧ s'.gap_count = s.gap_count) ∧
      s.gap_count =
        ∑ symbol ∈ symbolsOf offered, ((missing (idsOf symbol offered)).card : Int) +
          ∑ symbol ∈ symbolsOf offered, ((overtaken (idsOf symbol offered)).card : Int) := by
  intro s offered
  have hmem : ∀ t ∈ offered, t.symbol ∈ symbolsOf offered := by
    intro t ht
    exact List.mem_toFinset.mpr (List.mem_map_of_mem ht)
  have h := run_counts watermark_ms ops
  have hlate : s.out_of_order_count = lateOffers offered := h.late_eq h0
  have hgap : s.gap_count = ∑ symbol ∈ symbolsOf offered,
      (span (idsOf symbol offered) - records (idsOf symbol offered)) := h.gap_eq _ hmem
  refine ⟨hlate, hgap, ?_, ?_⟩
  · intro watermark_ms' ops' hsame s'
    have h' : Counts offered s' := hsame ▸ run_counts watermark_ms' ops'
    exact ⟨(h'.late_eq h0).trans hlate.symm, (h'.gap_eq _ hmem).trans hgap.symm⟩
  · rw [hgap, ← Finset.sum_add_distrib]
    apply Finset.sum_congr rfl
    intro symbol _
    have := span_eq (idsOf symbol offered)
    omega

/-- Ids 1, 4 and 2 of a symbol, with a poll and a flush in between: 2 and 3 are counted, and 2
came. -/
theorem the_counters_are_functions_of_the_offers_of_four :
    let tick := fun (symbol : Symbol) (id time : Int) => (⟨symbol, 100, 1, id, time, false, 0⟩ : Tick)
    let ops : List SequencerOp :=
      [.offer (tick "BTC" 1 1000), .poll_ready, .offer (tick "ETH" 7 500), .flush_all,
        .offer (tick "BTC" 4 3000), .offer (tick "BTC" 2 2000)]
    let s := (run Sequencer.apply (Sequencer.new 250) ops).2
    s.out_of_order_count = 2 ∧ s.gap_count = 2 ∧
      missing (idsOf "BTC" (ticksOffered ops)) = {3} ∧
      overtaken (idsOf "BTC" (ticksOffered ops)) = {2} := by
  intro tick ops s
  have hs : (run Sequencer.apply (Sequencer.new 250) ops).2 = s := rfl
  have h := the_counters_are_functions_of_the_offers 250 ops (by decide +kernel)
  dsimp only at h
  rw [hs] at h
  clear_value s
  refine ⟨h.1.trans (by decide +kernel), h.2.1.trans (by decide +kernel), ?_, ?_⟩
  · decide +kernel
  · decide +kernel

/-! ## One symbol -/

theorem idsOf_self {symbol : Symbol} {offered : List Tick} (h : ∀ t ∈ offered, t.symbol = symbol) :
    idsOf symbol offered = offered.map (·.trade_id) := by
  unfold idsOf
  rw [own_eq_self h]

/-- The gap count is the number of ids that never came just when none came late. After any offers,
polls and flushes of ticks of one symbol, it counts the ids between the first and the largest that
were never offered, if and only if every id above the first was offered before any larger one. -/
theorem gaps_are_missing_ids_iff_none_is_overtaken (watermark_ms : Int) (ops : List SequencerOp)
    (symbol : Symbol) (hs : ∀ t ∈ ticksOffered ops, t.symbol = symbol) :
    let s := (run Sequencer.apply (Sequencer.new watermark_ms) ops).2
    let ids := (ticksOffered ops).map (·.trade_id)
    s.gap_count = (missing ids).card ↔
      ∀ x ∈ ids.head?, ∀ k ∈ ids, x < k → ∀ j ∈ before ids k, j < k := by
  intro s ids
  have hids : idsOf symbol (ticksOffered ops) = ids := idsOf_self hs
  have hgap : s.gap_count = span ids - records ids := by
    have := (run_counts watermark_ms ops).gap_eq {symbol} (by simpa using hs)
    rwa [Finset.sum_singleton, hids] at this
  have hspan := span_eq ids
  rw [← overtaken_eq_empty_iff, ← Finset.card_eq_zero]
  omega

/-- Ids 1, 2, 5 and again 2, in this order: 3 and 4 are missing, and counted. -/
theorem gaps_are_missing_ids_iff_none_is_overtaken_of_four :
    let tick := fun id time : Int => (⟨"BTCUSDT", 100, 1, id, time, false, 0⟩ : Tick)
    let ops : List SequencerOp :=
      [.offer (tick 1 1000), .offer (tick 2 2000), .poll_ready, .offer (tick 5 3000),
        .offer (tick 2 2000)]
    (run Sequencer.apply (Sequencer.new 250) ops).2.gap_count =
      ((missing [1, 2, 5, 2]).card : Int) :=
  (gaps_are_missing_ids_iff_none_is_overtaken 250 _ "BTCUSDT" (by decide +kernel)).mpr
    (by decide +kernel)

/-- Ids 1, 3, 2, all within the watermark: one gap is counted, and no id is missing. -/
theorem a_reordered_id_counts_as_a_gap :
    ¬ ∀ (watermark_ms : Int) (ops : List SequencerOp) (symbol : Symbol),
      (∀ t ∈ ticksOffered ops, t.symbol = symbol) →
      (run Sequencer.apply (Sequencer.new watermark_ms) ops).2.gap_count =
        ((missing ((ticksOffered ops).map (·.trade_id))).card : Int) := by
  intro h
  let tick := fun id time : Int => (⟨"BTCUSDT", 100, 1, id, time, false, 0⟩ : Tick)
  have hgap := h 250 [.offer (tick 1 1000), .offer (tick 3 1200), .offer (tick 2 1100), .poll_ready]
    "BTCUSDT" (by decide +kernel)
  exact absurd hgap (by decide +kernel)

end tick_pipeline.sequencer
