-- What the rolling VWAP keeps when ticks come in any order: the window of a
-- symbol is always a run of its last ticks, and its value an average over them.
-- But the eviction looks at the oldest arrival only, so an expired tick stays
-- while one that has not expired stands in front of it.
import TickPipeline.VwapLaws
import TickPipeline.Lib.WeightedMean

namespace tick_pipeline.vwap

open runs models sliding_window weighted_mean
open candles (own own_snoc own_symbol)

/-! ## The window as a run of ticks -/

theorem windowOf_suffix (window_ms : Int) (ticks : List Tick) :
    (windowOf window_ms ticks).dq <:+ ticks := by
  rw [windowOf_dq]
  exact slide_suffix ticks

/-- The tick just admitted is not expired by its own time. -/
theorem windowOf_getLast? {window_ms : Int} (h0 : 0 ≤ window_ms) (ticks : List Tick) (t : Tick) :
    (windowOf window_ms (ticks ++ [t])).dq.getLast? = some t := by
  rw [windowOf_dq]
  exact slide_getLast? ticks (by omega)

/-- Over ticks with quantities, the average is a division. -/
theorem naiveVwap_eq {ticks : List Tick} (hq : ∀ u ∈ ticks, 0 < u.quantity) (hne : ticks ≠ []) :
    0 < amount ticks ∧ naiveVwap ticks = turnover ticks / amount ticks := by
  have hpos : 0 < amount ticks := total_pos hq hne
  refine ⟨hpos, ?_⟩
  unfold naiveVwap
  rw [if_neg (not_le.mpr hpos)]

theorem le_naiveVwap {ticks : List Tick} {lo : ℚ} (hq : ∀ u ∈ ticks, 0 < u.quantity)
    (hne : ticks ≠ []) (hlo : ∀ u ∈ ticks, lo ≤ u.price) : lo ≤ naiveVwap ticks := by
  rw [(naiveVwap_eq hq hne).2]
  exact le_mean hq hne hlo

theorem naiveVwap_le {ticks : List Tick} {hi : ℚ} (hq : ∀ u ∈ ticks, 0 < u.quantity)
    (hne : ticks ≠ []) (hhi : ∀ u ∈ ticks, u.price ≤ hi) : naiveVwap ticks ≤ hi := by
  rw [(naiveVwap_eq hq hne).2]
  exact mean_le hq hne hhi

/-- The VWAP is an average of the last ticks. After any ticks of any symbols in any order, the
update with `t` leaves, for the symbol of `t`, a window that ends with `t` and is a run of the last
ticks of the symbol, with the sums of just these ticks; the sum of the quantities is positive, and
the value given is the quotient of the sums and lies between the prices of the window. -/
theorem the_vwap_is_an_average_of_the_last_ticks (window_sec : Int) (hW : 0 ≤ window_sec)
    (before : List Tick) (t : Tick) (hq : ∀ u ∈ before ++ [t], 0 < u.quantity) :
    let r := (run RollingVWAP.update (RollingVWAP.new window_sec) before).2.update t
    let w := r.2.window t.symbol
    (w.dq <:+ own t.symbol (before ++ [t]) ∧ w.dq.getLast? = some t) ∧
      (w.sum_pq = (w.dq.map (fun u => u.price * u.quantity)).sum ∧
        w.sum_q = (w.dq.map (fun u => u.quantity)).sum) ∧
      (0 < w.sum_q ∧ r.1 = w.sum_pq / w.sum_q) ∧
      (∃ lo ∈ w.dq, (∀ u ∈ w.dq, lo.price ≤ u.price) ∧ lo.price ≤ r.1) ∧
      ∃ hi ∈ w.dq, (∀ u ∈ w.dq, u.price ≤ hi.price) ∧ r.1 ≤ hi.price := by
  intro r w
  have hown : own t.symbol (before ++ [t]) = own t.symbol before ++ [t] := by
    rw [own_snoc, if_pos rfl]
  have hw : w = windowOf (window_sec * 1000) (own t.symbol (before ++ [t])) := by
    have := run_window window_sec (before ++ [t]) t.symbol
    rwa [run_snoc] at this
  have hvalue : r.1 = naiveVwap w.dq := by
    rw [hw]
    exact run_update_value window_sec before t
  have hexact : w.Exact := hw ▸ windowOf_exact _ _
  have hsuffix : w.dq <:+ own t.symbol (before ++ [t]) := hw ▸ windowOf_suffix _ _
  have hlast : w.dq.getLast? = some t := by
    rw [hw, hown]
    exact windowOf_getLast? (by omega) _ t
  have hne : w.dq ≠ [] := by
    intro hnil
    simp [hnil] at hlast
  have hwq : ∀ u ∈ w.dq, 0 < u.quantity := fun u hu =>
    hq u (List.mem_filter.mp (hsuffix.subset hu)).1
  obtain ⟨hpos, hdiv⟩ := naiveVwap_eq hwq hne
  refine ⟨⟨hsuffix, hlast⟩, ⟨hexact.sum_pq, hexact.sum_q⟩, ⟨?_, ?_⟩, ?_, ?_⟩
  · rw [hexact.sum_q]
    exact hpos
  · rw [hvalue, hdiv, hexact.sum_pq, hexact.sum_q]
  · obtain ⟨lo, hlo, hmin⟩ := exists_least (·.price) hne
    exact ⟨lo, hlo, hmin, hvalue ▸ le_naiveVwap hwq hne hmin⟩
  · obtain ⟨hi, hhi, hmax⟩ := exists_greatest (·.price) hne
    exact ⟨hi, hhi, hmax, hvalue ▸ naiveVwap_le hwq hne hmax⟩

/-- Two symbols, and a last tick that is late by more than the window of 2 seconds: it stays
with the tick before it. -/
theorem the_vwap_is_an_average_of_the_last_ticks_of_four :
    let btc := fun price quantity time : Int => (⟨"BTC", price, quantity, 0, time, false, 0⟩ : Tick)
    let eth := fun price time : Int => (⟨"ETH", price, 1, 0, time, false, 0⟩ : Tick)
    let before := [btc 90 1 1000, btc 10 3 9000, eth 70 9000]
    let r := (run RollingVWAP.update (RollingVWAP.new 2) before).2.update (btc 30 1 2000)
    (r.2.window "BTC").dq = [btc 10 3 9000, btc 30 1 2000] ∧ 0 < (r.2.window "BTC").sum_q ∧
      r.1 = 15 := by
  intro btc eth before r
  have hr : (run RollingVWAP.update (RollingVWAP.new 2) before).2.update (btc 30 1 2000) = r := rfl
  have hdq : (r.2.window "BTC").dq = [btc 10 3 9000, btc 30 1 2000] := by decide +kernel
  have h := the_vwap_is_an_average_of_the_last_ticks 2 (by decide) before (btc 30 1 2000)
    (by decide +kernel)
  dsimp only at h
  rw [hr] at h
  clear_value r
  obtain ⟨-, ⟨hpq, hsum⟩, ⟨hpos, hdiv⟩, -⟩ := h
  rw [show (btc 30 1 2000).symbol = "BTC" from rfl] at hpq hsum hpos hdiv
  refine ⟨hdq, hpos, ?_⟩
  rw [hdiv, hpq, hsum, hdq]
  decide +kernel

/-! ## Expired ticks -/

/-- The largest event time of some ticks. -/
def latest (ticks : List Tick) : Option Int := (ticks.map (·.event_time_ms)).max?

/-- With the ticks of a symbol in any order, the window is what the latest of them leaves. -/
theorem windowOf_dq_latest {window_ms M : Int} (h0 : 0 ≤ window_ms) {ticks : List Tick}
    (hM : latest ticks = some M) :
    (windowOf window_ms ticks).dq = expire Tick.event_time_ms (M - window_ms) ticks := by
  obtain ⟨hmem, hle⟩ := List.max?_eq_some_iff.mp hM
  obtain ⟨t, ht, htM⟩ := List.mem_map.mp hmem
  rw [windowOf_dq]
  refine slide_eq_expire (fun u _ => by omega) ?_ ⟨t, ht, by omega⟩
  intro u hu
  have := hle u.event_time_ms (List.mem_map_of_mem hu)
  omega

/-- Expired ticks are out of the window just when none came behind one that is not expired. After
any ticks of any symbols in any order, the running sums of a symbol are those of the ticks in its
window. All of them have an event time from the latest one less the window on, if and only if no
tick of the symbol that lies before that point came after one that does not. -/
theorem expired_ticks_are_out_iff_none_came_behind_a_live_one (window_sec : Int)
    (hW : 0 ≤ window_sec) (ticks : List Tick) (symbol : Symbol) (M : Int)
    (hM : latest (own symbol ticks) = some M) :
    let w := (run RollingVWAP.update (RollingVWAP.new window_sec) ticks).2.window symbol
    (w.sum_pq = turnover w.dq ∧ w.sum_q = amount w.dq) ∧
      ((∀ u ∈ w.dq, M - 1000 * window_sec ≤ u.event_time_ms) ↔
        (own symbol ticks).Pairwise (fun t u =>
          u.event_time_ms < M - 1000 * window_sec → t.event_time_ms < M - 1000 * window_sec)) := by
  intro w
  have hw : w = windowOf (window_sec * 1000) (own symbol ticks) := run_window window_sec ticks symbol
  have hexact : w.Exact := hw ▸ windowOf_exact _ _
  refine ⟨⟨hexact.sum_pq, hexact.sum_q⟩, ?_⟩
  rw [hw, windowOf_dq_latest (by omega) hM, mul_comm window_sec]
  exact expire_all_iff _ _

/-- The run of `test_ticks_outside_window_are_evicted`. -/
theorem expired_ticks_are_out_iff_none_came_behind_a_live_one_of_two :
    let tick := fun price time : Int => (⟨"BTCUSDT", price, 1, 1, time, false, 0⟩ : Tick)
    let ticks := [tick 100 0, tick 200 20000]
    let w := (run RollingVWAP.update (RollingVWAP.new 10) ticks).2.window "BTCUSDT"
    ∀ u ∈ w.dq, 20000 - 1000 * 10 ≤ u.event_time_ms := by
  intro tick ticks
  exact (expired_ticks_are_out_iff_none_came_behind_a_live_one 10 (by decide) ticks "BTCUSDT" 20000
    (by decide +kernel)).2.mpr (by decide +kernel)

/-- A tick that comes 20 seconds late, with a window of 10: nothing takes it out. -/
theorem a_late_tick_stays_in_the_window :
    ¬ ∀ (window_sec : Int) (ticks : List Tick) (symbol : Symbol) (M : Int), 0 ≤ window_sec →
      latest (own symbol ticks) = some M →
      ∀ u ∈ ((run RollingVWAP.update (RollingVWAP.new window_sec) ticks).2.window symbol).dq,
        M - 1000 * window_sec ≤ u.event_time_ms := by
  intro h
  let tick := fun price time : Int => (⟨"BTCUSDT", price, 1, 1, time, false, 0⟩ : Tick)
  have hlate := h 10 [tick 200 20000, tick 100 0] "BTCUSDT" 20000 (by decide) (by decide +kernel)
    (tick 100 0) (by decide +kernel)
  exact absurd hlate (by decide +kernel)

end tick_pipeline.vwap
