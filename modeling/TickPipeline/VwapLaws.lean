-- The law of the rolling VWAP: on ticks in order, what `update` returns is the
-- average over the window, as if it were worked out afresh for each tick.
import TickPipeline.Vwap
import TickPipeline.CandleStore
import TickPipeline.Lib.Runs
import TickPipeline.Lib.SlidingWindow
import Mathlib.Algebra.BigOperators.Group.List.Basic
import Mathlib.Tactic.Ring

namespace tick_pipeline.vwap

open runs models sliding_window
open candles (own own_snoc own_append)

/-! ## The average over a list of ticks -/

/-- The sum of price times quantity. -/
def turnover (ticks : List Tick) : ℚ := (ticks.map (fun t => t.price * t.quantity)).sum

/-- The sum of the quantities. -/
def amount (ticks : List Tick) : ℚ := (ticks.map (·.quantity)).sum

/-- The volume-weighted average price of a list of ticks. -/
def naiveVwap (ticks : List Tick) : ℚ :=
  if amount ticks ≤ 0 then 0 else turnover ticks / amount ticks

@[simp] theorem turnover_cons (t : Tick) (ticks : List Tick) :
    turnover (t :: ticks) = t.price * t.quantity + turnover ticks := List.sum_cons

@[simp] theorem amount_cons (t : Tick) (ticks : List Tick) :
    amount (t :: ticks) = t.quantity + amount ticks := List.sum_cons

theorem turnover_snoc (ticks : List Tick) (t : Tick) :
    turnover (ticks ++ [t]) = turnover ticks + t.price * t.quantity := by
  simp [turnover]

theorem amount_snoc (ticks : List Tick) (t : Tick) :
    amount (ticks ++ [t]) = amount ticks + t.quantity := by
  simp [amount]

/-! ## The running sums -/

/-- The running sums of a window are the sums of its ticks. -/
structure Window.Exact (w : Window) : Prop where
  sum_pq : w.sum_pq = turnover w.dq
  sum_q : w.sum_q = amount w.dq

theorem Window.Exact.value {w : Window} (h : w.Exact) : w.value = naiveVwap w.dq := by
  unfold Window.value naiveVwap
  rw [h.sum_pq, h.sum_q]

theorem evict_loop_dq (threshold : Int) (dq : List Tick) (sum_pq sum_q : ℚ) :
    (evict_loop threshold dq sum_pq sum_q).dq = expire Tick.event_time_ms threshold dq := by
  unfold expire
  fun_induction evict_loop threshold dq sum_pq sum_q with
  | case1 => rfl
  | case2 sum_pq sum_q old rest h ih =>
    rw [List.dropWhile_cons_of_pos (by simpa using h)]
    exact ih
  | case3 sum_pq sum_q old rest h => rw [List.dropWhile_cons_of_neg (by simpa using h)]

/-- What the loop subtracts is what it drops. -/
theorem evict_loop_exact (threshold : Int) (dq : List Tick) :
    (evict_loop threshold dq (turnover dq) (amount dq)).Exact := by
  induction dq with
  | nil => exact ⟨rfl, rfl⟩
  | cons old rest ih =>
    unfold evict_loop
    split
    · rw [turnover_cons, amount_cons, add_sub_cancel_left, add_sub_cancel_left]
      exact ih
    · exact ⟨rfl, rfl⟩

theorem evict_expired_dq (window_ms : Int) (w : Window) (now_ms : Int) :
    (evict_expired window_ms w now_ms).dq =
      expire Tick.event_time_ms (now_ms - window_ms) w.dq := by
  rw [← evict_loop_dq _ _ w.sum_pq w.sum_q]
  unfold evict_expired
  dsimp only
  split <;> rfl

/-- The eviction keeps the sums, and its reset finds them at 0 already. -/
theorem evict_expired_exact (window_ms : Int) {w : Window} (h : w.Exact) (now_ms : Int) :
    (evict_expired window_ms w now_ms).Exact := by
  have hloop := evict_loop_exact (now_ms - window_ms) w.dq
  rw [← h.sum_pq, ← h.sum_q] at hloop
  unfold evict_expired
  dsimp only
  split
  · rename_i hnil
    exact ⟨by rw [hnil]; rfl, by rw [hnil]; rfl⟩
  · exact hloop

theorem admitted_exact (window_ms : Int) {w : Window} (h : w.Exact) (t : Tick) :
    (w.admitted window_ms t).Exact := by
  refine evict_expired_exact window_ms ⟨?_, ?_⟩ t.event_time_ms
  · rw [turnover_snoc, h.sum_pq]
  · rw [amount_snoc, h.sum_q]

/-- The sums are those of the window after any ticks, in any order. -/
theorem windowOf_exact (window_ms : Int) (ticks : List Tick) : (windowOf window_ms ticks).Exact := by
  induction ticks using List.reverseRecOn with
  | nil => exact ⟨rfl, rfl⟩
  | append_singleton ticks t ih =>
    rw [windowOf_snoc]
    exact admitted_exact window_ms ih t

theorem windowOf_dq (window_ms : Int) (ticks : List Tick) :
    (windowOf window_ms ticks).dq =
      slide Tick.event_time_ms (fun t => t.event_time_ms - window_ms) ticks := by
  induction ticks using List.reverseRecOn with
  | nil => rfl
  | append_singleton ticks t ih =>
    rw [windowOf_snoc, slide_snoc, ← ih]
    exact evict_expired_dq window_ms _ t.event_time_ms

/-! ## Runs of updates -/

theorem run_window_ms (v : RollingVWAP) (ticks : List Tick) :
    (run RollingVWAP.update v ticks).2.window_ms = v.window_ms :=
  run_invariant RollingVWAP.update (P := fun u => u.window_ms = v.window_ms)
    (fun _ _ h => h) rfl ticks

/-- What a run of updates holds for a symbol is the window of its own ticks. -/
theorem run_window (window_sec : Int) (ticks : List Tick) (symbol : Symbol) :
    (run RollingVWAP.update (RollingVWAP.new window_sec) ticks).2.window symbol =
      windowOf (window_sec * 1000) (own symbol ticks) := by
  induction ticks using List.reverseRecOn with
  | nil => rfl
  | append_singleton ticks t ih =>
    rw [run_snoc, own_snoc]
    by_cases hs : t.symbol = symbol
    · subst hs
      rw [if_pos rfl, update_own, ih, run_window_ms, windowOf_snoc]
      rfl
    · rw [if_neg hs, List.append_nil, update_other _ _ (Ne.symm hs), ih]

theorem run_update_value (window_sec : Int) (before : List Tick) (t : Tick) :
    ((run RollingVWAP.update (RollingVWAP.new window_sec) before).2.update t).1 =
      naiveVwap (windowOf (window_sec * 1000) (own t.symbol (before ++ [t]))).dq := by
  rw [update_value, run_window, run_window_ms, own_snoc, if_pos rfl, windowOf_snoc]
  exact (admitted_exact _ (windowOf_exact _ _) t).value

/-- The ticks of the symbol of `t`, up to `t`, that lie in the window that ends with it. -/
def inWindow (window_sec : Int) (before : List Tick) (t : Tick) : List Tick :=
  (own t.symbol (before ++ [t])).filter
    (fun u => t.event_time_ms - 1000 * window_sec ≤ u.event_time_ms)

/-- The incremental VWAP is the naive one: after any ticks of any symbols, of which those of
the symbol of `t` came in order, the update with `t` gives the average over the window. -/
theorem the_incremental_vwap_is_the_naive_one (window_sec : Int) (before : List Tick) (t : Tick)
    (hordered : (own t.symbol (before ++ [t])).Pairwise
      (fun a b => a.event_time_ms ≤ b.event_time_ms)) :
    ((run RollingVWAP.update (RollingVWAP.new window_sec) before).2.update t).1 =
      naiveVwap (inWindow window_sec before t) := by
  rw [run_update_value, windowOf_dq]
  unfold inWindow
  rw [own_snoc, if_pos rfl] at hordered ⊢
  rw [slide_ordered (fun a b hab => sub_le_sub_right hab _) hordered, mul_comm window_sec]

/-- Two symbols in turn, with a window of 2 seconds: the first BTC tick has left it. -/
theorem the_incremental_vwap_is_the_naive_one_of_three :
    let btc := fun price time : Int =>
      (⟨"BTC", price, 1, 0, time, false, 0⟩ : Tick)
    let eth := fun price time : Int =>
      (⟨"ETH", price, 1, 0, time, false, 0⟩ : Tick)
    let before := [btc 7 1000, eth 90 5000, btc 10 2000]
    ((run RollingVWAP.update (RollingVWAP.new 2) before).2.update (btc 20 4000)).1 = 15 ∧
      inWindow 2 before (btc 20 4000) = [btc 10 2000, btc 20 4000] := by
  intro btc eth before
  have hin : inWindow 2 before (btc 20 4000) = [btc 10 2000, btc 20 4000] := by decide +kernel
  refine ⟨?_, hin⟩
  rw [the_incremental_vwap_is_the_naive_one 2 before (btc 20 4000) (by decide +kernel), hin]
  decide +kernel

end tick_pipeline.vwap
