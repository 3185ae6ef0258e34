-- The rolling VWAP of `processing/vwap.py`. The tracker is shared by all
-- symbols; what it holds for one symbol is a window, and a tick touches the
-- window of its own symbol only.
import TickPipeline.Models
import Mathlib.Logic.Function.Basic
import Mathlib.Tactic.SplitIfs

namespace tick_pipeline.vwap

open models

/-! ## The code -/

structure RollingVWAP where
  window_ms : Int
  ticks : Symbol → Option (List Tick)
  sum_pq : Symbol → Option ℚ
  sum_q : Symbol → Option ℚ

def RollingVWAP.new (window_sec : Int) : RollingVWAP :=
  { window_ms := window_sec * 1000
    ticks := fun _ => none
    sum_pq := fun _ => none
    sum_q := fun _ => none }

/-- The ticks inside the window, oldest arrival first, with the two running sums. -/
structure Window where
  dq : List Tick
  sum_pq : ℚ
  sum_q : ℚ

/-- The three dict entries of a symbol, a missing one read as its default. -/
def RollingVWAP.window (v : RollingVWAP) (symbol : Symbol) : Window :=
  { dq := (v.ticks symbol).getD []
    sum_pq := (v.sum_pq symbol).getD 0
    sum_q := (v.sum_q symbol).getD 0 }

/-- The `while` loop of `_evict_expired`. -/
def evict_loop (threshold : Int) : List Tick → ℚ → ℚ → Window
  | [], sum_pq, sum_q => { dq := [], sum_pq, sum_q }
  | old :: rest, sum_pq, sum_q =>
    if old.event_time_ms < threshold then
      evict_loop threshold rest (sum_pq - old.price * old.quantity) (sum_q - old.quantity)
    else
      { dq := old :: rest, sum_pq, sum_q }

def evict_expired (window_ms : Int) (w : Window) (now_ms : Int) : Window :=
  let threshold := now_ms - window_ms
  let w := evict_loop threshold w.dq w.sum_pq w.sum_q
  if w.dq = [] then { w with sum_pq := 0, sum_q := 0 } else w

def Window.value (w : Window) : ℚ := if w.sum_q ≤ 0 then 0 else w.sum_pq / w.sum_q

def RollingVWAP.value (v : RollingVWAP) (symbol : Symbol) : ℚ := (v.window symbol).value

/-- Admits a tick and gives the VWAP of its symbol. -/
def RollingVWAP.update (v : RollingVWAP) (tick : Tick) : ℚ × RollingVWAP :=
  let symbol := tick.symbol
  let dq := (v.ticks symbol).getD []
  let sum_pq := (v.sum_pq symbol).getD 0 + tick.price * tick.quantity
  let sum_q := (v.sum_q symbol).getD 0 + tick.quantity
  let w := evict_expired v.window_ms { dq := dq ++ [tick], sum_pq, sum_q } tick.event_time_ms
  let v := { v with
    ticks := Function.update v.ticks symbol (some w.dq)
    sum_pq := Function.update v.sum_pq symbol (some w.sum_pq)
    sum_q := Function.update v.sum_q symbol (some w.sum_q) }
  (v.value symbol, v)

/-! ## The window of a symbol, as a function of its ticks -/

def Window.empty : Window := { dq := [], sum_pq := 0, sum_q := 0 }

/-- What an update does to the window of the tick's symbol. -/
def Window.admitted (window_ms : Int) (w : Window) (tick : Tick) : Window :=
  evict_expired window_ms
    { dq := w.dq ++ [tick]
      sum_pq := w.sum_pq + tick.price * tick.quantity
      sum_q := w.sum_q + tick.quantity }
    tick.event_time_ms

/-- The window after the ticks of a symbol. -/
def windowOf (window_ms : Int) (ticks : List Tick) : Window :=
  ticks.foldl (Window.admitted window_ms) Window.empty

theorem windowOf_snoc (window_ms : Int) (ticks : List Tick) (t : Tick) :
    windowOf window_ms (ticks ++ [t]) = (windowOf window_ms ticks).admitted window_ms t := by
  simp [windowOf]

@[simp] theorem update_window_ms (v : RollingVWAP) (t : Tick) :
    (v.update t).2.window_ms = v.window_ms := rfl

@[simp] theorem window_new (window_sec : Int) (symbol : Symbol) :
    (RollingVWAP.new window_sec).window symbol = Window.empty := rfl

/-- An update admits the tick to the window of its own symbol. -/
theorem update_own (v : RollingVWAP) (t : Tick) :
    (v.update t).2.window t.symbol = (v.window t.symbol).admitted v.window_ms t := by
  unfold RollingVWAP.update RollingVWAP.window Window.admitted
  simp

theorem update_other (v : RollingVWAP) (t : Tick) {symbol : Symbol} (h : symbol ≠ t.symbol) :
    (v.update t).2.window symbol = v.window symbol := by
  unfold RollingVWAP.update RollingVWAP.window
  simp [h]

theorem update_value (v : RollingVWAP) (t : Tick) :
    (v.update t).1 = ((v.window t.symbol).admitted v.window_ms t).value := by
  rw [← update_own]
  rfl

end tick_pipeline.vwap
