-- The moving averages of `processing/moving_average.py`: an SMA and an EMA for
-- each period, for each symbol. An update touches the averages of its own
-- symbol only.
import TickPipeline.Models
import Mathlib.Logic.Function.Basic
import Mathlib.Data.List.DropRight

namespace tick_pipeline.moving_average

open models

/-! ## The code -/

structure SMA where
  period : Nat
  values : List ℚ
  sum : ℚ

def SMA.new (period : Nat) : SMA := { period, values := [], sum := 0 }

/-- The append is that of a `deque` with `maxlen = period`. -/
def SMA.update (a : SMA) (price : ℚ) : Option ℚ × SMA :=
  let sum := if a.values.length = a.period then a.sum - a.values.headD 0 else a.sum
  let values := (a.values ++ [price]).rtake a.period
  let sum := sum + price
  let a := { a with values, sum }
  if values.length < a.period then (none, a) else (some (sum / a.period), a)

structure EMA where
  period : Nat
  multiplier : ℚ
  value : Option ℚ

def EMA.new (period : Nat) : EMA := { period, multiplier := 2 / (period + 1), value := none }

def EMA.update (a : EMA) (price : ℚ) : ℚ × EMA :=
  let value := match a.value with
    | none => price
    | some value => (price - value) * a.multiplier + value
  (value, { a with value := some value })

/-- `d[key] = value` on a dict in insertion order: in place when the key is there. -/
def set_item {κ α : Type*} [DecidableEq κ] (key : κ) (value : α) : List (κ × α) → List (κ × α)
  | [] => [(key, value)]
  | (k, v) :: rest => if k = key then (key, value) :: rest else (k, v) :: set_item key value rest

/-- The averages of one symbol: the two dicts from a period to its average. -/
structure Averages where
  sma : Nat → SMA
  ema : Nat → EMA

/-- The two `setdefault` values: a fresh average for each period. -/
def Averages.new : Averages := { sma := SMA.new, ema := EMA.new }

/-- The body of the loop over the periods. -/
def update_period (price : ℚ) (out : MovingAverages × Averages) (p : Nat) :
    MovingAverages × Averages :=
  let (out, avgs) := out
  let (sma, sma_p) := (avgs.sma p).update price
  let out := set_item (.sma p) sma out
  let (ema, ema_p) := (avgs.ema p).update price
  let out := set_item (.ema p) (some ema) out
  (out, { sma := Function.update avgs.sma p sma_p, ema := Function.update avgs.ema p ema_p })

def Averages.update (periods : List Nat) (avgs : Averages) (price : ℚ) : MovingAverages × Averages :=
  periods.foldl (update_period price) ([], avgs)

/-- The dicts `_sma` and `_ema` get their entries together, so one dict of pairs stands for
both. -/
structure MovingAverageTracker where
  periods : List Nat
  averages_ : Symbol → Option Averages

def MovingAverageTracker.new (periods : List Nat) : MovingAverageTracker :=
  { periods, averages_ := fun _ => none }

def MovingAverageTracker.averages (m : MovingAverageTracker) (symbol : Symbol) : Averages :=
  (m.averages_ symbol).getD Averages.new

def MovingAverageTracker.update (m : MovingAverageTracker) (symbol : Symbol) (price : ℚ) :
    MovingAverages × MovingAverageTracker :=
  let (out, avgs) := (m.averages symbol).update m.periods price
  (out, { m with averages_ := Function.update m.averages_ symbol (some avgs) })

/-! ## The averages of a symbol, as a function of its ticks -/

def averagesOf (periods : List Nat) (ticks : List Tick) : Averages :=
  ticks.foldl (fun avgs t => (avgs.update periods t.price).2) Averages.new

theorem averagesOf_snoc (periods : List Nat) (ticks : List Tick) (t : Tick) :
    averagesOf periods (ticks ++ [t]) = ((averagesOf periods ticks).update periods t.price).2 := by
  simp [averagesOf]

@[simp] theorem update_periods (m : MovingAverageTracker) (symbol : Symbol) (price : ℚ) :
    (m.update symbol price).2.periods = m.periods := rfl

@[simp] theorem averages_new (periods : List Nat) (symbol : Symbol) :
    (MovingAverageTracker.new periods).averages symbol = Averages.new := rfl

theorem update_out (m : MovingAverageTracker) (symbol : Symbol) (price : ℚ) :
    (m.update symbol price).1 = ((m.averages symbol).update m.periods price).1 := rfl

theorem update_own (m : MovingAverageTracker) (symbol : Symbol) (price : ℚ) :
    (m.update symbol price).2.averages symbol = ((m.averages symbol).update m.periods price).2 := by
  simp [MovingAverageTracker.update, MovingAverageTracker.averages]

theorem update_other (m : MovingAverageTracker) {symbol other : Symbol} (price : ℚ)
    (h : other ≠ symbol) : (m.update symbol price).2.averages other = m.averages other := by
  simp [MovingAverageTracker.update, MovingAverageTracker.averages, h]

end tick_pipeline.moving_average
