-- The laws of the moving averages: what an update gives is, for each period, the
-- mean of the last prices of the symbol and the exponential average of them all.
-- The periods are meant as a set. One that stands more than once in the tuple
-- has one average, and each price goes into it once for each time.
import TickPipeline.MovingAverage
import TickPipeline.Lib.Runs
import TickPipeline.Lib.Smoothing
import TickPipeline.Lib.StrictMaxima

namespace tick_pipeline.moving_average

open runs models smoothing weighted_mean last_n

/-! ## The definitions -/

/-- The mean of the last `p` prices, once there are so many. -/
def meanOfLast (p : Nat) (prices : List ℚ) : Option ℚ :=
  if prices.length < p then none else some ((prices.rtake p).sum / p)

/-- The share of a new price in the exponential average. -/
def shareOf (p : Nat) : ℚ := 2 / (p + 1)

/-- Each price `k` times in a row. -/
def taken (k : Nat) (prices : List ℚ) : List ℚ := prices.flatMap (List.replicate k)

theorem taken_snoc (k : Nat) (prices : List ℚ) (price : ℚ) :
    taken k (prices ++ [price]) = taken k prices ++ List.replicate k price := by
  simp [taken]

theorem taken_one (prices : List ℚ) : taken 1 prices = prices := by
  induction prices with
  | nil => rfl
  | cons price prices ih => exact congrArg (price :: ·) ih

theorem mem_taken {k : Nat} (hk : 1 ≤ k) {prices : List ℚ} {price : ℚ} :
    price ∈ taken k prices ↔ price ∈ prices := by
  simp [taken, List.mem_replicate, Nat.one_le_iff_ne_zero.mp hk]

/-! ## One average -/

/-- What an update of the SMA gives, read off from the state it leaves. -/
def SMA.shown (a : SMA) : Option ℚ :=
  if a.values.length < a.period then none else some (a.sum / a.period)

/-- The state of an SMA after some prices. -/
structure SMA.After (p : Nat) (prices : List ℚ) (a : SMA) : Prop where
  period_eq : a.period = p
  values_eq : a.values = prices.rtake p
  sum_eq : a.sum = a.values.sum

theorem SMA.update_fst (a : SMA) (price : ℚ) : (a.update price).1 = (a.update price).2.shown := by
  unfold SMA.update SMA.shown
  dsimp only
  split <;> simp_all

theorem SMA.after_new (p : Nat) : SMA.After p [] (SMA.new p) := by
  refine ⟨rfl, ?_, rfl⟩
  simp [SMA.new, List.rtake]

/-- What the sum loses is what the deque lets go. -/
theorem SMA.After.update {p : Nat} (hp : 1 ≤ p) {prices : List ℚ} {a : SMA}
    (h : SMA.After p prices a) (price : ℚ) :
    SMA.After p (prices ++ [price]) (a.update price).2 := by
  have hvalues : (a.update price).2.values = (a.values ++ [price]).rtake p := by
    unfold SMA.update
    dsimp only
    rw [h.period_eq]
    split <;> rfl
  have hsum : (a.update price).2.sum =
      (if a.values.length = p then a.sum - a.values.headD 0 else a.sum) + price := by
    unfold SMA.update
    dsimp only
    rw [h.period_eq]
    split <;> rfl
  refine ⟨?_, ?_, ?_⟩
  · unfold SMA.update
    dsimp only
    split <;> exact h.period_eq
  · rw [hvalues, h.values_eq, rtake_rtake_concat]
  · rw [hsum, hvalues, h.sum_eq]
    by_cases hfull : a.values.length = p
    · cases hvs : a.values with
      | nil =>
        rw [hvs, List.length_nil] at hfull
        omega
      | cons oldest rest =>
        have hlen : rest.length + 1 = p := by simpa [hvs] using hfull
        have hdrop : (oldest :: rest ++ [price]).rtake p = rest ++ [price] := by
          simp [List.rtake, ← hlen]
        rw [if_pos (by simpa [hvs] using hfull), hdrop]
        simp
    · have hle : a.values.length ≤ p := by
        rw [h.values_eq, List.rtake, List.length_drop]
        omega
      rw [if_neg hfull, rtake_of_length_le (by simp; omega)]
      simp

theorem SMA.After.shown {p : Nat} {prices : List ℚ} {a : SMA} (h : SMA.After p prices a) :
    a.shown = meanOfLast p prices := by
  have hlen : (prices.rtake p).length < p ↔ prices.length < p := by
    rw [List.rtake, List.length_drop]
    omega
  unfold SMA.shown meanOfLast
  rw [h.sum_eq, h.values_eq, h.period_eq]
  by_cases hlt : prices.length < p
  · rw [if_pos (hlen.mpr hlt), if_pos hlt]
  · rw [if_neg (mt hlen.mp hlt), if_neg hlt]

/-- The state of an EMA after some prices. -/
structure EMA.After (p : Nat) (prices : List ℚ) (a : EMA) : Prop where
  multiplier_eq : a.multiplier = shareOf p
  value_eq : a.value = smoothed (shareOf p) prices

theorem EMA.after_new (p : Nat) : EMA.After p [] (EMA.new p) := ⟨rfl, rfl⟩

theorem EMA.update_fst (a : EMA) (price : ℚ) : some (a.update price).1 = (a.update price).2.value :=
  rfl

theorem EMA.After.update {p : Nat} {prices : List ℚ} {a : EMA} (h : EMA.After p prices a)
    (price : ℚ) : EMA.After p (prices ++ [price]) (a.update price).2 := by
  refine ⟨h.multiplier_eq, ?_⟩
  rw [smoothed_snoc, ← h.value_eq]
  unfold EMA.update smooth
  dsimp only
  rw [h.multiplier_eq]
  rcases a.value with _ | v
  · rfl
  · simp only [Option.some.injEq]
    ring

/-! ## The dict that an update gives -/

section dict

variable {κ α : Type*} [DecidableEq κ]

theorem lookup_set_item_self (key : κ) (value : α) (d : List (κ × α)) :
    (set_item key value d).lookup key = some value := by
  induction d with
  | nil => simp [set_item]
  | cons e d ih =>
    obtain ⟨k, v⟩ := e
    unfold set_item
    split
    · simp
    · rename_i hk
      have hne : (key == k) = false := by simpa using Ne.symm hk
      simp only [List.lookup_cons, hne, ih]

theorem lookup_set_item_other {key other : κ} (h : other ≠ key) (value : α) (d : List (κ × α)) :
    (set_item key value d).lookup other = d.lookup other := by
  have hne : (other == key) = false := by simpa using h
  induction d with
  | nil => simp only [set_item, List.lookup_cons, hne]
  | cons e d ih =>
    obtain ⟨k, v⟩ := e
    unfold set_item
    split
    · rename_i hk
      subst hk
      simp only [List.lookup_cons, hne]
    · simp only [List.lookup_cons, ih]

end dict

/-- The averages of a symbol after some prices: one price for each time the period stands in the
tuple. -/
structure Averages.After (count : Nat → Nat) (prices : List ℚ) (avgs : Averages) : Prop where
  sma : ∀ p, 1 ≤ p → SMA.After p (taken (count p) prices) (avgs.sma p)
  ema : ∀ p, EMA.After p (taken (count p) prices) (avgs.ema p)

/-- What the loop over the periods keeps: `ps` are done, and the dict shows what their averages
stand at. -/
structure Loop (count : Nat → Nat) (prices : List ℚ) (price : ℚ) (ps : List Nat)
    (out : MovingAverages × Averages) : Prop where
  sma : ∀ p, 1 ≤ p →
    SMA.After p (taken (count p) prices ++ List.replicate (ps.count p) price) (out.2.sma p)
  ema : ∀ p, EMA.After p (taken (count p) prices ++ List.replicate (ps.count p) price) (out.2.ema p)
  sma_out : ∀ p ∈ ps, out.1.lookup (.sma p) = some (out.2.sma p).shown
  ema_out : ∀ p ∈ ps, out.1.lookup (.ema p) = some (out.2.ema p).value

theorem Loop.step {count : Nat → Nat} {prices : List ℚ} {price : ℚ} {ps : List Nat}
    {out : MovingAverages × Averages} (h : Loop count prices price ps out) (p : Nat) :
    Loop count prices price (ps ++ [p]) (update_period price out p) := by
  obtain ⟨dict, avgs⟩ := out
  have hcount : ∀ q, (ps ++ [p]).count q = ps.count q + if p = q then 1 else 0 := by
    intro q
    simp [List.count_append, List.count_singleton]
  refine ⟨?_, ?_, ?_, ?_⟩
  · intro q hq
    have hafter := h.sma q hq
    rw [hcount]
    by_cases hqp : q = p
    · subst hqp
      simpa [update_period, List.replicate_succ'] using hafter.update hq price
    · simpa [update_period, hqp, Ne.symm hqp] using hafter
  · intro q
    have hafter := h.ema q
    rw [hcount]
    by_cases hqp : q = p
    · subst hqp
      simpa [update_period, List.replicate_succ'] using hafter.update price
    · simpa [update_period, hqp, Ne.symm hqp] using hafter
  · intro q hq
    simp only [update_period]
    rw [lookup_set_item_other (by simp)]
    by_cases hqp : q = p
    · subst hqp
      rw [lookup_set_item_self, Function.update_self, SMA.update_fst]
    · have hmem : q ∈ ps := by simpa [hqp] using hq
      rw [lookup_set_item_other (by simp [hqp]), Function.update_of_ne hqp]
      exact h.sma_out q hmem
  · intro q hq
    simp only [update_period]
    by_cases hqp : q = p
    · subst hqp
      rw [lookup_set_item_self, Function.update_self, EMA.update_fst]
    · have hmem : q ∈ ps := by simpa [hqp] using hq
      rw [lookup_set_item_other (by simp [hqp]), lookup_set_item_other (by simp),
        Function.update_of_ne hqp]
      exact h.ema_out q hmem

theorem update_loop (periods : List Nat) {prices : List ℚ} {avgs : Averages}
    (h : avgs.After periods.count prices) (price : ℚ) :
    Loop periods.count prices price periods (avgs.update periods price) := by
  have hstart : Loop periods.count prices price [] ([], avgs) :=
    ⟨fun p hp => by simpa using h.sma p hp, fun p => by simpa using h.ema p, by simp, by simp⟩
  have hall : ∀ ps, Loop periods.count prices price ps (ps.foldl (update_period price) ([], avgs)) := by
    intro ps
    induction ps using List.reverseRecOn with
    | nil => exact hstart
    | append_singleton ps p ih =>
      rw [List.foldl_append]
      exact ih.step p
  exact hall periods

theorem Averages.After.update (periods : List Nat) {prices : List ℚ} {avgs : Averages}
    (h : avgs.After periods.count prices) (price : ℚ) :
    (avgs.update periods price).2.After periods.count (prices ++ [price]) := by
  have hloop := update_loop periods h price
  refine ⟨fun p hp => ?_, fun p => ?_⟩
  · rw [taken_snoc]
    exact hloop.sma p hp
  · rw [taken_snoc]
    exact hloop.ema p

/-! ## Runs of updates -/

/-- An update as one call. -/
def MovingAverageTracker.apply (m : MovingAverageTracker) (u : Symbol × ℚ) :
    MovingAverages × MovingAverageTracker := m.update u.1 u.2

/-- The prices of a symbol, in order. -/
def pricesOf (symbol : Symbol) (updates : List (Symbol × ℚ)) : List ℚ :=
  (updates.filter (fun u => u.1 = symbol)).map (·.2)

theorem pricesOf_snoc (symbol : Symbol) (updates : List (Symbol × ℚ)) (u : Symbol × ℚ) :
    pricesOf symbol (updates ++ [u]) =
      pricesOf symbol updates ++ if u.1 = symbol then [u.2] else [] := by
  unfold pricesOf
  rw [List.filter_append, List.map_append]
  by_cases h : u.1 = symbol <;> simp [h]

theorem run_periods (periods : List Nat) (updates : List (Symbol × ℚ)) :
    (run MovingAverageTracker.apply (MovingAverageTracker.new periods) updates).2.periods = periods :=
  run_invariant MovingAverageTracker.apply (P := fun m => m.periods = periods) (fun _ _ h => h) rfl
    updates

/-- What a run of updates keeps for a symbol are the averages of its own prices. -/
theorem run_averages (periods : List Nat) (updates : List (Symbol × ℚ)) (symbol : Symbol) :
    ((run MovingAverageTracker.apply (MovingAverageTracker.new periods) updates).2.averages
      symbol).After periods.count (pricesOf symbol updates) := by
  induction updates using List.reverseRecOn with
  | nil =>
    refine ⟨fun p _ => ?_, fun p => ?_⟩
    · exact SMA.after_new p
    · exact EMA.after_new p
  | append_singleton updates u ih =>
    rw [run_snoc, pricesOf_snoc]
    by_cases hs : u.1 = symbol
    · subst hs
      rw [if_pos rfl, MovingAverageTracker.apply, update_own, run_periods]
      exact ih.update periods u.2
    · rw [if_neg hs, List.append_nil, MovingAverageTracker.apply, update_other _ _ (Ne.symm hs)]
      exact ih

theorem shareOf_bounds {p : Nat} (hp : 1 ≤ p) : 0 ≤ shareOf p ∧ shareOf p ≤ 1 := by
  have hpq : (1 : ℚ) ≤ p := by exact_mod_cast hp
  unfold shareOf
  refine ⟨by positivity, ?_⟩
  rw [div_le_one (by linarith)]
  linarith

/-- The moving averages are what their definitions say. After any updates of any symbols, the update
of a symbol gives for each period `p` the mean of the last `p` prices of the symbol, or `None`
while there are fewer, and their exponential average, which lies between the smallest and the
largest of them. A period that stands `k` times in the tuple sees each price `k` times in a row;
so for one that stands there once these are the prices themselves. -/
theorem the_averages_are_what_their_definitions_say (periods : List Nat)
    (hperiods : ∀ p ∈ periods, 1 ≤ p) (before : List (Symbol × ℚ)) (symbol : Symbol) (price : ℚ) :
    let m := (run MovingAverageTracker.apply (MovingAverageTracker.new periods) before).2
    let out := (m.update symbol price).1
    let xs := pricesOf symbol (before ++ [(symbol, price)])
    ∀ p ∈ periods,
      let ys := taken (periods.count p) xs
      out.lookup (.sma p) = some (meanOfLast p ys) ∧
        (∃ ema, out.lookup (.ema p) = some (some ema) ∧ ema = closedForm (2 / ((p : ℚ) + 1)) ys ∧
          (∃ lo ∈ xs, (∀ x ∈ xs, lo ≤ x) ∧ lo ≤ ema) ∧ ∃ hi ∈ xs, (∀ x ∈ xs, x ≤ hi) ∧ ema ≤ hi) ∧
        (periods.count p = 1 → ys = xs) := by
  intro m out xs p hmem ys
  have hp := hperiods p hmem
  have hcount : 1 ≤ periods.count p := List.one_le_count_iff.mpr hmem
  have hmp : m.periods = periods := run_periods periods before
  have hloop := update_loop periods (run_averages periods before symbol) price
  have hout : out = ((m.averages symbol).update periods price).1 := by
    rw [show out = _ from update_out m symbol price, hmp]
  have hxs : xs = pricesOf symbol before ++ [price] := by simp [xs, pricesOf_snoc]
  have hys : ys = taken (periods.count p) (pricesOf symbol before) ++
      List.replicate (periods.count p) price := by
    rw [show ys = _ from congrArg (taken _) hxs, taken_snoc]
  have hxs_ne : xs ≠ [] := by simp [hxs]
  have hmem_ys : ∀ {x}, x ∈ ys ↔ x ∈ xs := mem_taken hcount
  have hys_ne : ys ≠ [] := List.ne_nil_of_mem (hmem_ys.mpr (hxs ▸ by simp : price ∈ xs))
  obtain ⟨h0, h1⟩ := shareOf_bounds hp
  refine ⟨?_, ⟨closedForm (shareOf p) ys, ?_, rfl, ?_, ?_⟩, ?_⟩
  · rw [hout, hloop.sma_out p hmem, (hloop.sma p hp).shown, hys]
  · rw [hout, hloop.ema_out p hmem, (hloop.ema p).value_eq, ← hys, smoothed_eq_closedForm _ hys_ne]
  · obtain ⟨lo, hlo, hmin⟩ := exists_least id hxs_ne
    exact ⟨lo, hlo, hmin, le_closedForm h0 h1 hys_ne (fun x hx => hmin x (hmem_ys.mp hx))⟩
  · obtain ⟨hi, hhi, hmax⟩ := exists_greatest id hxs_ne
    exact ⟨hi, hhi, hmax, closedForm_le h0 h1 hys_ne (fun x hx => hmax x (hmem_ys.mp hx))⟩
  · intro hone
    rw [show ys = taken (periods.count p) xs from rfl, hone, taken_one]

/-- The runs of `test_sma_slides_window` and `test_symbols_track_independently`, in one. -/
theorem the_averages_are_what_their_definitions_say_of_four :
    let before := [("BTCUSDT", (10 : ℚ)), ("BTCUSDT", 20), ("ETHUSDT", 5)]
    let m := (run MovingAverageTracker.apply (MovingAverageTracker.new [2]) before).2
    let out := (m.update "BTCUSDT" 30).1
    out.lookup (.sma 2) = some (some 25) ∧
      ∃ ema, out.lookup (.ema 2) = some (some ema) ∧ ema = 230 / 9 := by
  intro before m out
  have hxs : pricesOf "BTCUSDT" (before ++ [("BTCUSDT", 30)]) = [10, 20, 30] := by decide +kernel
  have h := the_averages_are_what_their_definitions_say [2] (by decide) before "BTCUSDT" 30 2
    (by decide)
  rw [hxs] at h
  obtain ⟨hsma, ⟨ema, hema, hclosed, -⟩, -⟩ := h
  refine ⟨hsma.trans (by decide +kernel), ema, hema, ?_⟩
  rw [hclosed]
  decide +kernel

/-- A period that stands twice in the tuple: the second price already fills the SMA of 3. -/
theorem a_repeated_period_takes_each_price_twice :
    ¬ ∀ (periods : List Nat) (before : List (Symbol × ℚ)) (symbol : Symbol) (price : ℚ),
      (∀ p ∈ periods, 1 ≤ p) →
      let m := (run MovingAverageTracker.apply (MovingAverageTracker.new periods) before).2
      ∀ p ∈ periods, (m.update symbol price).1.lookup (.sma p) =
        some (meanOfLast p (pricesOf symbol (before ++ [(symbol, price)]))) := by
  intro h
  have hsma := h [3, 3] [("BTCUSDT", 10)] "BTCUSDT" 20 (by decide) 3 (by decide)
  exact absurd hsma (by decide +kernel)

end tick_pipeline.moving_average
