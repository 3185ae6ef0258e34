-- Runs of the page: what its lines, its tape and its price become as ticks come in, and how
-- long it waits before it connects again.
import TickPipeline.Dashboard
import TickPipeline.Lib.Emitted
import TickPipeline.Lib.StrictMaxima

namespace tick_pipeline.dashboard

open runs models pipeline live_series emitted

/-! ## The ticks of a page -/

/-- The second that a tick stands at on the chart. -/
def second (t : TickData) : Int := t.event_time_ms.fdiv 1000

/-- The tick of a message, for a page of the symbol. -/
def Message.tickOf (s : Symbol) : Message → Option TickData
  | .event (.tick data) => if s = data.symbol then some data else none
  | _ => none

/-- No tick before is of a later second. -/
def punctual (before : List TickData) (t : TickData) : Bool := before.all (fun u => second u ≤ second t)

/-- The ticks that came in the order of their seconds, of all that came. -/
def seen (ticks : List TickData) : List TickData :=
  outputs (fun before t => if punctual before t then [t] else []) [] ticks

/-- The items of a line. -/
def points (value : TickData → Option ℚ) (ticks : List TickData) : List Point :=
  ticks.filterMap (fun t => (value t).map (fun v => ⟨second t, v⟩))

/-- The value of a moving average. -/
def average (name : AverageName) (t : TickData) : Option ℚ := (t.moving_averages.lookup name).join

/-- The steps from each price to the next, where there is one. -/
def changes (prices : List ℚ) : List ℚ :=
  outputs (fun before price => (before.getLast?.map (price - ·)).toList.filter (· ≠ 0)) [] prices

theorem changes_snoc (prices : List ℚ) (price : ℚ) :
    changes (prices ++ [price]) =
      changes prices ++ (prices.getLast?.map (price - ·)).toList.filter (· ≠ 0) := outputs_snoc _ _ _ _

theorem seen_snoc (ticks : List TickData) (t : TickData) :
    seen (ticks ++ [t]) = seen ticks ++ if punctual ticks t then [t] else [] := outputs_snoc _ _ _ _

theorem seen_sublist (ticks : List TickData) : (seen ticks).Sublist ticks := by
  induction ticks using List.reverseRecOn with
  | nil => exact List.Sublist.refl []
  | append_singleton ticks t ih =>
    rw [seen_snoc]
    split
    · exact ih.append (List.Sublist.refl [t])
    · exact ih.append (List.nil_sublist [t])

theorem seen_sorted (ticks : List TickData) :
    (seen ticks).Pairwise (fun t u => second t ≤ second u) := by
  induction ticks using List.reverseRecOn with
  | nil => exact List.Pairwise.nil
  | append_singleton ticks t ih =>
    rw [seen_snoc]
    split
    · rename_i hpunctual
      refine List.pairwise_append.mpr ⟨ih, List.pairwise_singleton _ _, fun u hu v hv => ?_⟩
      rw [List.mem_singleton.mp hv]
      simpa using List.all_eq_true.mp hpunctual u ((seen_sublist ticks).subset hu)
    · rw [List.append_nil]
      exact ih

theorem points_sorted (value : TickData → Option ℚ) (ticks : List TickData) :
    (points value (seen ticks)).Pairwise (fun p q => p.time ≤ q.time) := by
  unfold points
  rw [List.pairwise_filterMap]
  refine (seen_sorted ticks).imp ?_
  intro t u hle p hp q hq
  obtain ⟨v, -, rfl⟩ := Option.map_eq_some_iff.mp hp
  obtain ⟨w, -, rfl⟩ := Option.map_eq_some_iff.mp hq
  exact hle

section line

variable {τ : Type} {lineLib : Series τ Point}

/-- A line has the items of the seen ticks, and no item is later than all ticks. -/
structure Line (lineLib : Series τ Point) (value : TickData → Option ℚ) (ticks : List TickData)
    (series : τ) : Prop where
  ascending : Ascending Point.time (lineLib.data series)
  data : lineLib.data series = follow Point.time [] (points value (seen ticks))
  last : ∀ p, (lineLib.data series).getLast? = some p → ∃ u ∈ ticks, p.time = second u

variable {value : TickData → Option ℚ} {ticks : List TickData} {series : τ} {t : TickData}

theorem line_nil (h : lineLib.data series = []) : Line lineLib value [] series :=
  ⟨h ▸ ascending_nil, h, fun p hp => by simp [h] at hp⟩

theorem points_snoc (value : TickData → Option ℚ) (ticks : List TickData) (t : TickData) :
    points value (ticks ++ [t]) = points value ticks ++ ((value t).map (fun v => ⟨second t, v⟩)).toList := by
  unfold points
  rw [List.filterMap_append]
  cases hv : value t <;> simp [hv]

/-- A tick that is not punctual is not seen. -/
theorem Line.skip (h : Line lineLib value ticks series) (hlate : punctual ticks t = false) :
    Line lineLib value (ticks ++ [t]) series := by
  refine ⟨h.ascending, ?_, fun p hp => ?_⟩
  · rw [seen_snoc, if_neg (by simp [hlate]), List.append_nil]
    exact h.data
  · obtain ⟨u, hu, heq⟩ := h.last p hp
    exact ⟨u, by simp [hu], heq⟩

/-- No line refuses a punctual tick. -/
theorem Line.follows (hline : lineLib.Documented Point.time) (h : Line lineLib value ticks series)
    (hpunctual : punctual ticks t = true) :
    ∃ series', updateLine lineLib series (second t) (value t) = some series' ∧
      Line lineLib value (ticks ++ [t]) series' ∧
      ∀ v, value t = some v → (lineLib.data series').getLast? = some ⟨second t, v⟩ := by
  have hseen : seen (ticks ++ [t]) = seen ticks ++ [t] := by rw [seen_snoc, if_pos hpunctual]
  unfold updateLine
  cases hv : value t with
  | none =>
    refine ⟨series, rfl, ⟨h.ascending, ?_, fun p hp => ?_⟩, by simp⟩
    · rw [hseen, points_snoc, hv, Option.map_none, Option.toList_none, List.append_nil]
      exact h.data
    · obtain ⟨u, hu, heq⟩ := h.last p hp
      exact ⟨u, by simp [hu], heq⟩
  | some v =>
    have hsome : live_series.update Point.time (lineLib.data series) ⟨second t, v⟩ ≠ none := by
      rw [Ne, update_eq_none_iff]
      rintro ⟨p, hp, hlt⟩
      obtain ⟨u, hu, heq⟩ := h.last p hp
      have hle : second u ≤ second t := by simpa using List.all_eq_true.mp hpunctual u hu
      dsimp only at hlt
      omega
    have hdocumented := hline.update series ⟨second t, v⟩ h.ascending
    cases hupdate : lineLib.update series ⟨second t, v⟩ with
    | none =>
      rw [hupdate] at hdocumented
      exact absurd hdocumented.symm hsome
    | some series' =>
      rw [hupdate, Option.map_some] at hdocumented
      have hlast := update_last hdocumented.symm
      refine ⟨series', hupdate, ⟨h.ascending.update hdocumented.symm, ?_, fun p hp => ?_⟩, ?_⟩
      · rw [hseen, points_snoc, hv, follow_append, ← h.data]
        exact (follow_of_update hdocumented.symm).symm
      · rw [hlast] at hp
        exact ⟨t, by simp, by rw [← Option.some.inj hp]⟩
      · rintro v' ⟨⟩
        exact hlast

/-- A line that has every tick refuses one that is not punctual. -/
theorem Line.late (hline : lineLib.Documented Point.time) (h : Line lineLib value ticks series)
    (hall : ∀ u ∈ ticks, ∃ p, (lineLib.data series).getLast? = some p ∧ second u ≤ p.time)
    (hlate : punctual ticks t = false) {v : ℚ} (hv : value t = some v) :
    updateLine lineLib series (second t) (value t) = none := by
  obtain ⟨u, hu, hlt⟩ : ∃ u ∈ ticks, second t < second u := by
    simpa [punctual] using hlate
  obtain ⟨p, hp, hle⟩ := hall u hu
  have hnone : live_series.update Point.time (lineLib.data series) ⟨second t, v⟩ = none :=
    update_eq_none_iff.mpr ⟨p, hp, by dsimp only; omega⟩
  rw [hv]
  unfold updateLine
  rw [← hline.update series ⟨second t, v⟩ h.ascending, Option.map_eq_none_iff] at hnone
  exact hnone

end line

section page

variable {σ τ : Type} {candleLib : Series σ Bar} {lineLib : Series τ Point}

/-- What a page of the symbol has become since `start`, as ticks came. -/
structure Tracks (lineLib : Series τ Point) (s : Symbol) (start : Dashboard σ τ)
    (ticks : List TickData) (d : Dashboard σ τ) : Prop where
  symbol : d.symbol = some s
  vwap : Line lineLib (fun t => some t.vwap) ticks d.vwapSeries
  sma20 : Line lineLib (average (.sma 20)) ticks d.sma20Series
  sma50 : Line lineLib (average (.sma 50)) ticks d.sma50Series
  newest : ∀ u ∈ ticks, ∃ p, (lineLib.data d.vwapSeries).getLast? = some p ∧ second u ≤ p.time
  lastPrice : d.lastPrice = (ticks.getLast?.map (·.price)).or start.lastPrice
  priceChange : d.priceChange =
    (changes (start.lastPrice.toList ++ ticks.map (·.price))).getLast?.or start.priceChange
  metrics : d.metrics = (seen ticks).getLast?.or start.metrics
  tape : d.tape = (start.tape ++ seen ticks).rtake TAPE_ROWS

variable {s : Symbol} {start d : Dashboard σ τ} {ticks : List TickData}

/-- The change that a tick shows, punctual or not. -/
theorem Tracks.change (h : Tracks lineLib s start ticks d) (t : TickData) :
    (d.handleTick lineLib t).priceChange =
      (changes (start.lastPrice.toList ++ (ticks ++ [t]).map (·.price))).getLast?.or start.priceChange := by
  have hprice : (start.lastPrice.toList ++ ticks.map (·.price)).getLast? = d.lastPrice := by
    rw [h.lastPrice, List.getLast?_append, List.getLast?_map]
    cases start.lastPrice <;> rfl
  have hchange : (d.handleTick lineLib t).priceChange =
      d.lastPrice.elim d.priceChange
        (fun prevPrice => if t.price - prevPrice ≠ 0 then some (t.price - prevPrice) else d.priceChange) := by
    unfold Dashboard.handleTick
    cases d.lastPrice <;> dsimp only [Option.elim] <;> (repeat' split) <;> rfl
  rw [hchange, List.map_append, List.map_singleton, ← List.append_assoc, changes_snoc, hprice]
  cases d.lastPrice with
  | none => simpa using h.priceChange
  | some prevPrice =>
    by_cases hzero : t.price - prevPrice = 0
    · simpa [hzero] using h.priceChange
    · simp [hzero]

/-- A tick that is not punctual touches the price and the change shown with it, and no more. -/
theorem Tracks.late (hline : lineLib.Documented Point.time) (h : Tracks lineLib s start ticks d)
    {t : TickData} (hlate : punctual ticks t = false) :
    Tracks lineLib s start (ticks ++ [t]) (d.handleTick lineLib t) := by
  have hnone := h.vwap.late hline h.newest hlate rfl
  have hchange := h.change t
  have hseen : seen (ticks ++ [t]) = seen ticks := by
    rw [seen_snoc, if_neg (by simp [hlate]), List.append_nil]
  unfold Dashboard.handleTick at hchange ⊢
  dsimp only at hchange ⊢
  rw [show updateLine lineLib d.vwapSeries (t.event_time_ms.fdiv 1000) (some t.vwap) = none from hnone]
    at hchange ⊢
  refine ⟨h.symbol, h.vwap.skip hlate, h.sma20.skip hlate, h.sma50.skip hlate, fun u hu => ?_, ?_,
    hchange, ?_, ?_⟩
  · rcases List.mem_append.mp hu with hu | hu
    · exact h.newest u hu
    · obtain rfl := List.mem_singleton.mp hu
      obtain ⟨w, hw, hlt⟩ : ∃ w ∈ ticks, second u < second w := by simpa [punctual] using hlate
      obtain ⟨p, hp, hle⟩ := h.newest w hw
      exact ⟨p, hp, by omega⟩
  · simp
  · rw [hseen]
    exact h.metrics
  · rw [hseen]
    exact h.tape

/-- A punctual tick moves everything. -/
theorem Tracks.punctual (hline : lineLib.Documented Point.time) (h : Tracks lineLib s start ticks d)
    {t : TickData} (hpunctual : punctual ticks t = true) :
    Tracks lineLib s start (ticks ++ [t]) (d.handleTick lineLib t) := by
  obtain ⟨vwapSeries, hvwap, hvwap', hlast⟩ := h.vwap.follows hline hpunctual
  obtain ⟨sma20Series, hsma20, hsma20', -⟩ := h.sma20.follows hline hpunctual
  obtain ⟨sma50Series, hsma50, hsma50', -⟩ := h.sma50.follows hline hpunctual
  have hseen : seen (ticks ++ [t]) = seen ticks ++ [t] := by rw [seen_snoc, if_pos hpunctual]
  have hresult : d.handleTick lineLib t =
      { d with
        lastPrice := some t.price
        priceChange := (d.handleTick lineLib t).priceChange
        vwapSeries, sma20Series, sma50Series
        metrics := some t
        tape := (d.tape ++ [t]).rtake TAPE_ROWS } := by
    unfold second at hvwap
    unfold second average at hsma20 hsma50
    unfold Dashboard.handleTick
    simp only [hvwap, hsma20, hsma50, Dashboard.addTapeRow]
  rw [hresult]
  refine ⟨h.symbol, hvwap', hsma20', hsma50', fun u hu => ⟨_, hlast _ rfl, ?_⟩, ?_, h.change t, ?_, ?_⟩
  · rcases List.mem_append.mp hu with hu | hu
    · simpa using List.all_eq_true.mp hpunctual u hu
    · rw [List.mem_singleton.mp hu]
  · simp
  · simp [hseen]
  · dsimp only
    rw [h.tape, last_n.rtake_rtake_concat, hseen, List.append_assoc]

variable (candleLib) in
theorem Tracks.step (hline : lineLib.Documented Point.time) (h : Tracks lineLib s start ticks d)
    {input : Input} (hquiet : input.quiet = true) :
    Tracks lineLib s start (ticks ++ (input.message.bind (Message.tickOf s)).toList)
      (d.step candleLib lineLib input).2 := by
  have hother {d' : Dashboard σ τ} (h1 : d'.symbol = d.symbol) (h2 : d'.vwapSeries = d.vwapSeries)
      (h3 : d'.sma20Series = d.sma20Series) (h4 : d'.sma50Series = d.sma50Series)
      (h5 : d'.lastPrice = d.lastPrice) (h6 : d'.priceChange = d.priceChange)
      (h7 : d'.metrics = d.metrics) (h8 : d'.tape = d.tape) :
      Tracks lineLib s start (ticks ++ []) d' := by
    rw [List.append_nil]
    exact ⟨h1 ▸ h.symbol, h2 ▸ h.vwap, h3 ▸ h.sma20, h4 ▸ h.sma50, h2 ▸ h.newest, h5 ▸ h.lastPrice,
      h6 ▸ h.priceChange, h7 ▸ h.metrics, h8 ▸ h.tape⟩
  have hstats (statsList : List SymbolStats) :
      Tracks lineLib s start (ticks ++ []) (d.updateHealthFromStats statsList) := by
    unfold Dashboard.updateHealthFromStats
    split <;> exact hother rfl rfl rfl rfl rfl rfl rfl rfl
  have hcandle (data : CandleDict) :
      Tracks lineLib s start (ticks ++ []) (d.handleCandle candleLib data) := by
    unfold Dashboard.handleCandle
    split
    · split <;> exact hother rfl rfl rfl rfl rfl rfl rfl rfl
    · exact hother rfl rfl rfl rfl rfl rfl rfl rfl
  cases input with
  | pollHealth statsList => exact hstats statsList
  | onmessage msg =>
    cases msg with
    | stats statsList => exact hstats statsList
    | event event =>
      cases event with
      | candle_closed data => exact hcandle data
      | candle_update data => exact hcandle data
      | candle_patched data => exact hother rfl rfl rfl rfl rfl rfl rfl rfl
      | tick data =>
        rw [Input.message, Option.bind_some, Message.tickOf, Dashboard.step]
        unfold Dashboard.handleEvent
        dsimp only
        by_cases hown : s = data.symbol
        · rw [if_pos hown, if_pos (h.symbol.trans (congrArg some hown))]
          cases hp : dashboard.punctual ticks data with
          | true => exact h.punctual hline hp
          | false => exact h.late hline hp
        · rw [if_neg hown, if_neg (fun heq => hown (Option.some.inj (h.symbol.symm.trans heq)))]
          exact hother rfl rfl rfl rfl rfl rfl rfl rfl
  | _ => cases hquiet

theorem Tracks.run (hline : lineLib.Documented Point.time) (h : Tracks lineLib s start [] start)
    (inputs : List Input) (hquiet : ∀ input ∈ inputs, input.quiet = true) :
    Tracks lineLib s start ((inputs.filterMap Input.message).filterMap (Message.tickOf s))
      (runs.run (Dashboard.step candleLib lineLib) start inputs).2 := by
  induction inputs using List.reverseRecOn with
  | nil => exact h
  | append_singleton inputs input ih =>
    have hstep := (ih fun i hi => hquiet i (by simp [hi])).step candleLib hline
      (hquiet input (by simp))
    have hone : ([input].filterMap Input.message).filterMap (Message.tickOf s) =
        (input.message.bind (Message.tickOf s)).toList := by
      cases hm : input.message with
      | none => simp [hm]
      | some msg => cases hb : msg.tickOf s <;> simp [hm, hb]
    rw [run_snoc, List.filterMap_append, List.filterMap_append, hone]
    exact hstep

/-- A line shows, in the order of time, the last value of each second among the seen ticks. -/
theorem Line.shows {value : TickData → Option ℚ} {series : τ} (h : Line lineLib value ticks series) :
    Ascending Point.time (lineLib.data series) ∧ ∀ p, p ∈ lineLib.data series ↔
      event_log.lastOf Point.time p.time (points value (seen ticks)) = some p := by
  refine ⟨h.ascending, ?_⟩
  rw [h.data]
  exact (follow_in_order (points_sorted value ticks)).2

/-- From a load on, through whatever messages and polls: a tick that is of an earlier second than one
before it shows in the price and in its change alone. The tape, the metrics and the three lines are made
of the others, the tape of the last rows, and each line of the last value of each second. The price is
that of the last tick of all, and the change the last one that is not zero, from tick to tick. -/
theorem a_tick_out_of_order_moves_only_the_price_and_its_change (hline : lineLib.Documented Point.time)
    (page : Dashboard σ τ) (hsymbol : page.symbol = some s) (htape : page.tape.length ≤ TAPE_ROWS)
    (candles : List CandleDict) (inputs : List Input) (hquiet : ∀ input ∈ inputs, input.quiet = true) :
    let loaded := page.loadCandles candleLib lineLib candles
    let last := (runs.run (Dashboard.step candleLib lineLib) loaded inputs).2
    let ticks := (inputs.filterMap Input.message).filterMap (Message.tickOf s)
    let shows (series : τ) (value : TickData → Option ℚ) : Prop :=
      Ascending Point.time (lineLib.data series) ∧ ∀ p, p ∈ lineLib.data series ↔
        event_log.lastOf Point.time p.time (points value (seen ticks)) = some p
    last.lastPrice = (ticks.getLast?.map (·.price)).or loaded.lastPrice ∧
      last.priceChange =
        (changes (loaded.lastPrice.toList ++ ticks.map (·.price))).getLast?.or page.priceChange ∧
      last.metrics = (seen ticks).getLast?.or page.metrics ∧
      last.tape = (page.tape ++ seen ticks).rtake TAPE_ROWS ∧
      shows last.vwapSeries (fun t => some t.vwap) ∧ shows last.sma20Series (average (.sma 20)) ∧
      shows last.sma50Series (average (.sma 50)) := by
  intro loaded last ticks shows
  have hempty (series : τ) : lineLib.data (lineLib.setData series []) = [] :=
    hline.setData series [] ascending_nil
  have hstart : Tracks lineLib s loaded [] loaded :=
    { symbol := hsymbol
      vwap := line_nil (hempty _)
      sma20 := line_nil (hempty _)
      sma50 := line_nil (hempty _)
      newest := fun u hu => absurd hu (by simp)
      lastPrice := rfl
      priceChange := by
        rw [List.map_nil, List.append_nil]
        cases loaded.lastPrice <;> rfl
      metrics := rfl
      tape := by
        rw [show seen [] = [] from rfl, List.append_nil]
        exact (last_n.rtake_of_length_le htape).symm }
  have htracks : Tracks lineLib s loaded ticks last := hstart.run hline inputs hquiet
  exact ⟨htracks.lastPrice, htracks.priceChange, htracks.metrics, htracks.tape, htracks.vwap.shows,
    htracks.sma20.shows, htracks.sma50.shows⟩

/-- Three ticks, of which the last is late by more than a second. -/
theorem a_tick_out_of_order_moves_only_the_price_and_its_change_of_three :
    let tick (price : ℚ) (time : Int) : Message := .event (.tick
      { symbol := "BTC-USD", price, quantity := 1, event_time_ms := time, side := .buy, vwap := price,
        moving_averages := [] })
    let page : Dashboard (List Bar) (List Point) :=
      { Dashboard.new [] [] [] [] with symbol := some "BTC-USD" }
    let loaded := page.loadCandles (listSeries Bar.time) (listSeries Point.time) []
    let last := (runs.run (Dashboard.step (listSeries Bar.time) (listSeries Point.time)) loaded
      ([tick 10 1000, tick 11 3500, tick 14 2400].map Input.onmessage)).2
    last.priceChange = some 3 ∧ last.tape.map (·.price) = [10, 11] := by
  intro tick page loaded last
  have h : _ ∧ last.priceChange = _ ∧ _ ∧ last.tape = _ ∧ _ :=
    a_tick_out_of_order_moves_only_the_price_and_its_change (listSeries_documented Point.time) page rfl
      (by decide) [] _ (quiet_messages _)
  rw [h.2.1, h.2.2.2.1, messages_of]
  decide +kernel

end page

/-! ## The waits of a page -/

def Input.opens : Input → Bool
  | .onopen => true
  | _ => false

def Input.closes : Input → Bool
  | .onclose => true
  | _ => false

/-- The closes since a connection was last open. -/
def closesInRow (inputs : List Input) : Nat :=
  (inputs.rtakeWhile (fun input => !input.opens)).countP Input.closes

section waits

variable {σ τ : Type} (candleLib : Series σ Bar) (lineLib : Series τ Point) (d : Dashboard σ τ)

theorem handleTick_delay (tick : TickData) : (d.handleTick lineLib tick).wsRetryDelay = d.wsRetryDelay := by
  unfold Dashboard.handleTick
  dsimp only
  split
  · rfl
  split
  · rfl
  split <;> rfl

theorem updateHealth_delay (statsList : List SymbolStats) :
    (d.updateHealthFromStats statsList).wsRetryDelay = d.wsRetryDelay := by
  unfold Dashboard.updateHealthFromStats
  split <;> rfl

theorem handleCandle_delay (data : CandleDict) :
    (d.handleCandle candleLib data).wsRetryDelay = d.wsRetryDelay := by
  unfold Dashboard.handleCandle
  split
  · split <;> rfl
  · rfl

/-- Only an open and a close touch the delay. -/
theorem step_delay (input : Input) :
    (d.step candleLib lineLib input).2.wsRetryDelay =
      if input.opens then 1000
      else if input.closes then min (d.wsRetryDelay * 2) MAX_RETRY_DELAY else d.wsRetryDelay := by
  cases input with
  | symbols symbols timeframes => rfl
  | candles candles => rfl
  | pollHealth statsList => exact updateHealth_delay d statsList
  | selectSymbol sym => rfl
  | selectTimeframe tf => rfl
  | onopen => rfl
  | onclose => rfl
  | onmessage msg =>
    cases msg with
    | stats statsList => exact updateHealth_delay d statsList
    | event event =>
      cases event with
      | candle_closed data => exact handleCandle_delay candleLib d data
      | candle_patched data => rfl
      | candle_update data => exact handleCandle_delay candleLib d data
      | tick data =>
        rw [Dashboard.step]
        unfold Dashboard.handleEvent
        dsimp only
        split
        · exact handleTick_delay lineLib d data
        · rfl

theorem closesInRow_snoc (inputs : List Input) (input : Input) :
    closesInRow (inputs ++ [input]) =
      if input.opens then 0 else closesInRow inputs + if input.closes then 1 else 0 := by
  unfold closesInRow
  rw [List.rtakeWhile_concat]
  cases hopens : input.opens with
  | true => rfl
  | false => cases hcloses : input.closes <;> simp [hcloses]

theorem run_delay (h : d.wsRetryDelay = 1000) (inputs : List Input) :
    (runs.run (Dashboard.step candleLib lineLib) d inputs).2.wsRetryDelay =
      min (1000 * 2 ^ closesInRow inputs) MAX_RETRY_DELAY := by
  induction inputs using List.reverseRecOn with
  | nil => exact h
  | append_singleton inputs input ih =>
    have hcap : 1000 ≤ MAX_RETRY_DELAY := by decide
    rw [run_snoc, step_delay, closesInRow_snoc, ih]
    cases input.opens with
    | true => simp [hcap]
    | false =>
      cases input.closes with
      | false => rfl
      | true =>
        simp only [Bool.false_eq_true, if_false, if_true, Nat.pow_succ]
        omega

/-- Whatever happens to the page, it connects again exactly when its connection closes, after a second
for the first close in a row and twice as long for each one more, up to the cap. -/
theorem a_page_waits_twice_as_long_after_each_close (candleSeries : σ)
    (vwapSeries sma20Series sma50Series : τ) (inputs : List Input) (input : Input) (delay : Nat) :
    let page := Dashboard.new candleSeries vwapSeries sma20Series sma50Series
    let before := (runs.run (Dashboard.step candleLib lineLib) page inputs).2
    .connectWs delay ∈ (before.step candleLib lineLib input).1 ↔
      input = .onclose ∧ delay = min (1000 * 2 ^ closesInRow inputs) MAX_RETRY_DELAY := by
  intro page before
  have hdelay : before.wsRetryDelay = _ := run_delay candleLib lineLib page rfl inputs
  rw [← hdelay]
  cases input <;> simp [Dashboard.step, Dashboard.fetchCandles]

end waits

end tick_pipeline.dashboard
