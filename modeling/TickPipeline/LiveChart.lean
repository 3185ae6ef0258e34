-- The chart of a dashboard and the candles of the server: after a load and the events that
-- follow it, the chart shows what a new load would show.
import TickPipeline.Dashboard
import TickPipeline.LaneRuns
import TickPipeline.TimeseriesStore

namespace tick_pipeline.dashboard

open runs models candles pipeline timeseries_store emitted live_series last_n strict_maxima

/-! ## The bars of a symbol's candles -/

/-- The bar of a bucket, after the ticks of its symbol. -/
def barOf (tf : Int) (ticks : List Tick) (b : Int) : Bar := bar (candleOf tf b ticks).to_dict

/-- The bars of the opened buckets, but the first `k`. -/
def barsFrom (tf : Int) (k : Nat) (ticks : List Tick) : List Bar :=
  ((openedBuckets tf ticks).drop k).map (barOf tf ticks)

/-- The bars of the candle events of a log. -/
def eventBars (events : List Event) : List Bar := (events.filterMap Event.flows).map bar

section bars

variable {tf : Int} {n k : Nat} {xs : List Tick} {t : Tick}

theorem bar_close (c : Candle) : bar (closeCandle c).to_dict = bar c.to_dict := rfl

theorem barOf_time (tf : Int) (ticks : List Tick) (b : Int) : (barOf tf ticks b).time = b.fdiv 1000 := by
  simp [barOf, bar]

theorem bucketOf_seconds (tf : Int) (t : Tick) : ∃ seconds, bucketOf tf t = seconds * 1000 :=
  ⟨t.event_time_ms.fdiv (tf * 1000) * tf, by rw [Int.mul_assoc]; rfl⟩

/-- The buckets of ticks are as far apart as their bars. -/
theorem seconds_lt {b b' : Int} (hb : ∃ q, b = q * 1000) (hb' : ∃ q, b' = q * 1000) (h : b < b') :
    b.fdiv 1000 < b'.fdiv 1000 := by
  obtain ⟨q, rfl⟩ := hb
  obtain ⟨q', rfl⟩ := hb'
  rw [Int.mul_fdiv_cancel _ (by decide), Int.mul_fdiv_cancel _ (by decide)]
  omega

theorem seconds_le {b b' : Int} (h : b ≤ b') : b.fdiv 1000 ≤ b'.fdiv 1000 := by
  rw [Int.fdiv_eq_ediv_of_nonneg _ (by decide), Int.fdiv_eq_ediv_of_nonneg _ (by decide)]
  exact Int.ediv_le_ediv (by decide) h

theorem opened_seconds {b : Int} (hb : b ∈ openedBuckets tf xs) : ∃ q, b = q * 1000 := by
  obtain ⟨t, -, rfl⟩ := List.mem_map.mp (mem_of_mem_strictMaxima _ b hb)
  exact bucketOf_seconds tf t

theorem barsFrom_ascending (tf : Int) (k : Nat) (xs : List Tick) :
    Ascending Bar.time (barsFrom tf k xs) := by
  unfold Ascending barsFrom
  rw [List.pairwise_map]
  refine ((openedBuckets_sorted tf xs).sublist (List.drop_sublist k _)).imp_of_mem ?_
  intro b b' hb hb' hlt
  rw [barOf_time, barOf_time]
  exact seconds_lt (opened_seconds (List.mem_of_mem_drop hb)) (opened_seconds (List.mem_of_mem_drop hb')) hlt

/-- The newest bar comes last. -/
theorem barsFrom_newest {m : Int} (hm : (openedBuckets tf xs).getLast? = some m)
    (hk : k < (openedBuckets tf xs).length) :
    barsFrom tf k xs = (((openedBuckets tf xs).dropLast).drop k).map (barOf tf xs) ++ [barOf tf xs m] := by
  unfold barsFrom
  conv_lhs => rw [← List.dropLast_append_getLast? m hm]
  rw [List.drop_append_of_le_length (by rw [List.length_dropLast]; omega), List.map_append]
  rfl

/-- A tick leaves the bars of other buckets as they are. -/
theorem bars_other {bs : List Int} (h : ∀ b ∈ bs, bucketOf tf t ≠ b) :
    bs.map (barOf tf (xs ++ [t])) = bs.map (barOf tf xs) := by
  apply List.map_congr_left
  intro b hb
  rw [barOf, barOf, candleOf_snoc_ne (h b hb)]

/-- A tick that is not late moves the bars on by its events. -/
theorem follow_tick (hk : k < (openedBuckets tf xs).length ∨ xs = [] ∧ k = 0)
    (hlate : late tf xs t = false) :
    follow Bar.time (barsFrom tf k xs) (eventBars (candleEvents tf n xs t)) = barsFrom tf k (xs ++ [t]) := by
  cases tick_cases tf n xs t with
  | first hnil hclosed hpatched =>
    subst hnil
    obtain ⟨-, rfl⟩ : True ∧ k = 0 := by simpa [openedBuckets] using hk
    have hopened := openedBuckets_singleton tf t
    have hbars : eventBars (candleEvents tf n [] t) = [barOf tf [t] (bucketOf tf t)] := by
      simp [eventBars, candleEvents, hclosed, hpatched, openCandle, hopened, Event.flows, barOf]
    have hafter : barsFrom tf 0 ([] ++ [t]) = [barOf tf [t] (bucketOf tf t)] := by
      simp [barsFrom, hopened]
    rw [hbars, hafter]
    exact follow_of_update update_first
  | newer m hm hlt hclosed hpatched =>
    have hkm : k < (openedBuckets tf xs).length := by
      rcases hk with hk | ⟨rfl, -⟩
      · exact hk
      · simp [openedBuckets] at hm
    have hnewest := getLast?_snoc_of_lt hm hlt
    have hbars : eventBars (candleEvents tf n xs t) =
        [barOf tf xs m, barOf tf (xs ++ [t]) (bucketOf tf t)] := by
      simp [eventBars, candleEvents, hclosed, hpatched, openCandle, hnewest, Event.flows, barOf, bar_close]
    have hopened : openedBuckets tf (xs ++ [t]) = openedBuckets tf xs ++ [bucketOf tf t] := by
      rw [openedBuckets_snoc, pushMax_of_lt hm hlt]
    have hothers : ∀ b ∈ (openedBuckets tf xs).drop k, bucketOf tf t ≠ b := by
      intro b hb
      have := le_of_mem_of_getLast? (openedBuckets_sorted tf xs) hm (List.mem_of_mem_drop hb)
      omega
    have hlater : (barOf tf xs m).time < (barOf tf (xs ++ [t]) (bucketOf tf t)).time := by
      rw [barOf_time, barOf_time]
      exact seconds_lt (opened_seconds (List.mem_of_getLast? hm)) (bucketOf_seconds tf t) hlt
    have hafter : barsFrom tf k (xs ++ [t]) =
        barsFrom tf k xs ++ [barOf tf (xs ++ [t]) (bucketOf tf t)] := by
      unfold barsFrom
      rw [hopened, List.drop_append_of_le_length hkm.le, List.map_append, bars_other hothers]
      rfl
    -- The closing event changes nothing that shows, and the update opens the next bar.
    rw [hbars, hafter, barsFrom_newest hm hkm, follow_cons, update_same rfl]
    exact follow_of_update (update_later hlater)
  | kept m hm hle hnot hclosed hpatched =>
    have hkm : k < (openedBuckets tf xs).length := by
      rcases hk with hk | ⟨rfl, -⟩
      · exact hk
      · simp [openedBuckets] at hm
    have heq : bucketOf tf t = m := by
      unfold late at hlate
      rw [hm] at hlate
      simp only [decide_eq_false_iff_not] at hlate
      omega
    have hnewest := getLast?_snoc_of_le hm hle
    have hopened := openedBuckets_snoc_of_le hm hle
    have hbars : eventBars (candleEvents tf n xs t) = [barOf tf (xs ++ [t]) m] := by
      simp [eventBars, candleEvents, hclosed, hpatched, openCandle, hnewest, Event.flows, barOf]
    have hothers : ∀ b ∈ ((openedBuckets tf xs).dropLast).drop k, bucketOf tf t ≠ b := by
      intro b hb
      have := lt_of_mem_dropLast (openedBuckets_sorted tf xs) hm (List.mem_of_mem_drop hb)
      omega
    rw [hbars, barsFrom_newest hm hkm, barsFrom_newest hnewest (by rw [hopened]; exact hkm), hopened,
      bars_other hothers]
    exact follow_of_update (update_same (by rw [barOf_time, barOf_time]))
  | patched m hm hlt hmem hclosed hpatched =>
    unfold late at hlate
    rw [hm] at hlate
    simp only [decide_eq_false_iff_not] at hlate
    exact absurd hlt hlate

/-- The first bar that the chart shows is that of an opened bucket, if there is one yet. -/
def Anchored (tf : Int) (k : Nat) (xs : List Tick) : Prop :=
  k < (openedBuckets tf xs).length ∨ xs = [] ∧ k = 0

theorem Anchored.snoc (h : Anchored tf k xs) (t : Tick) : Anchored tf k (xs ++ [t]) := by
  left
  rcases h with h | ⟨rfl, rfl⟩
  · obtain ⟨m, hm⟩ : ∃ m, (openedBuckets tf xs).getLast? = some m :=
      Option.isSome_iff_exists.mp (by rw [List.getLast?_isSome]; rintro hnil; simp [hnil] at h)
    rcases lt_or_ge m (bucketOf tf t) with hlt | hge
    · rw [openedBuckets_snoc, pushMax_of_lt hm hlt, List.length_append]
      omega
    · rw [openedBuckets_snoc_of_le hm hge]
      exact h
  · simp [openedBuckets_singleton]

/-- The ticks of `zs` that are not late where they come, after `xs`. -/
def inTime (tf : Int) (xs zs : List Tick) : List Tick :=
  outputs (fun before t => if late tf before t then [] else [t]) xs zs

/-- `vs` opens the buckets of `ys`, and has the same ticks in the newest of them. -/
structure SameNewest (tf : Int) (vs ys : List Tick) : Prop where
  opened : openedBuckets tf vs = openedBuckets tf ys
  newest : ∀ m, (openedBuckets tf ys).getLast? = some m → bucketTicks tf m vs = bucketTicks tf m ys

theorem SameNewest.late_eq {vs ys : List Tick} (h : SameNewest tf vs ys) (t : Tick) :
    late tf vs t = late tf ys t := by
  unfold late
  rw [h.opened]

/-- A late tick goes to a bucket that is not the newest. -/
theorem SameNewest.skip {vs ys : List Tick} (h : SameNewest tf vs ys) (hlate : late tf ys t = true) :
    SameNewest tf vs (ys ++ [t]) := by
  unfold late at hlate
  rcases hm : (openedBuckets tf ys).getLast? with _ | m
  · rw [hm] at hlate
    cases hlate
  · rw [hm] at hlate
    have hlt : bucketOf tf t < m := by simpa using hlate
    refine ⟨h.opened.trans (openedBuckets_snoc_of_le hm hlt.le).symm, fun m' hm' => ?_⟩
    rw [getLast?_snoc_of_le hm hlt.le] at hm'
    obtain rfl := Option.some.inj hm'
    rw [bucketTicks_snoc, if_neg hlt.ne, List.append_nil]
    exact h.newest m hm

theorem SameNewest.snoc {vs ys : List Tick} (h : SameNewest tf vs ys) (hlate : late tf ys t = false) :
    SameNewest tf (vs ++ [t]) (ys ++ [t]) := by
  have hopened : openedBuckets tf (vs ++ [t]) = openedBuckets tf (ys ++ [t]) := by
    rw [openedBuckets_snoc, openedBuckets_snoc, h.opened]
  refine ⟨hopened, fun m hm => ?_⟩
  rw [bucketTicks_snoc, bucketTicks_snoc]
  congr 1
  -- Either the newest bucket stays, or the tick opens one that has no tick yet.
  rcases hm₀ : (openedBuckets tf ys).getLast? with _ | m₀
  · have hys := openedBuckets_eq_nil_iff.mp (List.getLast?_eq_none_iff.mp hm₀)
    have hvs := h.opened
    rw [hys] at hvs
    rw [hys, openedBuckets_eq_nil_iff.mp hvs]
  · unfold late at hlate
    rw [hm₀] at hlate
    have hge : m₀ ≤ bucketOf tf t := by simpa using hlate
    rcases hge.lt_or_eq with hlt | heq
    · rw [getLast?_snoc_of_lt hm₀ hlt] at hm
      obtain rfl := Option.some.inj hm
      have hvs : (openedBuckets tf vs).getLast? = some m₀ := by rw [h.opened, hm₀]
      rw [bucketTicks_eq_nil_of_lt hm₀ hlt, bucketTicks_eq_nil_of_lt hvs hlt]
    · rw [getLast?_snoc_of_le hm₀ heq.ge] at hm
      obtain rfl := Option.some.inj hm
      exact h.newest m₀ hm₀

theorem SameNewest.bar {vs ys : List Tick} (h : SameNewest tf vs ys) {m : Int}
    (hm : (openedBuckets tf ys).getLast? = some m) : candleOf tf m vs = candleOf tf m ys := by
  unfold candleOf
  rw [h.newest m hm]

theorem not_late_retained {ys : List Tick} (hlate : late tf ys t = false) :
    bucketOf tf t ∉ retainedBuckets tf n ys := by
  intro hmem
  unfold late at hlate
  rcases hm : (openedBuckets tf ys).getLast? with _ | m
  · simp [retainedBuckets, closedBuckets, List.getLast?_eq_none_iff.mp hm, List.rtake_nil] at hmem
  · rw [hm] at hlate
    have hlt := lt_of_mem_retainedBuckets hm hmem
    exact absurd hlt (by simpa using hlate)

/-- A tick that is not late has the same events after either. -/
theorem SameNewest.events {vs ys : List Tick} (h : SameNewest tf vs ys)
    (hlate : late tf ys t = false) : candleEvents tf n vs t = candleEvents tf n ys t := by
  have hclosed : closedBy tf vs t = closedBy tf ys t := by
    unfold closedBy
    rw [h.opened]
    rcases hm : (openedBuckets tf ys).getLast? with _ | m
    · rfl
    · dsimp only
      rw [h.bar hm]
  have hpatched : ∀ {ws : List Tick}, late tf ws t = false → patchedBy tf n ws t = none :=
    fun hws => if_neg (not_late_retained hws)
  have hopen : openCandle tf (vs ++ [t]) = openCandle tf (ys ++ [t]) := by
    have hnext := h.snoc hlate
    unfold openCandle
    rw [hnext.opened]
    rcases hm : (openedBuckets tf (ys ++ [t])).getLast? with _ | m
    · rfl
    · rw [Option.map_some, Option.map_some, hnext.bar hm]
  unfold candleEvents
  rw [hclosed, hopen, hpatched hlate, hpatched (h.late_eq t ▸ hlate)]

/-- A late tick shows the newest candle again. -/
theorem late_bars {ys : List Tick} (hlate : late tf ys t = true) :
    ∃ m, (openedBuckets tf ys).getLast? = some m ∧
      eventBars (candleEvents tf n ys t) = [barOf tf ys m] := by
  unfold late at hlate
  rcases hm : (openedBuckets tf ys).getLast? with _ | m
  · rw [hm] at hlate
    cases hlate
  · rw [hm] at hlate
    have hlt : bucketOf tf t < m := by simpa using hlate
    have hclosed : closedBy tf ys t = none := by simp [closedBy, hm, hlt.le]
    have hpatched : (((patchedBy tf n ys t).toList.map Candle.to_dict).map
        Event.candle_patched).filterMap Event.flows = [] := by
      cases patchedBy tf n ys t <;> simp [Event.flows]
    refine ⟨m, rfl, ?_⟩
    unfold eventBars candleEvents openCandle
    rw [hclosed, getLast?_snoc_of_le hm hlt.le, List.filterMap_append, List.filterMap_append, hpatched]
    simp [Event.flows, barOf, candleOf_snoc_ne hlt.ne]

theorem inTime_snoc (tf : Int) (xs zs : List Tick) (t : Tick) :
    inTime tf xs (zs ++ [t]) = inTime tf xs zs ++ if late tf (xs ++ zs) t then [] else [t] :=
  outputs_snoc _ xs zs t

/-- Ticks move the bars on by their events. What comes late is not seen. -/
theorem follow_ticks (hk : Anchored tf k xs) (zs : List Tick) :
    SameNewest tf (xs ++ inTime tf xs zs) (xs ++ zs) ∧ Anchored tf k (xs ++ inTime tf xs zs) ∧
      follow Bar.time (barsFrom tf k xs) (eventBars (outputs (candleEvents tf n) xs zs)) =
        barsFrom tf k (xs ++ inTime tf xs zs) := by
  induction zs using List.reverseRecOn with
  | nil => exact ⟨⟨rfl, fun m hm => rfl⟩, by simpa [inTime] using hk, by simp [eventBars, follow, inTime]⟩
  | append_singleton zs t ih =>
    obtain ⟨hsame, hanchored, hfollow⟩ := ih
    have hsplit : eventBars (outputs (candleEvents tf n) xs (zs ++ [t])) =
        eventBars (outputs (candleEvents tf n) xs zs) ++ eventBars (candleEvents tf n (xs ++ zs) t) := by
      simp [eventBars, outputs_snoc]
    rw [hsplit, follow_append, hfollow, inTime_snoc, ← List.append_assoc xs zs]
    cases hlate : late tf (xs ++ zs) t with
    | true =>
      rw [if_pos rfl, List.append_nil]
      refine ⟨hsame.skip hlate, hanchored, ?_⟩
      obtain ⟨m, hm, hbars⟩ := late_bars (n := n) hlate
      have hm' : (openedBuckets tf (xs ++ inTime tf xs zs)).getLast? = some m := by rw [hsame.opened, hm]
      have hkm : k < (openedBuckets tf (xs ++ inTime tf xs zs)).length := by
        rcases hanchored with hk | ⟨hnil, -⟩
        · exact hk
        · simp [hnil, openedBuckets] at hm'
      have hbar : barOf tf (xs ++ zs) m = barOf tf (xs ++ inTime tf xs zs) m := by
        rw [barOf, barOf, hsame.bar hm]
      rw [hbars, hbar, barsFrom_newest hm' hkm]
      exact follow_of_update (update_same rfl)
    | false =>
      rw [if_neg (by simp), ← List.append_assoc]
      refine ⟨hsame.snoc hlate, hanchored.snoc t, ?_⟩
      rw [← hsame.events hlate]
      exact follow_tick hanchored (hsame.late_eq t ▸ hlate)

/-- What comes late is seen where it goes to another bucket. -/
theorem inTime_bar {b : Int} (zs : List Tick)
    (h : ∀ u t v, zs = u ++ t :: v → late tf (xs ++ u) t = true → bucketOf tf t ≠ b) :
    barOf tf (xs ++ inTime tf xs zs) b = barOf tf (xs ++ zs) b := by
  have hsame : bucketTicks tf b (inTime tf xs zs) = bucketTicks tf b zs := by
    induction zs using List.reverseRecOn with
    | nil => rfl
    | append_singleton zs t ih =>
      have hrest := ih fun u t' v heq => h u t' (v ++ [t]) (by simp [heq])
      rw [inTime_snoc, bucketTicks_snoc, ← hrest]
      cases hlate : late tf (xs ++ zs) t with
      | true => rw [if_pos rfl, if_neg (h zs t [] rfl hlate), List.append_nil, List.append_nil]
      | false => rw [if_neg (by simp), bucketTicks_snoc]
  unfold barOf candleOf bucketTicks at *
  rw [List.filter_append, List.filter_append, hsame]

theorem barsFrom_times (tf : Int) (k : Nat) (xs : List Tick) :
    (barsFrom tf k xs).map Bar.time = ((openedBuckets tf xs).drop k).map (·.fdiv 1000) := by
  unfold barsFrom
  rw [List.map_map]
  exact List.map_congr_left fun b _ => barOf_time tf xs b

/-- Two charts with the same buckets, of which one starts later. -/
theorem barsFrom_compare {k' : Nat} {zs : List Tick} (hk : k ≤ k')
    (hopened : openedBuckets tf (xs ++ inTime tf xs zs) = openedBuckets tf (xs ++ zs)) :
    (barsFrom tf k' (xs ++ zs)).map Bar.time <:+
        (barsFrom tf k (xs ++ inTime tf xs zs)).map Bar.time ∧
      ∀ x ∈ barsFrom tf k' (xs ++ zs), x ∈ barsFrom tf k (xs ++ inTime tf xs zs) ∨
        ∃ u t v, zs = u ++ t :: v ∧ late tf (xs ++ u) t = true ∧
          (bucketOf tf t).fdiv 1000 = x.time := by
  have hdrop : (openedBuckets tf (xs ++ zs)).drop k' <:+ (openedBuckets tf (xs ++ zs)).drop k := by
    rw [← Nat.add_sub_cancel' hk, ← List.drop_drop]
    exact List.drop_suffix _ _
  refine ⟨?_, ?_⟩
  · rw [barsFrom_times, barsFrom_times, hopened]
    exact hdrop.map _
  · intro x hx
    obtain ⟨b, hb, rfl⟩ := List.mem_map.mp hx
    by_cases h : ∀ u t v, zs = u ++ t :: v → late tf (xs ++ u) t = true → bucketOf tf t ≠ b
    · left
      rw [← inTime_bar zs h]
      apply List.mem_map_of_mem
      rw [hopened]
      exact hdrop.subset hb
    · right
      push Not at h
      obtain ⟨u, t, v, heq, hlate, rfl⟩ := h
      exact ⟨u, t, v, heq, hlate, (barOf_time tf _ _).symm⟩

/-- The last bar of the events is the newest candle's. -/
theorem eventBars_newest {m : Int} (hm : (openedBuckets tf xs).getLast? = some m) :
    (eventBars (outputs (candleEvents tf n) [] xs)).getLast? = some (barOf tf xs m) := by
  rcases xs.eq_nil_or_concat with rfl | ⟨before, t, rfl⟩
  · simp [openedBuckets] at hm
  · rw [List.concat_eq_append] at hm ⊢
    have hlast : ∃ rest, candleEvents tf n before t =
        rest ++ [.candle_update (candleOf tf m (before ++ [t])).to_dict] := by
      unfold candleEvents openCandle
      rw [hm]
      exact ⟨_, rfl⟩
    obtain ⟨rest, hrest⟩ := hlast
    rw [outputs_snoc, List.nil_append, hrest, ← List.append_assoc]
    simp [eventBars, Event.flows, barOf]

/-- Events of the ticks that the chart has in it already do nothing to it, wherever they begin. -/
theorem follow_old_events (hk : Anchored tf k xs) {stale : List Bar}
    (hstale : stale <:+ eventBars (outputs (candleEvents tf n) [] xs)) :
    follow Bar.time (barsFrom tf k xs) stale = barsFrom tf k xs := by
  rcases hk with hk | ⟨rfl, rfl⟩
  · obtain ⟨m, hm⟩ : ∃ m, (openedBuckets tf xs).getLast? = some m :=
      Option.isSome_iff_exists.mp (by rw [List.getLast?_isSome]; rintro hnil; simp [hnil] at hk)
    have hchart := chart_of_events tf n xs
    rw [barsFrom_newest hm hk]
    refine follow_stale (fun x hx => ?_) (fun x hx => ?_)
    · obtain ⟨d, hd, rfl⟩ := List.mem_map.mp (hstale.subset hx)
      rw [barOf_time]
      exact seconds_le (hchart.flows_le d hd m hm)
    · obtain ⟨rest, hrest⟩ := hstale
      have hlast := eventBars_newest (n := n) hm
      rw [← hrest, List.getLast?_append, hx] at hlast
      simpa using hlast
  · have hnil : stale = [] := by simpa [eventBars] using hstale
    rw [hnil]
    rfl

end bars

/-! ## What a load gives -/

/-- The first bucket of a response, of `opened` ones in all, of which the server holds `n` closed. -/
def firstLoaded (n opened : Nat) : Nat := opened - min (n + 1) CANDLE_LIMIT.toNat

theorem slice_from_last {α : Type} (limit : Nat) (hpos : 0 < limit) (xs : List α) :
    slice_from (-(limit : Int)) xs = xs.drop (xs.length - limit) := by
  unfold slice_from
  rw [if_pos (by omega)]
  congr 1
  omega

theorem memory_bars (tf : Int) (n : Nat) (xs : List Tick) :
    (memory tf n xs).map (fun c => bar c.to_dict) =
      barsFrom tf ((openedBuckets tf xs).length - (n + 1)) xs := by
  have hsame : ∀ c ∈ memory tf n xs, bar c.to_dict = (barOf tf xs ∘ (·.bucket_start_ms)) c := by
    intro c hc
    obtain ⟨b, -, rfl | rfl⟩ := mem_candles hc
    · rw [Function.comp_apply, candleOf_bucket]
      rfl
    · rw [Function.comp_apply, closeCandle_bucket, candleOf_bucket, bar_close]
      rfl
  rw [List.map_congr_left hsame, barsFrom, ← List.map_map, memory_buckets]
  rfl

theorem loaded_bars (tf : Int) (n : Nat) (xs : List Tick) :
    ((slice_from (-CANDLE_LIMIT) (memory tf n xs)).map Candle.to_dict).map bar =
      barsFrom tf (firstLoaded n (openedBuckets tf xs).length) xs := by
  have hlength : (memory tf n xs).length = min (n + 1) (openedBuckets tf xs).length := by
    have h := congrArg List.length (memory_buckets tf n xs)
    rw [List.length_map, List.rtake.eq_1, List.length_drop] at h
    omega
  have hslice := slice_from_last CANDLE_LIMIT.toNat (by decide) (memory tf n xs)
  have hlimit : ((CANDLE_LIMIT.toNat : Nat) : Int) = CANDLE_LIMIT := by decide
  rw [hlimit] at hslice
  have hbars : ((memory tf n xs).map Candle.to_dict).map bar =
      barsFrom tf ((openedBuckets tf xs).length - (n + 1)) xs := by
    rw [List.map_map]
    exact memory_bars tf n xs
  rw [hslice, List.map_drop, List.map_drop, hbars, hlength]
  unfold barsFrom firstLoaded
  generalize CANDLE_LIMIT.toNat = limit
  rw [← List.map_drop, List.drop_drop]
  congr 2
  omega

theorem anchored_loaded (tf : Int) (n : Nat) (xs : List Tick) :
    Anchored tf (firstLoaded n (openedBuckets tf xs).length) xs := by
  have hlimit : 0 < CANDLE_LIMIT.toNat := by decide
  unfold Anchored firstLoaded
  by_cases hxs : xs = []
  · subst hxs
    exact Or.inr ⟨rfl, by simp [openedBuckets]⟩
  · left
    have hne : openedBuckets tf xs ≠ [] := fun h => hxs (openedBuckets_eq_nil_iff.mp h)
    have := List.length_pos_iff.mpr hne
    omega

/-- A later load starts no earlier. -/
theorem firstLoaded_mono (tf : Int) (n : Nat) (xs zs : List Tick) :
    firstLoaded n (openedBuckets tf xs).length ≤ firstLoaded n (openedBuckets tf (xs ++ zs)).length := by
  have hopened : (openedBuckets tf xs).length ≤ (openedBuckets tf (xs ++ zs)).length := by
    induction zs using List.reverseRecOn with
    | nil => rw [List.append_nil]
    | append_singleton zs t ih =>
      rw [← List.append_assoc]
      rcases hm : (openedBuckets tf (xs ++ zs)).getLast? with _ | m
      · rw [List.getLast?_eq_none_iff.mp hm, List.length_nil] at ih
        omega
      · rcases lt_or_ge m (bucketOf tf t) with hlt | hge
        · rw [openedBuckets_snoc, pushMax_of_lt hm hlt, List.length_append]
          omega
        · rw [openedBuckets_snoc_of_le hm hge]
          exact ih
  unfold firstLoaded
  omega

/-! ## The server -/

/-- The messages of events, for a chart. -/
theorem shown_events (s : Symbol) (tf : Int) (events : List Event) :
    (events.map Message.event).filterMap (Message.shows s tf) =
      eventBars (events.filter (Event.inChart s tf)) := by
  induction events with
  | nil => rfl
  | cons e events ih =>
    have hone : (Message.event e).shows s tf =
        if e.inChart s tf then e.flows.map bar else none := by
      cases e <;> simp [Message.shows, Event.flows, Event.inChart, Event.data, ofChart]
    rw [List.map_cons, List.filterMap_cons, hone, ih]
    by_cases hchart : e.inChart s tf
    · rw [if_pos hchart, List.filter_cons_of_pos hchart]
      cases hflow : e.flows <;> simp [eventBars, hflow]
    · rw [if_neg hchart, List.filter_cons_of_neg hchart]

section server

variable (upper : Symbol → Symbol) (cfg : Settings) (symbols : List Symbol) (persistence : Bool)

theorem outputs_chart {cfg : Settings} {s : Symbol} {tf : Int} (htf : tf ∈ cfg.candle_timeframes_sec)
    (P : List Tick) (hP : ∀ t ∈ P, t.symbol = s) :
    (outputs (tickEvents cfg) [] P).filter (Event.inChart s tf) =
      outputs (candleEvents tf cfg.candle_history_len) [] P := by
  induction P using List.reverseRecOn with
  | nil => rfl
  | append_singleton P t ih =>
    rw [outputs_snoc, outputs_snoc, List.nil_append, List.filter_append,
      ih (fun u hu => hP u (by simp [hu])), tickEvents_own htf hP]

/-- A batch has chart events of its own symbol only. -/
theorem run_events_symbol (ops : List pipeline.Op) {s : Symbol} {tf : Int} {o : Obs}
    (ho : o ∈ (run (Pipeline.step cfg) (Pipeline.new upper cfg symbols persistence) ops).1.flatten)
    (hother : o.batchOf s = false) : o.events.filter (Event.inChart s tf) = [] := by
  cases o with
  | rate s' count => rfl
  | raised s' => rfl
  | batch s' ticks events records =>
    have hs' : Obs.batchOf s' (.batch s' ticks events records) = true := by simp [Obs.batchOf]
    have hne : s' ≠ s := by simpa [Obs.batchOf] using hother
    obtain ⟨lane, _, hrun⟩ := run_laneRun_of_any upper cfg symbols persistence s' ops
    rw [List.filter_eq_nil_iff]
    intro e he
    have hmem : e ∈ outputs (tickEvents cfg) [] lane.processed := by
      rw [← hrun.events_eq]
      exact List.mem_flatMap.mpr ⟨_, List.mem_filter.mpr ⟨ho, hs'⟩, he⟩
    obtain ⟨xs, t, ys, heq, he⟩ := mem_outputs hmem
    have hown : ∀ u ∈ xs ++ [t], u.symbol = s' := by
      intro u hu
      apply hrun.processed_own
      rw [heq]
      rcases List.mem_append.mp hu with hu | hu
      · simp [hu]
      · simp [List.mem_singleton.mp hu]
    have hnone : (tickEvents cfg xs t).filter (Event.inChart s tf) = [] := tickEvents_other hown hne
    exact List.filter_eq_nil_iff.mp hnone e (by simpa using he)

/-- The chart events of a run are those of the symbol's ticks, and the server holds what these make. -/
theorem run_chart (ops : List pipeline.Op) {s : Symbol} {tf : Int} (htf : tf ∈ cfg.candle_timeframes_sec) :
    let r := run (Pipeline.step cfg) (Pipeline.new upper cfg symbols persistence) ops
    (r.1.flatten.flatMap Obs.events).filter (Event.inChart s tf) =
        outputs (candleEvents tf cfg.candle_history_len) [] (processedOf s r.1.flatten) ∧
      Remembers r.2 s (processedOf s r.1.flatten) := by
  intro r
  obtain ⟨lane, hlane, hrun⟩ := run_laneRun_of_any upper cfg symbols persistence s ops
  have hprocessed : processedOf s r.1.flatten = lane.processed := hrun.processed_eq
  have hown : ∀ obs : List Obs, (∀ o ∈ obs, o ∈ r.1.flatten) →
      (obs.flatMap Obs.events).filter (Event.inChart s tf) =
        ((obs.filter (Obs.batchOf s)).flatMap Obs.events).filter (Event.inChart s tf) := by
    intro obs hobs
    induction obs with
    | nil => rfl
    | cons o obs ih =>
      have hrest := ih fun o' ho' => hobs o' (by simp [ho'])
      rw [List.flatMap_cons, List.filter_append, hrest]
      cases hb : o.batchOf s with
      | true => rw [List.filter_cons_of_pos hb, List.flatMap_cons, List.filter_append]
      | false =>
        rw [List.filter_cons_of_neg (by simp [hb]),
          run_events_symbol upper cfg symbols persistence ops (hobs o (by simp)) hb, List.nil_append]
  refine ⟨?_, hprocessed ▸ hlane.remembers⟩
  rw [hown _ (fun o ho => ho), hrun.events_eq, hprocessed]
  exact outputs_chart htf _ hrun.processed_own

/-- What a load of the page gets. -/
theorem load_bars {p : Pipeline} {s : Symbol} {tf : Int} {xs : List Tick} (hcfg : Configured cfg p)
    (htf : tf ∈ cfg.candle_timeframes_sec) (h : Remembers p (upper s) xs) (db : sqlite_store.Database) :
    (TimeSeriesStore.get_candles upper ⟨p, db⟩ s tf CANDLE_LIMIT).map bar =
      barsFrom tf (firstLoaded cfg.candle_history_len (openedBuckets tf xs).length) xs := by
  rw [get_candles_memory upper hcfg htf h]
  exact loaded_bars tf cfg.candle_history_len xs

end server

end tick_pipeline.dashboard
