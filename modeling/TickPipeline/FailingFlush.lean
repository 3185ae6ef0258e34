-- What a failing flush costs: nothing is lost in a run exactly when each flush that
-- raises before its commit carries nothing that the database does not have.
import TickPipeline.StopLaws

namespace tick_pipeline.sqlite_store

open runs models keyed_table

/-- The rows that stood outside the buffers at a start, and the rows recorded since: all are
committed but those that stand in the buffers. -/
structure Written (ticks0 : List TickRow) (candles0 : List CandleRow) (ticks : List TickRow)
    (candles : List CandleRow) (w : SQLiteWriter) : Prop where
  ticks_eq : ∃ since, ticks = since ++ w.tick_buffer ∧ w.db.ticks = ticks0 ++ since
  candles_eq : ∃ since, candles = since ++ w.candle_buffer ∧
    Covered CandleRow.key (candles0 ++ since) w.db.candles

theorem Flow.written {ticks0 ticks : List TickRow} {candles0 candles : List CandleRow}
    {w : SQLiteWriter} (h : Flow ticks0 candles0 ticks candles w) (hidle : w.flush = none) :
    Written ticks0 candles0 ticks candles w := by
  obtain ⟨_, ⟨since, ht1, ht2⟩, ⟨csince, hc1, gone, hc2, hcov⟩⟩ := h
  rw [movingTicks_of_none hidle, List.append_nil] at ht2
  rw [movingCandles_of_none hidle, List.append_nil] at hc2
  refine ⟨⟨since, ht1, ht2⟩, ⟨csince, hc1, ?_⟩⟩
  rw [hc2]
  exact hcov

/-- Each tick row is committed once or stands in its buffer. Each candle row is committed, has
given way to a later row of its key that is, or stands in its buffer. -/
structure Safe (ticks : List TickRow) (candles : List CandleRow) (w : SQLiteWriter) : Prop where
  ticks_perm : (w.db.ticks ++ w.tick_buffer).Perm ticks
  candles_eq : ∃ done, candles = done ++ w.candle_buffer ∧
    Covered CandleRow.key done w.db.candles

theorem Written.safe {ticks : List TickRow} {candles : List CandleRow} {w : SQLiteWriter}
    (h : Written [] [] ticks candles w) : Safe ticks candles w := by
  obtain ⟨⟨since, ht1, ht2⟩, hc⟩ := h
  refine ⟨?_, hc⟩
  rw [ht2, List.nil_append, ht1]

/-- A run loses nothing: all rows are safe whenever no flush is on its way, and a flush that
does not raise writes all that stood in the buffers. -/
structure LosesNothing (ops : List WriterOp) : Prop where
  safe : ∀ before, before <+: ops → (SQLiteWriter.after before).flush = none →
    Safe (before.flatMap WriterOp.ticks) (before.flatMap WriterOp.candles)
      (SQLiteWriter.after before)
  written : ∀ before during, before ++ .flush :: during <+: ops →
    (SQLiteWriter.after before).flush = none → .await false ∉ during →
    (SQLiteWriter.after (before ++ .flush :: during)).flush = none →
    Written ((SQLiteWriter.after before).db.ticks ++ (SQLiteWriter.after before).tick_buffer)
      (SQLiteWriter.after before).candle_buffer
      (during.flatMap WriterOp.ticks) (during.flatMap WriterOp.candles)
      (SQLiteWriter.after (before ++ .flush :: during))

/-- Whenever an await of a flush raises, the flush carries nothing that the database has not. -/
def RaisesHarmless (ops : List WriterOp) : Prop :=
  ∀ before, before ++ [.await false] <+: ops → Harmless (SQLiteWriter.after before)

theorem flow_of_harmless {ops : List WriterOp} (h : RaisesHarmless ops) :
    Flow [] [] (ops.flatMap WriterOp.ticks) (ops.flatMap WriterOp.candles)
      (SQLiteWriter.after ops) :=
  flow_new.run ops h

theorem RaisesHarmless.prefix_of {before ops : List WriterOp} (h : RaisesHarmless ops)
    (hpre : before <+: ops) : RaisesHarmless before :=
  fun earlier hearlier => h earlier (hearlier.trans hpre)

/-- Whatever came before, a flush that does not raise writes what stands in the buffers. -/
theorem flush_writes_the_buffers {w : SQLiteWriter} (hidle : w.flush = none)
    (during : List WriterOp) (hok : .await false ∉ during)
    (hidle' : (run SQLiteWriter.step w (.flush :: during)).2.flush = none) :
    Written (w.db.ticks ++ w.tick_buffer) w.candle_buffer (during.flatMap WriterOp.ticks)
      (during.flatMap WriterOp.candles) (run SQLiteWriter.step w (.flush :: during)).2 := by
  have hstart : Flow w.db.ticks [] (w.tick_buffer ++ []) (w.candle_buffer ++ []) w := by
    refine ⟨?_, ⟨[], by simp, ?_⟩, ⟨[], by simp, [], ?_, covered_nil _⟩⟩
    · intro f hf
      rw [hidle] at hf
      cases hf
    · rw [movingTicks_of_none hidle]
    · rw [movingCandles_of_none hidle]
  have hbegun := hstart.swapped hidle
  have hstep : (w.step .flush).2 = w.begin_flush := by
    unfold SQLiteWriter.step
    rw [hidle]
    rfl
  rw [← hstep, List.nil_append] at hbegun
  have hrun := hbegun.run during (fun before hpre => absurd (hpre.subset (by simp)) hok)
  rw [List.nil_append, List.nil_append] at hrun
  exact hrun.written hidle'

/-- If the rows are safe after a flush has raised, it carried nothing of worth. -/
theorem harmless_of_safe {ticks : List TickRow} {candles : List CandleRow} {w : SQLiteWriter}
    (h : Flow [] [] ticks candles w) (hsafe : ∀ f, w.flush = some f → Safe ticks candles (w.await false)) :
    Harmless w := by
  intro f hf hopen
  obtain ⟨_, ⟨since, ht1, ht2⟩, ⟨csince, hc1, gone, hc2, _⟩⟩ := h
  rw [movingTicks_of_open hf hopen, List.nil_append] at ht2
  rw [movingCandles_of_open hf hopen, List.nil_append] at hc2
  have hraised : w.await false = { w with flush := none } := by
    unfold SQLiteWriter.await
    rw [hf]
    rfl
  have hw := hsafe f hf
  rw [hraised] at hw
  obtain ⟨hperm, done, hdone, hcov⟩ := hw
  refine ⟨?_, ?_⟩
  · have hlen := hperm.length_eq
    simp only [ht1, ← ht2, List.length_append] at hlen
    exact List.eq_nil_of_length_eq_zero (by omega)
  · rw [hc1, hc2] at hdone
    have heq : gone ++ f.candles = done := List.append_cancel_right hdone
    rw [← heq] at hcov
    exact covered_of_append hcov

theorem harmless_of_losesNothing {ops : List WriterOp} (h : LosesNothing ops) :
    RaisesHarmless ops := by
  induction ops using List.reverseRecOn with
  | nil =>
    intro before hpre
    simp at hpre
  | append_singleton ops op ih =>
    have hops : RaisesHarmless ops := by
      apply ih
      exact ⟨fun before hpre => h.safe before (hpre.trans (List.prefix_append _ _)),
        fun before during hpre => h.written before during (hpre.trans (List.prefix_append _ _))⟩
    intro before hpre
    rcases List.prefix_concat_iff.mp hpre with heq | hpre
    · obtain ⟨rfl, hop⟩ := List.append_inj' heq rfl
      obtain rfl : .await false = op := by simpa using hop
      apply harmless_of_safe (flow_of_harmless hops)
      intro f hf
      have hsafe := h.safe (before ++ [.await false]) List.prefix_rfl
      rw [SQLiteWriter.after_append] at hsafe
      simp only [List.flatMap_append, List.flatMap_singleton, WriterOp.ticks, WriterOp.candles,
        List.append_nil] at hsafe
      apply hsafe
      simp [SQLiteWriter.step, SQLiteWriter.await, hf]
    · exact hops before hpre

/-- A run of calls and flushes loses nothing exactly when each flush that raises before its
commit carries no tick, and no candle that the database lacks. And in every run of the loop and
`stop`, once `stop` has returned, all that was recorded before it was called is written. -/
theorem a_run_loses_nothing_unless_a_flush_raises (ops : List WriterOp)
    (before after : List TaskOp) :
    (LosesNothing ops ↔ RaisesHarmless ops) ∧
    ((WriterTask.after before).stop_call = .not_called →
      (WriterTask.after (before ++ after)).stop_call = .returned →
      Written (before.flatMap TaskOp.ticks) (before.flatMap TaskOp.candles)
        (after.flatMap TaskOp.ticks) (after.flatMap TaskOp.candles)
        (WriterTask.after (before ++ after)).writer) := by
  refine ⟨⟨harmless_of_losesNothing, fun h => ⟨?_, ?_⟩⟩, ?_⟩
  · intro earlier hpre hidle
    exact ((flow_of_harmless (h.prefix_of hpre)).written hidle).safe
  · intro earlier during _ hidle hok hidle'
    rw [SQLiteWriter.after_append] at hidle' ⊢
    exact flush_writes_the_buffers hidle during hok hidle'
  · intro hcall hreturned
    obtain ⟨hidle, hflow⟩ := stop_writes_what_was_recorded before after hcall hreturned
    exact hflow.written hidle

/-- A tick is recorded, and another one after the loop has swapped the buffers out. The flush of the
loop writes the first, and the flush of `stop` the second. -/
theorem a_run_loses_nothing_unless_a_flush_raises_of_two :
    let tick (id time : Int) : Tick := ⟨"BTC-USD", 100, 1, id, time, false, 0⟩
    let before : List TaskOp := [.wake, .record_tick (tick 1 1000), .wake, .record_tick (tick 2 2000)]
    let after : List TaskOp := [.stop, .await true, .await true, .await true, .await true, .resume_stop,
      .await true, .await true, .await true, .await true]
    let w := (WriterTask.after (before ++ after)).writer
    w.db.ticks = [tickRow (tick 1 1000), tickRow (tick 2 2000)] ∧
      Written [tickRow (tick 1 1000), tickRow (tick 2 2000)] [] [] [] w := by
  intro tick before after w
  have hcall : (WriterTask.after before).stop_call = .not_called := by decide
  have hreturned : (WriterTask.after (before ++ after)).stop_call = .returned := by decide
  have hrows : w.db.ticks = [tickRow (tick 1 1000), tickRow (tick 2 2000)] := by decide +kernel
  exact ⟨hrows, (a_run_loses_nothing_unless_a_flush_raises [] before after).2 hcall hreturned⟩

/-- One tick is recorded, and the connect of the flush raises. -/
theorem a_failing_connect_loses_the_tick :
    let t : Tick := ⟨"BTC-USD", 100, 1, 1, 1000, false, 0⟩
    let ops := [.record_tick t, .flush, .await false]
    (SQLiteWriter.after ops).flush = none ∧ ops.flatMap WriterOp.ticks = [tickRow t] ∧
      (SQLiteWriter.after ops).db.ticks = [] ∧ (SQLiteWriter.after ops).tick_buffer = [] ∧
      ¬ LosesNothing ops := by
  intro t ops
  refine ⟨rfl, rfl, rfl, rfl, ?_⟩
  intro h
  have hperm := (h.safe ops List.prefix_rfl rfl).ticks_perm
  have hlen := hperm.length_eq
  cases hlen

end tick_pipeline.sqlite_store
