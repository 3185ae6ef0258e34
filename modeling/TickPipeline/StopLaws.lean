-- The loop and `stop` as callers of the flush. Only one of them runs a flush at a
-- time, and once `stop` has returned, its last flush has written what stood in the
-- buffers when `stop` was called.
import TickPipeline.FlushLaws

namespace tick_pipeline.sqlite_store

open runs models keyed_table

/-! ## One caller at a time -/

/-- A flush on its way has one owner, and `stop` flushes only once the loop has finished. -/
structure Owned (s : WriterTask) : Prop where
  owner : s.writer.flush.isSome = true ↔ s.task = .flushing ∨ s.stop_call = .flushing
  stop_last : s.stop_call = .flushing ∨ s.stop_call = .returned → s.task = .finished

theorem owned_new : Owned WriterTask.new := by
  refine ⟨?_, ?_⟩
  · simp [WriterTask.new, SQLiteWriter.new]
  · simp [WriterTask.new]

section steps

variable {s : WriterTask}

theorem Owned.idle (h : Owned s) (htask : s.task ≠ .flushing) (hcall : s.stop_call ≠ .flushing) :
    s.writer.flush = none := by
  cases hf : s.writer.flush with
  | none => rfl
  | some f =>
    rcases h.owner.mp (by rw [hf]; rfl) with hf | hf
    · exact absurd hf htask
    · exact absurd hf hcall

theorem Owned.stop_pending (h : Owned s) (htask : s.task ≠ .finished) :
    s.stop_call ≠ .flushing ∧ s.stop_call ≠ .returned :=
  ⟨fun hc => htask (h.stop_last (Or.inl hc)), fun hc => htask (h.stop_last (Or.inr hc))⟩

theorem await_idle {w : SQLiteWriter} (hidle : w.flush = none) (ok : Bool) : w.await ok = w := by
  unfold SQLiteWriter.await
  rw [hidle]

/-- The head of the loop, when no flush is on its way. -/
theorem loop_head_owned (hidle : s.writer.flush = none)
    (hcall : s.stop_call ≠ .flushing ∧ s.stop_call ≠ .returned) : Owned s.loop_head := by
  unfold WriterTask.loop_head
  refine ⟨?_, ?_⟩
  · simp only [hidle, Option.isSome_none, Bool.false_eq_true, false_iff, not_or]
    refine ⟨?_, hcall.1⟩
    split <;> simp
  · rintro (hc | hc)
    · exact absurd hc hcall.1
    · exact absurd hc hcall.2

theorem wake_owned (h : Owned s) : Owned s.wake := by
  unfold WriterTask.wake
  cases htask : s.task with
  | created =>
    have hcall := h.stop_pending (by simp [htask])
    exact loop_head_owned (h.idle (by simp [htask]) hcall.1) hcall
  | sleeping =>
    have hcall := h.stop_pending (by simp [htask])
    dsimp only
    cases hf : s.writer.begin_flush.flush with
    | none => exact loop_head_owned hf hcall
    | some f =>
      refine ⟨by simp [hf], ?_⟩
      rintro (hc | hc)
      · exact absurd hc hcall.1
      · exact absurd hc hcall.2
  | flushing => exact h
  | finished => exact h
  | failed => exact h

theorem await_owned (h : Owned s) (ok : Bool) : Owned (s.await ok) := by
  unfold WriterTask.await
  dsimp only
  cases hf : s.writer.flush with
  | none =>
    rw [await_idle hf]
    simpa [hf] using h
  | some f =>
    have howner := h.owner.mp (by rw [hf]; rfl)
    cases hf' : (s.writer.await ok).flush with
    | some f' =>
      refine ⟨?_, ?_⟩
      · simpa [hf'] using howner
      · simpa [hf'] using h.stop_last
    | none =>
      simp only [Option.isSome_some, Option.isNone_none, Bool.and_self, if_true]
      by_cases htask : s.task = .flushing
      · have hcall := h.stop_pending (by simp [htask])
        rw [if_pos htask]
        cases ok with
        | true => exact loop_head_owned hf' hcall
        | false =>
          refine ⟨?_, ?_⟩
          · simpa [hf'] using hcall.1
          · rintro (hc | hc)
            · exact absurd hc hcall.1
            · exact absurd hc hcall.2
      · have hcall := howner.resolve_left htask
        rw [if_neg htask]
        refine ⟨?_, fun _ => h.stop_last (Or.inl hcall)⟩
        cases ok <;> simpa [hf'] using htask

theorem call_stop_owned (h : Owned s) : Owned s.call_stop := by
  unfold WriterTask.call_stop
  cases hcall : s.stop_call with
  | not_called =>
    refine ⟨?_, ?_⟩
    · have := h.owner
      simpa [hcall] using this
    · rintro (hc | hc) <;> cases hc
  | waiting => exact h
  | flushing => exact h
  | returned => exact h
  | raised => exact h

/-- What `stop` does when it runs on. -/
theorem resume_stop_cases (s : WriterTask) :
    (s.stop_call = .waiting ∧ s.task = .finished ∧ s.resume_stop =
      { s with
        writer := s.writer.begin_flush
        stop_call := if s.writer.begin_flush.flush.isSome then .flushing else .returned }) ∨
    (s.stop_call = .waiting ∧ s.task = .failed ∧ s.resume_stop = { s with stop_call := .raised }) ∨
    (¬ (s.stop_call = .waiting ∧ s.task = .finished) ∧ s.resume_stop = s) := by
  unfold WriterTask.resume_stop
  cases hcall : s.stop_call <;> cases htask : s.task <;> simp

theorem resume_stop_owned (h : Owned s) : Owned s.resume_stop := by
  obtain ⟨hcall, htask, heq⟩ | ⟨hcall, htask, heq⟩ | ⟨_, heq⟩ := resume_stop_cases s
  · rw [heq]
    refine ⟨?_, fun _ => htask⟩
    cases hf : s.writer.begin_flush.flush <;> simp [htask]
  · rw [heq]
    refine ⟨?_, ?_⟩
    · have := h.owner
      simpa [hcall] using this
    · rintro (hc | hc) <;> cases hc
  · rw [heq]
    exact h

/-! ## What a step does to the writer -/

/-- No flush has raised, so neither has its caller. -/
def WriterTask.Healthy (s : WriterTask) : Prop := s.task ≠ .failed ∧ s.stop_call ≠ .raised

/-- `stop` has come to its flush. -/
def StopCall.Flushed (call : StopCall) : Prop := call = .flushing ∨ call = .returned

theorem Owned.healthy (h : Owned s) (hflushed : s.stop_call.Flushed) : s.Healthy := by
  refine ⟨?_, ?_⟩
  · rw [h.stop_last hflushed]
    simp
  · rcases hflushed with hc | hc <;> rw [hc] <;> simp

theorem wake_cases (s : WriterTask) :
    s.wake.stop_call = s.stop_call ∧ (s.task = .failed → s.wake.task = .failed) ∧
      (s.wake.writer = s.writer ∨ s.task = .sleeping ∧ s.wake.writer = s.writer.begin_flush) := by
  unfold WriterTask.wake
  cases htask : s.task with
  | created => exact ⟨rfl, by simp, Or.inl rfl⟩
  | sleeping =>
    dsimp only
    split
    · exact ⟨rfl, by simp, Or.inr ⟨rfl, rfl⟩⟩
    · exact ⟨rfl, by simp, Or.inr ⟨rfl, rfl⟩⟩
  | flushing => exact ⟨rfl, by simp [htask], Or.inl rfl⟩
  | finished => exact ⟨rfl, by simp [htask], Or.inl rfl⟩
  | failed => exact ⟨rfl, by simp [htask], Or.inl rfl⟩

/-- An exception that ends a flush ends its caller. -/
theorem await_cases (h : Owned s) (ok : Bool) :
    (s.await ok).writer = s.writer.await ok ∧
      ((s.await ok).stop_call.Flushed → s.stop_call.Flushed) ∧
      ((s.await ok).Healthy → s.Healthy ∧ (ok = false → s.writer.flush = none)) := by
  unfold WriterTask.await
  dsimp only
  cases hf : s.writer.flush with
  | none =>
    rw [await_idle hf]
    simp
  | some f =>
    have howner := h.owner.mp (by rw [hf]; rfl)
    cases hf' : (s.writer.await ok).flush with
    | some f' =>
      have hok : ok = true := by
        cases ok with
        | true => rfl
        | false => simp [SQLiteWriter.await, hf] at hf'
      simp [hok, WriterTask.Healthy]
    | none =>
      simp only [Option.isSome_some, Option.isNone_none, Bool.and_self, if_true]
      by_cases htask : s.task = .flushing
      · rw [if_pos htask]
        cases ok with
        | true => exact ⟨rfl, fun hfl => hfl, fun hh => ⟨⟨by simp [htask], hh.2⟩, by simp⟩⟩
        | false => exact ⟨rfl, fun hfl => hfl, fun hh => absurd rfl hh.1⟩
      · have hcall := howner.resolve_left htask
        rw [if_neg htask]
        refine ⟨rfl, fun _ => Or.inl hcall, ?_⟩
        intro hh
        refine ⟨⟨hh.1, by simp [hcall]⟩, ?_⟩
        rintro rfl
        exact absurd rfl hh.2

/-- A flush of the loop leaves `stop` where it is. -/
theorem await_stop_call (h : Owned s) (ok : Bool) (hcall : s.stop_call ≠ .flushing) :
    (s.await ok).stop_call = s.stop_call := by
  unfold WriterTask.await
  dsimp only
  split
  · rename_i hended
    have hsome : s.writer.flush.isSome = true := (Bool.and_eq_true_iff.mp hended).1
    rw [if_pos ((h.owner.mp hsome).resolve_right hcall)]
    cases ok <;> rfl
  · rfl

theorem call_stop_cases (s : WriterTask) :
    s.call_stop.writer = s.writer ∧ s.call_stop.task = s.task ∧
      (s.call_stop.stop_call.Flushed → s.stop_call.Flushed) ∧
      (s.stop_call = .raised → s.call_stop.stop_call = .raised) := by
  unfold WriterTask.call_stop
  cases hcall : s.stop_call <;> simp [hcall, StopCall.Flushed]

end steps

/-! ## The rows -/

/-- While no flush raises, no row is lost. Once `stop` has come to its flush, the rows that were
there before have left the buffers. -/
structure Serves (ticks1 : List TickRow) (candles1 : List CandleRow) (ticks2 : List TickRow)
    (candles2 : List CandleRow) (s : WriterTask) : Prop where
  owned : Owned s
  flow : s.Healthy → Flow [] [] (ticks1 ++ ticks2) (candles1 ++ candles2) s.writer
  flushed : s.stop_call.Flushed → Flow ticks1 candles1 ticks2 candles2 s.writer

section serves

variable {ticks1 ticks2 : List TickRow} {candles1 candles2 : List CandleRow} {s : WriterTask}

theorem Serves.wake (h : Serves ticks1 candles1 ticks2 candles2 s) :
    Serves ticks1 candles1 ticks2 candles2 s.wake := by
  obtain ⟨howned, hflow, hflushed⟩ := h
  obtain ⟨hcall, hfailed, hwriter⟩ := wake_cases s
  have hhealthy : s.wake.Healthy → s.Healthy :=
    fun hh => ⟨fun ht => hh.1 (hfailed ht), hcall ▸ hh.2⟩
  refine ⟨wake_owned howned, ?_, ?_⟩
  · intro hh
    rcases hwriter with hw | ⟨htask, hw⟩
    · rw [hw]
      exact hflow (hhealthy hh)
    · rw [hw]
      exact (hflow (hhealthy hh)).begin_flush
        (howned.idle (by simp [htask]) (howned.stop_pending (by simp [htask])).1)
  · intro hfl
    rw [hcall] at hfl
    rcases hwriter with hw | ⟨htask, _⟩
    · rw [hw]
      exact hflushed hfl
    · rw [howned.stop_last hfl] at htask
      cases htask

theorem Serves.await (h : Serves ticks1 candles1 ticks2 candles2 s) (ok : Bool) :
    Serves ticks1 candles1 ticks2 candles2 (s.await ok) := by
  obtain ⟨howned, hflow, hflushed⟩ := h
  obtain ⟨hwriter, hcall, hhealthy⟩ := await_cases howned ok
  have howned' := await_owned howned ok
  have hharmless : (s.await ok).Healthy → ok = false → Harmless s.writer := by
    intro hh hok f hf
    rw [(hhealthy hh).2 hok] at hf
    cases hf
  refine ⟨howned', ?_, ?_⟩
  · intro hh
    rw [hwriter]
    exact (hflow (hhealthy hh).1).await ok (hharmless hh)
  · intro hfl
    rw [hwriter]
    exact (hflushed (hcall hfl)).await ok (hharmless (howned'.healthy hfl))

theorem Serves.call_stop (h : Serves ticks1 candles1 ticks2 candles2 s) :
    Serves ticks1 candles1 ticks2 candles2 s.call_stop := by
  obtain ⟨howned, hflow, hflushed⟩ := h
  obtain ⟨hwriter, htask, hcall, hraised⟩ := call_stop_cases s
  refine ⟨call_stop_owned howned, ?_, ?_⟩
  · intro hh
    rw [hwriter]
    exact hflow ⟨htask ▸ hh.1, fun hc => hh.2 (hraised hc)⟩
  · intro hfl
    rw [hwriter]
    exact hflushed (hcall hfl)

theorem Serves.resume_stop (h : Serves ticks1 candles1 ticks2 candles2 s) :
    Serves ticks1 candles1 ticks2 candles2 s.resume_stop := by
  obtain ⟨howned, hflow, hflushed⟩ := h
  have howned' := resume_stop_owned howned
  obtain ⟨hcall, htask, heq⟩ | ⟨_, _, heq⟩ | ⟨_, heq⟩ := resume_stop_cases s
  · have hbefore := hflow ⟨by simp [htask], by simp [hcall]⟩
    have hidle := howned.idle (by simp [htask]) (by simp [hcall])
    rw [heq] at howned' ⊢
    exact ⟨howned', fun _ => hbefore.begin_flush hidle, fun _ => hbefore.swapped hidle⟩
  · rw [heq] at howned' ⊢
    refine ⟨howned', fun hh => absurd rfl hh.2, ?_⟩
    rintro (hc | hc) <;> cases hc
  · rw [heq]
    exact ⟨howned, hflow, hflushed⟩

theorem Serves.step (h : Serves ticks1 candles1 ticks2 candles2 s) (op : TaskOp) :
    Serves ticks1 candles1 (ticks2 ++ op.ticks) (candles2 ++ op.candles) (s.step op).2 := by
  cases op with
  | record_tick t =>
    unfold TaskOp.candles
    rw [List.append_nil]
    refine ⟨⟨h.owned.owner, h.owned.stop_last⟩, ?_, fun hfl => (h.flushed hfl).record_tick t⟩
    intro hh
    rw [← List.append_assoc]
    exact (h.flow hh).record_tick t
  | record_candle d =>
    unfold TaskOp.ticks
    rw [List.append_nil]
    refine ⟨⟨h.owned.owner, h.owned.stop_last⟩, ?_, fun hfl => (h.flushed hfl).record_candle d⟩
    intro hh
    rw [← List.append_assoc]
    exact (h.flow hh).record_candle d
  | wake =>
    unfold TaskOp.ticks TaskOp.candles
    rw [List.append_nil, List.append_nil]
    exact h.wake
  | await ok =>
    unfold TaskOp.ticks TaskOp.candles
    rw [List.append_nil, List.append_nil]
    exact h.await ok
  | stop =>
    unfold TaskOp.ticks TaskOp.candles
    rw [List.append_nil, List.append_nil]
    exact h.call_stop
  | resume_stop =>
    unfold TaskOp.ticks TaskOp.candles
    rw [List.append_nil, List.append_nil]
    exact h.resume_stop

theorem Serves.run (h : Serves ticks1 candles1 ticks2 candles2 s) (ops : List TaskOp) :
    Serves ticks1 candles1 (ticks2 ++ ops.flatMap TaskOp.ticks)
      (candles2 ++ ops.flatMap TaskOp.candles) (runs.run WriterTask.step s ops).2 := by
  apply run_history WriterTask.step (P := fun ops _ s =>
    Serves ticks1 candles1 (ticks2 ++ ops.flatMap TaskOp.ticks)
      (candles2 ++ ops.flatMap TaskOp.candles) s)
  · simpa using h
  · intro ops _ s op ih
    rw [List.flatMap_append, List.flatMap_append, List.flatMap_singleton, List.flatMap_singleton,
      ← List.append_assoc, ← List.append_assoc]
    exact ih.step op

end serves

theorem serves_new : Serves [] [] [] [] WriterTask.new :=
  ⟨owned_new, fun _ => flow_new, fun _ => flow_new⟩

/-- Once `stop` has returned, no flush is on its way, and all that was recorded before `stop`
came to its flush has left the buffers for the database. -/
theorem stop_writes_what_came_before (before after : List TaskOp)
    (hbefore : ¬ (WriterTask.after before).stop_call.Flushed)
    (hreturned : (WriterTask.after (before ++ after)).stop_call = .returned) :
    (WriterTask.after (before ++ after)).writer.flush = none ∧
      Flow (before.flatMap TaskOp.ticks) (before.flatMap TaskOp.candles)
        (after.flatMap TaskOp.ticks) (after.flatMap TaskOp.candles)
        (WriterTask.after (before ++ after)).writer := by
  have hstart := serves_new.run before
  rw [List.nil_append, List.nil_append] at hstart
  have hmark : Serves (before.flatMap TaskOp.ticks) (before.flatMap TaskOp.candles) [] []
      (WriterTask.after before) := by
    refine ⟨hstart.owned, fun hh => ?_, fun hfl => absurd hfl hbefore⟩
    rw [List.append_nil, List.append_nil]
    exact hstart.flow hh
  have hafter := hmark.run after
  rw [List.nil_append, List.nil_append, ← WriterTask.after_append] at hafter
  refine ⟨hafter.owned.idle ?_ ?_, hafter.flushed (Or.inr hreturned)⟩
  · rw [hafter.owned.stop_last (Or.inr hreturned)]
    simp
  · rw [hreturned]
    simp

/-- Once `stop` has returned, no flush is on its way, and all that was recorded before `stop`
was called has left the buffers for the database. -/
theorem stop_writes_what_was_recorded (before after : List TaskOp)
    (hcall : (WriterTask.after before).stop_call = .not_called)
    (hreturned : (WriterTask.after (before ++ after)).stop_call = .returned) :
    (WriterTask.after (before ++ after)).writer.flush = none ∧
      Flow (before.flatMap TaskOp.ticks) (before.flatMap TaskOp.candles)
        (after.flatMap TaskOp.ticks) (after.flatMap TaskOp.candles)
        (WriterTask.after (before ++ after)).writer := by
  apply stop_writes_what_came_before before after ?_ hreturned
  rintro (hc | hc) <;> simp [hcall] at hc

end tick_pipeline.sqlite_store
