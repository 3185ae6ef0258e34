-- The writer is exact while the database does not fail: at each point a run is cut
-- in three, what is committed, what a flush has swapped out, and what the buffers
-- hold, each with its rows in the order they were recorded.
import TickPipeline.StopLaws

namespace tick_pipeline.sqlite_store

open runs models keyed_table

/-- The rows of a flush that stand in the database, but not in `rows_written` yet. -/
def SQLiteWriter.owed (w : SQLiteWriter) : Nat :=
  match w.flush with
  | none => 0
  | some f => if f.at_ = .close then f.ticks.length + f.candles.length else 0

/-- The number of rows that a list of ops records. -/
def rowCount (ops : List TaskOp) : Nat :=
  (ops.flatMap TaskOp.ticks).length + (ops.flatMap TaskOp.candles).length

/-- The three parts of a run: the ops up to the last committed swap, those up to the swap of a
flush that has not committed, and those since. -/
structure Tracks (committed moving since : List TaskOp) (w : SQLiteWriter) : Prop where
  staged : w.Staged
  db_ticks : w.db.ticks = committed.flatMap TaskOp.ticks
  db_candles : w.db.candles = replaceAll CandleRow.key [] (committed.flatMap TaskOp.candles)
  moving_ticks : w.movingTicks = moving.flatMap TaskOp.ticks
  moving_candles : w.movingCandles = moving.flatMap TaskOp.candles
  tick_buffer : w.tick_buffer = since.flatMap TaskOp.ticks
  candle_buffer : w.candle_buffer = since.flatMap TaskOp.candles
  rows_written : w.rows_written + w.owed = rowCount committed

theorem tracks_new : Tracks [] [] [] SQLiteWriter.new := by
  refine ⟨?_, rfl, rfl, rfl, rfl, rfl, rfl, rfl⟩
  intro f hf
  cases hf

theorem rowCount_append (xs ys : List TaskOp) : rowCount (xs ++ ys) = rowCount xs + rowCount ys := by
  unfold rowCount
  simp only [List.flatMap_append, List.length_append]
  omega

/-! ## What a step does to the three parts -/

section parts

variable {committed moving since : List TaskOp} {w : SQLiteWriter}

theorem Tracks.record_tick (h : Tracks committed moving since w) (t : Tick) :
    Tracks committed moving (since ++ [.record_tick t]) (w.record_tick t) :=
  { h with
    tick_buffer := by
      rw [List.flatMap_append, ← h.tick_buffer]
      rfl
    candle_buffer := by
      rw [List.flatMap_append, ← h.candle_buffer]
      exact (List.append_nil _).symm }

theorem Tracks.record_candle (h : Tracks committed moving since w) (d : CandleDict) :
    Tracks committed moving (since ++ [.record_candle d]) (w.record_candle d) :=
  { h with
    tick_buffer := by
      rw [List.flatMap_append, ← h.tick_buffer]
      exact (List.append_nil _).symm
    candle_buffer := by
      rw [List.flatMap_append, ← h.candle_buffer]
      rfl }

/-- An op that records nothing can stand in any part. -/
theorem Tracks.silent (h : Tracks committed moving since w) {op : TaskOp} (ht : op.ticks = [])
    (hc : op.candles = []) : Tracks committed moving (since ++ [op]) w :=
  { h with
    tick_buffer := by rw [List.flatMap_append, List.flatMap_singleton, ht, List.append_nil, h.tick_buffer]
    candle_buffer := by
      rw [List.flatMap_append, List.flatMap_singleton, hc, List.append_nil, h.candle_buffer] }

/-- With no row on its way, what a flush swapped out is committed. -/
theorem Tracks.settled (h : Tracks committed moving since w) (ht : w.movingTicks = [])
    (hc : w.movingCandles = []) : Tracks (committed ++ moving) [] since w := by
  have hmt := h.moving_ticks.symm.trans ht
  have hmc := h.moving_candles.symm.trans hc
  refine ⟨h.staged, ?_, ?_, ht, hc, h.tick_buffer, h.candle_buffer, ?_⟩
  · rw [List.flatMap_append, hmt, List.append_nil, h.db_ticks]
  · rw [List.flatMap_append, hmc, List.append_nil, h.db_candles]
  · rw [rowCount_append, h.rows_written]
    simp [rowCount, hmt, hmc]

/-- A swap moves all that the buffers held. -/
theorem Tracks.begin_flush (h : Tracks committed moving since w) (hidle : w.flush = none) :
    Tracks (committed ++ moving) since [] w.begin_flush := by
  have hs := h.settled (movingTicks_of_none hidle) (movingCandles_of_none hidle)
  have hrows := hs.rows_written
  unfold SQLiteWriter.owed at hrows
  rw [hidle] at hrows
  unfold SQLiteWriter.begin_flush
  split
  · rename_i hempty
    refine ⟨hs.staged, hs.db_ticks, hs.db_candles, ?_, ?_, hempty.1, hempty.2, hs.rows_written⟩
    · rw [movingTicks_of_none hidle, ← h.tick_buffer, hempty.1]
    · rw [movingCandles_of_none hidle, ← h.candle_buffer, hempty.2]
  · refine ⟨?_, hs.db_ticks, hs.db_candles, h.tick_buffer, h.candle_buffer, rfl, rfl, hrows⟩
    rintro f ⟨⟩
    trivial

/-- The end of the last await counts the rows. -/
theorem await_close {f : Flush} (hf : w.flush = some f) (hclosed : f.at_ = .close) :
    w.await true =
      { w with
        flush := none
        rows_written := w.rows_written + (f.ticks.length + f.candles.length)
        flush_count := w.flush_count + 1 } := by
  unfold SQLiteWriter.await SQLiteWriter.advance
  rw [hf]
  simp [hclosed]

/-- An await that returns leaves the parts as they are, or commits what was moving. -/
theorem Tracks.await (h : Tracks committed moving since w) :
    Tracks committed moving since (w.await true) ∨
      Tracks (committed ++ moving) [] since (w.await true) := by
  cases hf : w.flush with
  | none =>
    rw [await_idle hf]
    exact Or.inl h
  | some f =>
    have hrows := h.rows_written
    unfold SQLiteWriter.owed at hrows
    rw [hf] at hrows
    dsimp only at hrows
    by_cases hclosed : f.at_ = .close
    · obtain ⟨hm1, hm2⟩ := moving_of_closed hf hclosed
      rw [if_pos hclosed] at hrows
      rw [await_close hf hclosed]
      refine Or.inl ⟨?_, h.db_ticks, h.db_candles, ?_, ?_, h.tick_buffer, h.candle_buffer, hrows⟩
      · intro f' hf'
        cases hf'
      · rw [movingTicks_of_none rfl, ← h.moving_ticks, hm1]
      · rw [movingCandles_of_none rfl, ← h.moving_candles, hm2]
    · rw [if_neg hclosed] at hrows
      have hmt := h.moving_ticks
      have hmc := h.moving_candles
      rw [movingTicks_of_open hf hclosed] at hmt
      rw [movingCandles_of_open hf hclosed] at hmc
      have hspec := await.spec hf (h.staged f hf) true
      generalize w.await true = w' at hspec
      cases hspec with
      | moves at' tx' _ hopen' hstaged =>
        refine Or.inl ⟨?_, h.db_ticks, h.db_candles, ?_, ?_, h.tick_buffer, h.candle_buffer, ?_⟩
        · rintro f' ⟨⟩
          exact hstaged
        · rw [movingTicks_of_open rfl hopen']
          exact hmt
        · rw [movingCandles_of_open rfl hopen']
          exact hmc
        · simp only [SQLiteWriter.owed]
          rw [if_neg hopen']
          exact hrows
      | commits =>
        obtain ⟨hm1, hm2⟩ := moving_of_closed (w := { w with
          flush := some { f with at_ := .close }
          db := (w.db.insert_ticks f.ticks).insert_candles f.candles }) rfl rfl
        refine Or.inr ⟨?_, ?_, ?_, hm1, hm2, h.tick_buffer, h.candle_buffer, ?_⟩
        · rintro f' ⟨⟩
          trivial
        · rw [List.flatMap_append, ← h.db_ticks, ← hmt]
          rfl
        · rw [List.flatMap_append, replaceAll_append, ← h.db_candles, ← hmc]
          rfl
        · simp only [SQLiteWriter.owed]
          rw [if_pos trivial, rowCount_append, ← hrows, hmt, hmc]
          rfl
      | ends _ _ _ hclosed' => exact absurd hclosed' hclosed

end parts

/-! ## Runs of the loop and `stop` -/

/-- A run, cut in its three parts. -/
def Cut (ops : List TaskOp) (w : SQLiteWriter) : Prop :=
  ∃ committed moving since, ops = committed ++ (moving ++ since) ∧ Tracks committed moving since w

section cuts

variable {ops : List TaskOp} {s : WriterTask}

theorem Cut.silent {w : SQLiteWriter} (h : Cut ops w) {op : TaskOp} (ht : op.ticks = [])
    (hc : op.candles = []) : Cut (ops ++ [op]) w := by
  obtain ⟨committed, moving, since, rfl, htracks⟩ := h
  exact ⟨committed, moving, since ++ [op], by simp, htracks.silent ht hc⟩

theorem Cut.begin_flush {w : SQLiteWriter} (h : Cut ops w) (hidle : w.flush = none) :
    Cut ops w.begin_flush := by
  obtain ⟨committed, moving, since, rfl, htracks⟩ := h
  exact ⟨committed ++ moving, since, [], by simp, htracks.begin_flush hidle⟩

theorem Cut.await {w : SQLiteWriter} (h : Cut ops w) : Cut ops (w.await true) := by
  obtain ⟨committed, moving, since, rfl, htracks⟩ := h
  rcases htracks.await with htracks | htracks
  · exact ⟨committed, moving, since, rfl, htracks⟩
  · exact ⟨committed ++ moving, [], since, by simp, htracks⟩

/-- With no flush on its way and empty buffers, all that was recorded is in the tables. -/
theorem Cut.written {w : SQLiteWriter} (h : Cut ops w) (hidle : w.flush = none)
    (htb : w.tick_buffer = []) (hcb : w.candle_buffer = []) :
    w.db.ticks = ops.flatMap TaskOp.ticks ∧
      LastWins CandleRow.key (ops.flatMap TaskOp.candles) w.db.candles ∧
      w.rows_written = rowCount ops := by
  obtain ⟨committed, moving, since, rfl, htracks⟩ := h
  have hs := htracks.settled (movingTicks_of_none hidle) (movingCandles_of_none hidle)
  have hst : since.flatMap TaskOp.ticks = [] := hs.tick_buffer.symm.trans htb
  have hsc : since.flatMap TaskOp.candles = [] := hs.candle_buffer.symm.trans hcb
  have hrows := hs.rows_written
  unfold SQLiteWriter.owed at hrows
  rw [hidle] at hrows
  have hticks : (committed ++ (moving ++ since)).flatMap TaskOp.ticks =
      (committed ++ moving).flatMap TaskOp.ticks := by
    rw [← List.append_assoc, List.flatMap_append, hst, List.append_nil]
  have hcandles : (committed ++ (moving ++ since)).flatMap TaskOp.candles =
      (committed ++ moving).flatMap TaskOp.candles := by
    rw [← List.append_assoc, List.flatMap_append, hsc, List.append_nil]
  unfold rowCount at hrows ⊢
  rw [hticks, hcandles]
  refine ⟨hs.db_ticks, ?_, hrows⟩
  rw [hs.db_candles]
  exact lastWins_replaceAll _

theorem Cut.wake (h : Cut ops s.writer) (howned : Owned s) : Cut ops s.wake.writer := by
  obtain ⟨-, -, hw | ⟨htask, hw⟩⟩ := wake_cases s
  · rw [hw]
    exact h
  · rw [hw]
    exact h.begin_flush (howned.idle (by simp [htask]) (howned.stop_pending (by simp [htask])).1)

theorem Cut.resume_stop (h : Cut ops s.writer) (howned : Owned s) : Cut ops s.resume_stop.writer := by
  obtain ⟨hcall, htask, heq⟩ | ⟨_, _, heq⟩ | ⟨_, heq⟩ := resume_stop_cases s
  · rw [heq]
    exact h.begin_flush (howned.idle (by simp [htask]) (by simp [hcall]))
  · rw [heq]
    exact h
  · rw [heq]
    exact h

theorem Cut.step (h : Cut ops s.writer) (howned : Owned s) {op : TaskOp}
    (hok : op = .await false → s.writer.flush = none) :
    Cut (ops ++ [op]) (s.step op).2.writer := by
  cases op with
  | record_tick t =>
    obtain ⟨committed, moving, since, rfl, htracks⟩ := h
    exact ⟨committed, moving, since ++ [.record_tick t], by simp, htracks.record_tick t⟩
  | record_candle d =>
    obtain ⟨committed, moving, since, rfl, htracks⟩ := h
    exact ⟨committed, moving, since ++ [.record_candle d], by simp, htracks.record_candle d⟩
  | wake => exact (h.wake howned).silent rfl rfl
  | await ok =>
    have hw : ((s.step (.await ok)).2).writer = s.writer.await ok := (await_cases howned ok).1
    rw [hw]
    cases ok with
    | false =>
      rw [await_idle (hok rfl)]
      exact h.silent rfl rfl
    | true => exact h.await.silent rfl rfl
  | stop =>
    have hw : ((s.step .stop).2).writer = s.writer := (call_stop_cases s).1
    rw [hw]
    exact h.silent rfl rfl
  | resume_stop => exact (h.resume_stop howned).silent rfl rfl

/-- A step after which no flush has raised is one before which none had, and raises none. -/
theorem healthy_before (howned : Owned s) {op : TaskOp} (h : (s.step op).2.Healthy) :
    s.Healthy ∧ (op = .await false → s.writer.flush = none) := by
  cases op with
  | record_tick t => exact ⟨h, by simp⟩
  | record_candle d => exact ⟨h, by simp⟩
  | wake =>
    obtain ⟨hcall, hfailed, -⟩ := wake_cases s
    exact ⟨⟨fun ht => h.1 (hfailed ht), fun hc => h.2 (hcall.trans hc)⟩, by simp⟩
  | await ok =>
    obtain ⟨hh, hidle⟩ := (await_cases howned ok).2.2 h
    exact ⟨hh, fun heq => hidle (by simpa using heq)⟩
  | stop =>
    obtain ⟨-, htask, -, hraised⟩ := call_stop_cases s
    exact ⟨⟨fun ht => h.1 (htask.trans ht), fun hc => h.2 (hraised hc)⟩, by simp⟩
  | resume_stop =>
    refine ⟨?_, by simp⟩
    obtain ⟨hcall, htask, -⟩ | ⟨-, -, heq⟩ | ⟨-, heq⟩ := resume_stop_cases s
    · exact ⟨by simp [htask], by simp [hcall]⟩
    · exact absurd (congrArg WriterTask.stop_call heq) h.2
    · have hh : s.resume_stop.Healthy := h
      rwa [heq] at hh

end cuts

/-- A run in which no flush has raised is cut in its three parts. -/
theorem run_cut (ops : List TaskOp) (hhealthy : (WriterTask.after ops).Healthy) :
    Cut ops (WriterTask.after ops).writer := by
  induction ops using List.reverseRecOn with
  | nil => exact ⟨[], [], [], rfl, tracks_new⟩
  | append_singleton ops op ih =>
    rw [WriterTask.after_append] at hhealthy ⊢
    have howned := (serves_new.run ops).owned
    obtain ⟨hh, hidle⟩ := healthy_before howned hhealthy
    exact (ih hh).step howned hidle

theorem loop_head_healthy {s : WriterTask} (h : s.stop_call ≠ .raised) : s.loop_head.Healthy := by
  refine ⟨?_, h⟩
  unfold WriterTask.loop_head
  dsimp only
  split <;> simp

theorem wake_healthy {s : WriterTask} (h : s.Healthy) : s.wake.Healthy := by
  unfold WriterTask.wake
  cases htask : s.task with
  | created => exact loop_head_healthy h.2
  | sleeping =>
    dsimp only
    split
    · exact ⟨by simp, h.2⟩
    · exact loop_head_healthy h.2
  | flushing => exact h
  | finished => exact h
  | failed => exact h

theorem await_healthy {s : WriterTask} (h : s.Healthy) : (s.await true).Healthy := by
  unfold WriterTask.await
  dsimp only
  split
  · split
    · exact loop_head_healthy h.2
    · exact ⟨h.1, by simp⟩
  · exact h

/-- A step that raises nothing keeps both callers well. -/
theorem healthy_step {s : WriterTask} (h : s.Healthy) {op : TaskOp} (hok : op ≠ .await false) :
    (s.step op).2.Healthy := by
  cases op with
  | record_tick t => exact h
  | record_candle d => exact h
  | wake => exact wake_healthy h
  | await ok =>
    cases ok with
    | false => exact absurd rfl hok
    | true => exact await_healthy h
  | stop =>
    refine ⟨fun ht => h.1 ((call_stop_cases s).2.1.symm.trans ht), ?_⟩
    unfold WriterTask.step WriterTask.call_stop
    have := h.2
    cases hcall : s.stop_call <;> simp_all
  | resume_stop =>
    have hh : s.resume_stop.Healthy := by
      obtain ⟨-, -, heq⟩ | ⟨-, htask, -⟩ | ⟨-, heq⟩ := resume_stop_cases s
      · rw [heq]
        refine ⟨h.1, ?_⟩
        dsimp only
        split <;> simp
      · exact absurd htask h.1
      · rwa [heq]
    exact hh

theorem run_healthy (ops : List TaskOp) (hok : .await false ∉ ops) :
    (WriterTask.after ops).Healthy := by
  induction ops using List.reverseRecOn with
  | nil => exact ⟨LoopTask.noConfusion, StopCall.noConfusion⟩
  | append_singleton ops op ih =>
    rw [WriterTask.after_append]
    refine healthy_step (ih (fun h => hok (by simp [h]))) ?_
    rintro rfl
    exact hok (by simp)

/-- `stop` raises only once the loop has ended. -/
def RaisedLate (s : WriterTask) : Prop :=
  s.stop_call = .raised → s.task = .finished ∨ s.task = .failed

theorem raisedLate_await {s : WriterTask} (howned : Owned s) (h : RaisedLate s) (ok : Bool) :
    RaisedLate (s.await ok) := by
  unfold WriterTask.await
  dsimp only
  split
  · rename_i hended
    have hsome : s.writer.flush.isSome = true := (Bool.and_eq_true_iff.mp hended).1
    split
    · rename_i htask
      intro hc
      have hcall : s.stop_call = .raised := by cases ok <;> exact hc
      rcases h hcall with ht | ht <;> rw [htask] at ht <;> cases ht
    · rename_i htask
      intro _
      exact Or.inl (howned.stop_last (Or.inl ((howned.owner.mp hsome).resolve_left htask)))
  · exact h

theorem raisedLate_step {s : WriterTask} (howned : Owned s) (h : RaisedLate s) (op : TaskOp) :
    RaisedLate (s.step op).2 := by
  cases op with
  | record_tick t => exact h
  | record_candle d => exact h
  | wake =>
    intro hc
    have hcall : s.stop_call = .raised := (wake_cases s).1.symm.trans hc
    have hw : s.wake = s := by
      unfold WriterTask.wake
      rcases h hcall with ht | ht <;> rw [ht]
    have hl : RaisedLate s.wake := by rwa [hw]
    exact hl hc
  | await ok => exact raisedLate_await howned h ok
  | stop =>
    intro hc
    obtain ⟨-, htask, -⟩ := call_stop_cases s
    have ht : (s.step .stop).2.task = s.task := htask
    rw [ht]
    apply h
    unfold WriterTask.step WriterTask.call_stop at hc
    cases hcall : s.stop_call <;> simp_all
  | resume_stop =>
    have hl : RaisedLate s.resume_stop := by
      obtain ⟨-, htask, heq⟩ | ⟨-, htask, heq⟩ | ⟨-, heq⟩ := resume_stop_cases s
      · rw [heq]
        exact fun _ => Or.inl htask
      · rw [heq]
        exact fun _ => Or.inr htask
      · rwa [heq]
    exact hl

theorem run_raisedLate (ops : List TaskOp) : RaisedLate (WriterTask.after ops) := by
  induction ops using List.reverseRecOn with
  | nil => exact StopCall.noConfusion
  | append_singleton ops op ih =>
    rw [WriterTask.after_append]
    exact raisedLate_step (serves_new.run ops).owned ih op

/-- While a flush is on its way none has raised before it: nothing flushes after one that has. -/
theorem healthy_of_flushing (ops : List TaskOp)
    (hrunning : (WriterTask.after ops).writer.flush.isSome = true) : (WriterTask.after ops).Healthy := by
  have howned := (serves_new.run ops).owned
  rcases howned.owner.mp hrunning with htask | hcall
  · refine ⟨fun ht => ?_, fun hc => ?_⟩
    · cases htask.symm.trans ht
    · rcases run_raisedLate ops hc with ht | ht <;> cases htask.symm.trans ht
  · exact howned.healthy (Or.inl hcall)

/-- The writer is exact while no await on the database raises. A run of record calls, of the
loop and of `stop` is cut in three: the ticks table holds the ticks of the first part, and the
candles table the last row of each key there; the second part is what a flush on its way has
swapped out and not committed, and the third what the buffers hold. While no flush is on its
way `rows_written` counts the rows of the first part. When `stop` has returned, and nothing was
recorded since it came to its flush, all that was recorded is in the tables. -/
theorem the_writer_is_exact_while_the_database_does_not_fail (ops : List TaskOp)
    (hok : .await false ∉ ops) :
    let s := WriterTask.after ops
    let w := s.writer
    w.db.ticks ++ w.movingTicks ++ w.tick_buffer = ops.flatMap TaskOp.ticks ∧
    (∃ committed moving since, ops = committed ++ (moving ++ since) ∧
      w.db.ticks = committed.flatMap TaskOp.ticks ∧
      LastWins CandleRow.key (committed.flatMap TaskOp.candles) w.db.candles ∧
      w.movingTicks = moving.flatMap TaskOp.ticks ∧
      w.movingCandles = moving.flatMap TaskOp.candles ∧
      w.tick_buffer = since.flatMap TaskOp.ticks ∧
      w.candle_buffer = since.flatMap TaskOp.candles ∧
      (w.flush = none → w.rows_written = rowCount committed)) ∧
    ∀ before after, ops = before ++ after → ¬ (WriterTask.after before).stop_call.Flushed →
      s.stop_call = .returned → rowCount after = 0 →
      w.flush = none ∧ w.tick_buffer = [] ∧ w.candle_buffer = [] ∧
        w.db.ticks = ops.flatMap TaskOp.ticks ∧
        LastWins CandleRow.key (ops.flatMap TaskOp.candles) w.db.candles ∧
        w.rows_written = rowCount ops := by
  intro s w
  have hhealthy := run_healthy ops hok
  obtain ⟨committed, moving, since, hops, h⟩ := run_cut ops hhealthy
  have hwins : LastWins CandleRow.key (committed.flatMap TaskOp.candles) w.db.candles := by
    rw [h.db_candles]
    exact lastWins_replaceAll _
  have hcounted : w.flush = none → w.rows_written = rowCount committed := by
    intro hidle
    have hrows := h.rows_written
    unfold SQLiteWriter.owed at hrows
    rwa [hidle] at hrows
  have hticks : w.db.ticks ++ w.movingTicks ++ w.tick_buffer = ops.flatMap TaskOp.ticks := by
    rw [h.db_ticks, h.moving_ticks, h.tick_buffer, hops, List.append_assoc, List.flatMap_append,
      List.flatMap_append]
  refine ⟨hticks, ⟨committed, moving, since, hops, h.db_ticks, hwins, h.moving_ticks,
    h.moving_candles, h.tick_buffer, h.candle_buffer, hcounted⟩, ?_⟩
  intro before after heq hbefore hreturned hafter
  obtain ⟨hidle, hflow⟩ := stop_writes_what_came_before before after hbefore (heq ▸ hreturned)
  rw [← heq] at hidle hflow
  -- Nothing came after the swap of `stop`, so nothing stands in the buffers.
  obtain ⟨htnil, hcnil⟩ : after.flatMap TaskOp.ticks = [] ∧ after.flatMap TaskOp.candles = [] := by
    unfold rowCount at hafter
    exact ⟨List.eq_nil_of_length_eq_zero (by omega), List.eq_nil_of_length_eq_zero (by omega)⟩
  obtain ⟨-, ⟨_, ht, -⟩, ⟨_, hc, -⟩⟩ := hflow
  have hbt : w.tick_buffer = [] := (List.append_eq_nil_iff.mp (htnil ▸ ht).symm).2
  have hbc : w.candle_buffer = [] := (List.append_eq_nil_iff.mp (hcnil ▸ hc).symm).2
  exact ⟨hidle, hbt, hbc, (run_cut ops hhealthy).written hidle hbt hbc⟩

/-- A candle is revised while the flush of its first version is on its way, and `stop` is
called before the loop has written the second. -/
theorem the_writer_is_exact_while_the_database_does_not_fail_of_three :
    let t : Tick := ⟨"BTC-USD", 100, 1, 1, 1000, false, 0⟩
    let d : CandleDict := ⟨"BTC-USD", 1, 0, 100, 100, 100, 100, 1, 1, true⟩
    let ops : List TaskOp :=
      [.wake, .record_tick t, .record_candle d, .wake, .await true,
        .record_candle { d with trade_count := 2 }, .await true, .await true, .await true,
        .await true, .stop, .wake, .await true, .await true, .await true, .await true, .resume_stop]
    (WriterTask.after ops).stop_call = .returned ∧
      (WriterTask.after ops).writer.db.ticks = [tickRow t] ∧
      (WriterTask.after ops).writer.candle_buffer = [] ∧
      (WriterTask.after ops).writer.rows_written = 3 ∧
      (WriterTask.after ops).writer.db.candles = [candleRow { d with trade_count := 2 }] := by
  intro t d ops
  have hwaiting : (WriterTask.after ops.dropLast).stop_call = .waiting := by decide +kernel
  have hreturned : (WriterTask.after ops).stop_call = .returned := by decide +kernel
  obtain ⟨-, -, hstop⟩ := the_writer_is_exact_while_the_database_does_not_fail ops (by simp [ops])
  obtain ⟨-, -, hbuffer, hticks, -, hrows⟩ := hstop ops.dropLast [.resume_stop] rfl
    (by simp [StopCall.Flushed, hwaiting]) hreturned rfl
  exact ⟨hreturned, hticks, hbuffer, hrows, by decide +kernel⟩

end tick_pipeline.sqlite_store
