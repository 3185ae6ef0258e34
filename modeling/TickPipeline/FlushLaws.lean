-- What a flush owes to the rows it swaps out. A flush that raises before its commit
-- takes them with it: nothing puts them back.
import TickPipeline.SqliteStore

namespace tick_pipeline.sqlite_store

open runs models keyed_table

/-! ## The rows on their way -/

/-- The tick rows that a flush has swapped out and not committed. -/
def SQLiteWriter.movingTicks (w : SQLiteWriter) : List TickRow :=
  match w.flush with
  | none => []
  | some f => if f.at_ = .close then [] else f.ticks

/-- The candle rows that a flush has swapped out and not committed. -/
def SQLiteWriter.movingCandles (w : SQLiteWriter) : List CandleRow :=
  match w.flush with
  | none => []
  | some f => if f.at_ = .close then [] else f.candles

/-- What the transaction of a flush holds, by the await that the flush stands at. -/
def Flush.Staged (f : Flush) (db : Database) : Prop :=
  match f.at_ with
  | .connect => True
  | .insert_ticks => f.tx = db
  | .insert_candles => f.tx = db.insert_ticks f.ticks
  | .commit => f.tx = (db.insert_ticks f.ticks).insert_candles f.candles
  | .close => True

def SQLiteWriter.Staged (w : SQLiteWriter) : Prop := ∀ f, w.flush = some f → f.Staged w.db

theorem movingTicks_of_none {w : SQLiteWriter} (h : w.flush = none) : w.movingTicks = [] := by
  unfold SQLiteWriter.movingTicks
  rw [h]

theorem movingCandles_of_none {w : SQLiteWriter} (h : w.flush = none) : w.movingCandles = [] := by
  unfold SQLiteWriter.movingCandles
  rw [h]

theorem movingTicks_of_open {w : SQLiteWriter} {f : Flush} (h : w.flush = some f)
    (hopen : f.at_ ≠ .close) : w.movingTicks = f.ticks := by
  unfold SQLiteWriter.movingTicks
  rw [h]
  exact if_neg hopen

theorem movingCandles_of_open {w : SQLiteWriter} {f : Flush} (h : w.flush = some f)
    (hopen : f.at_ ≠ .close) : w.movingCandles = f.candles := by
  unfold SQLiteWriter.movingCandles
  rw [h]
  exact if_neg hopen

theorem moving_of_closed {w : SQLiteWriter} {f : Flush} (h : w.flush = some f)
    (hclosed : f.at_ = .close) : w.movingTicks = [] ∧ w.movingCandles = [] := by
  unfold SQLiteWriter.movingTicks SQLiteWriter.movingCandles
  rw [h]
  exact ⟨if_pos hclosed, if_pos hclosed⟩

/-- An `executemany` that the code skips would have changed nothing. -/
theorem staged_after_ticks {f : Flush} {db : Database} (h : f.tx = db.insert_ticks f.ticks) :
    ({ f with at_ := f.after_ticks } : Flush).Staged db ∧ f.after_ticks ≠ .close := by
  unfold Flush.after_ticks
  by_cases hc : f.candles = []
  · rw [if_pos hc]
    refine ⟨?_, by simp⟩
    simp only [Flush.Staged, h, hc]
    rfl
  · rw [if_neg hc]
    exact ⟨h, by simp⟩

theorem staged_after_connect {f : Flush} {db : Database} (h : f.tx = db) :
    ({ f with at_ := f.after_connect } : Flush).Staged db ∧ f.after_connect ≠ .close := by
  unfold Flush.after_connect
  by_cases ht : f.ticks = []
  · rw [if_pos ht]
    apply staged_after_ticks
    rw [h, ht]
    simp [Database.insert_ticks]
  · rw [if_neg ht]
    exact ⟨h, by simp⟩

/-- What the end of an await can do to a flush. -/
inductive Awaited (w : SQLiteWriter) (f : Flush) : Bool → SQLiteWriter → Prop
  /-- The flush goes on. -/
  | moves (at' : Await) (tx' : Database) (hopen : f.at_ ≠ .close) (hopen' : at' ≠ .close)
    (hstaged : ({ f with at_ := at', tx := tx' } : Flush).Staged w.db) :
    Awaited w f true { w with flush := some { f with at_ := at', tx := tx' } }
  /-- The commit returns. -/
  | commits (hopen : f.at_ ≠ .close) : Awaited w f true
    { w with
      flush := some { f with at_ := .close }
      db := (w.db.insert_ticks f.ticks).insert_candles f.candles }
  /-- The flush ends, with its rows committed. -/
  | ends (ok : Bool) (rows_written flush_count : Nat) (hclosed : f.at_ = .close) :
    Awaited w f ok { w with flush := none, rows_written, flush_count }
  /-- The flush raises before its commit. -/
  | raises (hopen : f.at_ ≠ .close) : Awaited w f false { w with flush := none }

theorem await.spec {w : SQLiteWriter} {f : Flush} (hf : w.flush = some f) (hst : f.Staged w.db)
    (ok : Bool) : Awaited w f ok (w.await ok) := by
  unfold SQLiteWriter.await
  rw [hf]
  dsimp only
  cases ok with
  | false =>
    rw [if_neg (by simp)]
    by_cases hclosed : f.at_ = .close
    · exact .ends false w.rows_written w.flush_count hclosed
    · exact .raises hclosed
  | true =>
    rw [if_pos rfl]
    obtain ⟨ticks, candles, at_, tx⟩ := f
    unfold SQLiteWriter.advance
    cases at_ with
    | connect =>
      obtain ⟨h1, h2⟩ := staged_after_connect (f := ⟨ticks, candles, .connect, w.db⟩) rfl
      exact .moves _ _ (by simp) h2 h1
    | insert_ticks =>
      obtain rfl : tx = w.db := hst
      obtain ⟨h1, h2⟩ := staged_after_ticks
        (f := ⟨ticks, candles, .insert_ticks, w.db.insert_ticks ticks⟩) rfl
      exact .moves _ _ (by simp) h2 h1
    | insert_candles =>
      obtain rfl : tx = w.db.insert_ticks ticks := hst
      exact .moves _ _ (by simp) (by simp) rfl
    | commit =>
      obtain rfl : tx = (w.db.insert_ticks ticks).insert_candles candles := hst
      exact .commits (by simp)
    | close => exact .ends true _ _ rfl

/-! ## The flow of the rows -/

/-- The rows recorded since a start at which the given rows had left the buffers: they leave
the buffers in order, and none is lost. -/
structure Flow (ticks0 : List TickRow) (candles0 : List CandleRow) (ticks : List TickRow)
    (candles : List CandleRow) (w : SQLiteWriter) : Prop where
  staged : w.Staged
  ticks_eq : ∃ since, ticks = since ++ w.tick_buffer ∧
    w.db.ticks ++ w.movingTicks = ticks0 ++ since
  candles_eq : ∃ since, candles = since ++ w.candle_buffer ∧
    ∃ gone, candles0 ++ since = gone ++ w.movingCandles ∧ Covered CandleRow.key gone w.db.candles

/-- A flush that raises now costs nothing: it carries no tick, and the database has a row for
each of its candles. -/
def Harmless (w : SQLiteWriter) : Prop :=
  ∀ f, w.flush = some f → f.at_ ≠ .close →
    f.ticks = [] ∧ Covered CandleRow.key f.candles w.db.candles

theorem flow_new : Flow [] [] [] [] SQLiteWriter.new := by
  refine ⟨?_, ⟨[], rfl, rfl⟩, ⟨[], rfl, [], rfl, covered_nil _⟩⟩
  intro f hf
  cases hf

section flow

variable {ticks0 ticks : List TickRow} {candles0 candles : List CandleRow} {w : SQLiteWriter}

theorem Flow.record_tick (h : Flow ticks0 candles0 ticks candles w) (t : Tick) :
    Flow ticks0 candles0 (ticks ++ [tickRow t]) candles (w.record_tick t) := by
  obtain ⟨hst, ⟨since, h1, h2⟩, hc⟩ := h
  refine ⟨hst, ⟨since, ?_, h2⟩, hc⟩
  rw [h1, List.append_assoc]
  rfl

theorem Flow.record_candle (h : Flow ticks0 candles0 ticks candles w) (d : CandleDict) :
    Flow ticks0 candles0 ticks (candles ++ [candleRow d]) (w.record_candle d) := by
  obtain ⟨hst, ht, ⟨since, h1, hgone⟩⟩ := h
  refine ⟨hst, ht, ⟨since, ?_, hgone⟩⟩
  rw [h1, List.append_assoc]
  rfl

/-- Once the buffers are swapped out, all rows so far have left them. -/
theorem Flow.swapped {ticks1 ticks2 : List TickRow} {candles1 candles2 : List CandleRow}
    (h : Flow ticks0 candles0 (ticks1 ++ ticks2) (candles1 ++ candles2) w) (hidle : w.flush = none) :
    Flow (ticks0 ++ ticks1) (candles0 ++ candles1) ticks2 candles2 w.begin_flush := by
  obtain ⟨hst, ⟨since, ht1, ht2⟩, ⟨csince, hc1, gone, hc2, hcov⟩⟩ := h
  rw [movingTicks_of_none hidle, List.append_nil] at ht2
  rw [movingCandles_of_none hidle, List.append_nil] at hc2
  unfold SQLiteWriter.begin_flush
  split
  · rename_i hempty
    rw [hempty.1, List.append_nil] at ht1
    rw [hempty.2, List.append_nil] at hc1
    refine ⟨hst, ⟨ticks2, by rw [hempty.1, List.append_nil], ?_⟩,
      ⟨candles2, by rw [hempty.2, List.append_nil], gone, ?_, hcov⟩⟩
    · rw [movingTicks_of_none hidle, List.append_nil, ht2, ← ht1, List.append_assoc]
    · rw [movingCandles_of_none hidle, List.append_nil, ← hc2, ← hc1, List.append_assoc]
  · refine ⟨?_, ⟨ticks2, (List.append_nil _).symm, ?_⟩,
      ⟨candles2, (List.append_nil _).symm, gone, ?_, hcov⟩⟩
    · rintro f ⟨⟩
      trivial
    · rw [movingTicks_of_open rfl (by simp)]
      simp only [ht2]
      rw [List.append_assoc, ← ht1, List.append_assoc]
    · rw [movingCandles_of_open rfl (by simp)]
      simp only [← hc2]
      rw [List.append_assoc, List.append_assoc, ← hc1]

/-- A swap moves rows on, and costs none. -/
theorem Flow.begin_flush (h : Flow ticks0 candles0 ticks candles w) (hidle : w.flush = none) :
    Flow ticks0 candles0 ticks candles w.begin_flush := by
  have hswap : Flow (ticks0 ++ []) (candles0 ++ []) ticks candles w.begin_flush :=
    Flow.swapped h hidle
  rwa [List.append_nil, List.append_nil] at hswap

theorem Flow.await (h : Flow ticks0 candles0 ticks candles w) (ok : Bool)
    (hok : ok = false → Harmless w) : Flow ticks0 candles0 ticks candles (w.await ok) := by
  cases hf : w.flush with
  | none =>
    unfold SQLiteWriter.await
    rw [hf]
    exact h
  | some f =>
    obtain ⟨hst, ⟨since, ht1, ht2⟩, ⟨csince, hc1, gone, hc2, hcov⟩⟩ := h
    have hspec := await.spec hf (hst f hf) ok
    generalize w.await ok = w' at hspec
    cases hspec with
    | moves at' tx' hopen hopen' hstaged =>
      rw [movingTicks_of_open hf hopen] at ht2
      rw [movingCandles_of_open hf hopen] at hc2
      refine ⟨?_, ⟨since, ht1, ?_⟩, ⟨csince, hc1, gone, ?_, hcov⟩⟩
      · rintro f' ⟨⟩
        exact hstaged
      · rw [movingTicks_of_open rfl hopen']
        exact ht2
      · rw [movingCandles_of_open rfl hopen']
        exact hc2
    | commits hopen =>
      rw [movingTicks_of_open hf hopen] at ht2
      rw [movingCandles_of_open hf hopen] at hc2
      refine ⟨?_, ⟨since, ht1, ?_⟩, ⟨csince, hc1, gone ++ f.candles, ?_, ?_⟩⟩
      · rintro f' ⟨⟩
        trivial
      · rw [(moving_of_closed rfl rfl).1, List.append_nil]
        exact ht2
      · rw [(moving_of_closed rfl rfl).2, List.append_nil]
        exact hc2
      · exact covered_replaceAll hcov f.candles
    | ends ok rows_written flush_count hclosed =>
      obtain ⟨hm1, hm2⟩ := moving_of_closed hf hclosed
      rw [hm1] at ht2
      rw [hm2] at hc2
      refine ⟨?_, ⟨since, ht1, ht2⟩, ⟨csince, hc1, gone, hc2, hcov⟩⟩
      intro f' hf'
      cases hf'
    | raises hopen =>
      obtain ⟨hnil, hcovered⟩ := hok rfl f hf hopen
      rw [movingTicks_of_open hf hopen, hnil] at ht2
      rw [movingCandles_of_open hf hopen] at hc2
      refine ⟨?_, ⟨since, ht1, ht2⟩, ⟨csince, hc1, gone ++ f.candles, ?_, ?_⟩⟩
      · intro f' hf'
        cases hf'
      · rw [movingCandles_of_none rfl, List.append_nil]
        exact hc2
      · exact covered_append hcov hcovered

theorem Flow.step (h : Flow ticks0 candles0 ticks candles w) (op : WriterOp)
    (hop : op = .await false → Harmless w) :
    Flow ticks0 candles0 (ticks ++ op.ticks) (candles ++ op.candles) (w.step op).2 := by
  cases op with
  | record_tick t =>
    unfold WriterOp.candles
    rw [List.append_nil]
    exact h.record_tick t
  | record_candle d =>
    unfold WriterOp.ticks
    rw [List.append_nil]
    exact h.record_candle d
  | flush =>
    unfold WriterOp.ticks WriterOp.candles SQLiteWriter.step
    rw [List.append_nil, List.append_nil]
    cases hf : w.flush with
    | none => exact h.begin_flush hf
    | some f => exact h
  | await ok =>
    unfold WriterOp.ticks WriterOp.candles
    rw [List.append_nil, List.append_nil]
    apply h.await ok
    intro hok
    exact hop (by rw [hok])

/-- Rows flow through every run in which a flush that raises costs nothing. -/
theorem Flow.run (h : Flow ticks0 candles0 ticks candles w) (ops : List WriterOp)
    (hops : ∀ before, before ++ [.await false] <+: ops →
      Harmless (runs.run SQLiteWriter.step w before).2) :
    Flow ticks0 candles0 (ticks ++ ops.flatMap WriterOp.ticks)
      (candles ++ ops.flatMap WriterOp.candles) (runs.run SQLiteWriter.step w ops).2 := by
  induction ops using List.reverseRecOn with
  | nil => simpa using h
  | append_singleton ops op ih =>
    have hbefore := ih (fun before hpre => hops before (hpre.trans (List.prefix_append _ _)))
    rw [List.flatMap_append, List.flatMap_append, List.flatMap_singleton, List.flatMap_singleton,
      ← List.append_assoc, ← List.append_assoc, run_snoc]
    apply hbefore.step op
    intro hop
    exact hops ops (hop ▸ List.prefix_rfl)

end flow

end tick_pipeline.sqlite_store
