-- What a shutdown leaves behind. The pipeline stops without a last drain and without
-- `flush_all`, so what then stands in a ring buffer or a heap gets no row. The writer
-- does flush, and leaves nothing in its own buffers.
import TickPipeline.Application
import TickPipeline.FailingFlush

namespace tick_pipeline.main

open runs models ring_buffer sequencer pipeline sqlite_store keyed_table bags

/-! ## While the pipeline runs -/

/-- Every tick accepted is recorded, held or written over. -/
structure Conserves (cfg : Settings) (intakes : List Intake) (ticks : List TickRow)
    (candles : List CandleRow) (a : App) : Prop where
  whole : AllWhole cfg a.pipeline
  persistence : a.pipeline.persistence = true
  serves : Serves [] [] ticks candles a.sqlite_writer
  not_called : a.phase ≠ .pipeline_stopped → a.sqlite_writer.stop_call = .not_called
  total : (a.pipeline.held.map tickRow ++
    (ticks ++ (intakes.flatMap Intake.overwritten).map tickRow)).Perm
      ((intakes.flatMap Intake.accepted).map tickRow)

theorem conserves_new (upper : Symbol → Symbol) (cfg : Settings) (symbols : List Symbol) :
    Conserves cfg [] [] [] (App.new upper cfg symbols) := by
  refine ⟨fun s => whole_new cfg, rfl, serves_new, fun _ => rfl, ?_⟩
  have hheld : (App.new upper cfg symbols).pipeline.held = [] := by
    unfold Pipeline.held
    rw [List.flatMap_eq_nil_iff]
    intro s _
    simp [Pipeline.heldFor, App.new, Pipeline.new, RingBuffer.new, RingBuffer.items, Sequencer.new,
      Sequencer.ticks]
  rw [hheld]
  rfl

/-- Calls of `record_tick` and `record_candle` leave `stop` where it is. -/
theorem recordAll_stop_call (s : WriterTask) (obs : List Obs) :
    (recordAll s obs).stop_call = s.stop_call := by
  unfold recordAll
  induction obs.flatMap Obs.records generalizing s with
  | nil => rfl
  | cons r records ih =>
    rw [List.map_cons, run_cons]
    refine (ih _).trans ?_
    cases r <;> rfl

section steps

variable {cfg : Settings} {intakes : List Intake} {ticks : List TickRow} {candles : List CandleRow}
variable {a : App}

theorem Conserves.ingest (h : Conserves cfg intakes ticks candles a) (t : Tick) :
    Conserves cfg (intakes ++ [⟨a.pipeline.accepts t, a.pipeline.overwrites t⟩]) ticks candles
      { a with pipeline := a.pipeline.ingest t } := by
  obtain ⟨h1, h2, h3, h4, h5⟩ := h
  refine ⟨ingest_whole t h1, ?_, h3, h4, ?_⟩
  · unfold Pipeline.ingest
    split <;> exact h2
  · have hstep := (ingest_held t h1).map tickRow
    rw [List.map_append, List.map_append] at hstep
    rw [List.flatMap_append, List.flatMap_append, List.flatMap_singleton, List.flatMap_singleton,
      List.map_append, List.map_append, ← List.append_assoc ticks]
    exact perm_of_move hstep h5

theorem Conserves.turn (h : Conserves cfg intakes ticks candles a) {r : List Obs × Pipeline}
    (hwhole : AllWhole cfg r.2) (hpers : r.2.persistence = true)
    (hheld : (r.2.held ++ (r.1.flatMap Obs.records).filterMap Record.ticks).Perm a.pipeline.held) :
    ∃ ticks' candles', Conserves cfg (intakes ++ [(a.turn r).1]) ticks' candles' (a.turn r).2 := by
  obtain ⟨h1, h2, h3, h4, h5⟩ := h
  unfold App.turn
  split
  · refine ⟨ticks, candles, h1, h2, h3, h4, ?_⟩
    simpa [Intake.none] using h5
  · rename_i hphase
    have hserves := h3.run ((r.1.flatMap Obs.records).map Record.call)
    refine ⟨_, _, hwhole, hpers, hserves, ?_, ?_⟩
    · intro hne
      exact (recordAll_stop_call _ _).trans (h4 hne)
    · have hstep := hheld.map tickRow
      rw [List.map_append, ← List.append_nil (a.pipeline.held.map tickRow)] at hstep
      rw [record_ticks]
      simp only [List.flatMap_append, List.flatMap_singleton, Intake.none, List.append_nil]
      have hmove := perm_of_move hstep h5
      rw [List.append_nil] at hmove
      exact ((append_swap _ _ _).append_left _).trans hmove

theorem Conserves.write (h : Conserves cfg intakes ticks candles a) {op : TaskOp}
    (hticks : op.ticks = []) (hcandles : op.candles = [])
    (hcall : a.phase ≠ .pipeline_stopped → (a.sqlite_writer.step op).2.stop_call = .not_called) :
    Conserves cfg (intakes ++ [(a.write op).1]) ticks candles (a.write op).2 := by
  obtain ⟨h1, h2, h3, h4, h5⟩ := h
  have hserves := h3.step op
  rw [hticks, hcandles, List.append_nil, List.append_nil] at hserves
  refine ⟨h1, h2, hserves, hcall, ?_⟩
  simpa [App.write, Intake.none] using h5

theorem Conserves.moveOn (h : Conserves cfg intakes ticks candles a) (phase : Phase)
    (hcall : phase ≠ .pipeline_stopped → a.sqlite_writer.stop_call = .not_called) :
    Conserves cfg intakes ticks candles { a with phase } :=
  ⟨h.whole, h.persistence, h.serves, hcall, h.total⟩

theorem Conserves.step (h : Conserves cfg intakes ticks candles a) (op : AppOp) :
    ∃ ticks' candles', Conserves cfg (intakes ++ [(a.step cfg op).1]) ticks' candles'
      (a.step cfg op).2 := by
  have hstay : Conserves cfg (intakes ++ [Intake.none]) ticks candles a := by
    refine ⟨h.whole, h.persistence, h.serves, h.not_called, ?_⟩
    simpa [Intake.none] using h.total
  cases op with
  | ingest t =>
    unfold App.step
    dsimp only
    split
    · exact ⟨_, _, h.ingest t⟩
    · exact ⟨_, _, hstay⟩
  | consume_symbol s =>
    obtain ⟨hwhole, _, hpers, hheld⟩ := consume_held s h.persistence h.whole
    exact h.turn hwhole hpers hheld
  | rate_round elapsed =>
    obtain ⟨h1, h2, h3, h4, h5⟩ := rate_round_frame (p := a.pipeline) elapsed
    apply h.turn
    · unfold AllWhole
      rw [h3]
      exact h.whole
    · exact h2.trans h.persistence
    · unfold Pipeline.held Pipeline.heldFor
      rw [h1, h3, h4, h5]
      simp
  | wake =>
    refine ⟨_, _, h.write rfl rfl fun hne => ?_⟩
    exact (wake_cases a.sqlite_writer).1.trans (h.not_called hne)
  | await ok =>
    refine ⟨_, _, h.write rfl rfl fun hne => ?_⟩
    have hcall := h.not_called hne
    exact (await_stop_call h.serves.owned ok (by simp [hcall])).trans hcall
  | stop_client =>
    unfold App.step
    dsimp only
    split
    · rename_i hphase
      exact ⟨_, _, hstay.moveOn .client_stopped fun _ => h.not_called (by simp [hphase])⟩
    · exact ⟨_, _, hstay⟩
  | stop_pipeline =>
    unfold App.step
    dsimp only
    split
    · exact ⟨_, _, hstay.moveOn .pipeline_stopped fun hne => absurd rfl hne⟩
    · exact ⟨_, _, hstay⟩
  | stop_writer =>
    unfold App.step
    dsimp only
    split
    · rename_i hphase
      exact ⟨_, _, h.write rfl rfl fun hne => absurd hphase hne⟩
    · exact ⟨_, _, hstay⟩
  | resume_stop =>
    refine ⟨_, _, h.write rfl rfl fun hne => ?_⟩
    have hcall := h.not_called hne
    obtain ⟨hwaiting, _⟩ | ⟨hwaiting, _⟩ | ⟨_, heq⟩ := resume_stop_cases a.sqlite_writer
    · simp [hcall] at hwaiting
    · simp [hcall] at hwaiting
    · unfold WriterTask.step
      dsimp only
      rw [heq, hcall]

end steps

theorem run_conserves (upper : Symbol → Symbol) (cfg : Settings) (symbols : List Symbol)
    (ops : List AppOp) :
    ∃ ticks candles, Conserves cfg (run (App.step cfg) (App.new upper cfg symbols) ops).1 ticks candles
      (App.after upper cfg symbols ops) := by
  apply run_history (App.step cfg) (P := fun _ intakes a =>
    ∃ ticks candles, Conserves cfg intakes ticks candles a)
  · exact ⟨_, _, conserves_new upper cfg symbols⟩
  · intro _ intakes a op ⟨ticks, candles, h⟩
    exact h.step op

/-! ## Once the pipeline has stopped -/

/-- Nothing comes in any more, and the writer is given nothing. -/
structure Stopped (pipeline : Pipeline) (ticks : List TickRow) (candles : List CandleRow)
    (intakes : List Intake) (a : App) : Prop where
  phase : a.phase = .pipeline_stopped
  pipeline_eq : a.pipeline = pipeline
  serves : Serves ticks candles [] [] a.sqlite_writer
  intakes_none : ∀ i ∈ intakes, i = Intake.none

theorem Stopped.step {cfg : Settings} {pipeline : Pipeline} {ticks : List TickRow}
    {candles : List CandleRow} {intakes : List Intake} {a : App}
    (h : Stopped pipeline ticks candles intakes a) (op : AppOp) :
    Stopped pipeline ticks candles (intakes ++ [(a.step cfg op).1]) (a.step cfg op).2 := by
  have hout : ∀ i : Intake, i = .none → ∀ j ∈ intakes ++ [i], j = Intake.none := by
    rintro i rfl j hj
    rcases List.mem_append.mp hj with hj | hj
    · exact h.intakes_none j hj
    · exact List.mem_singleton.mp hj
  have hstay : Stopped pipeline ticks candles (intakes ++ [Intake.none]) a :=
    ⟨h.phase, h.pipeline_eq, h.serves, hout _ rfl⟩
  have hwrite : ∀ top : TaskOp, top.ticks = [] → top.candles = [] →
      Stopped pipeline ticks candles (intakes ++ [(a.write top).1]) (a.write top).2 := by
    intro top hticks hcandles
    have hserves := h.serves.step top
    rw [hticks, hcandles] at hserves
    exact ⟨h.phase, h.pipeline_eq, hserves, hout _ rfl⟩
  have hturn : ∀ r : List Obs × Pipeline,
      Stopped pipeline ticks candles (intakes ++ [(a.turn r).1]) (a.turn r).2 := by
    intro r
    unfold App.turn
    rw [if_pos h.phase]
    exact hstay
  cases op with
  | ingest t =>
    unfold App.step
    dsimp only
    rw [if_neg (by simp [h.phase])]
    exact hstay
  | consume_symbol s => exact hturn _
  | rate_round elapsed => exact hturn _
  | wake => exact hwrite _ rfl rfl
  | await ok => exact hwrite _ rfl rfl
  | stop_client =>
    unfold App.step
    dsimp only
    rw [if_neg (by simp [h.phase])]
    exact hstay
  | stop_pipeline =>
    unfold App.step
    dsimp only
    rw [if_neg (by simp [h.phase])]
    exact hstay
  | stop_writer =>
    unfold App.step
    dsimp only
    rw [if_pos h.phase]
    exact hwrite _ rfl rfl
  | resume_stop => exact hwrite _ rfl rfl

theorem Stopped.intakes_nil {pipeline : Pipeline} {ticks : List TickRow} {candles : List CandleRow}
    {intakes : List Intake} {a : App} (h : Stopped pipeline ticks candles intakes a) :
    intakes.flatMap Intake.accepted = [] ∧ intakes.flatMap Intake.overwritten = [] := by
  rw [List.flatMap_eq_nil_iff, List.flatMap_eq_nil_iff]
  refine ⟨fun i hi => ?_, fun i hi => ?_⟩
  · rw [h.intakes_none i hi]
    rfl
  · rw [h.intakes_none i hi]
    rfl

/-! ## The law -/

section law

variable (upper : Symbol → Symbol) (cfg : Settings) (symbols : List Symbol)

/-- Once the pipeline has stopped, nothing more comes in, and what the writer was given before
is all that it is given. -/
theorem run_stopped (before after : List AppOp)
    (hphase : (App.after upper cfg symbols before).phase = .client_stopped) {ticks : List TickRow}
    {candles : List CandleRow} (hserves : Serves [] [] ticks candles
      (App.after upper cfg symbols before).sqlite_writer)
    (hcall : (App.after upper cfg symbols before).sqlite_writer.stop_call = .not_called) :
    let ops := before ++ .stop_pipeline :: after
    Serves ticks candles [] [] (App.after upper cfg symbols ops).sqlite_writer ∧
      (App.after upper cfg symbols ops).pipeline = (App.after upper cfg symbols before).pipeline ∧
      accepted upper cfg symbols ops = accepted upper cfg symbols before ∧
      overwritten upper cfg symbols ops = overwritten upper cfg symbols before := by
  unfold App.after accepted overwritten at *
  dsimp only
  rw [run_append, run_cons]
  generalize run (App.step cfg) (App.new upper cfg symbols) before = r at *
  have hstep : r.2.step cfg .stop_pipeline = (.none, { r.2 with phase := .pipeline_stopped }) := by
    unfold App.step
    dsimp only
    rw [if_pos hphase]
  rw [hstep]
  have hstart : Stopped r.2.pipeline ticks candles [] { r.2 with phase := .pipeline_stopped } := by
    refine ⟨rfl, rfl, ⟨hserves.owned, fun hh => ?_, ?_⟩, by simp⟩
    · rw [List.append_nil, List.append_nil]
      exact hserves.flow hh
    · rintro (hc | hc) <;> simp [hcall] at hc
  have hstop := run_history (App.step cfg) (P := fun _ intakes a =>
    Stopped r.2.pipeline ticks candles intakes a) hstart (fun _ intakes a op ih => ih.step op) after
  obtain ⟨hacc, hover⟩ := hstop.intakes_nil
  refine ⟨hstop.serves, hstop.pipeline_eq, ?_, ?_⟩
  · rw [List.flatMap_append, List.flatMap_cons, hacc]
    simp [Intake.none]
  · rw [List.flatMap_append, List.flatMap_cons, hover]
    simp [Intake.none]

/-- When the shutdown is over, every tick accepted has its row but those written over, and those
that the pipeline held when its tasks were cancelled. The buffers of the writer are empty. -/
theorem shutdown_total (before after : List AppOp)
    (hphase : (App.after upper cfg symbols before).phase = .client_stopped)
    (hreturned : (App.after upper cfg symbols (before ++ .stop_pipeline :: after)).sqlite_writer.stop_call
      = .returned) :
    let ops := before ++ .stop_pipeline :: after
    let w := (App.after upper cfg symbols ops).sqlite_writer.writer
    ((App.after upper cfg symbols before).pipeline.held.map tickRow ++
      (w.db.ticks ++ (overwritten upper cfg symbols ops).map tickRow)).Perm
        ((accepted upper cfg symbols ops).map tickRow) ∧
      w.tick_buffer = [] ∧ w.candle_buffer = [] := by
  intro ops w
  obtain ⟨ticks, candles, h⟩ := run_conserves upper cfg symbols before
  obtain ⟨hserves, _, hacc, hover⟩ := run_stopped upper cfg symbols before after hphase h.serves
    (h.not_called (by simp [hphase]))
  have hidle : w.flush = none := hserves.owned.idle
    (by simp [hserves.owned.stop_last (Or.inr hreturned)]) (by simp [hreturned])
  obtain ⟨⟨since, ht1, ht2⟩, csince, hc1, _⟩ :=
    (hserves.flushed (Or.inr hreturned)).written hidle
  obtain ⟨rfl, hbuffer⟩ := List.append_eq_nil_iff.mp ht1.symm
  refine ⟨?_, hbuffer, (List.append_eq_nil_iff.mp hc1.symm).2⟩
  rw [show w.db.ticks = ticks from ht2.trans (List.append_nil _), hacc, hover]
  exact h.total

/-- So the rows are complete exactly when the pipeline held nothing. -/
theorem rows_iff_nothing_held (before after : List AppOp)
    (hphase : (App.after upper cfg symbols before).phase = .client_stopped)
    (hreturned : (App.after upper cfg symbols (before ++ .stop_pipeline :: after)).sqlite_writer.stop_call
      = .returned) :
    let ops := before ++ .stop_pipeline :: after
    ((App.after upper cfg symbols ops).sqlite_writer.writer.db.ticks ++
      (overwritten upper cfg symbols ops).map tickRow).Perm
        ((accepted upper cfg symbols ops).map tickRow) ↔
      (App.after upper cfg symbols before).pipeline.held = [] := by
  intro ops
  obtain ⟨htotal, _⟩ := shutdown_total upper cfg symbols before after hphase hreturned
  constructor
  · intro hperm
    have hlen := htotal.length_eq
    rw [List.length_append, ← hperm.length_eq] at hlen
    have hnil := List.eq_nil_of_length_eq_zero (Nat.add_eq_right.mp hlen)
    exact List.map_eq_nil_iff.mp hnil
  · intro hnil
    rw [hnil] at htotal
    exact htotal

theorem held_eq_nil_iff (p : Pipeline) :
    p.held = [] ↔ ∀ s ∈ p.symbols, (p.ring_buffers s).items = [] ∧ (p.sequencers s).pending = 0 := by
  unfold Pipeline.held Pipeline.heldFor Sequencer.ticks Sequencer.pending
  simp [List.flatMap_eq_nil_iff]

end law

end tick_pipeline.main
