-- With a positive watermark the newest tick of a symbol never leaves its heap, so a
-- shutdown loses a tick in every run that took one in.
import TickPipeline.Shutdown

namespace tick_pipeline.sequencer

open models reorder

variable {s : Sequencer}

/-- The heap has an entry of the largest event time seen. -/
def KeepsNewest (s : Sequencer) : Prop := ∃ e ∈ s.heap, e.event_time_ms = s.max_event_time_seen

/-- So it is from the first offer on. -/
def Started (s : Sequencer) : Prop := s.max_event_time_seen = 0 ∨ KeepsNewest s

theorem offer_keepsNewest (h : Started s) (t : Tick) (h0 : 0 ≤ t.event_time_ms) :
    KeepsNewest (s.offer t) := by
  have hheap := heappush_perm HeapEntry.event_time_ms HeapEntry.seq s.heap
    ⟨t.event_time_ms, s.seq_counter + 1, t⟩
  by_cases hlate : t.event_time_ms < s.max_event_time_seen
  · rcases h with hzero | ⟨e, he, hmax⟩
    · omega
    · refine ⟨e, hheap.mem_iff.mpr (List.mem_cons_of_mem _ he), ?_⟩
      simp [Sequencer.offer, hlate, hmax]
  · refine ⟨_, hheap.mem_iff.mpr (List.mem_cons_self ..), ?_⟩
    simp [Sequencer.offer, hlate]

theorem poll_ready_keepsNewest (hW : 0 < s.watermark_ms) (h : KeepsNewest s) :
    KeepsNewest s.poll_ready.2 := by
  obtain ⟨e, he, hmax⟩ := h
  refine ⟨e, ?_, hmax⟩
  have hsplit := popUpTo_append HeapEntry.event_time_ms (s.max_event_time_seen - s.watermark_ms) s.heap
  rw [← hsplit] at he
  rcases List.mem_append.mp he with hout | hrest
  · have := popUpTo_out HeapEntry.event_time_ms _ _ e hout
    omega
  · exact hrest

end tick_pipeline.sequencer

namespace tick_pipeline.pipeline

open runs models ring_buffer sequencer

theorem offers_keepsNewest {seq : Sequencer} (batch : List Tick) (h : KeepsNewest seq)
    (h0 : ∀ t ∈ batch, 0 ≤ t.event_time_ms) : KeepsNewest (offers batch seq) := by
  induction batch generalizing seq with
  | nil => exact h
  | cons t batch ih =>
    exact ih (offer_keepsNewest (Or.inr h) t (h0 t (by simp))) (fun u hu => h0 u (by simp [hu]))

/-- Once a tick has come, one stands in the ring buffer or in the heap. -/
structure Lingers (cfg : Settings) (came : Prop) (buf : RingBuffer Tick) (seq : Sequencer) :
    Prop where
  whole : Whole cfg buf
  times : ∀ t, some t ∈ buf.slots → 0 ≤ t.event_time_ms
  started : Started seq
  watermark : seq.watermark_ms = cfg.reorder_watermark_ms
  lingers : came → buf.items ≠ [] ∨ KeepsNewest seq

theorem lingers_new (cfg : Settings) : Lingers cfg False
    (RingBuffer.new Tick cfg.ring_buffer_capacity) (Sequencer.new cfg.reorder_watermark_ms) := by
  refine ⟨whole_new cfg, ?_, Or.inl rfl, rfl, False.elim⟩
  intro t ht
  have := List.eq_of_mem_replicate ht
  cases this

section lane

variable {cfg : Settings} {came : Prop} {buf : RingBuffer Tick} {seq : Sequencer}

theorem Lingers.push (h : Lingers cfg came buf seq) (t : Tick) (h0 : 0 ≤ t.event_time_ms) :
    Lingers cfg True (buf.push_nowait t).2 seq := by
  refine ⟨h.whole.push t, ?_, h.started, h.watermark, fun _ => Or.inl ?_⟩
  · intro u hu
    rcases push_nowait_mem hu with hu | rfl
    · exact h.times u hu
    · exact h0
  · have hmem : some t ∈ (buf.push_nowait t).2.slots :=
      List.mem_set (h.whole.shaped.slots_len ▸ h.whole.shaped.head_lt) _
    exact List.ne_nil_of_mem (List.reduceOption_mem_iff.mpr hmem)

theorem Lingers.gather (hW : 0 < cfg.reorder_watermark_ms) (h : Lingers cfg came buf seq) :
    Lingers cfg came (gather cfg buf seq).2.1 (gather cfg buf seq).2.2 := by
  obtain ⟨ready, buf', seq', hg, hwhole, _⟩ := gather_items seq h.whole
  have htimes : ∀ t, some t ∈ buf'.slots → 0 ≤ t.event_time_ms := by
    intro t ht
    have hbuf := gather_buffer cfg buf seq
    rw [hg] at hbuf
    rw [show buf' = _ from hbuf] at ht
    exact h.times t (drain_nowait_mem.2 ht)
  by_cases hb : 0 ≤ cfg.batch_max_size
  · obtain ⟨q, hq⟩ := h.whole.holds hb
    obtain ⟨buf'', hrest, _, _, hcase⟩ := gather.spec seq hb hq
    have hsplit := batchOf_append_restOf cfg q
    rcases hcase with ⟨hnil, heq⟩ | ⟨hne, heq⟩
    · rw [heq] at hg ⊢
      obtain ⟨_, rfl, rfl⟩ : some [] = some ready ∧ buf'' = buf' ∧ seq = seq' := by simpa using hg
      refine ⟨hwhole, htimes, h.started, h.watermark, ?_⟩
      rw [hnil, List.nil_append] at hsplit
      have hsame := (hrest.items_perm.trans (hsplit ▸ hq.items_perm.symm)).length_eq
      intro hcame
      refine (h.lingers hcame).imp_left fun hitems hnil' => hitems ?_
      rw [hnil'] at hsame
      exact List.eq_nil_of_length_eq_zero hsame.symm
    · rw [heq] at hg ⊢
      obtain ⟨_, rfl, rfl⟩ : _ ∧ buf'' = buf' ∧ (offers (batchOf cfg q) seq).poll_ready.2 = seq' := by
        simpa using hg
      have hkeeps : KeepsNewest (offers (batchOf cfg q) seq).poll_ready.2 := by
        apply poll_ready_keepsNewest
        · rw [offers_watermark, h.watermark]
          exact hW
        · have h0 : ∀ t ∈ batchOf cfg q, 0 ≤ t.event_time_ms := by
            intro t ht
            apply h.times
            have hmem : t ∈ q.items := hsplit ▸ List.mem_append_left _ ht
            exact List.reduceOption_mem_iff.mp (hq.items_perm.mem_iff.mpr hmem)
          rcases hbatch : batchOf cfg q with _ | ⟨t, rest⟩
          · exact absurd hbatch hne
          · rw [hbatch] at h0
            exact offers_keepsNewest rest (offer_keepsNewest h.started t (h0 t (by simp)))
              (fun u hu => h0 u (by simp [hu]))
      exact ⟨hwhole, htimes, Or.inr hkeeps, (offers_watermark _ seq).trans h.watermark,
        fun _ => Or.inr hkeeps⟩
  · have hneg := gather_negative buf seq (not_le.mp hb)
    rw [hneg]
    exact ⟨⟨⟨h.whole.shaped.slots_len, h.whole.shaped.head_lt⟩, fun hb' => absurd hb' hb⟩, h.times,
      h.started, h.watermark, h.lingers⟩

end lane

/-- So it is for every symbol of the pipeline, and no other ticks come. -/
structure AllLinger (cfg : Settings) (came : List Tick) (p : Pipeline) : Prop where
  known : ∀ t ∈ came, t.symbol ∈ p.symbols
  lingers : ∀ s, Lingers cfg (∃ t ∈ came, t.symbol = s) (p.ring_buffers s) (p.sequencers s)

section steps

variable {cfg : Settings} {came : List Tick} {p q : Pipeline}

theorem AllLinger.congr (h : AllLinger cfg came p) (hsymbols : q.symbols = p.symbols)
    (hring : q.ring_buffers = p.ring_buffers) (hseq : q.sequencers = p.sequencers) :
    AllLinger cfg came q := by
  refine ⟨?_, ?_⟩
  · rw [hsymbols]
    exact h.known
  · rw [hring, hseq]
    exact h.lingers

theorem ingest_linger (t : Tick) (h0 : ∀ u ∈ p.accepts t, 0 ≤ u.event_time_ms)
    (h : AllLinger cfg came p) : AllLinger cfg (came ++ p.accepts t) (p.ingest t) := by
  unfold Pipeline.accepts at h0 ⊢
  unfold Pipeline.ingest
  split
  · rename_i hk
    rw [if_pos hk] at h0
    refine ⟨?_, ?_⟩
    · intro u hu
      rcases List.mem_append.mp hu with hu | hu
      · exact h.known u hu
      · exact List.mem_singleton.mp hu ▸ hk
    · intro s
      by_cases hs : s = t.symbol
      · subst hs
        obtain ⟨h1, h2, h3, h4, h5⟩ := (h.lingers t.symbol).push t (h0 t (by simp))
        simp only [Function.update_self]
        exact ⟨h1, h2, h3, h4, fun _ => h5 trivial⟩
      · obtain ⟨h1, h2, h3, h4, h5⟩ := h.lingers s
        simp only [Function.update_of_ne hs]
        refine ⟨h1, h2, h3, h4, ?_⟩
        rintro ⟨u, hu, hus⟩
        rcases List.mem_append.mp hu with hu | hu
        · exact h5 ⟨u, hu, hus⟩
        · obtain rfl := List.mem_singleton.mp hu
          exact absurd hus.symm hs
  · rw [List.append_nil]
    exact h

theorem consume_linger (hW : 0 < cfg.reorder_watermark_ms) (symbol : Symbol)
    (h : AllLinger cfg came p) : AllLinger cfg came (p.consume_symbol cfg symbol).2 := by
  obtain ⟨_, heq⟩ | ⟨_, ready, buf, seq, hg, hcase⟩ := consume_symbol_cases cfg p symbol
  · rw [heq]
    exact h
  · have hone := (h.lingers symbol).gather hW
    rw [hg] at hone
    have hfront : AllLinger cfg came (p.withFront symbol buf seq) := by
      refine ⟨h.known, fun s => ?_⟩
      unfold Pipeline.withFront
      by_cases hs : s = symbol
      · subst hs
        simpa using hone
      · simpa [hs] using h.lingers s
    rcases hcase with ⟨_, heq⟩ | ⟨_, heq⟩ | ⟨t, rest, _, heq⟩
    · rw [heq]
      exact hfront
    · rw [heq]
      exact hfront
    · obtain ⟨h1, _, h3, h4⟩ := process_batch_front (p := p.withFront symbol buf seq) symbol (t :: rest)
      rw [heq]
      exact hfront.congr h1 h3 h4

end steps

end tick_pipeline.pipeline

namespace tick_pipeline.main

open runs models sequencer pipeline sqlite_store

section law

variable (upper : Symbol → Symbol) (cfg : Settings) (symbols : List Symbol)

theorem step_linger {a : App} {came : List Tick} (hW : 0 < cfg.reorder_watermark_ms) (op : AppOp)
    (h0 : ∀ t ∈ (a.step cfg op).1.accepted, 0 ≤ t.event_time_ms)
    (h : AllLinger cfg came a.pipeline) :
    AllLinger cfg (came ++ (a.step cfg op).1.accepted) (a.step cfg op).2.pipeline := by
  have hnone : came ++ Intake.none.accepted = came := List.append_nil came
  have hturn : ∀ r : List Obs × Pipeline, AllLinger cfg came r.2 →
      AllLinger cfg (came ++ (a.turn r).1.accepted) (a.turn r).2.pipeline := by
    intro r hr
    unfold App.turn
    split
    · rw [hnone]
      exact h
    · rw [hnone]
      exact hr
  have hstay : ∀ b : App, b.pipeline = a.pipeline →
      AllLinger cfg (came ++ Intake.none.accepted) b.pipeline := by
    intro b hb
    rw [hb, hnone]
    exact h
  unfold App.step at h0 ⊢
  cases op with
  | ingest t =>
    dsimp only at h0 ⊢
    split
    · rename_i hphase
      rw [if_pos hphase] at h0
      exact ingest_linger t h0 h
    · exact hstay a rfl
  | consume_symbol s => exact hturn _ (consume_linger hW s h)
  | rate_round elapsed =>
    obtain ⟨h1, _, h3, h4, _⟩ := rate_round_frame (p := a.pipeline) elapsed
    exact hturn _ (h.congr h1 h3 h4)
  | wake => exact hstay _ rfl
  | await ok => exact hstay _ rfl
  | stop_client =>
    dsimp only
    split <;> exact hstay _ rfl
  | stop_pipeline =>
    dsimp only
    split <;> exact hstay _ rfl
  | stop_writer =>
    dsimp only
    split <;> exact hstay _ rfl
  | resume_stop => exact hstay _ rfl

/-- In every run that takes ticks in, ticks linger. -/
theorem run_linger (hW : 0 < cfg.reorder_watermark_ms) (ops : List AppOp)
    (h0 : ∀ t ∈ accepted upper cfg symbols ops, 0 ≤ t.event_time_ms) :
    AllLinger cfg (accepted upper cfg symbols ops) (App.after upper cfg symbols ops).pipeline := by
  unfold accepted App.after at *
  have hrun := run_history (App.step cfg) (s := App.new upper cfg symbols) (P := fun _ intakes a =>
    (∀ t ∈ intakes.flatMap Intake.accepted, 0 ≤ t.event_time_ms) →
      AllLinger cfg (intakes.flatMap Intake.accepted) a.pipeline) ?_ ?_ ops
  · exact hrun h0
  · intro _
    refine ⟨by simp, fun s => ?_⟩
    obtain ⟨h1, h2, h3, h4, _⟩ := lingers_new cfg
    exact ⟨h1, h2, h3, h4, fun hcame => by simp at hcame⟩
  · intro _ intakes a op ih h0'
    rw [List.flatMap_append, List.flatMap_singleton] at h0' ⊢
    apply step_linger cfg hW op
    · intro t ht
      exact h0' t (List.mem_append_right _ ht)
    · exact ih (fun t ht => h0' t (List.mem_append_left _ ht))

/-- With a positive watermark and event times from 0 on, a shutdown that has run to its end leaves a
tick without its row in every run that put one in a ring buffer. -/
theorem a_shutdown_behind_a_watermark_loses_a_tick (before after : List AppOp)
    (hW : 0 < cfg.reorder_watermark_ms)
    (h0 : ∀ t ∈ accepted upper cfg symbols before, 0 ≤ t.event_time_ms)
    (hcame : accepted upper cfg symbols before ≠ [])
    (hphase : (App.after upper cfg symbols before).phase = .client_stopped)
    (hreturned : (App.after upper cfg symbols (before ++ .stop_pipeline :: after)).sqlite_writer.stop_call
      = .returned) :
    let ops := before ++ .stop_pipeline :: after
    ¬ ((App.after upper cfg symbols ops).sqlite_writer.writer.db.ticks ++
      (overwritten upper cfg symbols ops).map tickRow).Perm
        ((accepted upper cfg symbols ops).map tickRow) := by
  intro ops hperm
  have hlinger := run_linger upper cfg symbols hW before h0
  obtain ⟨t, ht⟩ := List.exists_mem_of_ne_nil _ hcame
  have hnil := (rows_iff_nothing_held upper cfg symbols before after hphase hreturned).mp hperm
  have hheld := (held_eq_nil_iff _).mp hnil t.symbol (hlinger.known t ht)
  rcases (hlinger.lingers t.symbol).lingers ⟨t, ht, rfl⟩ with hitems | ⟨e, he, _⟩
  · exact hitems hheld.1
  · rw [List.eq_nil_of_length_eq_zero hheld.2] at he
    cases he

end law

end tick_pipeline.main
