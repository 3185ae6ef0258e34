-- The laws of the sequencer: no tick is lost or doubled, a poll lets out exactly
-- what stands at or below the watermark, and ticks that are on time come out in
-- event-time order, whatever the polls and whatever late ticks come between.
import TickPipeline.Sequencer

namespace tick_pipeline.sequencer

open runs reorder models

/-! ## On time -/

/-- The tick offered at position `i` is on time: no tick offered before it is more than the
watermark ahead of it. -/
def onTime (watermark_ms : Int) (offered : List Tick) (i : Nat) : Bool :=
  match offered[i]? with
  | none => false
  | some t => (offered.take i).all (fun y => y.event_time_ms - watermark_ms ≤ t.event_time_ms)

/-- Position `i` goes before position `j`: by event time, and then by the order of the offers. -/
def EarlierIn (offered : List Tick) (i j : Nat) : Prop :=
  ∃ a b, offered[i]? = some a ∧ offered[j]? = some b ∧
    (a.event_time_ms < b.event_time_ms ∨ (a.event_time_ms = b.event_time_ms ∧ i < j))

/-- The entry was on time, as the sequencer judges it when the tick is offered: not more than the
watermark behind the largest event time it has seen. -/
def AboveWatermark (watermark_ms : Int) (offered : List Tick) (e : HeapEntry) : Prop :=
  maxTime (offered.take (e.seq - 1)) - watermark_ms ≤ e.event_time_ms

theorem onTime_of_le {watermark_ms : Int} {offered : List Tick} {i : Nat} {t : Tick}
    (hi : offered[i]? = some t) (h : maxTime (offered.take i) - watermark_ms ≤ t.event_time_ms) :
    onTime watermark_ms offered i = true := by
  unfold onTime
  rw [hi]
  simp only [List.all_eq_true, decide_eq_true_eq]
  intro y hy
  have := le_maxTime _ y hy
  omega

/-- A tick on time stands at or above the largest event time so far, less the watermark. -/
theorem le_of_onTime {watermark_ms : Int} {offered : List Tick} {i : Nat} {t : Tick}
    (hW : 0 ≤ watermark_ms) (h0 : ∀ u ∈ offered, 0 ≤ u.event_time_ms) (hi : offered[i]? = some t)
    (h : onTime watermark_ms offered i = true) :
    maxTime (offered.take i) - watermark_ms ≤ t.event_time_ms := by
  unfold onTime at h
  rw [hi] at h
  simp only [List.all_eq_true, decide_eq_true_eq] at h
  rcases eq_or_ne (offered.take i) [] with hnil | hne
  · have := h0 t (List.mem_of_getElem? hi)
    rw [hnil]
    simp only [maxTime, List.foldl_nil]
    omega
  · obtain ⟨u, hu, he⟩ := maxTime_mem (offered.take i) hne
      (fun u hu => h0 u (List.mem_of_mem_take hu))
    rw [← he]
    exact h u hu

/-- The tag of an entry says where its tick was offered. -/
theorem entry_position {offered : List Tick} {entries : List HeapEntry}
    (h : entries.Perm (entriesOf offered)) {e : HeapEntry} (he : e ∈ entries) :
    1 ≤ e.seq ∧ e.seq ≤ offered.length ∧ offered[e.seq - 1]? = some e.tick ∧
      e.event_time_ms = e.tick.event_time_ms := by
  obtain ⟨i, hi, hseq, htime⟩ := (mem_entriesOf offered e).mp (h.mem_iff.mp he)
  have hlt := (List.getElem?_eq_some_iff.mp hi).1
  refine ⟨by omega, by omega, ?_, htime⟩
  rw [hseq, Nat.add_sub_cancel, hi]

/-! ## The invariant -/

/-- What the sequencer keeps after the ticks `offered` came in and the entries `out` went
out again. -/
structure Trace (watermark_ms : Int) (offered : List Tick) (out : List HeapEntry)
    (s : Sequencer) : Prop where
  entries : (out ++ s.heap).Perm (entriesOf offered)
  watermark : s.watermark_ms = watermark_ms
  counter : s.seq_counter = offered.length
  max_seen : s.max_event_time_seen = maxTime offered
  out_le : ∀ e ∈ out, e.event_time_ms ≤ maxTime offered - watermark_ms
  in_order : InOrder HeapEntry.event_time_ms HeapEntry.seq (AboveWatermark watermark_ms offered)
    out s.heap

theorem trace_new (watermark_ms : Int) : Trace watermark_ms [] [] (Sequencer.new watermark_ms) :=
  ⟨.refl _, rfl, rfl, rfl, by simp, inOrder_empty _⟩

theorem offer_max_seen (s : Sequencer) (t : Tick) :
    (s.offer t).max_event_time_seen = max s.max_event_time_seen t.event_time_ms := by
  simp only [Sequencer.offer, decide_eq_true_eq]
  split <;> omega

section trace

variable {watermark_ms : Int} {offered : List Tick} {out : List HeapEntry} {s : Sequencer}

/-- The standing of an entry looks at the offers before its own. -/
theorem aboveWatermark_snoc {e : HeapEntry} (he : e.seq ≤ offered.length) (t : Tick) :
    AboveWatermark watermark_ms (offered ++ [t]) e ↔ AboveWatermark watermark_ms offered e := by
  unfold AboveWatermark
  rw [List.take_append_of_le_length (by omega)]

theorem Trace.offer (h : Trace watermark_ms offered out s) (t : Tick) :
    Trace watermark_ms (offered ++ [t]) out (s.offer t) := by
  have hpush : (s.offer t).heap = heappush HeapEntry.event_time_ms HeapEntry.seq s.heap
      ⟨t.event_time_ms, offered.length + 1, t⟩ := by
    rw [← h.counter]; rfl
  refine ⟨?_, h.watermark, ?_, ?_, ?_, ?_⟩
  · rw [entriesOf_snoc, hpush]
    have hin := (heappush_perm HeapEntry.event_time_ms HeapEntry.seq s.heap
      ⟨t.event_time_ms, offered.length + 1, t⟩).append_left out
    have hout := (h.entries.cons ⟨t.event_time_ms, offered.length + 1, t⟩).trans
      (List.perm_append_singleton _ _).symm
    exact (hin.trans List.perm_middle).trans hout
  · simp [Sequencer.offer, h.counter]
  · rw [offer_max_seen, h.max_seen, maxTime_snoc]
  · intro e he
    have := h.out_le e he
    rw [maxTime_snoc]
    omega
  · rw [hpush]
    apply InOrder.push
    · apply h.in_order.congr
      intro e he ht
      exact (aboveWatermark_snoc (entry_position h.entries he).2.1 t).mp ht
    · intro y hy
      have := entry_position h.entries (List.mem_append_right out hy)
      simp only
      omega
    · intro ht a ha
      unfold AboveWatermark at ht
      simp only [Nat.add_sub_cancel, List.take_left'] at ht
      have hpos := entry_position h.entries (List.mem_append_left s.heap ha)
      rcases ((h.out_le a ha).trans ht).lt_or_eq with hlt | heq
      · exact Or.inl hlt
      · exact Or.inr ⟨heq, by simp only; omega⟩

/-- The entries that the next poll pops. -/
def Sequencer.popped (s : Sequencer) : List HeapEntry :=
  (popUpTo HeapEntry.event_time_ms (s.max_event_time_seen - s.watermark_ms) s.heap).1

theorem poll_ready_popped (s : Sequencer) : s.poll_ready.1 = s.popped.map (·.tick) := rfl

theorem Trace.poll (h : Trace watermark_ms offered out s) :
    Trace watermark_ms offered (out ++ s.popped) s.poll_ready.2 := by
  refine ⟨?_, h.watermark, h.counter, h.max_seen, ?_, h.in_order.pop _⟩
  · rw [List.append_assoc]
    simpa [Sequencer.popped, Sequencer.poll_ready, popUpTo_append] using h.entries
  · intro e he
    rcases List.mem_append.mp he with he | he
    · exact h.out_le e he
    · rw [← h.max_seen, ← h.watermark]
      exact popUpTo_out _ _ _ e he

end trace

/-- What the sequencer keeps after the ticks `offered` came in and the entries `out` went
out again, as the ticks `returned`. -/
structure History (watermark_ms : Int) (offered returned : List Tick) (out : List HeapEntry)
    (s : Sequencer) : Prop where
  returned_eq : returned = out.map (·.tick)
  entries : (out ++ s.heap).Perm (entriesOf offered)
  watermark : s.watermark_ms = watermark_ms
  counter : s.seq_counter = offered.length
  max_seen : s.max_event_time_seen = maxTime offered
  out_le : ∀ e ∈ out, e.event_time_ms ≤ maxTime offered - watermark_ms
  in_order : InOrder HeapEntry.event_time_ms HeapEntry.seq
    (fun e => onTime watermark_ms offered (e.seq - 1) = true) out s.heap

theorem history_new (watermark_ms : Int) :
    History watermark_ms [] [] [] (Sequencer.new watermark_ms) :=
  ⟨rfl, .refl _, rfl, rfl, rfl, by simp, inOrder_empty _⟩

/-- The tag of an entry says where its tick was offered. -/
theorem History.entry_position {watermark_ms : Int} {offered returned : List Tick}
    {out : List HeapEntry} {s : Sequencer} (h : History watermark_ms offered returned out s)
    (e : HeapEntry) (he : e ∈ out ++ s.heap) :
    1 ≤ e.seq ∧ e.seq ≤ offered.length ∧ offered[e.seq - 1]? = some e.tick ∧
      e.event_time_ms = e.tick.event_time_ms :=
  sequencer.entry_position h.entries he

/-- What stands above the watermark is on time. -/
theorem History.trace {watermark_ms : Int} {offered returned : List Tick} {out : List HeapEntry}
    {s : Sequencer} (h : History watermark_ms offered returned out s) :
    Trace watermark_ms offered out s := by
  refine ⟨h.entries, h.watermark, h.counter, h.max_seen, h.out_le, h.in_order.congr ?_⟩
  intro e he ht
  obtain ⟨-, -, htick, htime⟩ := h.entry_position e he
  exact onTime_of_le htick (htime ▸ ht)

/-- With event times from 0 on, what is on time stands above the watermark. -/
theorem Trace.history {watermark_ms : Int} {offered returned : List Tick} {out : List HeapEntry}
    {s : Sequencer} (h : Trace watermark_ms offered out s) (hreturned : returned = out.map (·.tick))
    (hW : 0 ≤ watermark_ms) (h0 : ∀ u ∈ offered, 0 ≤ u.event_time_ms) :
    History watermark_ms offered returned out s := by
  refine ⟨hreturned, h.entries, h.watermark, h.counter, h.max_seen, h.out_le, h.in_order.congr ?_⟩
  intro e he ht
  obtain ⟨-, -, htick, htime⟩ := sequencer.entry_position h.entries he
  unfold AboveWatermark
  rw [htime]
  exact le_of_onTime hW h0 htick ht

theorem History.offer {watermark_ms : Int} {offered returned : List Tick} {out : List HeapEntry}
    {s : Sequencer} (h : History watermark_ms offered returned out s) (t : Tick)
    (hW : 0 ≤ watermark_ms) (h0 : ∀ u ∈ offered ++ [t], 0 ≤ u.event_time_ms) :
    History watermark_ms (offered ++ [t]) returned out (s.offer t) :=
  (h.trace.offer t).history h.returned_eq hW h0

theorem History.poll {watermark_ms : Int} {offered returned : List Tick} {out : List HeapEntry}
    {s : Sequencer} (h : History watermark_ms offered returned out s) :
    History watermark_ms offered (returned ++ s.poll_ready.1)
      (out ++ (popUpTo HeapEntry.event_time_ms (s.max_event_time_seen - s.watermark_ms) s.heap).1)
      s.poll_ready.2 := by
  obtain ⟨h1, h2, h3, h4, h5, -⟩ := h.trace.poll
  refine ⟨?_, h1, h2, h3, h4, h5, h.in_order.pop _⟩
  simp [Sequencer.poll_ready, h.returned_eq]

/-- Every run of calls keeps the history. -/
theorem run_history_spec (watermark_ms : Int) (hW : 0 ≤ watermark_ms) (calls : List SequencerCall)
    (h0 : ∀ t ∈ offeredBy calls, 0 ≤ t.event_time_ms) :
    let r := run Sequencer.call (Sequencer.new watermark_ms) calls
    ∃ out, History watermark_ms (offeredBy calls) r.1.flatten out r.2 := by
  intro r
  have key : (∀ t ∈ offeredBy calls, 0 ≤ t.event_time_ms) →
      ∃ out, History watermark_ms (offeredBy calls) r.1.flatten out r.2 := by
    apply run_history Sequencer.call (P := fun calls answers s =>
      (∀ t ∈ offeredBy calls, 0 ≤ t.event_time_ms) →
        ∃ out, History watermark_ms (offeredBy calls) answers.flatten out s)
    · intro _
      exact ⟨[], history_new watermark_ms⟩
    · intro calls answers s c ih h0
      rw [offeredBy_snoc] at h0 ⊢
      obtain ⟨out, h⟩ := ih (fun t ht => h0 t (by simp [ht]))
      rw [List.flatten_append, List.flatten_singleton]
      cases c with
      | offer t =>
        simp only [Sequencer.call, List.append_nil]
        exact ⟨out, h.offer t hW h0⟩
      | poll_ready =>
        simp only [Sequencer.call, SequencerCall.offered, List.append_nil]
        exact ⟨_, h.poll⟩
  exact key h0

/-! ## What comes out -/

/-- A flush hands out the heap as it stands. -/
theorem History.flush_all {watermark_ms : Int} {offered returned : List Tick} {out : List HeapEntry}
    {s : Sequencer} (h : History watermark_ms offered returned out s) :
    s.flush_all.1 = s.heap.map (·.tick) := by
  simp only [Sequencer.flush_all]
  rw [List.Pairwise.insertionSort_eq h.in_order.heap_sorted]

theorem History.returned_perm {watermark_ms : Int} {offered returned : List Tick}
    {out : List HeapEntry} {s : Sequencer} (h : History watermark_ms offered returned out s) :
    (returned ++ s.heap.map (·.tick)).Perm offered := by
  have := h.entries.map (·.tick)
  rwa [List.map_append, entriesOf_map_tick, ← h.returned_eq] at this

/-- When every tick offered is on time, the outputs and a last flush are the stable sort of
the ticks offered. -/
theorem History.stable_sort {watermark_ms : Int} {offered returned : List Tick}
    {out : List HeapEntry} {s : Sequencer} (h : History watermark_ms offered returned out s)
    (hon : ∀ i < offered.length, onTime watermark_ms offered i = true) :
    returned ++ s.flush_all.1 =
      offered.mergeSort (fun a b => decide (a.event_time_ms ≤ b.event_time_ms)) := by
  have hsorted : (out ++ s.heap).Pairwise HeapEntry.Before := by
    refine h.in_order.flush.imp_of_mem ?_
    intro a b _ hb hab
    have := h.entry_position b hb
    exact hab (hon _ (by omega))
  have := map_eq_mergeSort (·.tick) Tick.event_time_ms hsorted (entriesOf_tags offered) h.entries
    (fun e he => ((mem_entriesOf offered e).mp he).choose_spec.2.2)
  rw [List.map_append, entriesOf_map_tick, ← h.returned_eq] at this
  rw [h.flush_all, this]

/-- The positions of entries, among the ticks offered. -/
def positions (entries : List HeapEntry) : List Nat := entries.map (fun e => e.seq - 1)

theorem positions_entriesOf (offered : List Tick) :
    positions (entriesOf offered) = List.range offered.length := by
  simp [positions, entriesOf, Function.comp_def, List.zipIdx_map_snd, List.range_eq_range']

theorem History.positions_perm {watermark_ms : Int} {offered returned : List Tick}
    {out : List HeapEntry} {s : Sequencer} (h : History watermark_ms offered returned out s) :
    (positions (out ++ s.heap)).Perm (List.range offered.length) := by
  rw [← positions_entriesOf]
  exact h.entries.map _

theorem History.positions_ticks {watermark_ms : Int} {offered returned : List Tick}
    {out : List HeapEntry} {s : Sequencer} (h : History watermark_ms offered returned out s) :
    (returned ++ s.flush_all.1).map some = (positions (out ++ s.heap)).map (offered[·]?) := by
  rw [h.flush_all, h.returned_eq, ← List.map_append, positions, List.map_map, List.map_map]
  apply List.map_congr_left
  intro e he
  exact ((h.entry_position e he).2.2.1).symm

/-- The ticks on time come out in order, by event time and then by the order of the offers. -/
theorem History.on_time_sorted {watermark_ms : Int} {offered returned : List Tick}
    {out : List HeapEntry} {s : Sequencer} (h : History watermark_ms offered returned out s) :
    ((positions (out ++ s.heap)).filter (onTime watermark_ms offered)).Pairwise
      (EarlierIn offered) := by
  rw [positions, List.filter_map, List.pairwise_map, List.pairwise_filter]
  refine h.in_order.flush.imp_of_mem ?_
  intro a b ha hb hab _ hon
  obtain ⟨ha1, _, hatick, hatime⟩ := h.entry_position a ha
  obtain ⟨hb1, _, hbtick, hbtime⟩ := h.entry_position b hb
  refine ⟨a.tick, b.tick, hatick, hbtick, ?_⟩
  rcases hab hon with hlt | ⟨heq, htag⟩
  · exact Or.inl (by omega)
  · exact Or.inr ⟨by omega, by omega⟩

/-! ## The law -/

/-- For every run of offers and polls, with a flush at its end or not. First, no tick is lost
or doubled. Then the polls: the next poll hands out the pending ticks at or below the
threshold, in order, and leaves those above it. Last the order: the ticks on time come out in
order, also with late ticks between them, so when all are on time the output is the stable
sort of the ticks offered. -/
theorem the_sequencer_lets_every_tick_out_in_order (watermark_ms : Int) (hW : 0 ≤ watermark_ms)
    (calls : List SequencerCall) (h0 : ∀ t ∈ offeredBy calls, 0 ≤ t.event_time_ms) :
    let r := run Sequencer.call (Sequencer.new watermark_ms) calls
    let offered := offeredBy calls
    let returned := r.1.flatten
    let s := r.2
    let threshold := s.max_event_time_seen - watermark_ms
    ((returned ++ s.heap.map (·.tick)).Perm offered ∧
      (returned ++ s.flush_all.1).Perm offered ∧ s.flush_all.2.heap = []) ∧
    ((∀ t ∈ offered, t.event_time_ms ≤ s.max_event_time_seen) ∧
      (offered ≠ [] → ∃ t ∈ offered, t.event_time_ms = s.max_event_time_seen) ∧
      (∀ e ∈ s.heap, 1 ≤ e.seq ∧ offered[e.seq - 1]? = some e.tick ∧
        e.event_time_ms = e.tick.event_time_ms) ∧
      (∃ due : List HeapEntry, s.poll_ready.1 = due.map (·.tick) ∧ due.Pairwise HeapEntry.Before ∧
        due.Perm (s.heap.filter (fun e => e.event_time_ms ≤ threshold))) ∧
      (∀ e ∈ s.poll_ready.2.heap, threshold < e.event_time_ms)) ∧
    ((∃ order : List Nat, order.Perm (List.range offered.length) ∧
        (returned ++ s.flush_all.1).map some = order.map (offered[·]?) ∧
        (order.filter (onTime watermark_ms offered)).Pairwise (EarlierIn offered)) ∧
      ((∀ i < offered.length, onTime watermark_ms offered i = true) →
        returned ++ s.flush_all.1 =
          offered.mergeSort (fun a b => decide (a.event_time_ms ≤ b.event_time_ms)))) := by
  intro r offered returned s threshold
  obtain ⟨out, h⟩ := run_history_spec watermark_ms hW calls h0
  have hheap := h.in_order.heap_sorted
  refine ⟨⟨h.returned_perm, ?_, rfl⟩, ⟨?_, ?_, ?_, ?_, ?_⟩, ?_, h.stable_sort⟩
  · rw [h.flush_all]
    exact h.returned_perm
  · rw [h.max_seen]
    exact le_maxTime offered
  · intro hne
    rw [h.max_seen]
    exact maxTime_mem offered hne h0
  · intro e he
    obtain ⟨h1, _, h2, h3⟩ := h.entry_position e (List.mem_append_right _ he)
    exact ⟨h1, h2, h3⟩
  · refine ⟨(popUpTo HeapEntry.event_time_ms (s.max_event_time_seen - s.watermark_ms) s.heap).1, rfl,
      (List.pairwise_append.mp (popUpTo_append HeapEntry.event_time_ms _ s.heap ▸ hheap)).1, ?_⟩
    rw [popUpTo_eq_filter _ _ _ _ hheap, h.watermark]
  · intro e he
    have hlt := popUpTo_rest HeapEntry.event_time_ms HeapEntry.seq _ s.heap hheap e he
    rwa [h.watermark] at hlt
  · exact ⟨positions (out ++ s.heap), h.positions_perm, h.positions_ticks, h.on_time_sorted⟩

/-- The run of `test_out_of_order_tick_is_resequenced`, with its late third tick. -/
theorem the_sequencer_lets_every_tick_out_in_order_of_three :
    let tick (id time : Int) : Tick := ⟨"BTCUSDT", 100, 1, id, time, false, 0⟩
    let calls := [.offer (tick 1 1000), .offer (tick 3 3000), .offer (tick 2 2000), .poll_ready]
    let r := run Sequencer.call (Sequencer.new 500) calls
    (r.1.flatten ++ r.2.heap.map (·.tick)).Perm (offeredBy calls) :=
  (the_sequencer_lets_every_tick_out_in_order 500 (by decide) _ (by decide)).1.1

end tick_pipeline.sequencer
