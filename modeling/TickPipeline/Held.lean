-- What the pipeline holds on to: the items in the slots of the ring buffers, and the
-- ticks in the heaps of the sequencers. An ingest puts one tick in, and may write over
-- one; a turn takes out what it processes, and loses none.
import TickPipeline.Lib.Bags
import TickPipeline.Front
import Mathlib.Data.List.Dedup

namespace tick_pipeline.ring_buffer

open drop_oldest bags

variable {α : Type} {b : RingBuffer α}

/-- The items in the slots. -/
def RingBuffer.items (b : RingBuffer α) : List α := b.slots.reduceOption

/-- The item that the next push writes over. -/
def RingBuffer.overwritten (b : RingBuffer α) : List α := b.slots[b.head]?.join.toList

/-- The head stays within the slots. -/
structure Shaped (b : RingBuffer α) : Prop where
  slots_len : b.slots.length = b.capacity
  head_lt : b.head < b.capacity

theorem shaped_new {capacity : Nat} (h : 0 < capacity) : Shaped (RingBuffer.new α capacity) := by
  refine ⟨?_, h⟩
  simp [RingBuffer.new]

theorem Shaped.push (h : Shaped b) (x : α) : Shaped (b.push_nowait x).2 := by
  refine ⟨?_, Nat.mod_lt _ (Nat.zero_lt_of_lt h.head_lt)⟩
  simpa [RingBuffer.push_nowait] using h.slots_len

theorem push_nowait_items (h : Shaped b) (x : α) :
    ((b.push_nowait x).2.items ++ b.overwritten).Perm (b.items ++ [x]) := by
  have hi : b.head < b.slots.length := h.slots_len ▸ h.head_lt
  have hover : b.overwritten = b.slots[b.head].toList := by
    unfold RingBuffer.overwritten
    rw [List.getElem?_eq_getElem hi]
    rfl
  rw [hover]
  exact reduceOption_set_perm b.slots b.head (some x) hi

/-- The slots hold what the queue holds. -/
theorem Holds.items_perm {q : Fifo α} (h : Holds b q) : b.items.Perm q.items := by
  have hrot := (List.rotate_perm b.slots (b.head + b.capacity - b.size)).filterMap id
  rw [h.layout] at hrot
  have hview : (q.items.map some ++ List.replicate (b.capacity - q.items.length) none).filterMap id =
      q.items := by
    rw [List.filterMap_append, List.filterMap_map]
    simp
  rw [hview] at hrot
  exact hrot.symm

end tick_pipeline.ring_buffer

namespace tick_pipeline.sequencer

open models

variable {s : Sequencer}

/-- The ticks in the heap. -/
def Sequencer.ticks (s : Sequencer) : List Tick := s.heap.map (·.tick)

theorem offer_ticks (t : Tick) : (s.offer t).ticks.Perm (s.ticks ++ [t]) := by
  have hheap := (reorder.heappush_perm HeapEntry.event_time_ms HeapEntry.seq s.heap
    ⟨t.event_time_ms, s.seq_counter + 1, t⟩).map (·.tick)
  rw [List.map_cons] at hheap
  exact hheap.trans (List.perm_append_singleton t s.ticks).symm

theorem poll_ready_ticks : s.poll_ready.1 ++ s.poll_ready.2.ticks = s.ticks := poll_ready_append s

end tick_pipeline.sequencer

namespace tick_pipeline.pipeline

open runs models ring_buffer sequencer drop_oldest bags

theorem offers_ticks (batch : List Tick) (seq : Sequencer) :
    (offers batch seq).ticks.Perm (seq.ticks ++ batch) := by
  induction batch generalizing seq with
  | nil => rw [List.append_nil]; rfl
  | cons t batch ih =>
    have hone := (offer_ticks (s := seq) t).append_right batch
    rw [List.append_assoc, List.singleton_append] at hone
    exact (ih (seq.offer t)).trans hone

/-- A poll after a batch splits what the heap then holds. -/
theorem offers_poll_ticks (batch : List Tick) (seq : Sequencer) :
    ((offers batch seq).poll_ready.2.ticks ++ (offers batch seq).poll_ready.1).Perm
      (seq.ticks ++ batch) := by
  refine List.perm_append_comm.trans ?_
  rw [poll_ready_ticks]
  exact offers_ticks batch seq

/-! ## One symbol -/

/-- What holds of a ring buffer in any run: with a batch size from 0 on, there is a queue
behind its slots. -/
structure Whole (cfg : Settings) (buf : RingBuffer Tick) : Prop where
  shaped : Shaped buf
  holds : 0 ≤ cfg.batch_max_size → ∃ q, Holds buf q

theorem whole_new (cfg : Settings) : Whole cfg (RingBuffer.new Tick cfg.ring_buffer_capacity) :=
  ⟨shaped_new cfg.capacity_pos, fun _ => ⟨empty, holds_new _ cfg.capacity_pos⟩⟩

theorem Whole.push {cfg : Settings} {buf : RingBuffer Tick} (h : Whole cfg buf) (t : Tick) :
    Whole cfg (buf.push_nowait t).2 := by
  refine ⟨h.shaped.push t, fun hb => ?_⟩
  obtain ⟨q, hq⟩ := h.holds hb
  exact ⟨_, (push_nowait.spec buf q t hq).2⟩

/-- A turn takes out what it lets out. No batch size makes an offer raise. -/
theorem gather_items {cfg : Settings} {buf : RingBuffer Tick} (seq : Sequencer) (h : Whole cfg buf) :
    ∃ ready buf' seq', gather cfg buf seq = (some ready, buf', seq') ∧ Whole cfg buf' ∧
      (buf'.items ++ seq'.ticks ++ ready).Perm (buf.items ++ seq.ticks) := by
  by_cases hb : 0 ≤ cfg.batch_max_size
  · obtain ⟨q, hq⟩ := h.holds hb
    obtain ⟨buf', hrest, hcap, _, hcase⟩ := gather.spec seq hb hq
    have hwhole : Whole cfg buf' :=
      ⟨⟨hrest.slots_len, hrest.head_lt⟩, fun _ => ⟨_, hrest⟩⟩
    have hsplit : (buf'.items ++ batchOf cfg q).Perm buf.items := by
      calc List.Perm (buf'.items ++ batchOf cfg q) ((restOf cfg q).items ++ batchOf cfg q) :=
            hrest.items_perm.append_right _
        List.Perm _ (batchOf cfg q ++ (restOf cfg q).items) := List.perm_append_comm
        List.Perm _ buf.items := by
          rw [batchOf_append_restOf]
          exact hq.items_perm.symm
    rcases hcase with ⟨hnil, heq⟩ | ⟨_, heq⟩
    · refine ⟨_, _, _, heq, hwhole, ?_⟩
      rw [hnil, List.append_nil] at hsplit
      rw [List.append_nil]
      exact hsplit.append_right _
    · refine ⟨_, _, _, heq, hwhole, ?_⟩
      have hpoll := offers_poll_ticks (batchOf cfg q) seq
      rw [List.append_assoc]
      calc List.Perm _ (buf'.items ++ (seq.ticks ++ batchOf cfg q)) := hpoll.append_left _
        List.Perm _ (buf'.items ++ batchOf cfg q ++ seq.ticks) := by
          rw [← List.append_assoc]
          exact append_swap _ _ _
        List.Perm _ (buf.items ++ seq.ticks) := hsplit.append_right _
  · have hg := gather_negative buf seq (not_le.mp hb)
    refine ⟨_, _, _, hg, ⟨⟨h.shaped.slots_len, h.shaped.head_lt⟩, fun hb' => absurd hb' hb⟩, ?_⟩
    rw [List.append_nil]
    rfl

/-! ## All symbols -/

def Pipeline.heldFor (p : Pipeline) (symbol : Symbol) : List Tick :=
  (p.ring_buffers symbol).items ++ (p.sequencers symbol).ticks

/-- The ticks that stand in a ring buffer or in a heap. -/
def Pipeline.held (p : Pipeline) : List Tick := p.symbols.dedup.flatMap p.heldFor

/-- The tick, when `ingest` puts it in a ring buffer. -/
def Pipeline.accepts (p : Pipeline) (tick : Tick) : List Tick :=
  if tick.symbol ∈ p.symbols then [tick] else []

/-- The tick that `ingest` writes over. -/
def Pipeline.overwrites (p : Pipeline) (tick : Tick) : List Tick :=
  if tick.symbol ∈ p.symbols then (p.ring_buffers tick.symbol).overwritten else []

def AllWhole (cfg : Settings) (p : Pipeline) : Prop := ∀ s, Whole cfg (p.ring_buffers s)

section steps

variable {cfg : Settings} {p : Pipeline}

theorem ingest_whole (t : Tick) (h : AllWhole cfg p) : AllWhole cfg (p.ingest t) := by
  unfold Pipeline.ingest
  split
  · intro s
    by_cases hs : s = t.symbol
    · subst hs
      simpa using (h t.symbol).push t
    · simpa [hs] using h s
  · exact h

theorem ingest_held (t : Tick) (h : AllWhole cfg p) :
    ((p.ingest t).held ++ p.overwrites t).Perm (p.held ++ p.accepts t) := by
  unfold Pipeline.ingest Pipeline.overwrites Pipeline.accepts
  by_cases hk : t.symbol ∈ p.symbols
  · rw [if_pos hk, if_pos hk, if_pos hk]
    apply flatMap_perm_of_one (List.nodup_dedup _) (List.mem_dedup.mpr hk)
    · have hpush := (push_nowait_items (h t.symbol).shaped t).append_right
        (p.sequencers t.symbol).ticks
      unfold Pipeline.heldFor
      simp only [Function.update_self]
      exact (append_swap _ _ _).trans (hpush.trans (append_swap _ _ _))
    · intro s hs
      unfold Pipeline.heldFor
      simp only [Function.update_of_ne hs]
  · rw [if_neg hk, if_neg hk, if_neg hk]

theorem process_batch_front (symbol : Symbol) (ticks : List Tick) :
    (p.process_batch symbol ticks).2.symbols = p.symbols ∧
      (p.process_batch symbol ticks).2.persistence = p.persistence ∧
      (p.process_batch symbol ticks).2.ring_buffers = p.ring_buffers ∧
      (p.process_batch symbol ticks).2.sequencers = p.sequencers := by
  unfold Pipeline.process_batch
  split
  · exact process_ticks_frame symbol ticks
  · exact ⟨rfl, rfl, rfl, rfl⟩

/-- The sink gets each tick that is processed. -/
theorem process_batch_ticks (hp : p.persistence = true) (symbol : Symbol) (hk : symbol ∈ p.symbols)
    (ticks : List Tick) :
    ((p.process_batch symbol ticks).1.flatMap Obs.records).filterMap Record.ticks = ticks := by
  have hrun : ∀ q : Pipeline, q.persistence = true →
      ((run (Pipeline.process_tick symbol) q ticks).1.flatMap (·.2)).filterMap Record.ticks = ticks := by
    induction ticks with
    | nil =>
      intro q _
      rfl
    | cons t ticks ih =>
      intro q hq
      have hone : (q.process_tick symbol t).1.2.filterMap Record.ticks = [t] := by
        unfold Pipeline.process_tick
        simp [hq, Record.ticks, List.filterMap_map, Function.comp_def]
      rw [run_cons, List.flatMap_cons, List.filterMap_append, hone,
        ih _ ((process_tick_persistence symbol t).trans hq)]
      rfl
  unfold Pipeline.process_batch
  rw [if_pos hk]
  simpa [Obs.records] using hrun p hp

/-- What a turn does to the buffers of one symbol, it does to the whole. -/
theorem withFront_held {symbol : Symbol} {buf : RingBuffer Tick} {seq : Sequencer}
    {ready : List Tick} (hk : symbol ∈ p.symbols)
    (h : (buf.items ++ seq.ticks ++ ready).Perm (p.heldFor symbol)) :
    ((p.withFront symbol buf seq).held ++ ready).Perm p.held := by
  rw [← List.append_nil p.held]
  apply flatMap_perm_of_one (List.nodup_dedup _) (List.mem_dedup.mpr hk)
  · unfold Pipeline.heldFor Pipeline.withFront
    simp only [Function.update_self, List.append_nil]
    exact h
  · intro s hs
    unfold Pipeline.heldFor Pipeline.withFront
    simp only [Function.update_of_ne hs]

theorem withFront_whole {symbol : Symbol} {buf : RingBuffer Tick} (seq : Sequencer)
    (h : AllWhole cfg p) (hbuf : Whole cfg buf) : AllWhole cfg (p.withFront symbol buf seq) := by
  intro s
  unfold Pipeline.withFront
  by_cases hs : s = symbol
  · subst hs
    simpa using hbuf
  · simpa [hs] using h s

/-- A turn takes out of the buffers what it gives to the sink. -/
theorem consume_held (symbol : Symbol) (hp : p.persistence = true) (h : AllWhole cfg p) :
    AllWhole cfg (p.consume_symbol cfg symbol).2 ∧
      (p.consume_symbol cfg symbol).2.symbols = p.symbols ∧
      (p.consume_symbol cfg symbol).2.persistence = true ∧
      ((p.consume_symbol cfg symbol).2.held ++
        ((p.consume_symbol cfg symbol).1.flatMap Obs.records).filterMap Record.ticks).Perm p.held := by
  obtain ⟨_, heq⟩ | ⟨hk, ready, buf, seq, hg, hcase⟩ := consume_symbol_cases cfg p symbol
  · rw [heq]
    refine ⟨h, rfl, hp, ?_⟩
    simp [Obs.records]
  · obtain ⟨ready', buf', seq', hg', hwhole, hperm⟩ := gather_items (p.sequencers symbol) (h symbol)
    rw [hg'] at hg
    obtain ⟨rfl, rfl, rfl⟩ : some ready' = ready ∧ buf' = buf ∧ seq' = seq := by simpa using hg
    have hfront : AllWhole cfg (p.withFront symbol buf' seq') := withFront_whole seq' h hwhole
    have hheld := withFront_held hk hperm
    rcases hcase with ⟨hready, _⟩ | ⟨hready, heq⟩ | ⟨t, rest, hready, heq⟩
    · cases hready
    · obtain rfl : ready' = [] := by simpa using hready
      rw [heq]
      exact ⟨hfront, rfl, hp, hheld⟩
    · obtain rfl : ready' = t :: rest := by simpa using hready
      obtain ⟨h1, h2, h3, h4⟩ := process_batch_front (p := p.withFront symbol buf' seq') symbol (t :: rest)
      have hticks := process_batch_ticks (p := p.withFront symbol buf' seq') hp symbol hk (t :: rest)
      rw [heq, hticks]
      refine ⟨?_, h1, h2.trans hp, ?_⟩
      · unfold AllWhole
        rw [h3]
        exact hfront
      · unfold Pipeline.held Pipeline.heldFor at hheld ⊢
        rw [h1, h3, h4]
        exact hheld

/-- A rate round moves no tick. -/
theorem rate_round_frame (elapsed : ℚ) :
    (p.rate_round elapsed).2.symbols = p.symbols ∧
      (p.rate_round elapsed).2.persistence = p.persistence ∧
      (p.rate_round elapsed).2.ring_buffers = p.ring_buffers ∧
      (p.rate_round elapsed).2.sequencers = p.sequencers ∧
      (p.rate_round elapsed).1.flatMap Obs.records = [] := by
  unfold Pipeline.rate_round
  apply run_history (Pipeline.rate_symbol elapsed) (P := fun _ obs q => q.symbols = p.symbols ∧
    q.persistence = p.persistence ∧ q.ring_buffers = p.ring_buffers ∧
    q.sequencers = p.sequencers ∧ obs.flatMap Obs.records = [])
  · exact ⟨rfl, rfl, rfl, rfl, rfl⟩
  · intro _ obs q s ⟨h1, h2, h3, h4, h5⟩
    refine ⟨h1, h2, h3, h4, ?_⟩
    rw [List.flatMap_append, h5]
    rfl

end steps

end tick_pipeline.pipeline
