-- The sequencer of `ingest/sequencer.py`: it holds ticks in a min-heap by event
-- time, lets them out behind a watermark, and counts late ticks and gaps.
import TickPipeline.Models
import TickPipeline.Lib.Runs
import TickPipeline.Lib.Reorder
import Mathlib.Logic.Function.Basic

namespace tick_pipeline.sequencer

open runs reorder models

/-! ## The code -/

/-- An entry of the heap. Entries compare by event time and then by `seq`. -/
structure HeapEntry where
  event_time_ms : Int
  seq : Nat
  tick : Tick

/-- `a < b` on heap entries. -/
abbrev HeapEntry.Before : HeapEntry → HeapEntry → Prop :=
  reorder.Before HeapEntry.event_time_ms HeapEntry.seq

/-- The heap is the list that pops walk through, so `heap[0]` is its head. -/
structure Sequencer where
  watermark_ms : Int
  heap : List HeapEntry
  seq_counter : Nat
  max_event_time_seen : Int
  last_trade_id : Symbol → Option Int
  out_of_order_count : Nat
  gap_count : Int

def Sequencer.new (watermark_ms : Int) : Sequencer :=
  { watermark_ms
    heap := []
    seq_counter := 0
    max_event_time_seen := 0
    last_trade_id := fun _ => none
    out_of_order_count := 0
    gap_count := 0 }

/-- How far the gap count moves when `trade_id` comes after `last_id`. -/
def gap_after (last_id : Option Int) (trade_id : Int) : Int :=
  match last_id with
  | none => 0
  | some last_id => if trade_id > last_id + 1 then trade_id - last_id - 1 else 0

/-- The last trade id of a symbol, once `trade_id` has come. -/
def last_id_after (last_id : Option Int) (trade_id : Int) : Option Int :=
  match last_id with
  | none => some trade_id
  | some last_id => if trade_id > last_id then some trade_id else some last_id

/-- Adds a tick to the reorder buffer. -/
def Sequencer.offer (s : Sequencer) (tick : Tick) : Sequencer :=
  let late := decide (tick.event_time_ms < s.max_event_time_seen)
  let last_id := s.last_trade_id tick.symbol
  { s with
    out_of_order_count := if late then s.out_of_order_count + 1 else s.out_of_order_count
    max_event_time_seen := if late then s.max_event_time_seen else tick.event_time_ms
    gap_count := s.gap_count + gap_after last_id tick.trade_id
    last_trade_id :=
      Function.update s.last_trade_id tick.symbol (last_id_after last_id tick.trade_id)
    seq_counter := s.seq_counter + 1
    heap := heappush HeapEntry.event_time_ms HeapEntry.seq s.heap
      ⟨tick.event_time_ms, s.seq_counter + 1, tick⟩ }

/-- Pops all ticks old enough that nothing on its way could precede them. -/
def Sequencer.poll_ready (s : Sequencer) : List Tick × Sequencer :=
  let threshold := s.max_event_time_seen - s.watermark_ms
  let (ready, heap) := popUpTo HeapEntry.event_time_ms threshold s.heap
  (ready.map (·.tick), { s with heap })

/-- Empties the heap, whatever the watermark. -/
def Sequencer.flush_all (s : Sequencer) : List Tick × Sequencer :=
  ((s.heap.insertionSort HeapEntry.Before).map (·.tick), { s with heap := [] })

def Sequencer.pending (s : Sequencer) : Nat := s.heap.length

/-- The heap after an offer: what was there, and the tick. -/
theorem offer_mem {s : Sequencer} {tick : Tick} {e : HeapEntry} (h : e ∈ (s.offer tick).heap) :
    e ∈ s.heap ∨ e.tick = tick := by
  rcases List.mem_cons.mp ((heappush_perm _ _ _ _).mem_iff.mp h) with rfl | h
  · exact Or.inr rfl
  · exact Or.inl h

/-- A poll splits the heap. -/
theorem poll_ready_append (s : Sequencer) :
    s.poll_ready.1 ++ s.poll_ready.2.heap.map (·.tick) = s.heap.map (·.tick) := by
  unfold Sequencer.poll_ready
  dsimp only
  rw [← List.map_append, popUpTo_append]

/-! ## Runs of calls -/

inductive SequencerCall
  | offer (tick : Tick)
  | poll_ready

/-- One call, with the ticks it returns. -/
def Sequencer.call (s : Sequencer) : SequencerCall → List Tick × Sequencer
  | .offer tick => ([], s.offer tick)
  | .poll_ready => s.poll_ready

/-- The ticks offered by a call. -/
def SequencerCall.offered : SequencerCall → List Tick
  | .offer tick => [tick]
  | .poll_ready => []

/-- The ticks offered by a list of calls, in order. -/
def offeredBy (calls : List SequencerCall) : List Tick := calls.flatMap (·.offered)

/-- The entries that offers make: the tick offered at position `i` gets `seq` `i + 1`. -/
def entriesOf (offered : List Tick) : List HeapEntry :=
  offered.zipIdx.map (fun p => ⟨p.1.event_time_ms, p.2 + 1, p.1⟩)

/-- The largest event time offered, or 0, where the sequencer starts. -/
def maxTime (offered : List Tick) : Int := offered.foldl (fun m t => max m t.event_time_ms) 0

theorem offeredBy_snoc (calls : List SequencerCall) (c : SequencerCall) :
    offeredBy (calls ++ [c]) = offeredBy calls ++ c.offered := by
  simp [offeredBy]

theorem maxTime_snoc (offered : List Tick) (t : Tick) :
    maxTime (offered ++ [t]) = max (maxTime offered) t.event_time_ms := by
  simp [maxTime]

theorem le_maxTime (offered : List Tick) : ∀ t ∈ offered, t.event_time_ms ≤ maxTime offered := by
  induction offered using List.reverseRecOn with
  | nil => simp
  | append_singleton offered t ih =>
    intro u hu
    rw [maxTime_snoc]
    rcases List.mem_append.mp hu with hu | hu
    · exact le_max_of_le_left (ih u hu)
    · rw [List.mem_singleton.mp hu]
      exact le_max_right _ _

/-- With event times from 0 on, the maximum is the time of an offered tick. -/
theorem maxTime_mem (offered : List Tick) (hne : offered ≠ []) (h0 : ∀ t ∈ offered, 0 ≤ t.event_time_ms) :
    ∃ t ∈ offered, t.event_time_ms = maxTime offered := by
  induction offered using List.reverseRecOn with
  | nil => exact absurd rfl hne
  | append_singleton offered t ih =>
    rw [maxTime_snoc]
    by_cases hmax : maxTime offered ≤ t.event_time_ms
    · exact ⟨t, by simp, (max_eq_right hmax).symm⟩
    · have hlt := not_le.mp hmax
      rcases eq_or_ne offered [] with rfl | hne'
      · have := h0 t (by simp)
        simp [maxTime] at hlt
        omega
      · obtain ⟨u, hu, he⟩ := ih hne' (fun u hu => h0 u (by simp [hu]))
        exact ⟨u, by simp [hu], by rw [he, max_eq_left hlt.le]⟩

theorem entriesOf_snoc (offered : List Tick) (t : Tick) :
    entriesOf (offered ++ [t]) = entriesOf offered ++ [⟨t.event_time_ms, offered.length + 1, t⟩] := by
  simp [entriesOf, List.zipIdx_append]

theorem entriesOf_map_tick (offered : List Tick) : (entriesOf offered).map (·.tick) = offered := by
  simp [entriesOf, Function.comp_def, List.zipIdx_map_fst]

theorem mem_entriesOf (offered : List Tick) (e : HeapEntry) :
    e ∈ entriesOf offered ↔
      ∃ i, offered[i]? = some e.tick ∧ e.seq = i + 1 ∧ e.event_time_ms = e.tick.event_time_ms := by
  unfold entriesOf
  rw [List.mem_map]
  constructor
  · rintro ⟨⟨t, i⟩, h, rfl⟩
    exact ⟨i, by simpa using List.mk_mem_zipIdx_iff_getElem?.mp h, rfl, rfl⟩
  · rintro ⟨i, h, hseq, htime⟩
    refine ⟨(e.tick, i), List.mk_mem_zipIdx_iff_getElem?.mpr h, ?_⟩
    obtain ⟨time, seq, tick⟩ := e
    simp only at hseq htime ⊢
    rw [hseq, htime]

/-- Entries stand in tag order as they were offered. -/
theorem entriesOf_tags (offered : List Tick) :
    (entriesOf offered).Pairwise (fun a b => a.seq < b.seq) := by
  induction offered using List.reverseRecOn with
  | nil => simp [entriesOf]
  | append_singleton offered t ih =>
    rw [entriesOf_snoc, List.pairwise_append]
    refine ⟨ih, List.pairwise_singleton _ _, ?_⟩
    intro a ha b hb
    obtain ⟨i, hi, hseq, _⟩ := (mem_entriesOf offered a).mp ha
    have := (List.getElem?_eq_some_iff.mp hi).1
    rw [List.mem_singleton.mp hb]
    simp only
    omega

end tick_pipeline.sequencer
