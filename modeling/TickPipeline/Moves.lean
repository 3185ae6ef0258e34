-- What the turns of a consumer move: ticks into the sequencer, and entries out of
-- its heap. A run of the pipeline is seen here as the moves of one symbol.
import TickPipeline.Front
import TickPipeline.LaneRuns
import TickPipeline.SequencerLaws

namespace tick_pipeline.sequencer

open models

/-- The sequencer apart from its heap: a poll does not change it, and an offer changes it in a way
that does not look at the heap. -/
def Sequencer.apart (s : Sequencer) : Sequencer := { s with heap := [] }

theorem offer_apart {s s' : Sequencer} (h : s.apart = s'.apart) (t : Tick) :
    (s.offer t).apart = (s'.offer t).apart := by
  have hoffer : ∀ u : Sequencer, (u.offer t).apart = (u.apart.offer t).apart := fun _ => rfl
  rw [hoffer s, hoffer s', h]

theorem poll_ready_apart (s : Sequencer) : s.poll_ready.2.apart = s.apart := rfl

end tick_pipeline.sequencer

namespace tick_pipeline.pipeline

open runs models ring_buffer sequencer

/-! ## The moves of a turn -/

inductive Move
  | offered (tick : Tick)
  | popped (entry : HeapEntry)

def Move.tick : Move → Option Tick
  | .offered tick => some tick
  | .popped _ => none

def Move.entry : Move → Option HeapEntry
  | .offered _ => none
  | .popped entry => some entry

/-- The ticks offered, in order. -/
def offeredIn (moves : List Move) : List Tick := moves.filterMap Move.tick

/-- The entries popped, in order. -/
def poppedIn (moves : List Move) : List HeapEntry := moves.filterMap Move.entry

/-- The ticks of a batch that are offered: those before an empty slot, which would raise. -/
def offered_of : List (Option Tick) → List Tick
  | [] => []
  | none :: _ => []
  | some tick :: rest => tick :: offered_of rest

/-- A turn offers the batch that it drains, and polls unless the batch was empty or an offer
raised. -/
def turnMoves (cfg : Settings) (buf : RingBuffer Tick) (seq : Sequencer) : List Move :=
  let batch := (buf.drain_nowait (some cfg.batch_max_size)).1
  let (ok, seq) := offer_all batch seq
  (offered_of batch).map .offered ++
    if batch ≠ [] ∧ ok = true then seq.popped.map .popped else []

/-- What a step moves for a symbol. -/
def Pipeline.moves (cfg : Settings) (symbol : Symbol) (p : Pipeline) : Op → List Move
  | .ingest _ => []
  | .ingest_many _ => []
  | .consume_symbol s =>
    if s = symbol ∧ s ∈ p.symbols then turnMoves cfg (p.ring_buffers s) (p.sequencers s) else []
  | .rate_round _ => []

/-- All that a run moves for a symbol. -/
def movesOf (cfg : Settings) (symbol : Symbol) (p : Pipeline) (ops : List Op) : List Move :=
  (run (fun p op => (p.moves cfg symbol op, (p.step cfg op).2)) p ops).1.flatten

/-- The ticks that a run of a fresh pipeline offers to the sequencer of a symbol. -/
def offeredTo (upper : Symbol → Symbol) (cfg : Settings) (symbols : List Symbol)
    (persistence : Bool) (symbol : Symbol) (ops : List Op) : List Tick :=
  offeredIn (movesOf cfg symbol (Pipeline.new upper cfg symbols persistence) ops)

@[simp] theorem offeredIn_append (xs ys : List Move) :
    offeredIn (xs ++ ys) = offeredIn xs ++ offeredIn ys := List.filterMap_append

@[simp] theorem poppedIn_append (xs ys : List Move) :
    poppedIn (xs ++ ys) = poppedIn xs ++ poppedIn ys := List.filterMap_append

@[simp] theorem offeredIn_offered (ticks : List Tick) : offeredIn (ticks.map .offered) = ticks := by
  unfold offeredIn
  rw [List.filterMap_map]
  exact List.filterMap_some

@[simp] theorem poppedIn_offered (ticks : List Tick) : poppedIn (ticks.map .offered) = [] := by
  unfold poppedIn
  rw [List.filterMap_map]
  exact List.filterMap_eq_nil_iff.mpr (fun _ _ => rfl)

@[simp] theorem offeredIn_popped (entries : List HeapEntry) :
    offeredIn (entries.map .popped) = [] := by
  unfold offeredIn
  rw [List.filterMap_map]
  exact List.filterMap_eq_nil_iff.mpr (fun _ _ => rfl)

@[simp] theorem poppedIn_popped (entries : List HeapEntry) :
    poppedIn (entries.map .popped) = entries := by
  unfold poppedIn
  rw [List.filterMap_map]
  exact List.filterMap_some

theorem offer_all_offers (batch : List (Option Tick)) (seq : Sequencer) :
    (offer_all batch seq).2 = offers (offered_of batch) seq := by
  induction batch generalizing seq with
  | nil => rfl
  | cons item rest ih =>
    cases item with
    | none => rfl
    | some t => exact ih (seq.offer t)

/-! ## What a sequencer keeps of the moves -/

/-- The sequencer after the moves, and the ticks it has let out. -/
structure Moved (watermark_ms : Int) (moves : List Move) (seq : Sequencer) (returned : List Tick) :
    Prop where
  trace : Trace watermark_ms (offeredIn moves) (poppedIn moves) seq
  apart_eq : seq.apart = (offers (offeredIn moves) (Sequencer.new watermark_ms)).apart
  returned_eq : returned = (poppedIn moves).map (·.tick)

section moved

variable {watermark_ms : Int} {moves : List Move} {seq : Sequencer} {returned : List Tick}

theorem moved_new (watermark_ms : Int) : Moved watermark_ms [] (Sequencer.new watermark_ms) [] :=
  ⟨trace_new watermark_ms, rfl, rfl⟩

theorem Moved.offers (batch : List Tick) (h : Moved watermark_ms moves seq returned) :
    Moved watermark_ms (moves ++ batch.map .offered) (offers batch seq) returned := by
  induction batch using List.reverseRecOn with
  | nil => simpa [pipeline.offers] using h
  | append_singleton batch t ih =>
    have hin : offeredIn (moves ++ (batch ++ [t]).map .offered) =
        offeredIn (moves ++ batch.map .offered) ++ [t] := by
      simp only [offeredIn_append, offeredIn_offered, List.append_assoc]
    have hout : poppedIn (moves ++ (batch ++ [t]).map .offered) =
        poppedIn (moves ++ batch.map .offered) := by
      simp only [poppedIn_append, poppedIn_offered]
    obtain ⟨htrace, hapart, hret⟩ := ih
    rw [offers_snoc]
    refine ⟨?_, ?_, ?_⟩
    · rw [hin, hout]
      exact htrace.offer t
    · rw [hin, offers_snoc, offer_apart hapart]
    · rw [hout, hret]

theorem Moved.poll (h : Moved watermark_ms moves seq returned) :
    Moved watermark_ms (moves ++ seq.popped.map .popped) seq.poll_ready.2
      (returned ++ seq.poll_ready.1) := by
  refine ⟨?_, ?_, ?_⟩
  · simpa using h.trace.poll
  · rw [poll_ready_apart, h.apart_eq]
    simp
  · simp [h.returned_eq, poll_ready_popped]

/-- A turn keeps account of its moves. -/
theorem Moved.gather (cfg : Settings) (buf : RingBuffer Tick)
    (h : Moved watermark_ms moves seq returned) :
    Moved watermark_ms (moves ++ turnMoves cfg buf seq) (gather cfg buf seq).2.2
      (returned ++ ((gather cfg buf seq).1.getD [])) := by
  have hoffers := h.offers (offered_of (buf.drain_nowait (some cfg.batch_max_size)).1)
  rw [← offer_all_offers] at hoffers
  unfold turnMoves pipeline.gather
  dsimp only
  by_cases hnil : (buf.drain_nowait (some cfg.batch_max_size)).1 = []
  · simpa [hnil, offered_of] using h
  · rw [if_neg hnil]
    rcases hoffer : offer_all (buf.drain_nowait (some cfg.batch_max_size)).1 seq with ⟨ok, seq'⟩
    rw [hoffer] at hoffers
    cases ok with
    | false => simpa [hnil] using hoffers
    | true =>
      rw [if_pos ⟨hnil, rfl⟩, ← List.append_assoc]
      exact hoffers.poll

end moved

/-! ## The moves of a lane -/

def Lane.moves (cfg : Settings) (lane : Lane) : LaneOp → List Move
  | .push _ => []
  | .turn => turnMoves cfg lane.ring_buffer lane.sequencer

/-- What a turn makes of the front end and of the ticks processed. -/
theorem turn_front (cfg : Settings) (persistence : Bool) (symbol : Symbol) (lane : Lane) :
    (lane.turn cfg persistence symbol).2.sequencer =
        (gather cfg lane.ring_buffer lane.sequencer).2.2 ∧
      (lane.turn cfg persistence symbol).2.processed =
        lane.processed ++ (gather cfg lane.ring_buffer lane.sequencer).1.getD [] := by
  unfold Lane.turn
  dsimp only
  split
  · rename_i hnone
    simp [hnone]
  · rename_i hnil
    simp [hnil]
  · rename_i ready hready
    simp [hready, Lane.process]

section lane

variable (cfg : Settings) (persistence : Bool) (symbol : Symbol)

/-- A step of a lane, with what it moves. -/
def Lane.move (lane : Lane) (op : LaneOp) : List Move × Lane :=
  (lane.moves cfg op, (lane.step cfg persistence symbol op).2)

theorem run_lane_moved (ops : List LaneOp) :
    Moved cfg.reorder_watermark_ms
      (run (Lane.move cfg persistence symbol) (Lane.new cfg symbol) ops).1.flatten
      (run (Lane.move cfg persistence symbol) (Lane.new cfg symbol) ops).2.sequencer
      (run (Lane.move cfg persistence symbol) (Lane.new cfg symbol) ops).2.processed := by
  apply run_history (Lane.move cfg persistence symbol) (P := fun _ moves lane =>
    Moved cfg.reorder_watermark_ms moves.flatten lane.sequencer lane.processed)
  · exact moved_new cfg.reorder_watermark_ms
  · intro ops moves lane op h
    rw [List.flatten_append, List.flatten_singleton]
    cases op with
    | push t =>
      simp only [Lane.move, Lane.moves, List.append_nil]
      exact h
    | turn =>
      obtain ⟨hseq, hprocessed⟩ := turn_front cfg persistence symbol lane
      have hgather := h.gather cfg lane.ring_buffer
      rw [← hseq, ← hprocessed] at hgather
      exact hgather

theorem run_move_state (lane : Lane) (ops : List LaneOp) :
    (run (Lane.move cfg persistence symbol) lane ops).2 =
      (run (Lane.step cfg persistence symbol) lane ops).2 :=
  run_state_eq (Lane.move cfg persistence symbol) (Lane.step cfg persistence symbol)
    (fun _ _ => rfl) lane ops

theorem run_push_moves (lane : Lane) (ticks : List Tick) :
    (run (Lane.move cfg persistence symbol) lane (ticks.map .push)).1.flatten = [] := by
  induction ticks generalizing lane with
  | nil => rfl
  | cons t ticks ih =>
    rw [List.map_cons, run_cons, List.flatten_cons, ih]
    rfl

end lane

section runs

variable (upper : Symbol → Symbol) (cfg : Settings) (symbols : List Symbol) (persistence : Bool)

/-- The moves of a symbol are those of its lane. -/
theorem step_moves {symbol : Symbol} {p : Pipeline} {lane : Lane} (op : Op) (hk : symbol ∈ p.symbols)
    (h : HasLane cfg symbol p lane) :
    p.moves cfg symbol op =
      (run (Lane.move cfg persistence symbol) lane (Op.own symbol op)).1.flatten := by
  cases op with
  | ingest t =>
    unfold Op.own
    dsimp only
    split
    · exact (run_push_moves cfg persistence symbol lane [t]).symm
    · rfl
  | ingest_many ticks => exact (run_push_moves cfg persistence symbol lane _).symm
  | consume_symbol s =>
    unfold Pipeline.moves Op.own
    by_cases hs : s = symbol
    · subst hs
      simp [hk, Lane.move, Lane.moves, h.ring_eq, h.seq_eq]
    · simp [hs]
  | rate_round elapsed => rfl

/-- What a run moves for a symbol, its lane moves in a run of its own ops alone. -/
theorem run_moves {symbol : Symbol} (hk : symbol ∈ symbols.map upper) (ops : List Op) :
    movesOf cfg symbol (Pipeline.new upper cfg symbols persistence) ops =
      (run (Lane.move cfg persistence symbol) (Lane.new cfg symbol)
        (ops.flatMap (Op.own symbol))).1.flatten := by
  have h := run_projects (fun p op => (p.moves cfg symbol op, (p.step cfg op).2))
    (Lane.move cfg persistence symbol) (Op.own symbol) (fun _ => true)
    (R := fun p lane => Sound cfg (symbols.map upper) persistence p ∧ HasLane cfg symbol p lane)
    ?_ ⟨sound_new upper cfg symbols persistence, hasLane_new upper cfg symbols persistence symbol⟩ ops
  · have hmoves := h.1
    rw [List.filter_eq_self.mpr (fun _ _ => rfl)] at hmoves
    exact hmoves
  · intro p lane op ⟨hsound, hlane⟩
    have hk' : symbol ∈ p.symbols := hsound.symbols_eq ▸ hk
    refine ⟨?_, step_sound op hsound, ?_⟩
    · simpa using step_moves cfg persistence op hk' hlane
    · rw [run_move_state]
      exact (step_lane op hk hsound hlane).2

/-- After every run, the sequencer of a symbol and the ticks processed for it keep account of
what was moved. -/
theorem run_moved {symbol : Symbol} (hk : symbol ∈ symbols.map upper) (ops : List Op) :
    let r := run (Pipeline.step cfg) (Pipeline.new upper cfg symbols persistence) ops
    Moved cfg.reorder_watermark_ms
      (movesOf cfg symbol (Pipeline.new upper cfg symbols persistence) ops)
      (r.2.sequencers symbol) (candles.own symbol (r.1.flatten.flatMap Obs.processed)) := by
  intro r
  obtain ⟨hobs, -, hlane⟩ := run_lane upper cfg symbols persistence hk ops
  have hrun := run_laneRun cfg persistence symbol _ (own_ops symbol ops)
  dsimp only at hrun
  rw [← hobs] at hrun
  have hmoved := run_lane_moved cfg persistence symbol (ops.flatMap (Op.own symbol))
  rw [run_move_state] at hmoved
  rw [run_processed_of, hrun.processed_eq, run_moves upper cfg symbols persistence hk, hlane.seq_eq]
  exact hmoved

end runs

end tick_pipeline.pipeline
