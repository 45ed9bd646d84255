import Bazalt.Flow.Reassembly
import Bazalt.Http.Parser

/-!
# The loops leave

`flushOoo` takes a segment out of the buffer in every round.  The other three loops of a half go on
only when their flush has changed something, so it has taken a segment out too.  Nothing is asked
of the state: the limits may be zero, and a FIN may hold back every gap.

The parser and its decoder take bytes in every round, or give a body up.
-/

namespace Bazalt.Flow

open Lib OrdMap

namespace Pass

/-! ## What the operations do to the buffer -/

/-- The buffer is as it was, or empty. -/
theorem size_closeAt_le (w : Pass) (fin next : ℕ) :
    (w.closeAt fin next).half.outOfOrder.size ≤ w.half.outOfOrder.size :=
  Nat.zero_le _

theorem size_consumeFinIfReady_le (w : Pass) :
    w.consumeFinIfReady.half.outOfOrder.size ≤ w.half.outOfOrder.size := by
  unfold consumeFinIfReady
  split
  · exact le_rfl
  · split
    · split_ifs
      · exact le_rfl
      · apply size_closeAt_le
      · exact le_rfl
    · exact le_rfl

theorem size_emit_le (w : Pass) (data : Bytes) (tsNs : ℕ) :
    (w.emit data tsNs).half.outOfOrder.size ≤ w.half.outOfOrder.size := by
  unfold emit
  split_ifs
  · exact le_rfl
  · exact (w.push data tsNs).size_consumeFinIfReady_le

theorem size_emitGapTo_le (w : Pass) (target : ℕ) :
    (w.emitGapTo target).half.outOfOrder.size ≤ w.half.outOfOrder.size := by
  unfold emitGapTo
  split
  · exact le_rfl
  · dsimp only
    split_ifs
    · exact le_rfl
    · exact (w.skipTo _ _).size_consumeFinIfReady_le

theorem size_popFirst (w : Pass) {e : ℕ × BufferedSegment} (h : w.half.outOfOrder.first? = some e)
    (segment : BufferedSegment) :
    (w.popFirst segment).half.outOfOrder.size < w.half.outOfOrder.size := by
  obtain ⟨es, hes⟩ := first?_eq_some.mp h
  change w.half.outOfOrder.tail.size < w.half.outOfOrder.size
  simp [size, hes]

/-! ## `flushOoo` -/

def flushOooTurn (w : Pass) : Turn Pass :=
  if w.half.finConsumed then .stop w
  else match w.half.nextAbs, w.half.outOfOrder.first? with
    | some expected, some (firstKey, segment) =>
        if expected < firstKey then .stop w
        else if firstKey < expected then
          if segment.data.length ≤ expected - firstKey then .again (w.popFirst segment)
          else .again ((w.popFirst segment).emit
            (segment.data.drop (expected - firstKey)) segment.tsNs)
        else .again ((w.popFirst segment).emit segment.data segment.tsNs)
    | _, _ => .stop w

theorem flushOooLoop_eq_loop (fuel : ℕ) (w : Pass) :
    flushOooLoop fuel w = loop flushOooTurn fuel w := by
  induction fuel generalizing w with
  | zero => rfl
  | succ fuel ih =>
      unfold flushOooLoop loop flushOooTurn
      split_ifs
      · rfl
      · cases w.half.nextAbs with
        | none => rfl
        | some expected =>
            cases w.half.outOfOrder.first? with
            | none => rfl
            | some e =>
                dsimp only
                split_ifs
                · rfl
                · exact ih _
                · exact ih _
                · exact ih _

theorem size_flushOooTurn {w w' : Pass} (h : flushOooTurn w = .again w') :
    w'.half.outOfOrder.size < w.half.outOfOrder.size := by
  unfold flushOooTurn at h
  split_ifs at h
  split at h
  next expected firstKey segment hnext hfirst =>
    have hpop := w.size_popFirst hfirst segment
    split_ifs at h
    · obtain rfl := Turn.again.inj h
      exact hpop
    · obtain rfl := Turn.again.inj h
      exact (size_emit_le _ _ _).trans_lt hpop
    · obtain rfl := Turn.again.inj h
      exact (size_emit_le _ _ _).trans_lt hpop
  next => cases h

theorem leaves_flushOoo (w : Pass) : Leaves flushOooTurn w w.flushOoo := by
  rw [flushOoo, flushOooLoop_eq_loop]
  exact leaves_loop (fun _ _ ↦ size_flushOooTurn) (Nat.lt_succ_self _)

theorem eq_of_flushOooTurn {w r : Pass} (h : flushOooTurn w = .stop r) : r = w := by
  unfold flushOooTurn at h
  split_ifs at h
  · exact (Turn.stop.inj h).symm
  · split at h
    · split_ifs at h
      exact (Turn.stop.inj h).symm
    · exact (Turn.stop.inj h).symm

/-- A flush that changes anything takes a segment out. -/
theorem flushOoo_eq_or_size_lt (w : Pass) :
    w.flushOoo = w ∨ w.flushOoo.half.outOfOrder.size < w.half.outOfOrder.size := by
  have hleaves := w.leaves_flushOoo
  generalize w.flushOoo = r at hleaves ⊢
  cases hleaves with
  | stop h => exact .inl (eq_of_flushOooTurn h)
  | @again _ w' _ h hrest =>
      right
      have hle : r.half.outOfOrder.size ≤ w'.half.outOfOrder.size := by
        refine hrest.rule (I := fun s ↦ s.half.outOfOrder.size ≤ w'.half.outOfOrder.size)
          (J := fun s ↦ s.half.outOfOrder.size ≤ w'.half.outOfOrder.size)
          (fun s s' hs hturn ↦ ?_) (fun s r hs hturn ↦ ?_) le_rfl
        · exact (size_flushOooTurn hturn).le.trans hs
        · rw [eq_of_flushOooTurn hturn]
          exact hs
      exact hle.trans_lt (size_flushOooTurn h)

/-! ## The loops that flush -/

/-- A round declares a gap, if there is one, and flushes.  When the flush has done something, a
segment is gone. -/
theorem size_flush_lt {w gapped : Pass}
    (hle : gapped.half.outOfOrder.size ≤ w.half.outOfOrder.size) (h : gapped.flushOoo ≠ gapped) :
    gapped.flushOoo.half.outOfOrder.size < w.half.outOfOrder.size :=
  (gapped.flushOoo_eq_or_size_lt.resolve_left h).trans_le hle

theorem size_gapIf_le (w : Pass) (c : Prop) [Decidable c] (target : ℕ) :
    (if c then w.emitGapTo target else w).half.outOfOrder.size ≤ w.half.outOfOrder.size := by
  split_ifs
  · apply size_emitGapTo_le
  · exact le_rfl

def recoverKnownAckTurn (ack : ℕ) (w : Pass) : Turn Pass :=
  match w.recoverKnownAckRound ack with
  | (w', true) => .again w'
  | (w', false) => .stop w'

theorem recoverKnownAckLoop_eq_loop (ack fuel : ℕ) (w : Pass) :
    recoverKnownAckLoop ack fuel w = loop (recoverKnownAckTurn ack) fuel w := by
  induction fuel generalizing w with
  | zero => rfl
  | succ fuel ih =>
      unfold recoverKnownAckLoop loop recoverKnownAckTurn
      obtain ⟨w', goes⟩ := w.recoverKnownAckRound ack
      cases goes with
      | true => exact ih w'
      | false => rfl

theorem size_recoverKnownAckTurn {ack : ℕ} {w w' : Pass} (h : recoverKnownAckTurn ack w = .again w') :
    w'.half.outOfOrder.size < w.half.outOfOrder.size := by
  have hround : w.recoverKnownAckRound ack = (w', true) := by
    unfold recoverKnownAckTurn at h
    split at h
    next heq =>
      obtain rfl := Turn.again.inj h
      exact heq
    next => cases h
  unfold recoverKnownAckRound at hround
  cases hnext : w.half.nextAbs with
  | none => simp [hnext] at hround
  | some expected =>
      simp only [hnext] at hround
      split_ifs at hround
      · simp at hround
      · cases hfirst : w.half.outOfOrder.first? with
        | none =>
            simp only [hfirst] at hround
            split at hround
            · split_ifs at hround <;> simp at hround
            · simp at hround
        | some e =>
            simp only [hfirst] at hround
            have hle := w.size_gapIf_le (expected < e.1) (min e.1 ack)
            generalize (if expected < e.1 then w.emitGapTo (min e.1 ack) else w) = gapped
              at hround hle
            split_ifs at hround
            · simp at hround
            · obtain ⟨rfl, hgoes⟩ := Prod.mk.inj hround
              apply size_flush_lt hle
              intro hsame
              rw [hsame] at hgoes
              simp at hgoes

theorem leaves_recoverKnownAckLoop (ack : ℕ) (w : Pass) : Leaves (recoverKnownAckTurn ack) w
    (recoverKnownAckLoop ack (w.half.outOfOrder.size + 1) w) := by
  rw [recoverKnownAckLoop_eq_loop]
  exact leaves_loop (fun _ _ ↦ size_recoverKnownAckTurn) (Nat.lt_succ_self _)

def recoverOooPressureTurn (maxOoo maxSegments : ℕ) (w : Pass) : Turn Pass :=
  if maxOoo < w.half.outOfOrderBytes ∨ maxSegments < w.half.outOfOrder.size then
    match w.half.outOfOrder.first?, w.half.nextAbs with
    | some (first, _), some expected =>
        let gapped := if expected < first then w.emitGapTo first else w
        let flushed := gapped.flushOoo
        if flushed.half.finConsumed ∨
            gapped.half.outOfOrderBytes ≤ flushed.half.outOfOrderBytes then .stop flushed
        else .again flushed
    | _, _ => .stop w
  else .stop w

theorem recoverOooPressureLoop_eq_loop (maxOoo maxSegments fuel : ℕ) (w : Pass) :
    recoverOooPressureLoop maxOoo maxSegments fuel w =
      loop (recoverOooPressureTurn maxOoo maxSegments) fuel w := by
  induction fuel generalizing w with
  | zero => rfl
  | succ fuel ih =>
      unfold recoverOooPressureLoop loop recoverOooPressureTurn
      split_ifs with hover
      · cases w.half.outOfOrder.first? with
        | none => rfl
        | some e =>
            cases w.half.nextAbs with
            | none => rfl
            | some expected =>
                dsimp only
                generalize (if expected < e.1 then w.emitGapTo e.1 else w) = gapped
                split_ifs
                · rfl
                · exact ih _
      · rfl

theorem size_recoverOooPressureTurn {maxOoo maxSegments : ℕ} {w w' : Pass}
    (h : recoverOooPressureTurn maxOoo maxSegments w = .again w') :
    w'.half.outOfOrder.size < w.half.outOfOrder.size := by
  unfold recoverOooPressureTurn at h
  split_ifs at h
  split at h
  next first segment expected hfirst hnext =>
    have hle := w.size_gapIf_le (expected < first) first
    dsimp only at h
    generalize (if expected < first then w.emitGapTo first else w) = gapped at h hle
    split_ifs at h with hstop
    obtain rfl := Turn.again.inj h
    apply size_flush_lt hle
    intro hsame
    rw [hsame] at hstop
    exact hstop (.inr le_rfl)
  next => cases h

theorem leaves_recoverOooPressure (maxOoo maxSegments : ℕ) (w : Pass) :
    Leaves (recoverOooPressureTurn maxOoo maxSegments) w
      (w.recoverOooPressure maxOoo maxSegments) := by
  rw [recoverOooPressure, recoverOooPressureLoop_eq_loop]
  exact leaves_loop (fun _ _ ↦ size_recoverOooPressureTurn) (Nat.lt_succ_self _)

def finalizeTurn (w : Pass) : Turn Pass :=
  match w.half.nextAbs, w.half.outOfOrder.first? with
  | some expected, some (first, _) =>
      let gapped := if expected < first then w.emitGapTo first else w
      let flushed := gapped.flushOoo
      if flushed.half.finConsumed ∨
          (flushed.half.nextAbs = gapped.half.nextAbs ∧
            flushed.half.outOfOrderBytes = gapped.half.outOfOrderBytes) then .stop flushed
      else .again flushed
  | _, _ => .stop w

theorem finalizeLoop_eq_loop (fuel : ℕ) (w : Pass) :
    finalizeLoop fuel w = loop finalizeTurn fuel w := by
  induction fuel generalizing w with
  | zero => rfl
  | succ fuel ih =>
      unfold finalizeLoop loop finalizeTurn
      cases w.half.nextAbs with
      | none => rfl
      | some expected =>
          cases w.half.outOfOrder.first? with
          | none => rfl
          | some e =>
              dsimp only
              generalize (if expected < e.1 then w.emitGapTo e.1 else w) = gapped
              split_ifs
              · rfl
              · exact ih _

theorem size_finalizeTurn {w w' : Pass} (h : finalizeTurn w = .again w') :
    w'.half.outOfOrder.size < w.half.outOfOrder.size := by
  unfold finalizeTurn at h
  split at h
  next expected first segment hnext hfirst =>
    have hle := w.size_gapIf_le (expected < first) first
    dsimp only at h
    generalize (if expected < first then w.emitGapTo first else w) = gapped at h hle
    split_ifs at h with hstop
    obtain rfl := Turn.again.inj h
    apply size_flush_lt hle
    intro hsame
    rw [hsame] at hstop
    exact hstop (.inr ⟨rfl, rfl⟩)
  next => cases h

theorem leaves_finalizeLoop (w : Pass) :
    Leaves finalizeTurn w (finalizeLoop (w.half.outOfOrder.size + 1) w) := by
  rw [finalizeLoop_eq_loop]
  exact leaves_loop (fun _ _ ↦ size_finalizeTurn) (Nat.lt_succ_self _)

end Pass

open Http

/-- From every state, the loops of the reassembly and of the parser leave with what the functions
give. -/
theorem recovery_and_parsing_leave :
    (∀ w : Pass, Leaves Pass.flushOooTurn w w.flushOoo) ∧
    (∀ (ack : ℕ) (w : Pass), Leaves (Pass.recoverKnownAckTurn ack) w
      (Pass.recoverKnownAckLoop ack (w.half.outOfOrder.size + 1) w)) ∧
    (∀ (maxOoo maxSegments : ℕ) (w : Pass), Leaves (Pass.recoverOooPressureTurn maxOoo maxSegments) w
      (w.recoverOooPressure maxOoo maxSegments)) ∧
    (∀ h : TcpHalf, ∃ w, Leaves Pass.finalizeTurn { half := h } w ∧
      h.finalize = w.consumeFinIfReady.stamp none) ∧
    (∀ (cfg : HttpConfig) (p : HttpStreamParser) (c : Http.StreamChunk) (pending : List RequestKind)
      (requestDirection : Option Direction), Leaves (Feed.turn cfg c)
        { parser := (p.accept c pending).1, pendingRequests := (p.accept c pending).2,
          requestDirection := requestDirection }
        (p.feed cfg c pending requestDirection)) ∧
    ∀ (d : ChunkedDecoder) (buf : Bytes) (maxLine maxCollect : ℕ), ∃ p,
      Leaves (ChunkPass.turn buf.length maxLine maxCollect) { decoder := d, buf := buf } p ∧
        d.consume buf maxLine maxCollect = p.outcome buf.length := by
  refine ⟨Pass.leaves_flushOoo, Pass.leaves_recoverKnownAckLoop, Pass.leaves_recoverOooPressure,
    fun h ↦ ⟨_, Pass.leaves_finalizeLoop { half := h }, rfl⟩, fun cfg p c pending dir ↦ ?_,
    ChunkedDecoder.leaves_consume⟩
  exact leaves_loop (fun _ _ ↦ Feed.measure_turn) (Nat.lt_succ_self _)

end Bazalt.Flow
