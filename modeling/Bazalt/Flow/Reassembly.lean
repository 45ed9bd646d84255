import Bazalt.Lib.OrdMap
import Bazalt.Model

/-!
# TCP half-stream reassembly

A `TcpHalf` follows one direction of a TCP connection.  Sequence numbers are
extended to 64 bits, in-order payload is emitted at once, and payload ahead of
the next expected byte waits in an ordered map of first-seen intervals until the
hole before it is filled or given up as a gap.

32-bit wire numbers are bit vectors.
-/

namespace Bazalt

open Lib

namespace Flow

/-- The extended sequence space starts one 32-bit turn above zero, which leaves
room for packets slightly before the first observed one. -/
def initialSeqEpoch : ℕ := 2 ^ 32

structure BufferedSegment where
  data : Bytes
  tsNs : ℕ
  deriving DecidableEq, Repr

def BufferedSegment.finish (seg : BufferedSegment) (start : ℕ) : ℕ :=
  satAdd start seg.data.length

structure ReassembledChunk where
  offset : ℕ
  tsNs : ℕ
  data : Bytes
  deriving DecidableEq, Repr

structure StreamGap where
  offset : ℕ
  len : ℕ
  deriving DecidableEq, Repr

structure ReassemblyOutcome where
  emitted : List ReassembledChunk := []
  gaps : List StreamGap := []
  retransmit : Bool := false
  outOfOrder : Bool := false
  finConsumed : Bool := false
  deriving DecidableEq, Repr

structure TcpHalf where
  nextAbs : Option ℕ := none
  streamOffset : ℕ := 0
  outOfOrder : OrdMap ℕ BufferedSegment := .empty
  outOfOrderBytes : ℕ := 0
  pendingFin : Option ℕ := none
  /-- A FIN first seen ahead of the next expected byte is tentative. -/
  pendingFinRequiresAck : Bool := false
  finConsumed : Bool := false
  initialSynSeq : Option (BitVec 32) := none
  peerAckAbs : Option ℕ := none
  gapStartedTsNs : Option ℕ := none
  deriving DecidableEq

/-- A call in progress: the half under `&mut self` and the outcome it fills. -/
structure Pass where
  half : TcpHalf
  out : ReassemblyOutcome := {}
  deriving DecidableEq

def extendSeq (seq : BitVec 32) (reference : ℕ) : ℕ :=
  let delta := (seq - BitVec.ofNat 32 reference).toInt
  if 0 ≤ delta then satAdd reference delta.toNat
  else reference - (-delta).toNat

/-- The sequence number of the first payload byte: SYN takes one number. -/
def payloadSeq (seq : BitVec 32) (syn : Bool) : BitVec 32 :=
  seq + BitVec.ofNat 32 syn.toNat

namespace TcpHalf

def observe (h : TcpHalf) (seq : BitVec 32) (syn : Bool) : TcpHalf :=
  let h := if h.nextAbs.isNone then
      { h with nextAbs := some (initialSeqEpoch + (payloadSeq seq syn).toNat) }
    else h
  if syn && h.initialSynSeq.isNone then { h with initialSynSeq := some seq } else h

def rstMatchesNext (h : TcpHalf) (seq : BitVec 32) : Bool :=
  match h.nextAbs with
  | none => true
  | some expected => extendSeq seq expected == expected

/-- The peer acknowledged past `fin`. -/
def acked (h : TcpHalf) (fin : ℕ) : Bool :=
  match h.peerAckAbs with
  | none => false
  | some ack => decide (fin < ack)

end TcpHalf

namespace Pass

/-- The half is closed at `fin`, which takes one sequence number when it is the
next one expected.  Buffered bytes are thrown away. -/
def closeAt (w : Pass) (fin next : ℕ) : Pass :=
  { half := { w.half with
      nextAbs := some (if fin = next then satAdd next 1 else next)
      finConsumed := true
      pendingFinRequiresAck := false
      outOfOrder := .empty
      outOfOrderBytes := 0
      gapStartedTsNs := none }
    out := { w.out with finConsumed := true } }

def consumeFinIfReady (w : Pass) : Pass :=
  if w.half.finConsumed then w
  else match w.half.pendingFin, w.half.nextAbs with
    | some fin, some next =>
        if fin ≤ next then
          if fin = next ∧ w.half.pendingFinRequiresAck ∧ ¬ w.half.acked fin then w
          else w.closeAt fin next
        else w
    | _, _ => w

/-- The state update of `emit`, before it looks at a pending FIN. -/
def push (w : Pass) (data : Bytes) (tsNs : ℕ) : Pass :=
  { half := { w.half with
      streamOffset := satAdd w.half.streamOffset data.length
      nextAbs := w.half.nextAbs.map (satAdd · data.length) }
    out := { w.out with
      emitted := w.out.emitted ++ [⟨w.half.streamOffset, tsNs, data⟩] } }

def emit (w : Pass) (data : Bytes) (tsNs : ℕ) : Pass :=
  if data.isEmpty then w else (w.push data tsNs).consumeFinIfReady

/-- The state update of `emitGapTo`, before it looks at a pending FIN. -/
def skipTo (w : Pass) (expected target : ℕ) : Pass :=
  { half := { w.half with
      streamOffset := satAdd w.half.streamOffset (target - expected)
      nextAbs := some target }
    out := { w.out with
      gaps := w.out.gaps ++ [⟨w.half.streamOffset, target - expected⟩] } }

/-- A gap never crosses a pending FIN.  The half is initialized whenever this is
reached, so the first branch stands for an `expect` that cannot fail. -/
def emitGapTo (w : Pass) (target : ℕ) : Pass :=
  match w.half.nextAbs with
  | none => w
  | some expected =>
      let target := match w.half.pendingFin with
        | none => target
        | some fin => min target fin
      if target ≤ expected then w
      else (w.skipTo expected target).consumeFinIfReady

/-- The first buffered segment is taken out of the map. -/
def popFirst (w : Pass) (segment : BufferedSegment) : Pass :=
  { w with half := { w.half with
      outOfOrder := w.half.outOfOrder.tail
      outOfOrderBytes := w.half.outOfOrderBytes - segment.data.length } }

def flushOooLoop : ℕ → Pass → Pass
  | 0, w => w
  | fuel + 1, w =>
      if w.half.finConsumed then w
      else match w.half.nextAbs, w.half.outOfOrder.first? with
        | some expected, some (firstKey, segment) =>
            if expected < firstKey then w
            else if firstKey < expected then
              if segment.data.length ≤ expected - firstKey then
                flushOooLoop fuel (w.popFirst segment)
              else
                flushOooLoop fuel ((w.popFirst segment).emit
                  (segment.data.drop (expected - firstKey)) segment.tsNs)
            else flushOooLoop fuel ((w.popFirst segment).emit segment.data segment.tsNs)
        | _, _ => w

/-- Every round removes a segment, so the number of segments bounds the rounds. -/
def flushOoo (w : Pass) : Pass := flushOooLoop (w.half.outOfOrder.size + 1) w

/-- One round of the loop of `recoverKnownAck`, and whether it goes on. -/
def recoverKnownAckRound (w : Pass) (ack : ℕ) : Pass × Bool :=
  match w.half.nextAbs with
  | none => (w, false)
  | some expected =>
      if ack ≤ expected then (w, false)
      else match w.half.outOfOrder.first? with
        | none =>
            match w.half.pendingFin with
            | some fin =>
                if expected < fin ∧ fin < ack then
                  ((w.emitGapTo fin).consumeFinIfReady, false)
                else (w, false)
            | none => (w, false)
        | some (first, _) =>
            let gapped := if expected < first then w.emitGapTo (min first ack) else w
            if ∃ next ∈ gapped.half.nextAbs, ack ≤ next then (gapped, false)
            else
              let flushed := gapped.flushOoo
              (flushed, !flushed.half.finConsumed &&
                !(flushed.half.nextAbs == gapped.half.nextAbs &&
                  flushed.half.outOfOrderBytes == gapped.half.outOfOrderBytes))

def recoverKnownAckLoop (ack : ℕ) : ℕ → Pass → Pass
  | 0, w => w
  | fuel + 1, w =>
      match w.recoverKnownAckRound ack with
      | (w', true) => recoverKnownAckLoop ack fuel w'
      | (w', false) => w'

/-- A round that goes on has flushed a segment. -/
def recoverKnownAck (w : Pass) : Pass :=
  match w.half.peerAckAbs with
  | none => w
  | some ack => recoverKnownAckLoop ack (w.half.outOfOrder.size + 1) w

def stamp (w : Pass) (gapStartedTsNs : Option ℕ) : Pass :=
  { w with half := { w.half with gapStartedTsNs } }

def recoverOooTimeout (w : Pass) (maxAgeNs tsNs : ℕ) : Pass :=
  match w.half.nextAbs, w.half.outOfOrder.first? with
  | some expected, some (first, _) =>
      if first ≤ expected then (w.stamp none).flushOoo
      else match w.half.gapStartedTsNs with
        | none => w.stamp (some tsNs)
        | some started =>
            if tsNs - started < maxAgeNs then w
            else
              let w := (w.emitGapTo first).flushOoo.stamp none
              match w.half.outOfOrder.first?, w.half.nextAbs with
              | some (next, _), some expected =>
                  if expected < next then w.stamp (some tsNs) else w
              | _, _ => w
  | _, _ => w.stamp none

def recoverOooPressureLoop (maxOoo maxSegments : ℕ) : ℕ → Pass → Pass
  | 0, w => w
  | fuel + 1, w =>
      if maxOoo < w.half.outOfOrderBytes ∨ maxSegments < w.half.outOfOrder.size then
        match w.half.outOfOrder.first?, w.half.nextAbs with
        | some (first, _), some expected =>
            let gapped := if expected < first then w.emitGapTo first else w
            let flushed := gapped.flushOoo
            if flushed.half.finConsumed ∨
                gapped.half.outOfOrderBytes ≤ flushed.half.outOfOrderBytes then flushed
            else recoverOooPressureLoop maxOoo maxSegments fuel flushed
        | _, _ => w
      else w

/-- Every round that goes on has flushed a segment. -/
def recoverOooPressure (w : Pass) (maxOoo maxSegments : ℕ) : Pass :=
  recoverOooPressureLoop maxOoo maxSegments (w.half.outOfOrder.size + 1) w

def markRetransmit (w : Pass) : Pass := { w with out := { w.out with retransmit := true } }

/-- A compact copy of the uncovered bytes `[cursor, pieceEnd)` enters the map. -/
def insertPiece (w : Pass) (cursor : ℕ) (piece : Bytes) (tsNs : ℕ) : Pass :=
  { w with half := { w.half with
      outOfOrder := w.half.outOfOrder.insert cursor ⟨piece, tsNs⟩
      outOfOrderBytes := satAdd w.half.outOfOrderBytes piece.length } }

def insertOooLoop (start finish tsNs : ℕ) (data : Bytes) : ℕ → ℕ → Pass → Pass
  | 0, _, w => w
  | fuel + 1, cursor, w =>
      if cursor < finish then
        match (w.half.outOfOrder.lastLE? cursor).filter
            (fun e ↦ decide (cursor < e.2.finish e.1)) with
        | some (existingStart, existing) =>
            insertOooLoop start finish tsNs data fuel
              (min (existing.finish existingStart) finish) w.markRetransmit
        | none =>
            let next := w.half.outOfOrder.firstIn? cursor finish
            let pieceEnd := min ((next.map Prod.fst).getD finish) finish
            let (cursor, w) := if cursor < pieceEnd then
                (pieceEnd, w.insertPiece cursor
                  ((data.take (pieceEnd - start)).drop (cursor - start)) tsNs)
              else (cursor, w)
            match next with
            | some (nextStart, nextSeg) =>
                if nextStart ≤ cursor ∧ cursor < nextSeg.finish nextStart then
                  insertOooLoop start finish tsNs data fuel
                    (min (nextSeg.finish nextStart) finish) w.markRetransmit
                else insertOooLoop start finish tsNs data fuel cursor w
            | none => insertOooLoop start finish tsNs data fuel cursor w
      else w

/-- The cursor moves in every round, so the segment's length bounds the rounds. -/
def insertOooFirstSeen (w : Pass) (start tsNs : ℕ) (data : Bytes) : Pass :=
  insertOooLoop start (satAdd start data.length) tsNs data (data.length + 1) start w

end Pass

namespace TcpHalf

/-- FIN marking of `accept`: a FIN ahead of the next expected byte is tentative,
one seen at or before it validates the marker. -/
def markFin (h : TcpHalf) (startAbs endAbs expected : ℕ) : TcpHalf :=
  match h.pendingFin with
  | none =>
      { h with
        pendingFin := some endAbs
        pendingFinRequiresAck := decide (expected < startAbs) }
  | some existing =>
      if existing = endAbs ∧ startAbs ≤ expected then
        { h with pendingFinRequiresAck := false }
      else if h.pendingFinRequiresAck ∧ startAbs ≤ expected then
        { h with pendingFin := some endAbs, pendingFinRequiresAck := false }
      else h

end TcpHalf

namespace Pass

/-- FIN truncation of `accept`: payload beyond a validated FIN is cut, payload
beyond an unacknowledged tentative one discards the marker instead. -/
def truncateAtFin (w : Pass) (startAbs endAbs : ℕ) (data : Bytes) : Pass × Bytes :=
  match w.half.pendingFin with
  | none => (w, data)
  | some fin =>
      if fin < endAbs then
        if w.half.pendingFinRequiresAck ∧ ¬ w.half.acked fin then
          ({ w with half := { w.half with
              pendingFin := none, pendingFinRequiresAck := false } }, data)
        else if fin ≤ startAbs then
          (if data.isEmpty then w else w.markRetransmit, [])
        else (w.markRetransmit, data.take (fin - startAbs))
      else (w, data)

/-- Payload ahead of the next expected byte. -/
def acceptAhead (w : Pass) (startAbs tsNs : ℕ) (data : Bytes) : Pass :=
  { w with out := { w.out with outOfOrder := true } }.insertOooFirstSeen startAbs tsNs data

/-- Payload that starts at or before the next expected byte.  The overlap with
what was already emitted is cut off, except that a payload with nothing new in it
keeps its start and goes on whole.  The flag says that the interval map was used. -/
def acceptContiguous (w : Pass) (startAbs expected tsNs : ℕ) (data : Bytes) : Pass × Bool :=
  let w := if startAbs < expected then w.markRetransmit else w
  let overlap := expected - startAbs
  let start := if startAbs < expected ∧ overlap < data.length then overlap else 0
  if start < data.length then
    if w.half.outOfOrder.isEmpty then (w.emit (data.drop start) tsNs, false)
    else ((w.insertOooFirstSeen (satAdd startAbs start) tsNs (data.drop start)).flushOoo, true)
  else (w, false)

end Pass

/-- The limits `accept` is called with. -/
structure Limits where
  maxOoo : ℕ
  maxOooSegments : ℕ
  gapTimeoutNs : ℕ
  deriving DecidableEq, Repr

namespace Pass

/-- Data path of `accept`. -/
def acceptData (w : Pass) (startAbs expected tsNs : ℕ) (data : Bytes) (lim : Limits) : Pass :=
  let recover (w : Pass) : Pass :=
    w.recoverKnownAck.recoverOooPressure lim.maxOoo lim.maxOooSegments
  if data.isEmpty then w
  else if expected < startAbs then recover (w.acceptAhead startAbs tsNs data)
  else match w.acceptContiguous startAbs expected tsNs data with
    | (w, true) => recover w
    | (w, false) => w

end Pass

/-- A segment that `accept` is about to store: its place in the extended sequence
space, and the payload and state left by FIN marking and truncation. -/
structure Arrival where
  expected : ℕ
  startAbs : ℕ
  pass : Pass
  data : Bytes

def Arrival.settle (a : Arrival) (tsNs : ℕ) (lim : Limits) : Pass :=
  let w := a.pass.acceptData a.startAbs a.expected tsNs a.data lim
  let w := if w.half.pendingFin.isSome ∧ ¬ w.half.finConsumed then
    w.recoverKnownAck else w
  (w.recoverOooTimeout lim.gapTimeoutNs tsNs).consumeFinIfReady

namespace TcpHalf

def arrive (h : TcpHalf) (seq : BitVec 32) (syn fin : Bool) (data : Bytes)
    (expected : ℕ) : Arrival :=
  let startAbs := extendSeq (payloadSeq seq syn) expected
  let endAbs := satAdd startAbs data.length
  let h := if fin ∧ expected ≤ endAbs then h.markFin startAbs endAbs expected else h
  let cut := ({ half := h } : Pass).truncateAtFin startAbs endAbs data
  ⟨expected, startAbs, cut.1, cut.2⟩

def accept (h : TcpHalf) (seq : BitVec 32) (syn fin : Bool) (tsNs : ℕ) (data : Bytes)
    (lim : Limits) : Pass :=
  let h := h.observe seq syn
  if h.finConsumed then { half := h, out := { retransmit := !data.isEmpty } }
  else match h.nextAbs with
    | none => { half := h }
    | some expected => (h.arrive seq syn fin data expected).settle tsNs lim

/-- The ACK watermark only moves forward, and never to a position already emitted. -/
def recordAck (h : TcpHalf) (ackAbs expected : ℕ) : TcpHalf :=
  if expected < ackAbs ∧ ∀ current ∈ h.peerAckAbs, current < ackAbs then
    { h with peerAckAbs := some ackAbs } else h

def acknowledge (h : TcpHalf) (ack : BitVec 32) (tsNs gapTimeoutNs : ℕ) : Pass :=
  match h.nextAbs with
  | none => { half := h }
  | some expected =>
      let h := h.recordAck (extendSeq ack expected) expected
      if h.outOfOrder.isEmpty ∧ h.pendingFin.isNone then { half := h }
      else (({ half := h } : Pass).recoverKnownAck.recoverOooTimeout
        gapTimeoutNs tsNs).consumeFinIfReady

end TcpHalf

namespace Pass

def finalizeLoop : ℕ → Pass → Pass
  | 0, w => w
  | fuel + 1, w =>
      match w.half.nextAbs, w.half.outOfOrder.first? with
      | some expected, some (first, _) =>
          let gapped := if expected < first then w.emitGapTo first else w
          let flushed := gapped.flushOoo
          if flushed.half.finConsumed ∨
              (flushed.half.nextAbs = gapped.half.nextAbs ∧
                flushed.half.outOfOrderBytes = gapped.half.outOfOrderBytes) then flushed
          else finalizeLoop fuel flushed
      | _, _ => w

end Pass

namespace TcpHalf

/-- The timestamp argument of the source reaches only the unused parameter of
`emitGapTo`. -/
def finalize (h : TcpHalf) : Pass :=
  (Pass.finalizeLoop (h.outOfOrder.size + 1) { half := h }).consumeFinIfReady.stamp none

end TcpHalf

/-! ## Runs -/

/-- One call of the public interface. -/
inductive Call where
  | observe (seq : BitVec 32) (syn : Bool)
  | accept (seq : BitVec 32) (syn fin : Bool) (tsNs : ℕ) (data : Bytes) (lim : Limits)
  | acknowledge (ack : BitVec 32) (tsNs gapTimeoutNs : ℕ)
  | rstMatchesNext (seq : BitVec 32)
  | finalize (tsNs : ℕ)
  deriving DecidableEq

namespace TcpHalf

def step (h : TcpHalf) : Call → Pass
  | .observe seq syn => { half := h.observe seq syn }
  | .accept seq syn fin tsNs data lim => h.accept seq syn fin tsNs data lim
  | .acknowledge ack tsNs gapTimeoutNs => h.acknowledge ack tsNs gapTimeoutNs
  | .rstMatchesNext _ => { half := h }
  | .finalize _ => h.finalize

/-- The half after a run of calls. -/
def after (h : TcpHalf) : List Call → TcpHalf
  | [] => h
  | c :: cs => (h.step c).half.after cs

/-- The outcomes of a run of calls. -/
def outcomes (h : TcpHalf) : List Call → List ReassemblyOutcome
  | [] => []
  | c :: cs => (h.step c).out :: (h.step c).half.outcomes cs

theorem after_append (h : TcpHalf) (cs ds : List Call) :
    h.after (cs ++ ds) = (h.after cs).after ds := by
  induction cs generalizing h with
  | nil => rfl
  | cons c cs ih => exact ih _

theorem outcomes_append (h : TcpHalf) (cs ds : List Call) :
    h.outcomes (cs ++ ds) = h.outcomes cs ++ (h.after cs).outcomes ds := by
  induction cs generalizing h with
  | nil => rfl
  | cons c cs ih => simp [outcomes, after, ih]

end TcpHalf

end Flow

end Bazalt
