import Bazalt.Flow.FirstSeen
import Bazalt.Flow.Sequence

/-!
# Wraparound invariance

Adding one number to all sequence and acknowledgement numbers of a run moves every
64-bit position of the half by one distance and changes no outcome, as long as nothing
saturates.  Each function of the reassembly is shown to commute with the move.
-/

namespace Bazalt.Flow

open Lib OrdMap

theorem strictMono_add (d : ℕ) : StrictMono fun p : ℕ ↦ p + d :=
  fun _ _ hlt ↦ Nat.add_lt_add_right hlt d

/-- All positions of a half, moved up by `d`, and the remembered wire number by `k`. -/
def TcpHalf.shift (d : ℕ) (k : BitVec 32) (h : TcpHalf) : TcpHalf :=
  { h with
    nextAbs := h.nextAbs.map (· + d)
    outOfOrder := h.outOfOrder.mapKeys (· + d) (strictMono_add d)
    pendingFin := h.pendingFin.map (· + d)
    initialSynSeq := h.initialSynSeq.map (· + k)
    peerAckAbs := h.peerAckAbs.map (· + d) }

def Pass.shift (d : ℕ) (k : BitVec 32) (w : Pass) : Pass := { w with half := w.half.shift d k }

/-- There is room for a move by `d`: nothing buffered and no FIN would saturate. -/
structure TcpHalf.Room (d : ℕ) (h : TcpHalf) : Prop where
  entries : ∀ e ∈ h.outOfOrder.entries, e.1 + e.2.data.length + d ≤ u64Max
  fin : ∀ f, h.pendingFin = some f → f + d < u64Max

theorem satAdd_shift {a b d : ℕ} (h : a + b + d ≤ u64Max) : satAdd (a + d) b = satAdd a b + d := by
  rw [satAdd_of_le (by omega), satAdd_of_le (by omega)]
  omega

namespace Pass

variable {d : ℕ} {k : BitVec 32} {w : Pass}

@[simp] theorem shift_out : (w.shift d k).out = w.out := rfl

@[simp] theorem shift_nextAbs : (w.shift d k).half.nextAbs = w.half.nextAbs.map (· + d) := rfl

@[simp] theorem shift_first? : (w.shift d k).half.outOfOrder.first? =
    w.half.outOfOrder.first?.map (Prod.map (· + d) id) := by
  simp [shift, TcpHalf.shift]

@[simp] theorem shift_isEmpty :
    (w.shift d k).half.outOfOrder.isEmpty = w.half.outOfOrder.isEmpty := by
  simp [shift, TcpHalf.shift]

@[simp] theorem shift_size :
    (w.shift d k).half.outOfOrder.size = w.half.outOfOrder.size := by
  simp [shift, TcpHalf.shift]

@[simp] theorem shift_outOfOrderBytes :
    (w.shift d k).half.outOfOrderBytes = w.half.outOfOrderBytes := rfl

@[simp] theorem shift_pendingFin :
    (w.shift d k).half.pendingFin = w.half.pendingFin.map (· + d) := rfl

@[simp] theorem shift_requiresAck :
    (w.shift d k).half.pendingFinRequiresAck = w.half.pendingFinRequiresAck := rfl

@[simp] theorem shift_finConsumed :
    (w.shift d k).half.finConsumed = w.half.finConsumed := rfl

@[simp] theorem shift_gapStartedTsNs :
    (w.shift d k).half.gapStartedTsNs = w.half.gapStartedTsNs := rfl

@[simp] theorem shift_peerAckAbs :
    (w.shift d k).half.peerAckAbs = w.half.peerAckAbs.map (· + d) := rfl

@[simp] theorem shift_acked (f : ℕ) : (w.shift d k).half.acked (f + d) = w.half.acked f := by
  simp only [TcpHalf.acked, shift_peerAckAbs]
  cases w.half.peerAckAbs with
  | none => rfl
  | some ack => simp

theorem popFirst_shift (segment : BufferedSegment) :
    (w.shift d k).popFirst segment = (w.popFirst segment).shift d k := by
  simp [popFirst, shift, TcpHalf.shift]

theorem stamp_shift (ts : Option ℕ) : (w.shift d k).stamp ts = (w.stamp ts).shift d k := rfl

theorem markRetransmit_shift :
    (w.shift d k).markRetransmit = w.markRetransmit.shift d k := rfl

theorem closeAt_shift {fin next : ℕ} (hfin : fin + d < u64Max) :
    (w.shift d k).closeAt (fin + d) (next + d) = (w.closeAt fin next).shift d k := by
  have hnext : (if fin + d = next + d then satAdd (next + d) 1 else next + d) =
      (if fin = next then satAdd next 1 else next) + d := by
    by_cases heq : fin = next
    · rw [if_pos heq, if_pos (by omega), satAdd_shift (by omega)]
    · rw [if_neg heq, if_neg (by omega)]
  rw [closeAt, hnext]
  rfl

theorem consumeFinIfReady_shift (hr : w.half.Room d) :
    (w.shift d k).consumeFinIfReady = w.consumeFinIfReady.shift d k := by
  unfold consumeFinIfReady
  by_cases hc : w.half.finConsumed
  · rw [if_pos hc, if_pos (show (w.shift d k).half.finConsumed = true from hc)]
  · rw [if_neg hc, if_neg (show ¬ (w.shift d k).half.finConsumed = true from hc),
      shift_pendingFin, shift_nextAbs, shift_requiresAck]
    cases hfin : w.half.pendingFin with
    | none => rfl
    | some fin =>
        cases hnext : w.half.nextAbs with
        | none => rfl
        | some next =>
            simp only [Option.map_some, shift_acked, Nat.add_le_add_iff_right,
              Nat.add_right_cancel_iff, closeAt_shift (hr.fin fin hfin)]
            split_ifs <;> rfl

theorem push_shift {n : ℕ} {data : Bytes} (tsNs : ℕ) (hn : w.half.nextAbs = some n)
    (hmax : n + data.length + d ≤ u64Max) :
    (w.shift d k).push data tsNs = (w.push data tsNs).shift d k := by
  simp [push, shift, TcpHalf.shift, hn, satAdd_shift hmax]

theorem skipTo_shift (expected target : ℕ) :
    (w.shift d k).skipTo (expected + d) (target + d) = (w.skipTo expected target).shift d k := by
  have hlen : target + d - (expected + d) = target - expected := by omega
  rw [skipTo, hlen]
  rfl

theorem Room.of_push {data : Bytes} {tsNs : ℕ} (hr : w.half.Room d) :
    (w.push data tsNs).half.Room d := ⟨hr.entries, hr.fin⟩

theorem emit_shift {n : ℕ} {data : Bytes} (tsNs : ℕ) (hr : w.half.Room d)
    (hn : w.half.nextAbs = some n) (hmax : n + data.length + d ≤ u64Max) :
    (w.shift d k).emit data tsNs = (w.emit data tsNs).shift d k := by
  unfold emit
  split_ifs
  · rfl
  · rw [push_shift tsNs hn hmax, consumeFinIfReady_shift (Room.of_push hr)]

theorem emitGapTo_shift (hr : w.half.Room d) (target : ℕ) :
    (w.shift d k).emitGapTo (target + d) = (w.emitGapTo target).shift d k := by
  unfold emitGapTo
  rw [shift_nextAbs, shift_pendingFin]
  cases hnext : w.half.nextAbs with
  | none => rfl
  | some expected =>
      have hskip : ∀ t, (if t + d ≤ expected + d then w.shift d k
          else ((w.shift d k).skipTo (expected + d) (t + d)).consumeFinIfReady) =
          (if t ≤ expected then w else (w.skipTo expected t).consumeFinIfReady).shift d k := by
        intro t
        rw [skipTo_shift, consumeFinIfReady_shift (w := w.skipTo expected t) ⟨hr.entries, hr.fin⟩]
        by_cases hle : t ≤ expected
        · rw [if_pos hle, if_pos (by omega)]
        · rw [if_neg hle, if_neg (by omega)]
      cases hfin : w.half.pendingFin with
      | none => exact hskip target
      | some fin =>
          simp only [Option.map_some, Nat.add_min_add_right]
          exact hskip (min target fin)

/-! ## Recovery -/

theorem Path.room {w' : Pass} (hp : Path w w') (hr : w.half.Room d) : w'.half.Room d := by
  induction hp with
  | refl => exact hr
  | tail _ hs ih =>
      cases hs with
      | chunk => exact ⟨fun e he ↦ ih.entries e (List.mem_of_mem_tail he), ih.fin⟩
      | drop => exact ⟨fun e he ↦ ih.entries e (List.mem_of_mem_tail he), ih.fin⟩
      | gap => exact ⟨ih.entries, ih.fin⟩
      | close => exact ⟨by simp [closeAt], ih.fin⟩
      | stamp ts => exact ⟨ih.entries, ih.fin⟩

theorem Trail.room {w' : Pass} (ht : Trail w w') (hr : w.half.Room d) : w'.half.Room d :=
  ht.path.room hr

theorem popFirst_room (hr : w.half.Room d) (segment : BufferedSegment) :
    (w.popFirst segment).half.Room d :=
  ⟨fun e he ↦ hr.entries e (List.mem_of_mem_tail he), hr.fin⟩

theorem emit_room (hr : w.half.Room d) (data : Bytes) (tsNs : ℕ) :
    (w.emit data tsNs).half.Room d := by
  unfold emit
  split_ifs
  · exact hr
  · exact Path.room (consumeFinIfReady_path _) (Room.of_push hr)

theorem flushOooLoop_shift (fuel : ℕ) : ∀ (w : Pass), w.half.Room d →
    flushOooLoop fuel (w.shift d k) = (flushOooLoop fuel w).shift d k := by
  induction fuel with
  | zero => exact fun w _ ↦ rfl
  | succ fuel ih =>
      intro w hr
      rw [flushOooLoop.eq_2, flushOooLoop.eq_2]
      by_cases hc : w.half.finConsumed
      · rw [if_pos hc, if_pos (show (w.shift d k).half.finConsumed = true from hc)]
      · rw [if_neg hc, if_neg (show ¬ (w.shift d k).half.finConsumed = true from hc),
          shift_nextAbs, shift_first?]
        cases hnext : w.half.nextAbs with
        | none => rfl
        | some expected =>
            cases hfirst : w.half.outOfOrder.first? with
            | none => rfl
            | some e =>
                obtain ⟨firstKey, segment⟩ := e
                have hbound : firstKey + segment.data.length + d ≤ u64Max :=
                  hr.entries _ (mem_of_first? hfirst)
                have hpop := popFirst_room hr segment
                simp only [Option.map_some, Prod.map_apply, id_eq, Nat.add_lt_add_iff_right,
                  Nat.add_sub_add_right, popFirst_shift]
                split_ifs with h₁ h₂ h₃
                · rfl
                · exact ih _ hpop
                · rw [emit_shift segment.tsNs hpop hnext ?_]
                  · exact ih _ (emit_room hpop _ _)
                  · rw [List.length_drop]
                    omega
                · rw [emit_shift segment.tsNs hpop hnext (by omega)]
                  exact ih _ (emit_room hpop _ _)

theorem flushOoo_shift (hr : w.half.Room d) :
    (w.shift d k).flushOoo = w.flushOoo.shift d k := by
  rw [flushOoo, flushOoo, shift_size]
  exact flushOooLoop_shift _ w hr

theorem ifGap_shift (hr : w.half.Room d) (expected first target : ℕ) :
    (if expected + d < first + d then (w.shift d k).emitGapTo (target + d) else w.shift d k) =
      (if expected < first then w.emitGapTo target else w).shift d k := by
  rw [emitGapTo_shift hr]
  by_cases hlt : expected < first
  · rw [if_pos hlt, if_pos (by omega)]
  · rw [if_neg hlt, if_neg (by omega)]

theorem recoverKnownAckRound_shift {n : ℕ} (hw : w.half.Sound n) (hr : w.half.Room d)
    (ack : ℕ) : (w.shift d k).recoverKnownAckRound (ack + d) =
      Prod.map (shift d k) id (w.recoverKnownAckRound ack) := by
  unfold recoverKnownAckRound
  rw [shift_nextAbs, hw.next]
  simp only [Option.map_some]
  by_cases hle : ack ≤ n
  · rw [if_pos hle, if_pos (by omega)]
    rfl
  · rw [if_neg hle, if_neg (by omega), shift_first?]
    cases hfirst : w.half.outOfOrder.first? with
    | none =>
        rw [shift_pendingFin]
        cases hfin : w.half.pendingFin with
        | none => rfl
        | some fin =>
            simp only [Option.map_none, Option.map_some, Nat.add_lt_add_iff_right,
              emitGapTo_shift hr]
            split_ifs with hbetween
            · have hopen : w.half.finConsumed = false := by
                by_contra hc
                have := hw.past (by simpa using hc) fin hfin
                omega
              have hnil := first?_eq_none.mp hfirst
              have hgap : Trail w (w.emitGapTo fin) :=
                emitGapTo_trail hopen (by simp [hnil]) (.inr (by simp [hfin]))
              rw [consumeFinIfReady_shift (hgap.room hr)]
              rfl
            · rfl
    | some e =>
        have hgap := gapToFirst_trail hw hfirst (Nat.min_le_left e.1 ack)
        simp only [Option.map_some, Prod.map_fst, Nat.add_min_add_right, ifGap_shift hr]
        generalize (if n < e.1 then w.emitGapTo (min e.1 ack) else w) = gapped at hgap ⊢
        have hr' := hgap.room hr
        obtain ⟨m, -, hm⟩ := hgap.sound hw
        rw [shift_nextAbs, hm.next]
        simp only [Option.map_some, Option.mem_some_iff, exists_eq_left']
        by_cases hreach : ack ≤ m
        · rw [if_pos hreach, if_pos (by omega)]
          rfl
        · rw [if_neg hreach, if_neg (by omega), flushOoo_shift hr', shift_nextAbs]
          obtain ⟨m', -, hm'⟩ := (flushOoo_trail hm).sound hm
          have hbeq : (m' + d == m + d) = (m' == m) := by
            rw [Bool.eq_iff_iff]
            simp
          simp [hm'.next, hbeq]

theorem recoverKnownAckLoop_shift (ack fuel : ℕ) : ∀ (w : Pass) (n : ℕ), w.half.Sound n →
    w.half.Room d → recoverKnownAckLoop (ack + d) fuel (w.shift d k) =
      (recoverKnownAckLoop ack fuel w).shift d k := by
  induction fuel with
  | zero => exact fun w n _ _ ↦ rfl
  | succ fuel ih =>
      intro w n hw hr
      have hround := recoverKnownAckRound_trail hw ack
      unfold recoverKnownAckLoop
      rw [recoverKnownAckRound_shift hw hr]
      generalize w.recoverKnownAckRound ack = r at hround ⊢
      obtain ⟨w', go⟩ := r
      cases go with
      | false => rfl
      | true =>
          obtain ⟨n', -, h'⟩ := hround.sound hw
          exact ih w' n' h' (hround.room hr)

theorem recoverKnownAck_shift {n : ℕ} (hw : w.half.Sound n) (hr : w.half.Room d) :
    (w.shift d k).recoverKnownAck = w.recoverKnownAck.shift d k := by
  unfold recoverKnownAck
  rw [shift_peerAckAbs]
  cases w.half.peerAckAbs with
  | none => rfl
  | some ack =>
      simp only [Option.map_some, shift_size]
      exact recoverKnownAckLoop_shift ack _ w n hw hr

theorem recoverOooPressureLoop_shift (maxOoo maxSegments fuel : ℕ) : ∀ (w : Pass) (n : ℕ),
    w.half.Sound n → w.half.Room d →
    recoverOooPressureLoop maxOoo maxSegments fuel (w.shift d k) =
      (recoverOooPressureLoop maxOoo maxSegments fuel w).shift d k := by
  induction fuel with
  | zero => exact fun w n _ _ ↦ rfl
  | succ fuel ih =>
      intro w n hw hr
      unfold recoverOooPressureLoop
      rw [shift_outOfOrderBytes, shift_size]
      by_cases hover : maxOoo < w.half.outOfOrderBytes ∨ maxSegments < w.half.outOfOrder.size
      · rw [if_pos hover, if_pos hover, shift_first?, shift_nextAbs, hw.next]
        cases hfirst : w.half.outOfOrder.first? with
        | none => rfl
        | some e =>
            have hgap := gapToFirst_trail hw hfirst le_rfl
            simp only [Option.map_some, Prod.map_fst, ifGap_shift hr]
            generalize (if n < e.1 then w.emitGapTo e.1 else w) = gapped at hgap ⊢
            have hr' := hgap.room hr
            obtain ⟨m, -, hm⟩ := hgap.sound hw
            have hflush := flushOoo_trail hm
            obtain ⟨m', -, hm'⟩ := hflush.sound hm
            rw [flushOoo_shift hr', ih _ m' hm' (hflush.room hr')]
            split_ifs with h₁ h₂ h₂
            · rfl
            · exact absurd h₁ h₂
            · exact absurd h₂ h₁
            · rfl
      · rw [if_neg hover, if_neg hover]

theorem recoverOooPressure_shift {n : ℕ} (hw : w.half.Sound n) (hr : w.half.Room d)
    (maxOoo maxSegments : ℕ) : (w.shift d k).recoverOooPressure maxOoo maxSegments =
      (w.recoverOooPressure maxOoo maxSegments).shift d k := by
  rw [recoverOooPressure, recoverOooPressure, shift_size]
  exact recoverOooPressureLoop_shift _ _ _ w n hw hr

theorem finalizeLoop_shift (fuel : ℕ) : ∀ (w : Pass) (n : ℕ), w.half.Sound n →
    w.half.Room d → finalizeLoop fuel (w.shift d k) = (finalizeLoop fuel w).shift d k := by
  induction fuel with
  | zero => exact fun w n _ _ ↦ rfl
  | succ fuel ih =>
      intro w n hw hr
      unfold finalizeLoop
      rw [shift_first?, shift_nextAbs, hw.next]
      cases hfirst : w.half.outOfOrder.first? with
      | none => rfl
      | some e =>
          have hgap := gapToFirst_trail hw hfirst le_rfl
          simp only [Option.map_some, Prod.map_fst, ifGap_shift hr]
          generalize (if n < e.1 then w.emitGapTo e.1 else w) = gapped at hgap ⊢
          have hr' := hgap.room hr
          obtain ⟨m, -, hm⟩ := hgap.sound hw
          have hflush := flushOoo_trail hm
          obtain ⟨m', -, hm'⟩ := hflush.sound hm
          have hstop : ((gapped.flushOoo.shift d k).half.finConsumed = true ∨
              (gapped.flushOoo.shift d k).half.nextAbs = (gapped.shift d k).half.nextAbs ∧
                (gapped.flushOoo.shift d k).half.outOfOrderBytes =
                  (gapped.shift d k).half.outOfOrderBytes) ↔
              (gapped.flushOoo.half.finConsumed = true ∨
                gapped.flushOoo.half.nextAbs = gapped.half.nextAbs ∧
                  gapped.flushOoo.half.outOfOrderBytes = gapped.half.outOfOrderBytes) := by
            simp [hm.next, hm'.next]
          rw [flushOoo_shift hr', ih _ m' hm' (hflush.room hr')]
          split_ifs with h₁ h₂ h₂
          · rfl
          · exact absurd (hstop.mp h₁) h₂
          · exact absurd (hstop.mpr h₂) h₁
          · rfl

theorem recoverOooTimeout_shift {n : ℕ} (hw : w.half.Sound n) (hr : w.half.Room d)
    (maxAgeNs tsNs : ℕ) : (w.shift d k).recoverOooTimeout maxAgeNs tsNs =
      (w.recoverOooTimeout maxAgeNs tsNs).shift d k := by
  unfold recoverOooTimeout
  rw [shift_first?, shift_nextAbs, hw.next]
  cases hfirst : w.half.outOfOrder.first? with
  | none => rfl
  | some e =>
      simp only [Option.map_some, Prod.map_fst, Nat.add_le_add_iff_right]
      by_cases hle : e.1 ≤ n
      · rw [if_pos hle, if_pos hle, stamp_shift,
          flushOoo_shift (w := w.stamp none) ⟨hr.entries, hr.fin⟩]
      · rw [if_neg hle, if_neg hle, shift_gapStartedTsNs]
        cases hstart : w.half.gapStartedTsNs with
        | none => rfl
        | some started =>
            by_cases hage : tsNs - started < maxAgeNs
            · simp only [if_pos hage]
            · have hgap := gapToFirst_trail hw hfirst le_rfl
              rw [if_pos (not_le.mp hle)] at hgap
              obtain ⟨m, -, hm⟩ := hgap.sound hw
              obtain ⟨m', -, hm'⟩ := (flushOoo_trail hm).sound hm
              simp only [if_neg hage, emitGapTo_shift hr, flushOoo_shift (hgap.room hr),
                stamp_shift]
              generalize (w.emitGapTo e.1).flushOoo = f at hm' ⊢
              rw [shift_first?, shift_nextAbs,
                show (f.stamp none).half.nextAbs = some m' from hm'.next]
              cases (f.stamp none).half.outOfOrder.first? with
              | none => rfl
              | some next =>
                  simp only [Option.map_some, Prod.map_fst, Nat.add_lt_add_iff_right]
                  split_ifs <;> rfl

/-! ## Insertion -/

theorem insertPiece_shift (cursor : ℕ) (piece : Bytes) (tsNs : ℕ) :
    (w.shift d k).insertPiece (cursor + d) piece tsNs =
      (w.insertPiece cursor piece tsNs).shift d k := by
  simp only [insertPiece, shift, TcpHalf.shift]
  rw [← insert_mapKeys]

theorem insertPiece_room (hr : w.half.Room d) {cursor : ℕ} {piece : Bytes} (tsNs : ℕ)
    (hmax : cursor + piece.length + d ≤ u64Max) :
    (w.insertPiece cursor piece tsNs).half.Room d := by
  refine ⟨fun e he ↦ ?_, hr.fin⟩
  rcases mem_insertEntry he with rfl | he
  · exact hmax
  · exact hr.entries e he

theorem finish_shift (hr : w.half.Room d) {e : ℕ × BufferedSegment}
    (he : e ∈ w.half.outOfOrder.entries) : e.2.finish (e.1 + d) = e.2.finish e.1 + d :=
  satAdd_shift (hr.entries e he)

theorem insertOooLoop_shift {start finish tsNs : ℕ} {data : Bytes}
    (hmax : finish + d ≤ u64Max) (fuel : ℕ) :
    ∀ (cursor : ℕ) (w : Pass), start ≤ cursor → w.half.Room d →
      insertOooLoop (start + d) (finish + d) tsNs data fuel (cursor + d) (w.shift d k) =
        (insertOooLoop start finish tsNs data fuel cursor w).shift d k := by
  induction fuel with
  | zero => exact fun cursor w _ _ ↦ rfl
  | succ fuel ih =>
      intro cursor w hstart hr
      unfold insertOooLoop
      simp only [Nat.add_lt_add_iff_right]
      by_cases hcur : cursor < finish
      · rw [if_pos hcur, if_pos hcur]
        have hlast : (w.shift d k).half.outOfOrder.lastLE? (cursor + d) =
            (w.half.outOfOrder.lastLE? cursor).map (Prod.map (· + d) id) :=
          lastLE?_mapKeys (strictMono_add d) _ _
        have hcov : ((w.shift d k).half.outOfOrder.lastLE? (cursor + d)).filter
            (fun e ↦ decide (cursor + d < e.2.finish e.1)) =
            ((w.half.outOfOrder.lastLE? cursor).filter
              (fun e ↦ decide (cursor < e.2.finish e.1))).map (Prod.map (· + d) id) := by
          rw [hlast]
          cases hl : w.half.outOfOrder.lastLE? cursor with
          | none => rfl
          | some e =>
              have hfin := finish_shift hr (lastLE?_some hl).1
              simp only [Option.map_some, Option.filter_some, Prod.map_fst, Prod.map_snd, id_eq,
                hfin, Nat.add_lt_add_iff_right]
              split_ifs <;> rfl
        rw [hcov]
        cases hc : (w.half.outOfOrder.lastLE? cursor).filter
            (fun e ↦ decide (cursor < e.2.finish e.1)) with
        | some e =>
            have hmem := (lastLE?_some (Option.filter_eq_some_iff.mp hc).1).1
            simp only [Option.map_some, Prod.map_fst, Prod.map_snd, id_eq, finish_shift hr hmem,
              Nat.add_min_add_right, markRetransmit_shift]
            have hreach := (Option.filter_eq_some_iff.mp hc).2
            simp only [decide_eq_true_eq] at hreach
            exact ih _ _ (by omega) ⟨hr.entries, hr.fin⟩
        | none =>
            have hnext : (w.shift d k).half.outOfOrder.firstIn? (cursor + d) (finish + d) =
                (w.half.outOfOrder.firstIn? cursor finish).map (Prod.map (· + d) id) :=
              firstIn?_mapKeys (strictMono_add d) _ _ _
            have hroom : ∀ pieceEnd, pieceEnd ≤ finish → cursor ≤ pieceEnd →
                (w.insertPiece cursor ((data.take (pieceEnd - start)).drop (cursor - start))
                  tsNs).half.Room d := by
              intro pieceEnd h₁ h₂
              refine insertPiece_room hr tsNs ?_
              rw [List.length_drop, List.length_take]
              omega
            simp only [Option.map_none, hnext]
            cases hn : w.half.outOfOrder.firstIn? cursor finish with
            | none =>
                simp only [Option.map_none, Option.getD_none, min_self, Nat.add_lt_add_iff_right,
                  if_pos hcur, Nat.add_sub_add_right, insertPiece_shift]
                exact ih _ _ (by omega) (hroom finish le_rfl hcur.le)
            | some e =>
                obtain ⟨hmem, hle, hlt, -⟩ := firstIn?_some hn
                simp only [Option.map_some, Option.getD_some, Prod.map_fst, Prod.map_snd, id_eq,
                  Nat.add_min_add_right, Nat.add_lt_add_iff_right, Nat.add_sub_add_right,
                  insertPiece_shift, finish_shift hr hmem, min_eq_left hlt.le]
                by_cases hpiece : cursor < e.1
                · simp only [if_pos hpiece, Nat.add_le_add_iff_right, Nat.add_lt_add_iff_right,
                    markRetransmit_shift]
                  have hr' := hroom e.1 hlt.le hle
                  by_cases hover : e.1 ≤ e.1 ∧ e.1 < e.2.finish e.1
                  · rw [if_pos hover, if_pos hover]
                    exact ih _ _ (by omega) ⟨hr'.entries, hr'.fin⟩
                  · rw [if_neg hover, if_neg hover]
                    exact ih _ _ (by omega) hr'
                · simp only [if_neg hpiece, Nat.add_le_add_iff_right, Nat.add_lt_add_iff_right,
                    markRetransmit_shift]
                  by_cases hover : e.1 ≤ cursor ∧ cursor < e.2.finish e.1
                  · rw [if_pos hover, if_pos hover]
                    exact ih _ _ (by omega) ⟨hr.entries, hr.fin⟩
                  · rw [if_neg hover, if_neg hover]
                    exact ih _ _ hstart hr
      · rw [if_neg hcur, if_neg hcur]

theorem insertOooFirstSeen_shift (hr : w.half.Room d) {start : ℕ} {data : Bytes} (tsNs : ℕ)
    (hmax : start + data.length + d ≤ u64Max) :
    (w.shift d k).insertOooFirstSeen (start + d) tsNs data =
      (w.insertOooFirstSeen start tsNs data).shift d k := by
  unfold insertOooFirstSeen
  rw [satAdd_shift hmax]
  refine insertOooLoop_shift ?_ _ start w le_rfl hr
  have := satAdd_le_add start data.length
  omega

theorem insertOooFirstSeen_room (hr : w.half.Room d) (hb : w.half.Buffered) {start : ℕ}
    {data : Bytes} (tsNs : ℕ) (hmax : start + data.length + d ≤ u64Max) :
    (w.insertOooFirstSeen start tsNs data).half.Room d := by
  have hins := insertOooFirstSeen_inserts hb start tsNs data
  refine ⟨fun e he ↦ ?_, fun f hf ↦ hr.fin f ?_⟩
  · rcases hins.adds e he with he | ⟨-, hle⟩
    · exact hr.entries e he
    · have := satAdd_le_add start data.length
      omega
  · rw [hins.half] at hf
    exact hf

theorem ite_markRetransmit_shift (p : Prop) [Decidable p] :
    (if p then (w.shift d k).markRetransmit else w.shift d k) =
      (if p then w.markRetransmit else w).shift d k := by
  split_ifs <;> rfl

theorem Room.ite_markRetransmit (hr : w.half.Room d) (p : Prop) [Decidable p] :
    (if p then w.markRetransmit else w).half.Room d := by
  split_ifs
  · exact ⟨hr.entries, hr.fin⟩
  · exact hr

theorem acceptContiguous_shift {n start : ℕ} {data : Bytes} (hr : w.half.Room d)
    (hw : w.half.Sound n) (hle : start ≤ n) (hmax : start + data.length + d ≤ u64Max)
    (hreplay : start + data.length ≤ n → n + data.length + d ≤ u64Max) (tsNs : ℕ) :
    (w.shift d k).acceptContiguous (start + d) (n + d) tsNs data =
      Prod.map (shift d k) id (w.acceptContiguous start n tsNs data) := by
  unfold acceptContiguous
  simp only [Nat.add_lt_add_iff_right, Nat.add_sub_add_right, ite_markRetransmit_shift]
  have hr₀ := Room.ite_markRetransmit hr (start < n)
  have hs₀ : (if start < n then w.markRetransmit else w).half.Sound n := by
    split_ifs <;> exact hw
  generalize (if start < n then w.markRetransmit else w) = w₀ at hr₀ hs₀ ⊢
  generalize hcut : (if start < n ∧ n - start < data.length then n - start else 0) = cut
  -- Either the payload reaches past `n` and is cut there, or it goes on whole.
  have hcases : n < start + data.length ∧ start + cut = n ∨
      start + data.length ≤ n ∧ cut = 0 := by
    split_ifs at hcut <;> omega
  have hlen : (data.drop cut).length = data.length - cut := List.length_drop
  simp only [shift_isEmpty]
  split_ifs with h₁ h₂
  · rw [emit_shift tsNs hr₀ hs₀.next (by omega)]
    rfl
  · have hat : satAdd start cut = start + cut := satAdd_of_le (by omega)
    have hend : satAdd start cut + (data.drop cut).length + d ≤ u64Max := by omega
    rw [satAdd_shift (by omega), insertOooFirstSeen_shift hr₀ tsNs hend,
      flushOoo_shift (insertOooFirstSeen_room hr₀ hs₀.buffered tsNs hend)]
    rfl
  · rfl

theorem recover_shift {n : ℕ} (hw : w.half.Sound n) (hr : w.half.Room d)
    (maxOoo maxSegments : ℕ) :
    (w.shift d k).recoverKnownAck.recoverOooPressure maxOoo maxSegments =
      (w.recoverKnownAck.recoverOooPressure maxOoo maxSegments).shift d k := by
  have hack := recoverKnownAck_trail hw
  obtain ⟨m, -, hm⟩ := hack.sound hw
  rw [recoverKnownAck_shift hw hr, recoverOooPressure_shift hm (hack.room hr)]

theorem Stores.room {n start tsNs : ℕ} {data : Bytes} {w' : Pass}
    (h : Stores w n start tsNs data w') (hr : w.half.Room d)
    (hmax : start + data.length + d ≤ u64Max) : w'.half.Room d := by
  cases h with
  | nothing => exact hr
  | buffer hne hcase hlo hins =>
      refine ⟨fun e he ↦ ?_, fun f hf ↦ hr.fin f ?_⟩
      · rcases hins.adds e he with he | ⟨-, hle⟩
        · exact hr.entries e he
        · have := satAdd_le_add start data.length
          omega
      · rw [hins.half] at hf
        exact hf
  | direct hle hlt hempty hmark =>
      rcases hmark with rfl | rfl
      · exact ⟨hr.entries, hr.fin⟩
      · exact ⟨hr.entries, hr.fin⟩
  | replay hne hle hempty => exact ⟨hr.entries, hr.fin⟩

theorem acceptData_shift {n start : ℕ} {data : Bytes} (hr : w.half.Room d)
    (hw : w.half.Sound n) (hfin : w.half.finConsumed = false)
    (hmax : start + data.length + d ≤ u64Max)
    (hreplay : data ≠ [] → start + data.length ≤ n → n + data.length + d ≤ u64Max) (tsNs : ℕ)
    (lim : Limits) :
    (w.shift d k).acceptData (start + d) (n + d) tsNs data lim =
      (w.acceptData start n tsNs data lim).shift d k := by
  unfold acceptData
  simp only [Nat.add_lt_add_iff_right]
  split_ifs with hempty hahead
  · rfl
  · have hstores := acceptAhead_stores hw.buffered hahead (by simpa using hempty) tsNs
    obtain ⟨m, -, hm⟩ := hstores.sound hw hfin
    have hput : (w.shift d k).acceptAhead (start + d) tsNs data =
        (w.acceptAhead start tsNs data).shift d k :=
      insertOooFirstSeen_shift (w := { w with out := { w.out with outOfOrder := true } })
        ⟨hr.entries, hr.fin⟩ tsNs hmax
    rw [hput, recover_shift hm (hstores.room hr hmax)]
  · obtain ⟨w₁, hstores, hpath⟩ := acceptContiguous_trail hw hfin (not_lt.mp hahead)
      (by simpa using hempty) tsNs
    rw [acceptContiguous_shift hr hw (not_lt.mp hahead) hmax (hreplay (by simpa using hempty))]
    obtain ⟨m₁, -, hm₁⟩ := hstores.sound hw hfin
    obtain ⟨m, -, hm⟩ := hpath.sound hm₁
    have hr' := hpath.room (hstores.room hr hmax)
    generalize w.acceptContiguous start n tsNs data = r at hm hr' ⊢
    obtain ⟨w₂, used⟩ := r
    cases used with
    | true => exact recover_shift hm hr' _ _
    | false => rfl

/-! ## The calls -/

theorem truncateAtFin_shift (startAbs endAbs : ℕ) (data : Bytes) :
    (w.shift d k).truncateAtFin (startAbs + d) (endAbs + d) data =
      Prod.map (shift d k) id (w.truncateAtFin startAbs endAbs data) := by
  unfold truncateAtFin
  rw [shift_pendingFin]
  cases hfin : w.half.pendingFin with
  | none => rfl
  | some fin =>
      simp only [Option.map_some, Nat.add_lt_add_iff_right, Nat.add_le_add_iff_right,
        Nat.add_sub_add_right, shift_acked, shift_requiresAck]
      split_ifs <;> rfl

theorem truncateAtFin_room (hr : w.half.Room d) (startAbs endAbs : ℕ) (data : Bytes) :
    (w.truncateAtFin startAbs endAbs data).1.half.Room d := by
  unfold truncateAtFin
  split
  · exact hr
  · split_ifs
    · exact ⟨hr.entries, by simp⟩
    · exact hr
    · exact ⟨hr.entries, hr.fin⟩
    · exact ⟨hr.entries, hr.fin⟩
    · exact hr

theorem rest_shift {n : ℕ} (hw : w.half.Sound n) (hr : w.half.Room d) (maxAgeNs tsNs : ℕ) :
    ((w.shift d k).recoverOooTimeout maxAgeNs tsNs).consumeFinIfReady =
      (w.recoverOooTimeout maxAgeNs tsNs).consumeFinIfReady.shift d k := by
  rw [recoverOooTimeout_shift hw hr,
    consumeFinIfReady_shift ((recoverOooTimeout_trail hw maxAgeNs tsNs).room hr)]

end Pass

/-- An arrival moved up by `d`. -/
def Arrival.shift (d : ℕ) (k : BitVec 32) (a : Arrival) : Arrival :=
  ⟨a.expected + d, a.startAbs + d, a.pass.shift d k, a.data⟩

theorem Arrival.settle_shift {d : ℕ} {k : BitVec 32} {a : Arrival} (hr : a.pass.half.Room d)
    (hs : a.pass.half.Sound a.expected) (hfin : a.pass.half.finConsumed = false)
    (hmax : a.startAbs + a.data.length + d ≤ u64Max)
    (hreplay : a.data ≠ [] → a.startAbs + a.data.length ≤ a.expected →
      a.expected + a.data.length + d ≤ u64Max) (tsNs : ℕ) (lim : Limits) :
    (a.shift d k).settle tsNs lim = (a.settle tsNs lim).shift d k := by
  obtain ⟨w₁, hstores, hdata⟩ := Pass.acceptData_trail hs hfin a.startAbs tsNs a.data lim
  obtain ⟨n₁, -, h₁⟩ := hstores.sound hs hfin
  obtain ⟨n₂, -, h₂⟩ := hdata.sound h₁
  have hr₂ := hdata.room (hstores.room hr hmax)
  simp only [settle, shift, Pass.acceptData_shift hr hs hfin hmax hreplay]
  generalize a.pass.acceptData a.startAbs a.expected tsNs a.data lim = w₂ at h₂ hr₂ ⊢
  simp only [Pass.shift_pendingFin, Option.isSome_map, Pass.shift_finConsumed]
  split_ifs
  · have hack := Pass.recoverKnownAck_trail h₂
    obtain ⟨n₃, -, h₃⟩ := hack.sound h₂
    rw [Pass.recoverKnownAck_shift h₂ hr₂, Pass.rest_shift h₃ (hack.room hr₂)]
  · exact Pass.rest_shift h₂ hr₂ _ _

/-- `k` added to the sequence or acknowledgement number of a call. -/
def Call.addSeq (k : BitVec 32) : Call → Call
  | .observe seq syn => .observe (seq + k) syn
  | .accept seq syn fin tsNs data lim => .accept (seq + k) syn fin tsNs data lim
  | .acknowledge ack tsNs gapTimeoutNs => .acknowledge (ack + k) tsNs gapTimeoutNs
  | .rstMatchesNext seq => .rstMatchesNext (seq + k)
  | .finalize tsNs => .finalize tsNs

/-- The extended numbers of a call do not reach `2 ^ 64`: the end of an arriving segment,
its FIN counted, the end of a payload that is emitted again after its place, and the
number of an acknowledgement or a reset. -/
def TcpHalf.Fits (h : TcpHalf) : Call → Prop
  | .observe _ _ => True
  | .accept seq syn fin _ data _ => ∀ n, (h.observe seq syn).nextAbs = some n →
      h.finConsumed = false →
      exactSeq (payloadSeq seq syn) n + data.length + fin.toNat < 2 ^ 64 ∧
        (exactSeq (payloadSeq seq syn) n + data.length ≤ n → n + data.length < 2 ^ 64)
  | .acknowledge ack _ _ => ∀ n, h.nextAbs = some n → exactSeq ack n < 2 ^ 64
  | .rstMatchesNext seq => ∀ n, h.nextAbs = some n → exactSeq seq n < 2 ^ 64
  | .finalize _ => True

namespace TcpHalf

variable {d n : ℕ} {k : BitVec 32} {h : TcpHalf}

theorem markFin_shift (startAbs endAbs expected : ℕ) :
    (h.shift d k).markFin (startAbs + d) (endAbs + d) (expected + d) =
      (h.markFin startAbs endAbs expected).shift d k := by
  unfold markFin
  cases hfin : h.pendingFin with
  | none => simp [shift, hfin]
  | some existing =>
      simp only [shift, hfin, Option.map_some, Nat.add_right_cancel_iff,
        Nat.add_le_add_iff_right]
      split_ifs <;> simp [hfin]

theorem arrive_room (hr : h.Room d) {seq : BitVec 32} {syn fin : Bool} {data : Bytes}
    (hmax : fin = true → satAdd (extendSeq (payloadSeq seq syn) n) data.length + d < u64Max) :
    (h.arrive seq syn fin data n).pass.half.Room d := by
  refine Pass.truncateAtFin_room ?_ _ _ _
  simp only
  split_ifs with hfin
  · have hmark := markFin_remarked h (extendSeq (payloadSeq seq syn) n)
      (satAdd (extendSeq (payloadSeq seq syn) n) data.length) n
    refine ⟨fun e he ↦ hr.entries e ?_, fun f hf ↦ ?_⟩
    · rw [hmark.half] at he
      exact he
    · rcases hmark.fin f hf with hf | rfl
      · exact hr.fin f hf
      · exact hmax hfin.1
  · exact hr

theorem arrive_shift (hk : BitVec.ofNat 32 d = k) (hlo : initialSeqEpoch ≤ n)
    (seq : BitVec 32) (syn fin : Bool) (data : Bytes)
    (hmax : exactSeq (payloadSeq (seq + k) syn) (n + d) + data.length < 2 ^ 64) :
    (h.shift d k).arrive (seq + k) syn fin data (n + d) =
      (h.arrive seq syn fin data n).shift d k := by
  rw [payloadSeq_add] at hmax
  have hat := extendSeq_shift hk (payloadSeq seq syn) hlo (by omega)
  have hexact := extendSeq_exact (payloadSeq seq syn + k) (n := n + d) (by omega) (by omega)
  rw [hat] at hexact
  have hend : satAdd (extendSeq (payloadSeq seq syn) n + d) data.length =
      satAdd (extendSeq (payloadSeq seq syn) n) data.length + d :=
    satAdd_shift (by unfold u64Max; omega)
  have hpass : ∀ g : TcpHalf, ({ half := g.shift d k } : Pass) = Pass.shift d k { half := g } :=
    fun _ ↦ rfl
  have hmark : (if fin = true ∧ n + d ≤ satAdd (extendSeq (payloadSeq seq syn) n) data.length + d
      then (h.shift d k).markFin (extendSeq (payloadSeq seq syn) n + d)
        (satAdd (extendSeq (payloadSeq seq syn) n) data.length + d) (n + d)
      else h.shift d k) =
      (if fin = true ∧ n ≤ satAdd (extendSeq (payloadSeq seq syn) n) data.length
      then h.markFin (extendSeq (payloadSeq seq syn) n)
        (satAdd (extendSeq (payloadSeq seq syn) n) data.length) n else h).shift d k := by
    simp only [Nat.add_le_add_iff_right, markFin_shift]
    split_ifs <;> rfl
  simp only [arrive, payloadSeq_add, hat, hend, hmark, hpass, Pass.truncateAtFin_shift]
  rfl

theorem observe_shift (hn : h.nextAbs = some n) (seq : BitVec 32) (syn : Bool) :
    (h.shift d k).observe (seq + k) syn = (h.observe seq syn).shift d k := by
  cases hsyn : h.initialSynSeq with
  | none => cases syn <;> simp [observe, shift, hn, hsyn]
  | some first => cases syn <;> simp [observe, shift, hn, hsyn]

theorem recordAck_shift (ackAbs expected : ℕ) :
    (h.shift d k).recordAck (ackAbs + d) (expected + d) =
      (h.recordAck ackAbs expected).shift d k := by
  unfold recordAck
  cases hpeer : h.peerAckAbs with
  | none => by_cases hlt : expected < ackAbs <;> simp [shift, hpeer, hlt]
  | some current =>
      by_cases hnew : expected < ackAbs ∧ current < ackAbs
      · simp [shift, hpeer, hnew]
      · simp [shift, hpeer, hnew]

theorem Noted.room {h' : TcpHalf} (hn : Noted h h') (hr : h.Room d) : h'.Room d := by
  rw [hn]
  exact ⟨hr.entries, hr.fin⟩

theorem accept_shift (hi : h.Idle n) (hlo : initialSeqEpoch ≤ n) (hr : h.Room d)
    (hk : BitVec.ofNat 32 d = k) {seq : BitVec 32} {syn fin : Bool} {tsNs : ℕ} {data : Bytes}
    {lim : Limits} (hfit : (h.shift d k).Fits (.accept (seq + k) syn fin tsNs data lim)) :
    (h.shift d k).accept (seq + k) syn fin tsNs data lim =
      (h.accept seq syn fin tsNs data lim).shift d k ∧
      (h.accept seq syn fin tsNs data lim).half.Room d := by
  have hnote := observe_noted hi.sound.next seq syn
  have hidle := hi.observe seq syn
  have hr' := hnote.room hr
  simp only [Fits, observe_shift hi.sound.next] at hfit
  simp only [accept, observe_shift hi.sound.next]
  have hclosed : (h.observe seq syn).finConsumed = h.finConsumed := by rw [hnote]
  generalize h.observe seq syn = g at hidle hr' hfit hclosed ⊢
  have hs := hidle.sound
  have hnext : (g.shift d k).nextAbs = some (n + d) := by simp [shift, hs.next]
  rw [hnext, hs.next]
  by_cases hfin : g.finConsumed = true
  · rw [if_pos hfin, if_pos (show (g.shift d k).finConsumed = true from hfin)]
    exact ⟨rfl, hr'⟩
  · rw [if_neg hfin, if_neg (show ¬ (g.shift d k).finConsumed = true from hfin)]
    have hopen : g.finConsumed = false := by simpa using hfin
    obtain ⟨hmax, hreplay⟩ := hfit (n + d) hnext (show h.finConsumed = false from hclosed ▸ hopen)
    have hexact := extendSeq_exact (payloadSeq (seq + k) syn) (n := n + d) (by omega) (by omega)
    simp only [arrive_shift hk hlo seq syn fin data (by omega)]
    rw [payloadSeq_add] at hexact hmax hreplay
    rw [extendSeq_shift hk _ hlo (by omega)] at hexact
    have hend := satAdd_le_add (extendSeq (payloadSeq seq syn) n) data.length
    have hfinAt : fin = true →
        satAdd (extendSeq (payloadSeq seq syn) n) data.length + d < u64Max := by
      intro hset
      rw [hset, Bool.toNat_true] at hmax
      unfold u64Max
      omega
    have hroom := arrive_room hr' hfinAt
    obtain ⟨cut, hcut⟩ := g.arrive_data seq syn fin data n
    have hlen : (g.arrive seq syn fin data n).data.length ≤ data.length := by
      rw [hcut, List.length_take]
      omega
    have hsound := arrive_sound hs hopen seq syn fin data
    have hstill : (g.arrive seq syn fin data n).pass.half.finConsumed = false := by
      rw [(g.arrive_remarked seq syn fin data n).half]
      exact hopen
    have hbound : extendSeq (payloadSeq seq syn) n +
        (g.arrive seq syn fin data n).data.length + d ≤ u64Max := by
      unfold u64Max
      omega
    refine ⟨Arrival.settle_shift hroom hsound hstill hbound ?_ tsNs lim, ?_⟩
    · intro hne hold
      have hall : extendSeq (payloadSeq seq syn) n + data.length ≤ n := by
        by_contra hnew
        have := arrive_new hidle hopen seq syn fin data (not_le.mp hnew) hne
        simp only [arrive_startAbs, arrive_expected] at hold
        omega
      simp only [arrive_expected]
      unfold u64Max
      omega
    · obtain ⟨⟨w₁, hstores, hpath⟩, -⟩ := Arrival.settle_trail
        (a := g.arrive seq syn fin data n) hsound hstill tsNs lim
      exact hpath.room (hstores.room hroom hbound)

theorem Room.recordAck (hr : h.Room d) (ackAbs expected : ℕ) :
    (h.recordAck ackAbs expected).Room d := by
  rw [recordAck_eq]
  exact ⟨hr.entries, hr.fin⟩

theorem acknowledge_shift (hi : h.Idle n) (hlo : initialSeqEpoch ≤ n) (hr : h.Room d)
    (hk : BitVec.ofNat 32 d = k) {ack : BitVec 32} (tsNs gapTimeoutNs : ℕ)
    (hmax : exactSeq (ack + k) (n + d) < 2 ^ 64) :
    (h.shift d k).acknowledge (ack + k) tsNs gapTimeoutNs =
      (h.acknowledge ack tsNs gapTimeoutNs).shift d k := by
  have hnext : (h.shift d k).nextAbs = some (n + d) := by simp [shift, hi.sound.next]
  have hs := hi.sound.recordAck (extendSeq ack n) n
  have hr' := hr.recordAck (extendSeq ack n) n
  simp only [acknowledge, hnext, hi.sound.next, extendSeq_shift hk ack hlo hmax, recordAck_shift]
  generalize h.recordAck (extendSeq ack n) n = g at hs hr' ⊢
  have hquiet : ((g.shift d k).outOfOrder.isEmpty = true ∧
      (g.shift d k).pendingFin.isNone = true) ↔
      (g.outOfOrder.isEmpty = true ∧ g.pendingFin.isNone = true) := by
    simp [shift]
  by_cases hq : g.outOfOrder.isEmpty = true ∧ g.pendingFin.isNone = true
  · rw [if_pos hq, if_pos (hquiet.mpr hq)]
    rfl
  · rw [if_neg hq, if_neg (hquiet.not.mpr hq)]
    have hack := Pass.recoverKnownAck_trail (w := { half := g }) hs
    obtain ⟨m, -, hm⟩ := hack.sound hs
    have hrest := Pass.rest_shift (k := k) hm (hack.room hr') gapTimeoutNs tsNs
    rw [← hrest, ← Pass.recoverKnownAck_shift hs hr']
    rfl

theorem finalize_shift (hi : h.Idle n) (hr : h.Room d) :
    (h.shift d k).finalize = h.finalize.shift d k := by
  have hloop := Pass.finalizeLoop_shift (k := k) (h.outOfOrder.size + 1) { half := h } n
    hi.sound hr
  have hroom := (Pass.finalizeLoop_trail (h.outOfOrder.size + 1) { half := h } n hi.sound).room hr
  have hsize : (h.shift d k).outOfOrder.size = h.outOfOrder.size :=
    Pass.shift_size (w := { half := h })
  have hhalf : ({ half := h.shift d k } : Pass) = Pass.shift d k { half := h } := rfl
  rw [finalize, finalize, hsize, hhalf, hloop, Pass.consumeFinIfReady_shift hroom,
    Pass.stamp_shift]

/-- What a call answers besides its outcome: the RST decision. -/
def decision (h : TcpHalf) : Call → Option Bool
  | .rstMatchesNext seq => some (h.rstMatchesNext seq)
  | _ => none

theorem rstMatchesNext_shift (hn : h.nextAbs = some n) (hlo : initialSeqEpoch ≤ n)
    (hk : BitVec.ofNat 32 d = k) {seq : BitVec 32}
    (hmax : exactSeq (seq + k) (n + d) < 2 ^ 64) :
    (h.shift d k).rstMatchesNext (seq + k) = h.rstMatchesNext seq := by
  have hnext : (h.shift d k).nextAbs = some (n + d) := by simp [shift, hn]
  simp only [rstMatchesNext, hnext, hn, extendSeq_shift hk seq hlo hmax]
  rw [Bool.eq_iff_iff]
  simp

/-- The step lemma: a call whose numbers are moved with the half moves the result. -/
theorem step_shift (hi : h.Idle n) (hlo : initialSeqEpoch ≤ n) (hr : h.Room d)
    (hk : BitVec.ofNat 32 d = k) {c : Call} (hfit : (h.shift d k).Fits (c.addSeq k)) :
    (h.shift d k).step (c.addSeq k) = (h.step c).shift d k ∧ (h.step c).half.Room d ∧
      (h.shift d k).decision (c.addSeq k) = h.decision c := by
  have hnext : (h.shift d k).nextAbs = some (n + d) := by simp [shift, hi.sound.next]
  cases c with
  | observe seq syn =>
      refine ⟨?_, (observe_noted hi.sound.next seq syn).room hr, rfl⟩
      simp only [step, Call.addSeq, observe_shift hi.sound.next]
      rfl
  | accept seq syn fin tsNs data lim =>
      obtain ⟨heq, hroom⟩ := accept_shift hi hlo hr hk hfit
      exact ⟨heq, hroom, rfl⟩
  | acknowledge ack tsNs gapTimeoutNs =>
      refine ⟨acknowledge_shift hi hlo hr hk _ _ (hfit _ hnext), ?_, rfl⟩
      exact (acknowledge_trail hi ack tsNs gapTimeoutNs).1.room (hr.recordAck _ _)
  | rstMatchesNext seq =>
      refine ⟨rfl, hr, ?_⟩
      simp only [decision, Call.addSeq]
      rw [rstMatchesNext_shift hi.sound.next hlo hk (hfit _ hnext)]
  | finalize tsNs => exact ⟨finalize_shift hi hr, (finalize_trail hi).1.room hr, rfl⟩

/-- The answers of a run of calls: outcomes and RST decisions. -/
def answers (h : TcpHalf) : List Call → List (ReassemblyOutcome × Option Bool)
  | [] => []
  | c :: cs => ((h.step c).out, h.decision c) :: (h.step c).half.answers cs

/-- The run lemma. -/
theorem answers_shift (hi : h.Idle n) (hlo : initialSeqEpoch ≤ n) (hr : h.Room d)
    (hk : BitVec.ofNat 32 d = k) {cs : List Call}
    (hfit : (h.shift d k).Along Fits (cs.map (Call.addSeq k))) :
    (h.shift d k).answers (cs.map (Call.addSeq k)) = h.answers cs := by
  induction cs generalizing h n with
  | nil => rfl
  | cons c cs ih =>
      obtain ⟨hc, hcs⟩ := hfit
      obtain ⟨heq, hroom, hrst⟩ := step_shift hi hlo hr hk hc
      obtain ⟨-, m, hnm, hm⟩ := hi.step c
      rw [heq] at hcs
      simp only [List.map_cons, answers, heq, hrst]
      congr 1
      exact ih hm (hlo.trans hnm) hroom hcs

/-! ## From the default half -/

theorem observe_fresh_shift (seq : BitVec 32) (syn : Bool) {d : ℕ}
    (hd : (payloadSeq (seq + k) syn).toNat = (payloadSeq seq syn).toNat + d) :
    ({} : TcpHalf).observe (seq + k) syn = (({} : TcpHalf).observe seq syn).shift d k := by
  cases syn <;> simp [observe, shift, hd, Nat.add_assoc]

theorem answers_primed (h : TcpHalf) (c : Call) (cs : List Call) :
    (h.primed c).answers (c :: cs) = h.answers (c :: cs) := by
  rw [answers, answers, step_primed]
  congr 2
  cases c <;> rfl

theorem fits_primed {h : TcpHalf} {c : Call} : (h.primed c).Fits c ↔ h.Fits c := by
  cases c with
  | accept seq syn fin tsNs data lim =>
      have hfin : (h.observe seq syn).finConsumed = h.finConsumed := by
        change (h.primed (.accept seq syn fin tsNs data lim)).finConsumed = _
        rw [primed_eq]
      simp only [Fits, primed, observe_observe, hfin]
  | observe seq syn => exact Iff.rfl
  | acknowledge ack tsNs gapTimeoutNs => exact Iff.rfl
  | rstMatchesNext seq => exact Iff.rfl
  | finalize tsNs => exact Iff.rfl

theorem along_fits_primed {h : TcpHalf} {c : Call} {cs : List Call} :
    (h.primed c).Along Fits (c :: cs) ↔ h.Along Fits (c :: cs) := by
  rw [Along, Along, step_primed, fits_primed]

theorem origin?_addSeq (k : BitVec 32) {c : Call} {o : ℕ} (hc : c.origin? = some o) :
    ∃ o', (c.addSeq k).origin? = some o' ∧ ∀ d, o' = o + d → BitVec.ofNat 32 d = k ∧
      ({} : TcpHalf).primed (c.addSeq k) = (({} : TcpHalf).primed c).shift d k := by
  have hcore : ∀ seq syn, ∀ d, initialSeqEpoch + (payloadSeq (seq + k) syn).toNat =
      initialSeqEpoch + (payloadSeq seq syn).toNat + d → BitVec.ofNat 32 d = k ∧
      ({} : TcpHalf).observe (seq + k) syn = (({} : TcpHalf).observe seq syn).shift d k := by
    intro seq syn d hd
    have hd' : (payloadSeq (seq + k) syn).toNat = (payloadSeq seq syn).toNat + d := by omega
    refine ⟨?_, observe_fresh_shift seq syn hd'⟩
    have hsum := congrArg (BitVec.ofNat 32) hd'
    rw [BitVec.ofNat_add, BitVec.ofNat_toNat, BitVec.ofNat_toNat, BitVec.setWidth_eq,
      BitVec.setWidth_eq, payloadSeq_add] at hsum
    exact (add_left_cancel hsum).symm
  cases c with
  | observe seq syn =>
      cases hc
      exact ⟨_, rfl, hcore seq syn⟩
  | accept seq syn fin tsNs data lim =>
      cases hc
      exact ⟨_, rfl, hcore seq syn⟩
  | acknowledge ack tsNs gapTimeoutNs => cases hc
  | rstMatchesNext seq => cases hc
  | finalize tsNs => cases hc

theorem addSeq_origin?_none {k : BitVec 32} {c : Call} (hc : c.origin? = none) :
    (c.addSeq k).origin? = none ∧
      ({} : TcpHalf).decision (c.addSeq k) = ({} : TcpHalf).decision c := by
  cases c <;> simp_all [Call.origin?, Call.addSeq, decision, rstMatchesNext]

theorem answers_addSeq_of_le (k : BitVec 32) (cs : List Call)
    (hle : ∀ o o', origin? cs = some o → origin? (cs.map (Call.addSeq k)) = some o' → o ≤ o')
    (hfit : ({} : TcpHalf).Along Fits (cs.map (Call.addSeq k))) :
    ({} : TcpHalf).answers (cs.map (Call.addSeq k)) = ({} : TcpHalf).answers cs := by
  induction cs with
  | nil => rfl
  | cons c cs ih =>
      cases hc : c.origin? with
      | none =>
          obtain ⟨hc', hdec⟩ := addSeq_origin?_none (k := k) hc
          obtain ⟨-, hcs⟩ := hfit
          rw [step_default hc'] at hcs
          simp only [List.map_cons, answers, step_default hc, step_default hc', hdec]
          congr 1
          refine ih (fun o o' ho ho' ↦ hle o o' ?_ ?_) hcs
          · simpa [origin?, hc] using ho
          · simpa [origin?, hc'] using ho'
      | some o =>
          obtain ⟨o', hc', hmove⟩ := origin?_addSeq k hc
          have hoo' : o ≤ o' := hle o o' (by simp [origin?, hc]) (by simp [origin?, hc'])
          obtain ⟨hk, hprime⟩ := hmove (o' - o) (by omega)
          have hidle := primed_idle_of_default hc
          have hlo : initialSeqEpoch ≤ o := by
            cases c <;> cases hc <;> exact Nat.le_add_right _ _
          have hroom : (({} : TcpHalf).primed c).Room (o' - o) := by
            rw [primed_eq]
            exact ⟨by simp, by simp⟩
          rw [List.map_cons] at hfit ⊢
          rw [← along_fits_primed, hprime] at hfit
          rw [← answers_primed, hprime, ← answers_primed {} c]
          rw [← List.map_cons] at hfit ⊢
          exact answers_shift hidle hlo hroom hk hfit

theorem addSeq_neg_addSeq (k : BitVec 32) (c : Call) : (c.addSeq k).addSeq (-k) = c := by
  cases c <;> simp [Call.addSeq, add_assoc]

/-- Adding `k` to all sequence and acknowledgement numbers of a trace changes no answer. -/
theorem answers_addSeq (k : BitVec 32) (cs : List Call)
    (hfit : ({} : TcpHalf).Along Fits cs)
    (hfit' : ({} : TcpHalf).Along Fits (cs.map (Call.addSeq k))) :
    ({} : TcpHalf).answers (cs.map (Call.addSeq k)) = ({} : TcpHalf).answers cs := by
  have hback : (cs.map (Call.addSeq k)).map (Call.addSeq (-k)) = cs := by
    simp [List.map_map, Function.comp_def, addSeq_neg_addSeq]
  by_cases hle : ∀ o o', origin? cs = some o → origin? (cs.map (Call.addSeq k)) = some o' → o ≤ o'
  · exact answers_addSeq_of_le k cs hle hfit'
  · -- The moved trace starts lower, so the original one is the moved one raised by `-k`.
    push Not at hle
    obtain ⟨o, o', ho, ho', hlt⟩ := hle
    have hup := answers_addSeq_of_le (-k) (cs.map (Call.addSeq k))
      (by
        rw [hback]
        intro a b ha hb
        obtain rfl := Option.some.inj (ho'.symm.trans ha)
        obtain rfl := Option.some.inj (ho.symm.trans hb)
        exact hlt.le)
      (by rwa [hback])
    rw [hback] at hup
    exact hup.symm

instance decidableFits (h : TcpHalf) : (c : Call) → Decidable (h.Fits c)
  | .observe _ _ => isTrue trivial
  | .accept seq syn fin _ data _ =>
      inferInstanceAs (Decidable (∀ n, (h.observe seq syn).nextAbs = some n →
        h.finConsumed = false →
        exactSeq (payloadSeq seq syn) n + data.length + fin.toNat < 2 ^ 64 ∧
          (exactSeq (payloadSeq seq syn) n + data.length ≤ n → n + data.length < 2 ^ 64)))
  | .acknowledge ack _ _ =>
      inferInstanceAs (Decidable (∀ n, h.nextAbs = some n → exactSeq ack n < 2 ^ 64))
  | .rstMatchesNext seq =>
      inferInstanceAs (Decidable (∀ n, h.nextAbs = some n → exactSeq seq n < 2 ^ 64))
  | .finalize _ => isTrue trivial

/-- A stream whose numbers pass `2 ^ 32`: an early segment waits behind a hole that the
acknowledgement turns into a gap, a reset is checked, and the FIN closes the half. -/
def wrappingRun : List Call :=
  [.observe 0xfffffffd#32 true,
    .accept 3#32 false false 10 [4, 5] ⟨8, 4, 100⟩,
    .accept 0xfffffffe#32 false false 20 [1, 2, 3] ⟨8, 4, 100⟩,
    .acknowledge 5#32 30 100,
    .rstMatchesNext 5#32,
    .accept 5#32 false true 40 [6] ⟨8, 4, 100⟩,
    .finalize 50]

theorem answers_addSeq_wrappingRun :
    ({} : TcpHalf).answers (wrappingRun.map (Call.addSeq 7#32)) =
        ({} : TcpHalf).answers wrappingRun ∧
      ((({} : TcpHalf).answers wrappingRun).map fun a ↦ a.1.emitted.map ReassembledChunk.offset) =
        [[], [], [0], [5], [], [7], []] :=
  ⟨answers_addSeq 7#32 wrappingRun (by decide +kernel) (by decide +kernel), by decide +kernel⟩

end TcpHalf

end Bazalt.Flow
