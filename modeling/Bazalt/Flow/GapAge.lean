import Bazalt.Flow.FirstSeen
import Bazalt.Flow.Rounds

/-!
# The age of a hole

`recoverOooTimeout` gives up on a hole by the age of one stamp.  The stamp is set when a hole is
first seen and renewed when a timeout uncovers the next one, but in-order data, ACK recovery and
pressure recovery move on to the next hole and leave the old stamp behind.
-/

namespace Bazalt.Flow

open Lib OrdMap

namespace Pass

/-! ## Who touches the stamp -/

/-- The stamp stays, unless the half is closed. -/
structure KeepsStamp (w w' : Pass) : Prop where
  closed : w.half.finConsumed = true → w'.half.finConsumed = true
  stamp : w'.half.finConsumed = true ∨ w'.half.gapStartedTsNs = w.half.gapStartedTsNs

theorem KeepsStamp.refl (w : Pass) : KeepsStamp w w := ⟨id, .inr rfl⟩

theorem KeepsStamp.trans {w w' w'' : Pass} (h : KeepsStamp w w') (h' : KeepsStamp w' w'') :
    KeepsStamp w w'' := by
  refine ⟨h'.closed ∘ h.closed, ?_⟩
  rcases h'.stamp with hclosed | hsame
  · exact .inl hclosed
  · rcases h.stamp with hclosed | hsame'
    · exact .inl (h'.closed hclosed)
    · exact .inr (hsame.trans hsame')

theorem KeepsStamp.of_eq {w w' : Pass} (hfin : w'.half.finConsumed = w.half.finConsumed)
    (hstamp : w'.half.gapStartedTsNs = w.half.gapStartedTsNs) : KeepsStamp w w' :=
  ⟨fun hclosed ↦ hfin.trans hclosed, .inr hstamp⟩

theorem consumeFinIfReady_keepsStamp (w : Pass) : KeepsStamp w w.consumeFinIfReady := by
  unfold consumeFinIfReady
  split_ifs
  · exact .refl w
  · split
    · split_ifs
      · exact .refl w
      · exact ⟨fun _ ↦ rfl, .inl rfl⟩
      · exact .refl w
    · exact .refl w

theorem emit_keepsStamp (w : Pass) (data : Bytes) (tsNs : ℕ) : KeepsStamp w (w.emit data tsNs) := by
  have hpush : KeepsStamp w (w.push data tsNs) := .of_eq rfl rfl
  unfold emit
  split_ifs
  · exact .refl w
  · exact hpush.trans (consumeFinIfReady_keepsStamp _)

theorem emitGapTo_keepsStamp (w : Pass) (target : ℕ) : KeepsStamp w (w.emitGapTo target) := by
  have hskip : ∀ expected target, KeepsStamp w (w.skipTo expected target) :=
    fun _ _ ↦ .of_eq rfl rfl
  unfold emitGapTo
  split
  · exact .refl w
  · simp only
    split_ifs
    · exact .refl w
    · exact (hskip _ _).trans (consumeFinIfReady_keepsStamp _)

theorem flushOooLoop_keepsStamp (fuel : ℕ) (w : Pass) : KeepsStamp w (flushOooLoop fuel w) := by
  induction fuel generalizing w with
  | zero => exact .refl w
  | succ fuel ih =>
      have hpop : ∀ segment, KeepsStamp w (w.popFirst segment) := fun _ ↦ .of_eq rfl rfl
      unfold flushOooLoop
      split_ifs
      · exact .refl w
      · split
        · split_ifs
          · exact .refl w
          · exact (hpop _).trans (ih _)
          · exact ((hpop _).trans (emit_keepsStamp _ _ _)).trans (ih _)
          · exact ((hpop _).trans (emit_keepsStamp _ _ _)).trans (ih _)
        · exact .refl w

theorem flushOoo_keepsStamp (w : Pass) : KeepsStamp w w.flushOoo := flushOooLoop_keepsStamp _ w

theorem gapIf_keepsStamp (w : Pass) (p : Prop) [Decidable p] (target : ℕ) :
    KeepsStamp w (if p then w.emitGapTo target else w) := by
  split_ifs
  · exact emitGapTo_keepsStamp w target
  · exact .refl w

theorem recoverKnownAckRound_keepsStamp (w : Pass) (ack : ℕ) :
    KeepsStamp w (w.recoverKnownAckRound ack).1 := by
  unfold recoverKnownAckRound
  split
  · exact .refl w
  · split_ifs
    · exact .refl w
    · split
      · split
        · split_ifs
          · exact (emitGapTo_keepsStamp w _).trans (consumeFinIfReady_keepsStamp _)
          · exact .refl w
        · exact .refl w
      · simp only
        split_ifs
        · exact emitGapTo_keepsStamp w _
        · exact (emitGapTo_keepsStamp w _).trans (flushOoo_keepsStamp _)
        · exact .refl w
        · exact flushOoo_keepsStamp w

theorem recoverKnownAckLoop_keepsStamp (ack fuel : ℕ) (w : Pass) :
    KeepsStamp w (recoverKnownAckLoop ack fuel w) := by
  induction fuel generalizing w with
  | zero => exact .refl w
  | succ fuel ih =>
      have hround := recoverKnownAckRound_keepsStamp w ack
      unfold recoverKnownAckLoop
      generalize w.recoverKnownAckRound ack = r at hround ⊢
      obtain ⟨w', goes⟩ := r
      cases goes with
      | true => exact hround.trans (ih w')
      | false => exact hround

theorem recoverKnownAck_keepsStamp (w : Pass) : KeepsStamp w w.recoverKnownAck := by
  unfold recoverKnownAck
  split
  · exact .refl w
  · exact recoverKnownAckLoop_keepsStamp _ _ w

theorem recoverOooPressureLoop_keepsStamp (maxOoo maxSegments fuel : ℕ) (w : Pass) :
    KeepsStamp w (recoverOooPressureLoop maxOoo maxSegments fuel w) := by
  induction fuel generalizing w with
  | zero => exact .refl w
  | succ fuel ih =>
      unfold recoverOooPressureLoop
      split_ifs
      · split
        · rename_i first segment expected hfirst hnext
          have hflush := (gapIf_keepsStamp w (expected < first) first).trans (flushOoo_keepsStamp _)
          simp only
          generalize (if expected < first then w.emitGapTo first else w) = gapped at hflush ⊢
          split_ifs
          · exact hflush
          · exact hflush.trans (ih _)
        · exact .refl w
      · exact .refl w

theorem recover_keepsStamp (w : Pass) (maxOoo maxSegments : ℕ) :
    KeepsStamp w (w.recoverKnownAck.recoverOooPressure maxOoo maxSegments) :=
  (recoverKnownAck_keepsStamp w).trans (recoverOooPressureLoop_keepsStamp _ _ _ _)

theorem Inserts.keepsStamp {w w' : Pass} {lo hi : ℕ} {new : ℕ → UInt8 → Prop}
    (h : Inserts w w' lo hi new) : KeepsStamp w w' :=
  .of_eq (by rw [h.half]) (by rw [h.half])

theorem acceptContiguous_keepsStamp {w : Pass} (hb : w.half.Buffered) (start expected tsNs : ℕ)
    (data : Bytes) : KeepsStamp w (w.acceptContiguous start expected tsNs data).1 := by
  unfold acceptContiguous
  have hmark : KeepsStamp w (if start < expected then w.markRetransmit else w) := by
    split_ifs
    · exact .of_eq rfl rfl
    · exact .refl w
  have hbuffered : (if start < expected then w.markRetransmit else w).half.Buffered := by
    split_ifs
    · exact hb
    · exact hb
  generalize (if start < expected then w.markRetransmit else w) = w₀ at hmark hbuffered ⊢
  simp only
  split_ifs
  all_goals first
    | exact hmark.trans (emit_keepsStamp _ _ _)
    | exact hmark.trans ((insertOooFirstSeen_inserts hbuffered _ _ _).keepsStamp.trans
        (flushOoo_keepsStamp _))
    | exact hmark

theorem acceptData_keepsStamp {w : Pass} (hb : w.half.Buffered) (start expected tsNs : ℕ)
    (data : Bytes) (lim : Limits) : KeepsStamp w (w.acceptData start expected tsNs data lim) := by
  unfold acceptData
  simp only
  split_ifs
  · exact .refl w
  · have hins := insertOooFirstSeen_inserts
      (w := { w with out := { w.out with outOfOrder := true } }) hb start tsNs data
    have hahead : KeepsStamp w (w.acceptAhead start tsNs data) :=
      ⟨hins.keepsStamp.closed, hins.keepsStamp.stamp⟩
    exact hahead.trans (recover_keepsStamp _ _ _)
  · have hcontiguous := acceptContiguous_keepsStamp hb start expected tsNs data
    split
    · rename_i w' heq
      rw [heq] at hcontiguous
      exact hcontiguous.trans (recover_keepsStamp _ _ _)
    · rename_i w' heq
      rw [heq] at hcontiguous
      exact hcontiguous

/-! ## What a timeout does -/

/-- There is a hole before the first buffered segment. -/
def Holed (w : Pass) : Prop := ∃ n ∈ w.half.nextAbs, ∃ e ∈ w.half.outOfOrder.first?, n < e.1

instance (w : Pass) : Decidable w.Holed :=
  inferInstanceAs (Decidable (∃ n ∈ w.half.nextAbs, ∃ e ∈ w.half.outOfOrder.first?, _))

theorem consumeFinIfReady_gaps (w : Pass) : w.consumeFinIfReady.out.gaps = w.out.gaps := by
  unfold consumeFinIfReady
  split_ifs
  · rfl
  · split
    · split_ifs <;> rfl
    · rfl

theorem emit_gaps (w : Pass) (data : Bytes) (tsNs : ℕ) :
    (w.emit data tsNs).out.gaps = w.out.gaps := by
  unfold emit
  split_ifs
  · rfl
  · exact consumeFinIfReady_gaps _

theorem flushOooLoop_gaps (fuel : ℕ) (w : Pass) :
    (flushOooLoop fuel w).out.gaps = w.out.gaps := by
  induction fuel generalizing w with
  | zero => rfl
  | succ fuel ih =>
      unfold flushOooLoop
      split_ifs
      · rfl
      · split
        · split_ifs
          · rfl
          · exact ih _
          · exact (ih _).trans (emit_gaps _ _ _)
          · exact (ih _).trans (emit_gaps _ _ _)
        · rfl

/-- A gap is declared only behind a stamp that is old enough. -/
theorem recoverOooTimeout_gaps {w : Pass} {maxAgeNs tsNs : ℕ}
    (hgaps : (w.recoverOooTimeout maxAgeNs tsNs).out.gaps ≠ w.out.gaps) :
    w.Holed ∧ ∃ started, w.half.gapStartedTsNs = some started ∧ maxAgeNs ≤ tsNs - started := by
  unfold recoverOooTimeout at hgaps
  split at hgaps
  · rename_i expected first segment hnext hfirst
    split_ifs at hgaps with hle
    · exact absurd (flushOooLoop_gaps _ _) hgaps
    · refine ⟨⟨expected, hnext, (first, segment), hfirst, not_le.mp hle⟩, ?_⟩
      split at hgaps
      · exact absurd rfl hgaps
      · rename_i started hstamp
        split_ifs at hgaps with hyoung
        · exact absurd rfl hgaps
        · exact ⟨started, hstamp, not_lt.mp hyoung⟩
  · exact absurd rfl hgaps

/-- What `recoverOooTimeout` leaves behind: no stamp, a new one, or everything as it was. -/
theorem recoverOooTimeout_stamp (w : Pass) (maxAgeNs tsNs : ℕ) :
    let w' := w.recoverOooTimeout maxAgeNs tsNs
    w'.half.finConsumed = true ∨ w'.half.gapStartedTsNs = none ∨
      w'.half.gapStartedTsNs = some tsNs ∧ w'.half.outOfOrder.entries ≠ [] ∨
      w' = w ∧ w.Holed := by
  intro w'
  change (w.recoverOooTimeout maxAgeNs tsNs).half.finConsumed = true ∨ _ ∨ _ ∨ _
  unfold w' recoverOooTimeout
  split
  · rename_i expected first segment hnext hfirst
    split_ifs with hle
    · rcases (flushOoo_keepsStamp (w.stamp none)).stamp with hclosed | hsame
      · exact .inl hclosed
      · exact .inr (.inl hsame)
    · split
      · refine .inr (.inr (.inl ⟨rfl, ?_⟩))
        exact List.ne_nil_of_mem (mem_of_first? hfirst)
      · split_ifs with hyoung
        · exact .inr (.inr (.inr ⟨rfl, expected, hnext, (first, segment), hfirst, not_le.mp hle⟩))
        · simp only
          split
          · rename_i next segment' expected' hfirst' hnext'
            split_ifs
            · refine .inr (.inr (.inl ⟨rfl, ?_⟩))
              exact List.ne_nil_of_mem (mem_of_first? hfirst')
            · exact .inr (.inl rfl)
          · exact .inr (.inl rfl)
  · exact .inr (.inl rfl)

theorem Holed.entries_ne_nil {w : Pass} (h : w.Holed) : w.half.outOfOrder.entries ≠ [] := by
  obtain ⟨n, -, e, he, -⟩ := h
  exact List.ne_nil_of_mem (mem_of_first? he)

end Pass

/-! ## The entry of a call -/

/-- The state in which a call enters `recoverOooTimeout`, and the arguments. -/
structure Entry where
  pass : Pass
  maxAgeNs : ℕ
  tsNs : ℕ

def Entry.leave (e : Entry) : Pass := (e.pass.recoverOooTimeout e.maxAgeNs e.tsNs).consumeFinIfReady

/-- The timeout declares a gap, at the next expected byte. -/
def Entry.Declares (e : Entry) (p : ℕ) : Prop :=
  e.pass.half.nextAbs = some p ∧
    (e.pass.recoverOooTimeout e.maxAgeNs e.tsNs).out.gaps ≠ e.pass.out.gaps

instance (e : Entry) (p : ℕ) : Decidable (e.Declares p) := inferInstanceAs (Decidable (_ ∧ _ ≠ _))

def Arrival.entry (a : Arrival) (tsNs : ℕ) (lim : Limits) : Entry :=
  let w := a.pass.acceptData a.startAbs a.expected tsNs a.data lim
  ⟨if w.half.pendingFin.isSome ∧ ¬ w.half.finConsumed then w.recoverKnownAck else w,
    lim.gapTimeoutNs, tsNs⟩

namespace TcpHalf

/-- How a call comes to `recoverOooTimeout`, if it does. -/
def entryOf (h : TcpHalf) : Call → Option Entry
  | .accept seq syn fin tsNs data lim =>
      let h := h.observe seq syn
      if h.finConsumed then none
      else h.nextAbs.map fun expected ↦ (h.arrive seq syn fin data expected).entry tsNs lim
  | .acknowledge ack tsNs gapTimeoutNs =>
      match h.nextAbs with
      | none => none
      | some expected =>
          let h := h.recordAck (extendSeq ack expected) expected
          if h.outOfOrder.isEmpty ∧ h.pendingFin.isNone then none
          else some ⟨({ half := h } : Pass).recoverKnownAck, gapTimeoutNs, tsNs⟩
  | _ => none

end TcpHalf

/-- The clock reading that a call hands to `recoverOooTimeout`. -/
def Call.time? : Call → Option ℕ
  | .accept _ _ _ tsNs _ _ => some tsNs
  | .acknowledge _ tsNs _ => some tsNs
  | _ => none

namespace TcpHalf

/-- A call that comes to `recoverOooTimeout` ends there, and has not touched the stamp before. -/
theorem entry_spec {h : TcpHalf} {n : ℕ} (hi : h.Idle n) {c : Call} (hc : h.primed c = h) {e : Entry}
    (he : h.entryOf c = some e) : (∃ m, e.pass.half.Sound m) ∧
      Pass.KeepsStamp { half := h } e.pass ∧ h.step c = e.leave ∧ c.time? = some e.tsNs := by
  cases c with
  | observe seq syn => cases he
  | rstMatchesNext seq => cases he
  | finalize tsNs => cases he
  | acknowledge ack tsNs gapTimeoutNs =>
      have hs := hi.sound.recordAck (extendSeq ack n) n
      have hrecord : Pass.KeepsStamp { half := h } { half := h.recordAck (extendSeq ack n) n } := by
        rw [recordAck_eq]
        exact .of_eq rfl rfl
      simp only [entryOf, step, acknowledge, hi.sound.next] at he ⊢
      generalize h.recordAck (extendSeq ack n) n = h₀ at he hs hrecord ⊢
      split_ifs at he ⊢ with hquiet
      · obtain rfl := Option.some.inj he
        obtain ⟨m, -, hm⟩ := (Pass.recoverKnownAck_trail (w := { half := h₀ }) hs).sound hs
        exact ⟨⟨m, hm⟩, hrecord.trans (Pass.recoverKnownAck_keepsStamp _), rfl, rfl⟩
  | accept seq syn fin tsNs data lim =>
      have hobs : h.observe seq syn = h := hc
      simp only [entryOf, step, accept, hobs, hi.sound.next, Option.map_some] at he ⊢
      split_ifs at he ⊢ with hfin
      · have hfin' : h.finConsumed = false := by simpa using hfin
        have hs := arrive_sound hi.sound hfin' seq syn fin data
        have hopen : (h.arrive seq syn fin data n).pass.half.finConsumed = false := by
          rw [(h.arrive_remarked seq syn fin data n).half]
          exact hfin'
        have harrive : Pass.KeepsStamp { half := h } (h.arrive seq syn fin data n).pass := by
          refine .of_eq ?_ ?_
          · rw [(h.arrive_remarked seq syn fin data n).half]
          · rw [(h.arrive_remarked seq syn fin data n).half]
        obtain ⟨w₁, hstores, htrail⟩ := Pass.acceptData_trail hs hopen
          (h.arrive seq syn fin data n).startAbs tsNs (h.arrive seq syn fin data n).data lim
        obtain ⟨n₁, -, h₁⟩ := hstores.sound hs hopen
        obtain ⟨n₂, -, h₂⟩ := htrail.sound h₁
        have hdata := Pass.acceptData_keepsStamp hs.buffered
          (h.arrive seq syn fin data n).startAbs n tsNs (h.arrive seq syn fin data n).data lim
        obtain rfl := Option.some.inj he
        have hack := (Pass.recoverKnownAck_trail h₂).sound h₂
        refine ⟨?_, (harrive.trans hdata).trans ?_, rfl, rfl⟩
        · simp only [Arrival.entry]
          split_ifs
          · obtain ⟨m, -, hm⟩ := hack
            exact ⟨m, hm⟩
          · exact ⟨n₂, h₂⟩
        · simp only [Arrival.entry]
          split_ifs
          · exact Pass.recoverKnownAck_keepsStamp _
          · exact .refl _

/-- A call that does not come to `recoverOooTimeout` drops the stamp, or leaves the hole as it
is. -/
theorem step_of_no_entry {h : TcpHalf} {n : ℕ} (hi : h.Idle n) {c : Call} (hc : h.primed c = h)
    (he : h.entryOf c = none) : (h.step c).half.finConsumed = true ∨
      (h.step c).half.gapStartedTsNs = none ∨
      (h.step c).half.finConsumed = h.finConsumed ∧
        (h.step c).half.gapStartedTsNs = h.gapStartedTsNs ∧
        (h.step c).half.nextAbs = h.nextAbs := by
  cases c with
  | observe seq syn =>
      have hsame : (h.step (.observe seq syn)).half = h := hc
      rw [hsame]
      exact .inr (.inr ⟨rfl, rfl, rfl⟩)
  | rstMatchesNext seq => exact .inr (.inr ⟨rfl, rfl, rfl⟩)
  | finalize tsNs => exact .inr (.inl rfl)
  | acknowledge ack tsNs gapTimeoutNs =>
      simp only [entryOf, step, acknowledge, hi.sound.next] at he ⊢
      split_ifs at he ⊢
      · rw [recordAck_eq]
        exact .inr (.inr ⟨rfl, rfl, hi.sound.next⟩)
  | accept seq syn fin tsNs data lim =>
      have hobs : h.observe seq syn = h := hc
      simp only [entryOf, step, accept, hobs, hi.sound.next, Option.map_some] at he ⊢
      split_ifs at he ⊢ with hfin
      · exact .inl hfin

theorem entryOf_primed (h : TcpHalf) (c : Call) : (h.primed c).entryOf c = h.entryOf c := by
  cases c with
  | accept seq syn fin tsNs data lim => simp only [entryOf, primed, observe_observe]
  | observe seq syn => rfl
  | acknowledge ack tsNs gapTimeoutNs => rfl
  | rstMatchesNext seq => rfl
  | finalize tsNs => rfl

theorem Settled.primed {h : TcpHalf} (hs : h.Settled) (c : Call) :
    h = {} ∧ c.origin? = none ∨
      (∃ n, (h.primed c).Idle n) ∧ (h = {} ∨ (h.primed c).nextAbs = h.nextAbs) := by
  rcases hs with rfl | ⟨n, hi⟩
  · cases hc : c.origin? with
    | none => exact .inl ⟨rfl, rfl⟩
    | some o => exact .inr ⟨⟨o, primed_idle_of_default hc⟩, .inl rfl⟩
  · obtain ⟨hi', hnoted⟩ := hi.primed c
    exact .inr ⟨⟨n, hi'⟩, .inr (by rw [hnoted])⟩

theorem Settled.entry_spec {h : TcpHalf} (hs : h.Settled) {c : Call} {e : Entry}
    (he : h.entryOf c = some e) : (∃ m, e.pass.half.Sound m) ∧
      Pass.KeepsStamp { half := h } e.pass ∧ h.step c = e.leave ∧ c.time? = some e.tsNs := by
  rcases hs.primed c with ⟨rfl, hc⟩ | ⟨⟨n, hi⟩, -⟩
  · cases c with
    | accept seq syn fin tsNs data lim => cases hc
    | observe seq syn => cases he
    | acknowledge ack tsNs gapTimeoutNs => cases he
    | rstMatchesNext seq => cases he
    | finalize tsNs => cases he
  · obtain ⟨hsound, hkeeps, hstep, htime⟩ :=
      TcpHalf.entry_spec hi (primed_primed h c) ((entryOf_primed h c).trans he)
    rw [step_primed] at hstep
    have hprimed : Pass.KeepsStamp { half := h } { half := h.primed c } := by
      rw [primed_eq]
      exact .of_eq rfl rfl
    exact ⟨hsound, hprimed.trans hkeeps, hstep, htime⟩

theorem Settled.step_of_no_entry {h : TcpHalf} (hs : h.Settled) {c : Call}
    (he : h.entryOf c = none) : (h.step c).half.finConsumed = true ∨
      (h.step c).half.gapStartedTsNs = none ∨
      (h.step c).half.finConsumed = h.finConsumed ∧
        (h.step c).half.gapStartedTsNs = h.gapStartedTsNs ∧
        (h.step c).half.nextAbs = h.nextAbs := by
  rcases hs.primed c with ⟨rfl, hc⟩ | ⟨⟨n, hi⟩, hnext⟩
  · rw [step_default hc]
    exact .inr (.inl rfl)
  · have hstep := TcpHalf.step_of_no_entry hi (primed_primed h c) ((entryOf_primed h c).trans he)
    rw [step_primed] at hstep
    have hfin : (h.primed c).finConsumed = h.finConsumed := by rw [primed_eq]
    have hstamp : (h.primed c).gapStartedTsNs = h.gapStartedTsNs := by rw [primed_eq]
    rw [hfin, hstamp] at hstep
    rcases hstep with hclosed | hnone | ⟨hfin', hstamp', hnext'⟩
    · exact .inl hclosed
    · exact .inr (.inl hnone)
    · rcases hnext with rfl | hnext
      · exact .inr (.inl hstamp')
      · exact .inr (.inr ⟨hfin', hstamp', hnext'.trans hnext⟩)

/-! ## Runs -/

/-- A call does not take an old stamp over to another hole: it comes to `recoverOooTimeout` without
a hole or a stamp, expecting the byte that the call before left off at, or with a stamp of the
same instant that is not old enough yet. -/
def StampKept (h : TcpHalf) (c : Call) : Prop :=
  ∀ e ∈ h.entryOf c, e.pass.Holed → ∀ started ∈ e.pass.half.gapStartedTsNs,
    e.pass.half.nextAbs = h.nextAbs ∨ started = e.tsNs ∧ 0 < e.maxAgeNs

instance (h : TcpHalf) (c : Call) : Decidable (h.StampKept c) :=
  inferInstanceAs (Decidable (∀ e ∈ h.entryOf c, e.pass.Holed →
    ∀ started ∈ e.pass.half.gapStartedTsNs, _ ∨ _ ∧ _))

/-- Some call of the run, at time `t` or before, ended with `p` expected and bytes buffered. -/
def HoleSince (cs : List Call) (p : Option ℕ) (t : ℕ) : Prop :=
  ∃ as c bs t', cs = as ++ c :: bs ∧ c.time? = some t' ∧ t' ≤ t ∧
    (({} : TcpHalf).after (as ++ [c])).nextAbs = p ∧
    (({} : TcpHalf).after (as ++ [c])).outOfOrder.entries ≠ []

theorem HoleSince.snoc {cs : List Call} {p : Option ℕ} {t : ℕ} (h : HoleSince cs p t) (c : Call) :
    HoleSince (cs ++ [c]) p t := by
  obtain ⟨as, d, bs, t', rfl, hd⟩ := h
  exact ⟨as, d, bs ++ [c], t', by simp, hd⟩

/-- The stamp is not older than the hole. -/
def Aged (cs : List Call) : Prop :=
  (({} : TcpHalf).after cs).finConsumed = false → ∀ s,
    (({} : TcpHalf).after cs).gapStartedTsNs = some s →
    HoleSince cs (({} : TcpHalf).after cs).nextAbs s

/-- The step lemma. -/
theorem Aged.step {as : List Call} {c : Call} (ha : Aged as)
    (hkept : (({} : TcpHalf).after as).StampKept c) : Aged (as ++ [c]) := by
  intro hopen s hs
  have hsettled := settled_after as
  cases he : (({} : TcpHalf).after as).entryOf c with
  | none =>
      have hstep := hsettled.step_of_no_entry he
      rw [← after_snoc] at hstep
      rcases hstep with hclosed | hnone | ⟨hfin, hstamp, hnext⟩
      · simp [hclosed] at hopen
      · simp [hnone] at hs
      · rw [hnext]
        exact (ha (hfin.symm.trans hopen) s (hstamp.symm.trans hs)).snoc c
  | some e =>
      obtain ⟨⟨m, hm⟩, hkeeps, hstep, htime⟩ := hsettled.entry_spec he
      have hafter : ({} : TcpHalf).after (as ++ [c]) = e.leave.half := by rw [after_snoc, hstep]
      have hleave : e.leave = e.pass.recoverOooTimeout e.maxAgeNs e.tsNs := by
        obtain ⟨k, -, hk⟩ := (Pass.recoverOooTimeout_trail hm e.maxAgeNs e.tsNs).sound hm
        rcases Pass.consumeFinIfReady_waits hk with ⟨f, -, -, -, heq⟩ | ⟨heq, -⟩
        · rw [hafter, Entry.leave, heq] at hopen
          cases hopen
        · exact heq
      have hnow : s = e.tsNs → (({} : TcpHalf).after (as ++ [c])).outOfOrder.entries ≠ [] →
          HoleSince (as ++ [c]) (({} : TcpHalf).after (as ++ [c])).nextAbs s :=
        fun heq hne ↦ ⟨as, c, [], e.tsNs, rfl, htime, heq.ge, rfl, hne⟩
      have hcases := e.pass.recoverOooTimeout_stamp e.maxAgeNs e.tsNs
      simp only [← hleave, ← hafter] at hcases
      rcases hcases with hclosed | hnone | ⟨hstamp, hne⟩ | ⟨heq, hholed⟩
      · simp [hclosed] at hopen
      · simp [hnone] at hs
      · exact hnow (Option.some.inj (hs.symm.trans hstamp)) hne
      · rw [heq] at hafter
        rw [hafter] at hs hopen
        have hne : (({} : TcpHalf).after (as ++ [c])).outOfOrder.entries ≠ [] := by
          rw [hafter]
          exact hholed.entries_ne_nil
        rcases hkept e he hholed s hs with hsame | ⟨hnow', -⟩
        · have hstamp := hkeeps.stamp.resolve_left (by simp [hopen])
          have hopen' : (({} : TcpHalf).after as).finConsumed = false := by
            by_contra hclosed
            simp [hkeeps.closed (eq_true_of_ne_false hclosed)] at hopen
          rw [hafter, hsame]
          exact (ha hopen' s (hstamp.symm.trans hs)).snoc c
        · exact hnow hnow' hne

theorem aged_of_stampKept {cs : List Call} (hkept : ({} : TcpHalf).Along StampKept cs) : Aged cs := by
  induction cs using List.reverseRecOn with
  | nil => exact fun _ s hs ↦ absurd hs (by simp [after])
  | append_singleton as c ih =>
      obtain ⟨has, hc⟩ := along_append.mp hkept
      exact (ih has).step hc.1

end TcpHalf

/-- The clock does not go back. -/
def Timely (cs : List Call) : Prop :=
  cs.Pairwise fun a b ↦ ∀ s ∈ a.time?, ∀ t ∈ b.time?, s ≤ t

instance (cs : List Call) : Decidable (Timely cs) :=
  inferInstanceAs (Decidable (cs.Pairwise fun a b ↦ ∀ s ∈ a.time?, ∀ t ∈ b.time?, s ≤ t))

/-- A timeout declares a gap only at a byte that was expected, with a hole behind it, at the end
of a call its whole age earlier. -/
def FullTimeouts (cs : List Call) : Prop :=
  ∀ as c bs e p, cs = as ++ c :: bs → (({} : TcpHalf).after as).entryOf c = some e →
    e.Declares p → ∃ t, t + e.maxAgeNs ≤ e.tsNs ∧ TcpHalf.HoleSince as (some p) t

/-- In runs in which no stamp is taken over to another hole, every hole is given its whole
timeout. -/
theorem fullTimeouts_of_stampKept (cs : List Call) (htimely : Timely cs)
    (hkept : ({} : TcpHalf).Along TcpHalf.StampKept cs) : FullTimeouts cs := by
  rintro as c bs e p rfl he ⟨hnext, hgaps⟩
  obtain ⟨has, hc, -⟩ := TcpHalf.along_append.mp hkept
  obtain ⟨⟨m, hm⟩, hkeeps, -, htime⟩ := (TcpHalf.settled_after as).entry_spec he
  obtain ⟨hholed, started, hstamp, hage⟩ := Pass.recoverOooTimeout_gaps hgaps
  have hopen : e.pass.half.finConsumed = false := by
    by_contra hclosed
    exact hholed.entries_ne_nil (hm.closed (eq_true_of_ne_false hclosed))
  have hopen' : (({} : TcpHalf).after as).finConsumed = false := by
    by_contra hclosed
    simp [hkeeps.closed (eq_true_of_ne_false hclosed)] at hopen
  have hstamp' := (hkeeps.stamp.resolve_left (by simp [hopen])).symm.trans hstamp
  obtain hsame | ⟨rfl, hpos⟩ := hc e he hholed started hstamp
  · obtain ⟨as', d, bs', t, rfl, hd, ht, hhole⟩ :=
      TcpHalf.aged_of_stampKept has hopen' started hstamp'
    rw [← hsame, hnext] at hhole
    refine ⟨t, ?_, as', d, bs', t, rfl, hd, le_rfl, hhole⟩
    -- without an age the clock alone orders the two calls
    have hbefore : t ≤ e.tsNs := by
      have hpair := (List.pairwise_append.mp htimely).2.2 d (by simp) c (by simp)
      exact hpair t hd e.tsNs htime
    omega
  · omega

/-- A hole that times out, and another one behind it that does later. -/
def keptStampRun : List Call :=
  [.accept 100 false false 0 [1, 2, 3, 4] ⟨64, 8, 100⟩,
    .accept 108 false false 10 [9, 10, 11, 12] ⟨64, 8, 100⟩,
    .accept 116 false false 20 [17, 18] ⟨64, 8, 100⟩,
    .acknowledge (BitVec.ofNat 32 104) 115 100, .acknowledge (BitVec.ofNat 32 104) 220 100]

theorem fullTimeouts_keptStampRun : Timely keptStampRun ∧
    declaredGaps (({} : TcpHalf).outcomes keptStampRun) = [(4, 4), (12, 4)] ∧
      FullTimeouts keptStampRun :=
  ⟨by decide, by decide, fullTimeouts_of_stampKept keptStampRun (by decide) (by decide)⟩

/-- Two holes, the first of them filled after its timeout. -/
def staleStampRun : List Call :=
  [.accept 100 false false 0 [1, 2, 3, 4] ⟨64, 8, 100⟩,
    .accept 108 false false 10 [9, 10, 11, 12] ⟨64, 8, 100⟩,
    .accept 116 false false 20 [17, 18] ⟨64, 8, 100⟩,
    .accept 104 false false 110 [5, 6, 7, 8] ⟨64, 8, 100⟩]

/-- The second hole is declared a gap in the call that uncovers it. -/
theorem not_fullTimeouts_staleStampRun : Timely staleStampRun ∧ ¬ FullTimeouts staleStampRun := by
  refine ⟨by decide, fun hfull ↦ ?_⟩
  have hdeclares : ∀ e ∈ (({} : TcpHalf).after (staleStampRun.take 3)).entryOf
      (.accept 104 false false 110 [5, 6, 7, 8] ⟨64, 8, 100⟩), e.Declares (2 ^ 32 + 112) := by decide
  obtain ⟨e, he⟩ := Option.isSome_iff_exists.mp
    (show ((({} : TcpHalf).after (staleStampRun.take 3)).entryOf
      (.accept 104 false false 110 [5, 6, 7, 8] ⟨64, 8, 100⟩)).isSome by decide)
  obtain ⟨t, -, as, d, bs, t', hsplit, -, -, hnext, -⟩ := hfull _ _ [] e _ rfl he (hdeclares e he)
  -- none of the first three calls ended there
  have hpre : as ++ [d] = (staleStampRun.take 3).take (as.length + 1) := by
    have hcons : as ++ d :: bs = as ++ [d] ++ bs := by simp
    rw [hsplit, hcons, List.take_left' (by simp)]
  have hlen : as.length + 1 ≤ 3 := by
    have := congrArg List.length hsplit
    simp [staleStampRun] at this
    omega
  have hnone : ∀ k ≤ 3, (({} : TcpHalf).after ((staleStampRun.take 3).take k)).nextAbs ≠
      some (2 ^ 32 + 112) := by decide
  exact hnone _ hlen (hpre ▸ hnext)

end Bazalt.Flow
