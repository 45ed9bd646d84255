import Bazalt.Flow.Buffer

/-!
# Recovery steps

`flushOoo`, the three recovery loops, `finalize` and FIN consumption only ever do
five things to a half: emit the first buffered segment, drop a buffered segment
that is already behind, declare a gap, close at the FIN, and move the gap clock.
`Micro` lists them with the conditions under which they happen, and every loop is
a path of such steps.
-/

namespace Bazalt.Flow

open Lib OrdMap

/-- What holds of a half in the middle of a call, when `n` is expected next: no
buffered segment reaches over `n`, and nothing is buffered once FIN is consumed. -/
structure TcpHalf.Sound (h : TcpHalf) (n : ℕ) : Prop where
  next : h.nextAbs = some n
  buffered : h.Buffered
  le : n ≤ u64Max
  offset_le : h.streamOffset ≤ n
  fin_le : ∀ fin, h.pendingFin = some fin → fin ≤ u64Max
  sides : ∀ e ∈ h.outOfOrder.entries, n ≤ e.1 ∨ e.1 + e.2.data.length ≤ n
  closed : h.finConsumed = true → h.outOfOrder.entries = []
  past : h.finConsumed = true → ∀ fin, h.pendingFin = some fin → fin ≤ n

/-- All buffered segments are ahead of `n`. -/
def TcpHalf.Ahead (h : TcpHalf) (n : ℕ) : Prop :=
  ∀ e ∈ h.outOfOrder.entries, n < e.1

namespace Pass

inductive Micro : Pass → Pass → Prop
  | chunk {w : Pass} {n : ℕ} {segment : BufferedSegment} :
      w.half.finConsumed = false → w.half.nextAbs = some n →
      w.half.outOfOrder.first? = some (n, segment) →
      Micro w ((w.popFirst segment).push segment.data segment.tsNs)
  | drop {w : Pass} {n k : ℕ} {segment : BufferedSegment} :
      w.half.finConsumed = false → w.half.nextAbs = some n →
      w.half.outOfOrder.first? = some (k, segment) → k + segment.data.length ≤ n →
      Micro w (w.popFirst segment)
  | gap {w : Pass} {n target : ℕ} :
      w.half.finConsumed = false → w.half.nextAbs = some n → n < target →
      (∀ fin, w.half.pendingFin = some fin → target ≤ fin) →
      (∀ e ∈ w.half.outOfOrder.entries, target ≤ e.1) →
      (w.half.outOfOrder.entries ≠ [] ∨ w.half.pendingFin ≠ none) →
      Micro w (w.skipTo n target)
  | close {w : Pass} {fin n : ℕ} :
      w.half.finConsumed = false → w.half.pendingFin = some fin →
      w.half.nextAbs = some n → fin ≤ n →
      (fin = n → w.half.pendingFinRequiresAck = true → w.half.acked fin = true) →
      Micro w (w.closeAt fin n)
  | stamp (w : Pass) (ts : Option ℕ) : Micro w (w.stamp ts)

abbrev Path : Pass → Pass → Prop := Relation.ReflTransGen Micro

/-! ## The buffer invariant along a path -/

theorem popFirst_buffered {w : Pass} {e : ℕ × BufferedSegment} (hb : w.half.Buffered)
    (hf : w.half.outOfOrder.first? = some e) : (w.popFirst e.2).half.Buffered := by
  refine ⟨hb.tidy.tail, fun a ha ↦ hb.bound a (List.mem_of_mem_tail ha), ?_⟩
  have htotal : total BufferedSegment.data w.half.outOfOrder =
      e.2.data.length + total BufferedSegment.data w.half.outOfOrder.tail := total_tail hf
  change w.half.outOfOrderBytes - e.2.data.length = _
  rw [hb.bytes, htotal]
  exact Nat.add_sub_cancel_left ..

end Pass

/-- What is expected after the first segment, when it was expected. -/
theorem TcpHalf.Sound.chunk_next {w : Pass} {n : ℕ} {segment : BufferedSegment}
    (h : w.half.Sound n) (hfirst : w.half.outOfOrder.first? = some (n, segment)) :
    ((w.popFirst segment).push segment.data segment.tsNs).half.nextAbs =
      some (n + segment.data.length) := by
  change w.half.nextAbs.map _ = _
  rw [h.next, Option.map_some, satAdd_of_le (h.buffered.bound _ (mem_of_first? hfirst))]

namespace Pass

theorem Micro.sound {w w' : Pass} (hs : Micro w w') {n : ℕ} (h : w.half.Sound n) :
    ∃ n', n ≤ n' ∧ w'.half.Sound n' := by
  cases hs with
  | @chunk m segment hfin hnext hfirst =>
      obtain rfl : n = m := Option.some.inj (h.next.symm.trans hnext)
      have hbound := h.buffered.bound _ (mem_of_first? hfirst)
      have hb := popFirst_buffered h.buffered hfirst
      refine ⟨n + segment.data.length, by omega, h.chunk_next hfirst,
        ⟨hb.tidy, hb.bound, hb.bytes⟩, hbound, ?_, h.fin_le, ?_, ?_, ?_⟩
      · exact (satAdd_le_add _ _).trans (Nat.add_le_add_right h.offset_le _)
      · intro e he
        exact .inl (h.buffered.tidy.first?_end_le hfirst he)
      · exact fun hc ↦ absurd hc (by simp [push, popFirst, hfin])
      · exact fun hc ↦ absurd hc (by simp [push, popFirst, hfin])
  | @drop m k segment hfin hnext hfirst hle =>
      refine ⟨n, le_rfl, h.next, popFirst_buffered h.buffered hfirst, h.le, h.offset_le,
        h.fin_le, ?_, ?_, ?_⟩
      · exact fun e he ↦ h.sides e (List.mem_of_mem_tail he)
      · exact fun hc ↦ absurd hc (by simp [popFirst, hfin])
      · exact fun hc ↦ absurd hc (by simp [popFirst, hfin])
  | @gap m target hfin hnext hlt hclip hahead hland =>
      obtain rfl : n = m := Option.some.inj (h.next.symm.trans hnext)
      have hmax : target ≤ u64Max := by
        rcases hland with hne | hne
        · obtain ⟨e, he⟩ := List.exists_mem_of_ne_nil _ hne
          have := h.buffered.bound e he
          have := hahead e he
          omega
        · obtain ⟨fin, hf⟩ := Option.ne_none_iff_exists'.mp hne
          exact (hclip fin hf).trans (h.fin_le fin hf)
      have hb := h.buffered
      refine ⟨target, hlt.le, rfl, ⟨hb.tidy, hb.bound, hb.bytes⟩, hmax, ?_, h.fin_le,
        fun e he ↦ .inl (hahead e he), h.closed, ?_⟩
      · have hoff := h.offset_le
        exact (satAdd_le_add _ _).trans (by omega)
      · exact fun hc ↦ absurd hc (by simp [skipTo, hfin])
  | @close fin m hfin hpend hnext hle hack =>
      obtain rfl : n = m := Option.some.inj (h.next.symm.trans hnext)
      have hmax := h.le
      have hge : n ≤ if fin = n then satAdd n 1 else n := by
        split_ifs
        · exact le_satAdd hmax
        · exact le_rfl
      refine ⟨_, hge, rfl, ⟨tidy_empty, ?_, rfl⟩, ?_, h.offset_le.trans hge,
        h.fin_le, ?_, fun _ ↦ rfl, ?_⟩
      · exact fun e he ↦ absurd he (by simp [closeAt])
      · split_ifs
        · exact satAdd_le _ _
        · exact hmax
      · exact fun e he ↦ absurd he (by simp [closeAt])
      · intro _ f hf
        obtain rfl : fin = f := Option.some.inj (hpend.symm.trans hf)
        exact hle.trans hge
  | stamp ts =>
      have hb := h.buffered
      exact ⟨n, le_rfl, h.next, ⟨hb.tidy, hb.bound, hb.bytes⟩, h.le, h.offset_le, h.fin_le,
        h.sides, h.closed, h.past⟩

theorem Path.sound {w w' : Pass} (hp : Path w w') {n : ℕ} (h : w.half.Sound n) :
    ∃ n', n ≤ n' ∧ w'.half.Sound n' := by
  induction hp with
  | refl => exact ⟨n, le_rfl, h⟩
  | tail _ hs ih =>
      obtain ⟨m, hnm, hm⟩ := ih
      obtain ⟨k, hmk, hk⟩ := hs.sound hm
      exact ⟨k, hnm.trans hmk, hk⟩

theorem Micro.size_le {w w' : Pass} (hs : Micro w w') :
    w'.half.outOfOrder.size ≤ w.half.outOfOrder.size := by
  cases hs with
  | chunk => simp [push, popFirst, OrdMap.size]
  | drop => simp [popFirst, OrdMap.size]
  | gap => exact le_rfl
  | close => simp [closeAt, OrdMap.size]
  | stamp ts => exact le_rfl

theorem Path.size_le {w w' : Pass} (hp : Path w w') :
    w'.half.outOfOrder.size ≤ w.half.outOfOrder.size := by
  induction hp with
  | refl => exact le_rfl
  | tail _ hs ih => exact hs.size_le.trans ih

/-! ## Every recovery function is a path -/

theorem consumeFinIfReady_path (w : Pass) : Path w w.consumeFinIfReady := by
  unfold consumeFinIfReady
  split_ifs with hfin
  · exact .refl
  · have hfin' : w.half.finConsumed = false := by simpa using hfin
    split
    · rename_i fin next hpend hnext
      split_ifs with hle hwait
      · exact .refl
      · refine .single (.close hfin' hpend hnext hle ?_)
        intro heq hreq
        by_contra hna
        exact hwait ⟨heq, hreq, hna⟩
      · exact .refl
    · exact .refl

/-- The steps as the code takes them: it looks for a FIN that is ready after every emission and
every gap. -/
inductive Move : Pass → Pass → Prop
  | chunk {w : Pass} {n : ℕ} {segment : BufferedSegment} :
      w.half.finConsumed = false → w.half.nextAbs = some n →
      w.half.outOfOrder.first? = some (n, segment) →
      Move w ((w.popFirst segment).push segment.data segment.tsNs).consumeFinIfReady
  | drop {w : Pass} {n k : ℕ} {segment : BufferedSegment} :
      w.half.finConsumed = false → w.half.nextAbs = some n →
      w.half.outOfOrder.first? = some (k, segment) → k + segment.data.length ≤ n →
      Move w (w.popFirst segment)
  | gap {w : Pass} {n target : ℕ} :
      w.half.finConsumed = false → w.half.nextAbs = some n → n < target →
      (∀ fin, w.half.pendingFin = some fin → target ≤ fin) →
      (∀ e ∈ w.half.outOfOrder.entries, target ≤ e.1) →
      (w.half.outOfOrder.entries ≠ [] ∨ w.half.pendingFin ≠ none) →
      Move w (w.skipTo n target).consumeFinIfReady
  | fin (w : Pass) : Move w w.consumeFinIfReady
  | stamp (w : Pass) (ts : Option ℕ) : Move w (w.stamp ts)

abbrev Trail : Pass → Pass → Prop := Relation.ReflTransGen Move

theorem Move.path {w w' : Pass} (hm : Move w w') : Path w w' := by
  cases hm with
  | chunk hfin hnext hfirst => exact .head (.chunk hfin hnext hfirst) (consumeFinIfReady_path _)
  | drop hfin hnext hfirst hle => exact .single (.drop hfin hnext hfirst hle)
  | gap hfin hnext hlt hclip hahead hland =>
      exact .head (.gap hfin hnext hlt hclip hahead hland) (consumeFinIfReady_path _)
  | fin => exact consumeFinIfReady_path w
  | stamp ts => exact .single (.stamp w ts)

theorem Trail.path {w w' : Pass} (ht : Trail w w') : Path w w' := by
  induction ht with
  | refl => exact .refl
  | tail _ hm ih => exact ih.trans hm.path

theorem Trail.sound {w w' : Pass} (ht : Trail w w') {n : ℕ} (h : w.half.Sound n) :
    ∃ n', n ≤ n' ∧ w'.half.Sound n' :=
  ht.path.sound h

theorem emitGapTo_trail {w : Pass} {target : ℕ} (hfin : w.half.finConsumed = false)
    (hahead : ∀ e ∈ w.half.outOfOrder.entries, target ≤ e.1)
    (hland : w.half.outOfOrder.entries ≠ [] ∨ w.half.pendingFin ≠ none) :
    Trail w (w.emitGapTo target) := by
  unfold emitGapTo
  split
  · exact .refl
  · rename_i expected hnext
    cases hpend : w.half.pendingFin with
    | none =>
        simp only
        split_ifs with hle
        · exact .refl
        · refine .single (.gap hfin hnext (by omega) ?_ hahead hland)
          simp [hpend]
    | some fin =>
        simp only
        split_ifs with hle
        · exact .refl
        · refine .single (.gap hfin hnext (by omega) ?_ ?_ hland)
          · intro f hf
            have : fin = f := Option.some.inj (hpend.symm.trans hf)
            omega
          · intro e he
            have := hahead e he
            omega

theorem popFirst_size {w : Pass} {e : ℕ × BufferedSegment}
    (hfirst : w.half.outOfOrder.first? = some e) :
    (w.popFirst e.2).half.outOfOrder.size + 1 = w.half.outOfOrder.size := by
  obtain ⟨es, hes⟩ := first?_eq_some.mp hfirst
  simp [popFirst, OrdMap.size, hes]

theorem emit_of_ne_nil (w : Pass) {data : Bytes} (tsNs : ℕ) (hne : data ≠ []) :
    w.emit data tsNs = (w.push data tsNs).consumeFinIfReady := by
  rw [emit, if_neg (by simpa using hne)]

/-- One round of the flush loop that goes on: a trail that removes a segment. -/
theorem flushOooLoop_succ {w : Pass} {n : ℕ} (h : w.half.Sound n) (fuel : ℕ) :
    flushOooLoop (fuel + 1) w = w ∧ w.half.Ahead n ∨
      ∃ w', Trail w w' ∧ w'.half.outOfOrder.size < w.half.outOfOrder.size ∧
        flushOooLoop (fuel + 1) w = flushOooLoop fuel w' := by
  rw [flushOooLoop.eq_2]
  split_ifs with hfin
  · refine .inl ⟨rfl, ?_⟩
    simp [TcpHalf.Ahead, h.closed hfin]
  · have hfin' : w.half.finConsumed = false := by simpa using hfin
    rw [h.next]
    cases hfirst : w.half.outOfOrder.first? with
    | none => exact .inl ⟨rfl, by simp [TcpHalf.Ahead, first?_eq_none.mp hfirst]⟩
    | some e =>
        obtain ⟨k, segment⟩ := e
        have hmem := mem_of_first? hfirst
        have hpos : 0 < segment.data.length := h.buffered.tidy.length_pos hmem
        have hside : n ≤ k ∨ k + segment.data.length ≤ n := h.sides _ hmem
        have hsize : (w.popFirst segment).half.outOfOrder.size + 1 = w.half.outOfOrder.size :=
          popFirst_size hfirst
        simp only
        split_ifs with hlt hgt hover
        · refine .inl ⟨rfl, fun e he ↦ ?_⟩
          exact hlt.trans_le (first?_le hfirst he)
        · refine .inr ⟨_, .single (.drop hfin' h.next hfirst (by omega)), by omega, rfl⟩
        · omega
        · obtain rfl : n = k := by omega
          rw [emit_of_ne_nil _ _ (List.length_pos_iff.mp hpos)]
          have hle := Path.size_le
            (consumeFinIfReady_path ((w.popFirst segment).push segment.data segment.tsNs))
          refine .inr ⟨_, .single (.chunk hfin' h.next hfirst), ?_, rfl⟩
          exact hle.trans_lt (by simpa [push] using hsize.le)

theorem flushOooLoop_trail (fuel : ℕ) : ∀ (w : Pass) (n : ℕ), w.half.Sound n →
    Trail w (flushOooLoop fuel w) := by
  induction fuel with
  | zero => exact fun w n _ ↦ .refl
  | succ fuel ih =>
      intro w n h
      rcases flushOooLoop_succ h fuel with ⟨heq, -⟩ | ⟨w', hp, -, heq⟩
      · rw [heq]
      · obtain ⟨n', -, h'⟩ := hp.sound h
        rw [heq]
        exact hp.trans (ih w' n' h')

/-- With fuel for every segment the loop stops by its own test: what stays buffered
is ahead. -/
theorem flushOooLoop_ahead (fuel : ℕ) : ∀ (w : Pass) (n : ℕ), w.half.Sound n →
    w.half.outOfOrder.size < fuel → ∀ n', (flushOooLoop fuel w).half.nextAbs = some n' →
      (flushOooLoop fuel w).half.Ahead n' := by
  induction fuel with
  | zero => intro w n _ hf; omega
  | succ fuel ih =>
      intro w n h hf n' hn'
      rcases flushOooLoop_succ h fuel with ⟨heq, hahead⟩ | ⟨w', hp, hlt, heq⟩
      · rw [heq] at hn' ⊢
        obtain rfl : n = n' := Option.some.inj (h.next.symm.trans hn')
        exact hahead
      · obtain ⟨m, -, h'⟩ := hp.sound h
        rw [heq] at hn' ⊢
        exact ih w' m h' (by omega) n' hn'

theorem flushOoo_trail {w : Pass} {n : ℕ} (h : w.half.Sound n) : Trail w w.flushOoo :=
  flushOooLoop_trail _ w n h

theorem flushOoo_ahead {w : Pass} {n n' : ℕ} (h : w.half.Sound n)
    (h' : w.flushOoo.half.Sound n') : w.flushOoo.half.Ahead n' :=
  flushOooLoop_ahead _ w n h (Nat.lt_succ_self _) n' h'.next

/-- A gap up to the first buffered segment, or short of it. -/
theorem gapToFirst_trail {w : Pass} {n target : ℕ} {e : ℕ × BufferedSegment}
    (h : w.half.Sound n) (hfirst : w.half.outOfOrder.first? = some e) (hle : target ≤ e.1) :
    Trail w (if n < e.1 then w.emitGapTo target else w) := by
  split_ifs
  · have hne : w.half.outOfOrder.entries ≠ [] := List.ne_nil_of_mem (mem_of_first? hfirst)
    refine emitGapTo_trail ?_ (fun a ha ↦ hle.trans (first?_le hfirst ha)) (.inl hne)
    by_contra hfin
    exact hne (h.closed (by simpa using hfin))
  · exact .refl

theorem recoverKnownAckRound_trail {w : Pass} {n : ℕ} (h : w.half.Sound n) (ack : ℕ) :
    Trail w (w.recoverKnownAckRound ack).1 := by
  unfold recoverKnownAckRound
  rw [h.next]
  simp only
  split_ifs with hack
  · exact .refl
  · cases hfirst : w.half.outOfOrder.first? with
    | none =>
        simp only
        cases hpend : w.half.pendingFin with
        | none => exact .refl
        | some fin =>
            simp only
            split_ifs with hbetween
            · have hfin : w.half.finConsumed = false := by
                by_contra hc
                have := h.past (by simpa using hc) fin hpend
                omega
              have hnil := first?_eq_none.mp hfirst
              have hgap : Trail w (w.emitGapTo fin) :=
                emitGapTo_trail hfin (by simp [hnil]) (.inr (by simp [hpend]))
              exact hgap.tail (.fin _)
            · exact .refl
    | some e =>
        have hgap := gapToFirst_trail h hfirst (Nat.min_le_left e.1 ack)
        simp only
        generalize (if n < e.1 then w.emitGapTo (min e.1 ack) else w) = gapped at hgap ⊢
        obtain ⟨n', -, h'⟩ := hgap.sound h
        split
        · exact hgap
        · exact hgap.trans (flushOoo_trail h')

theorem recoverKnownAckLoop_trail (ack fuel : ℕ) : ∀ (w : Pass) (n : ℕ), w.half.Sound n →
    Trail w (recoverKnownAckLoop ack fuel w) := by
  induction fuel with
  | zero => exact fun w n _ ↦ .refl
  | succ fuel ih =>
      intro w n h
      have hround := recoverKnownAckRound_trail h ack
      unfold recoverKnownAckLoop
      split
      · rename_i w' heq
        rw [heq] at hround
        obtain ⟨n', -, h'⟩ := hround.sound h
        exact hround.trans (ih w' n' h')
      · rename_i w' heq
        rwa [heq] at hround

theorem recoverKnownAck_trail {w : Pass} {n : ℕ} (h : w.half.Sound n) :
    Trail w w.recoverKnownAck := by
  unfold recoverKnownAck
  split
  · exact .refl
  · exact recoverKnownAckLoop_trail _ _ w n h

theorem recoverOooPressureLoop_trail (maxOoo maxSegments fuel : ℕ) :
    ∀ (w : Pass) (n : ℕ), w.half.Sound n →
      Trail w (recoverOooPressureLoop maxOoo maxSegments fuel w) := by
  induction fuel with
  | zero => exact fun w n _ ↦ .refl
  | succ fuel ih =>
      intro w n h
      unfold recoverOooPressureLoop
      split_ifs with hover
      · rw [h.next]
        cases hfirst : w.half.outOfOrder.first? with
        | none => exact .refl
        | some e =>
            have hgap := gapToFirst_trail h hfirst le_rfl
            simp only
            generalize (if n < e.1 then w.emitGapTo e.1 else w) = gapped at hgap ⊢
            obtain ⟨n', -, h'⟩ := hgap.sound h
            have hflush := hgap.trans (flushOoo_trail h')
            obtain ⟨n'', -, h''⟩ := Trail.sound hflush h
            split
            · exact hflush
            · exact hflush.trans (ih _ n'' h'')
      · exact .refl

theorem recoverOooPressure_trail {w : Pass} {n : ℕ} (h : w.half.Sound n)
    (maxOoo maxSegments : ℕ) : Trail w (w.recoverOooPressure maxOoo maxSegments) :=
  recoverOooPressureLoop_trail _ _ _ w n h

theorem finalizeLoop_trail (fuel : ℕ) : ∀ (w : Pass) (n : ℕ), w.half.Sound n →
    Trail w (finalizeLoop fuel w) := by
  induction fuel with
  | zero => exact fun w n _ ↦ .refl
  | succ fuel ih =>
      intro w n h
      unfold finalizeLoop
      rw [h.next]
      cases hfirst : w.half.outOfOrder.first? with
      | none => exact .refl
      | some e =>
          have hgap := gapToFirst_trail h hfirst le_rfl
          simp only
          generalize (if n < e.1 then w.emitGapTo e.1 else w) = gapped at hgap ⊢
          obtain ⟨n', -, h'⟩ := hgap.sound h
          have hflush := hgap.trans (flushOoo_trail h')
          obtain ⟨n'', -, h''⟩ := Trail.sound hflush h
          split
          · exact hflush
          · exact hflush.trans (ih _ n'' h'')

theorem recoverOooTimeout_trail {w : Pass} {n : ℕ} (h : w.half.Sound n)
    (maxAgeNs tsNs : ℕ) : Trail w (w.recoverOooTimeout maxAgeNs tsNs) := by
  unfold recoverOooTimeout
  rw [h.next]
  cases hfirst : w.half.outOfOrder.first? with
  | none => exact .single (.stamp w none)
  | some e =>
      simp only
      split_ifs with hle
      · have hstamp : Trail w (w.stamp none) := .single (.stamp w none)
        obtain ⟨n', -, h'⟩ := hstamp.sound h
        exact hstamp.trans (flushOoo_trail h')
      · cases hstart : w.half.gapStartedTsNs with
        | none => exact .single (.stamp w _)
        | some started =>
            simp only
            split_ifs with hage
            · exact .refl
            · have hgap : Trail w (w.emitGapTo e.1) := by
                have := gapToFirst_trail h hfirst le_rfl
                rwa [if_pos (by omega)] at this
              obtain ⟨n', -, h'⟩ := hgap.sound h
              have hflush := (hgap.trans (flushOoo_trail h')).tail (.stamp _ none)
              split
              · split_ifs
                · exact hflush.tail (.stamp _ _)
                · exact hflush
              · exact hflush

end Pass

end Bazalt.Flow
